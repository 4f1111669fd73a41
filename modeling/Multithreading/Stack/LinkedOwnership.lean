import Multithreading.Stack.LinkedRefinement

/-!
# `LockFreeSPSCStack` with one consumer

With any number of producers and one consumer the node that the consumer has as `oldHead` stays
allocated until the consumer deletes it, because nobody else deletes nodes. So no allocation
returns its address, every run meets the guard of the refinement, and no step uses a deleted node.

## Main results

* `LinkedStack.runIf_safeAlloc` — with one consumer every run has safe allocations.
* `LinkedStack.linkedStack_refines` — the atomic stack explains every run.
* `LinkedStack.linkedStack_ownership` — who owns the allocated nodes, no fault, and the
  destructor.
-/

open Transition Memory

namespace Multithreading.Stack.LinkedStack

variable {ι α : Type*}

/-- Whether a thread is inside `Pop`. -/
def Local.popping : Local α → Bool
  | .popLoad | .popNext _ | .popCas _ _ | .popTake _ | .popDelete _ _ | .popped _ => true
  | _ => false

/-- Only the threads with `mayPop` are inside `Pop`, and a node that a pop has as `oldHead` is
allocated. -/
structure Exclusive (mayPop : ι → Bool) (c : Config ι (Shared α) (Local α)) : Prop where
  mayPop : ∀ i, (c.threads i).popping = true → mayPop i = true
  old_live : ∀ i a, (c.threads i).oldHead = some a → c.shared.live a = true

theorem Exclusive.safeAlloc {mayPop : ι → Bool} {residue : α → α}
    {c : Config ι (Shared α) (Local α)} (h : Exclusive mayPop c) {i : ι} {x : Action α}
    {sh' : Shared α} {l' : Local α} {es : List (Event ι α)}
    (hmove : Move residue mayPop i c.shared x (c.threads i) sh' l' es) : SafeAlloc c (i, x) := by
  intro a ha j hj
  generalize c.threads i = l at hmove
  cases hmove with
  | alloc b v hfree =>
    obtain rfl : b = a := Option.some.inj ha
    exact absurd (h.old_live j b hj) (by simp [hfree])
  | _ => exact absurd ha (by simp [Action.allocated])

theorem Move.popping {mayPop : ι → Bool} {residue : α → α} {i : ι} {x : Action α}
    {sh sh' : Shared α} {l l' : Local α} {es : List (Event ι α)}
    (hmove : Move residue mayPop i sh x l sh' l' es) (h : l'.popping = true) :
    l.popping = true ∨ mayPop i = true := by
  cases hmove with
  | callPop hpop => exact .inr hpop
  | popLoad | popNext | popWin | popLose | popTake | popDelete => exact .inl rfl
  | _ => exact absurd h (by simp [Local.popping])

theorem Move.live {mayPop : ι → Bool} {residue : α → α} {i : ι} {x : Action α}
    {sh sh' : Shared α} {l l' : Local α} {es : List (Event ι α)}
    (hmove : Move residue mayPop i sh x l sh' l' es) {a : Addr} (ha : sh.live a = true) :
    sh'.live a = true ∨ ∃ v, l = .popDelete a v := by
  cases hmove with
  | alloc b v hfree => exact .inl ((sh.new_live b a v).mpr (.inr ha))
  | popDelete b v =>
    by_cases hab : a = b
    · exact .inr ⟨v, by rw [hab]⟩
    · exact .inl ((sh.delete_live b a).mpr ⟨hab, ha⟩)
  | _ => exact .inl ha

theorem Move.oldHead {mayPop : ι → Bool} {residue : α → α} {i : ι} {x : Action α}
    {sh sh' : Shared α} {l l' : Local α} {es : List (Event ι α)}
    (hmove : Move residue mayPop i sh x l sh' l' es) {a : Addr} (ha : l'.oldHead = some a) :
    sh'.live = sh.live ∧ (l.oldHead = some a ∨ sh.mHead = some a) := by
  cases hmove with
  | popLoad | popLose =>
    cases hhead : sh.mHead with
    | none => exact absurd ha (by simp [hhead, Local.ofHead, Local.oldHead])
    | some b => exact ⟨rfl, .inr (by simpa [hhead, Local.ofHead, Local.oldHead] using ha)⟩
  | popNext b => exact ⟨rfl, .inl ha⟩
  | _ => exact absurd ha (by simp [Local.oldHead])

variable [DecidableEq ι]

theorem Exclusive.move {mayPop : ι → Bool} {residue : α → α} {c : Config ι (Shared α) (Local α)}
    {t : AtomicStack.State ι α} {chain : List Addr} (h : Exclusive mayPop c)
    (hspells : Spells c t chain) (hone : ∀ i j, mayPop i = true → mayPop j = true → i = j)
    {i : ι} {x : Action α} {sh' : Shared α} {l' : Local α} {es : List (Event ι α)}
    (hmove : Move residue mayPop i c.shared x (c.threads i) sh' l' es) :
    Exclusive mayPop (c.set i sh' l') where
  mayPop := by
    refine c.forall_set i sh' l' (P := fun j l => l.popping = true → mayPop j = true)
      (fun hl => ?_) fun j _ => h.mayPop j
    exact (hmove.popping hl).elim (h.mayPop i) id
  old_live := by
    refine c.forall_set i sh' l' (P := fun _ l => ∀ a, l.oldHead = some a → sh'.live a = true)
      (fun a ha => ?_) fun j hji a ha => ?_
    · obtain ⟨hlive, hi | hhead⟩ := hmove.oldHead ha
      · rw [hlive]
        exact h.old_live i a hi
      · obtain ⟨rest, rfl, -⟩ := (hhead ▸ hspells.linked).eq_cons
        rw [hlive]
        exact hspells.live_of_mem List.mem_cons_self
    · refine (hmove.live (h.old_live j a ha)).resolve_right ?_
      rintro ⟨v, hi⟩
      refine hji (hone j i (h.mayPop j ?_) (h.mayPop i (by rw [hi]; rfl)))
      cases hj : c.threads j <;> simp_all [Local.oldHead, Local.popping]

/-! ### Faults -/

omit [DecidableEq ι] in
theorem Shared.use_eq_nil {sh : Shared α} {a : Addr} (ha : sh.live a = true) (i : ι) (f : Fault) :
    sh.use i a f = [] := by
  simp [use, ha]

omit [DecidableEq ι] in
theorem fault_notMem_sawHead (i j : ι) (f : Fault) (p : Option Addr) :
    (Event.fault j f : Event ι α) ∉ sawHead i p := by
  cases p <;> simp [sawHead]

omit [DecidableEq ι] in
/-- With one consumer a move uses allocated nodes only. -/
theorem Exclusive.fault_notMem {mayPop : ι → Bool} {residue : α → α}
    {c : Config ι (Shared α) (Local α)} {t : AtomicStack.State ι α} {chain : List Addr}
    (h : Exclusive mayPop c) (hspells : Spells c t chain) {i : ι} {x : Action α}
    {sh' : Shared α} {l' : Local α} {es : List (Event ι α)}
    (hmove : Move residue mayPop i c.shared x (c.threads i) sh' l' es) (j : ι) (f : Fault) :
    Event.fault j f ∉ es := by
  have hold := h.old_live i
  have hown := fun a => hspells.live_of_owned (i := i) (a := a)
  generalize c.threads i = l at hmove hold hown
  cases hmove with
  | pushLink n => simp [Shared.use_eq_nil (hown n rfl)]
  | pushWin _ n => simp [Shared.use_eq_nil (hown n rfl)]
  | pushLose _ n => simp [Shared.use_eq_nil (hown n rfl), fault_ne_casFailure]
  | popNext a => simp [Shared.use_eq_nil (hold a rfl)]
  | popTake a => simp [Shared.use_eq_nil (hown a rfl)]
  | popDelete a => simp [Shared.use_eq_nil (hown a rfl)]
  | popLoad => simp [fault_notMem_sawHead]
  | popLose => simp [fault_notMem_sawHead, fault_ne_casFailure]
  | _ => simp

/-! ### Runs -/

variable {residue : α → α} {raw : Addr → Node α} {consumer : ι}
  {c : Config ι (Shared α) (Local α)} {h : List (Event ι α)}

/-- **With one consumer every run has safe allocations**, the consumer is exclusive, and no step
uses a node that is not allocated. -/
theorem runIf_safeAlloc
    (hrun : (linkedStack residue raw (· = consumer)).Run
      (linkedStack residue raw (· = consumer)).init h c) :
    (linkedStack residue raw (· = consumer)).RunIf SafeAlloc
        (linkedStack residue raw (· = consumer)).init h c ∧
      Exclusive (· = consumer) c ∧ ∀ j f, Event.fault j f ∉ h := by
  refine hrun.invariant (fun c h => (linkedStack residue raw (· = consumer)).RunIf SafeAlloc
    (linkedStack residue raw (· = consumer)).init h c ∧ Exclusive (· = consumer) c ∧
      ∀ j f, Event.fault j f ∉ h) ⟨.refl, ⟨?_, ?_⟩, by simp⟩ ?_
  · intro i hi
    exact absurd hi (by simp [linkedStack, Local.popping])
  · intro i a hi
    exact absurd hi (by simp [linkedStack, Local.oldHead])
  · rintro h c c' es ⟨i, x⟩ - ⟨hsafe, hexcl, hfault⟩ - hnext
    obtain ⟨t, -, chain, hspells⟩ := exists_spells hsafe
    obtain ⟨sh', l', hstep, rfl⟩ := interleave_next_eq_some.mp hnext
    have hmove := move_of_step hstep
    refine ⟨hsafe.tail (i, x) (hexcl.safeAlloc hmove) hnext, hexcl.move hspells ?_ hmove, ?_⟩
    · intro j k hj hk
      rw [of_decide_eq_true hj, of_decide_eq_true hk]
    · intro j f hmem
      rcases List.mem_append.mp hmem with hmem | hmem
      · exact hfault j f hmem
      · exact hexcl.fault_notMem hspells hmove j f hmem

/-! ### Refinement -/

/-- **Any number of producers and one consumer refine the atomic stack.** The history of every run
is a history of the atomic stack. The chain from `m_head` spells the list stored by the history,
which changes only where a compare-and-swap succeeds. A pop that returns a value has removed it
from the front of the list, and a pop that returns nothing has seen the empty list, at an instant
between its call and its return. No value is lost or duplicated. -/
theorem linkedStack_refines [Fintype ι]
    (hrun : (linkedStack residue raw (· = consumer)).Run
      (linkedStack residue raw (· = consumer)).init h c) :
    ∃ t chain,
      (atomicStack ι α none).Run (atomicStack ι α none).init h t ∧
      Linked (fun a => (c.shared.node a).next) c.shared.mHead chain ∧
      (chain.map fun a => (c.shared.node a).data) = stored h ∧
      (∀ pre i v post, h = pre ++ .ret i (.popped (some v)) :: post →
        ∃ pre' mid rest, pre = pre' ++ .popped i :: mid ∧ stored pre' = v :: rest ∧
          ∀ e ∈ mid, ¬ e.BoundaryOf i) ∧
      (∀ pre i post, h = pre ++ .ret i (.popped none) :: post →
        ∃ pre' mid, pre = pre' ++ .empty i :: mid ∧ stored pre' = [] ∧
          ∀ e ∈ mid, ¬ e.BoundaryOf i) ∧
      (pushedValues h : Multiset α) =
        returnedValues h + t.census AtomicStack.Pending.held + stored h := by
  obtain ⟨t, ht, chain, hspells⟩ := exists_spells (runIf_safeAlloc hrun).1
  have hstored := AtomicStack.shared_eq_stored ht
  refine ⟨t, chain, ht, hspells.linked, hspells.items.symm.trans hstored, ?_, ?_, ?_⟩
  · rintro pre i v post rfl
    exact AtomicStack.ret_popped_some ht
  · rintro pre i post rfl
    exact AtomicStack.ret_popped_none ht
  · rw [AtomicStack.conservation ht, hstored]

/-- Two producers and a consumer of integers. -/
abbrev producersConsumer : Machine (Config (Fin 3) (Shared ℕ) (Local ℕ)) (Fin 3 × Action ℕ)
    (Event (Fin 3) ℕ) :=
  linkedStack id (fun _ => ⟨0, none⟩) (· = Fin.last 2)

/-- A producer links its node to the head, which the consumer pops and deletes and the other
producer allocates and pushes again, before the compare-and-swap that succeeds. Then the other
producer loses a compare-and-swap and tries again. -/
def reusedHead : List (Fin 3 × Action ℕ) :=
  List.flatten [pushAlone 1 1 0, [(0, .call (.push 2)), (0, .alloc 1), (0, .tau), (0, .tau)],
    popAlone 2, pushAlone 1 3 0, [(0, .cas false), (0, .tau)],
    [(1, .call (.push 4)), (1, .alloc 2), (1, .tau), (1, .tau)], pushAlone 0 5 3,
    [(1, .cas false), (1, .tau), (1, .cas false), (1, .tau)]]

/-- Two producers push onto a head with a reused address, one of them after a failed
compare-and-swap, and the consumer pops all values. -/
theorem linkedStack_refines_reused_head : ∃ c h t,
    producersConsumer.Run producersConsumer.init h c ∧ Event.failed 1 ∈ h ∧
      returnedValues h = [1, 4, 5, 2, 3] ∧
      (atomicStack (Fin 3) ℕ none).Run (atomicStack (Fin 3) ℕ none).init h t ∧
      (pushedValues h : Multiset ℕ) =
        returnedValues h + t.census AtomicStack.Pending.held + stored h := by
  obtain ⟨c, h, hrun, hread⟩ := Machine.exists_run_of_exec (M := producersConsumer)
    (reusedHead ++ (List.replicate 4 (popAlone 2)).flatten)
    (f := fun r => (returnedValues r.2, decide (Event.failed 1 ∈ r.2)))
    (b := ([1, 4, 5, 2, 3], true)) (by decide)
  obtain ⟨hret, hfailed⟩ := Prod.mk.inj hread
  obtain ⟨t, -, ht, -, -, -, -, hvalues⟩ := linkedStack_refines hrun
  exact ⟨c, h, t, hrun, of_decide_eq_true hfailed, hret, ht, hvalues⟩

/-! ### Ownership and the destructor -/

omit [DecidableEq ι] in
/-- The destructor's loop deletes the nodes of the chain, in order, in as many rounds. -/
theorem destroyLoop_eq (sh : Shared α) {p : Option Addr} {chain : List Addr}
    (hlinked : Linked (fun a => (sh.node a).next) p chain)
    (hlive : ∀ a ∈ chain, sh.live a = true) :
    ∃ sh', (∀ rounds, chain.length ≤ rounds → destroyLoop rounds sh p = some (sh', chain)) ∧
      ∀ a, sh'.live a = true ↔ sh.live a = true ∧ a ∉ chain := by
  induction chain generalizing sh p with
  | nil =>
    obtain rfl : p = none := hlinked
    exact ⟨sh, fun rounds _ => by cases rounds <;> rfl, by simp⟩
  | cons a chain ih =>
    have hnotMem := (List.nodup_cons.mp hlinked.nodup).1
    obtain ⟨rfl, hrest⟩ := hlinked
    obtain ⟨sh', hloop, hsh'⟩ := ih (sh.delete a) hrest fun b hb =>
      (sh.delete_live a b).mpr ⟨fun hba => hnotMem (hba ▸ hb), hlive b (List.mem_cons_of_mem _ hb)⟩
    refine ⟨sh', fun rounds hrounds => ?_, fun b => ?_⟩
    · cases rounds with
      | zero => exact absurd hrounds (by simp)
      | succ rounds =>
        rw [destroyLoop, if_pos (hlive a List.mem_cons_self),
          hloop rounds (Nat.le_of_succ_le_succ hrounds)]
        rfl
    · rw [hsh', Shared.delete_live, List.mem_cons, not_or]
      tauto

omit [DecidableEq ι] in
theorem Exclusive.heldNode_eq_none {mayPop : ι → Bool} {c : Config ι (Shared α) (Local α)}
    (h : Exclusive mayPop c) {i : ι} (hi : mayPop i = false) : (c.threads i).heldNode = none := by
  have hpop := h.mayPop i
  cases hl : c.threads i <;> simp_all [Local.heldNode, Local.popping]

omit [DecidableEq ι] in
theorem ownedNode_eq_some {l : Local α} {a : Addr} :
    l.ownedNode = some a ↔ l.privateNode = some a ∨ l.heldNode = some a := by
  cases l <;> simp [Local.ownedNode, Local.privateNode, Local.heldNode]

omit [DecidableEq ι] in
theorem heldNode_ne_of_private {l : Local α} {a : Addr} (h : l.privateNode = some a) :
    l.heldNode = none := by
  cases l <;> simp_all [Local.privateNode, Local.heldNode]

/-- **Node ownership.** With any number of producers and one consumer the allocated nodes are, in
every reachable state, the disjoint union of the nodes of the chain from `m_head`, which visits no
node twice, of one private node for every push between its allocation and its successful
compare-and-swap, and of the node that the pop holds between its successful compare-and-swap and
its deletion. No step uses a node that is not allocated. When all operations are over the
destructor deletes every node of the chain once, and leaves no node allocated. -/
theorem linkedStack_ownership
    (hrun : (linkedStack residue raw (· = consumer)).Run
      (linkedStack residue raw (· = consumer)).init h c) :
    ∃ chain,
      Linked (fun a => (c.shared.node a).next) c.shared.mHead chain ∧ chain.Nodup ∧
      (∀ a, c.shared.live a = true ↔ a ∈ chain ∨ (∃ i, (c.threads i).privateNode = some a) ∨
        (c.threads consumer).heldNode = some a) ∧
      (∀ i a, (c.threads i).privateNode = some a → a ∉ chain ∧
        (c.threads consumer).heldNode ≠ some a ∧ ∀ j, (c.threads j).privateNode = some a → j = i) ∧
      (∀ a, (c.threads consumer).heldNode = some a → a ∉ chain) ∧
      (∀ i, i ≠ consumer → (c.threads i).heldNode = none) ∧
      (∀ i f, Event.fault i f ∉ h) ∧
      ((∀ i, c.threads i = .idle) → ∃ sh', (∀ rounds, chain.length ≤ rounds →
        destroy rounds c.shared = some (sh', chain)) ∧ ∀ a, sh'.live a = false) := by
  obtain ⟨hsafe, hexcl, hfault⟩ := runIf_safeAlloc hrun
  obtain ⟨t, -, chain, hspells⟩ := exists_spells hsafe
  have hheld : ∀ i, i ≠ consumer → (c.threads i).heldNode = none := fun i hi =>
    hexcl.heldNode_eq_none (decide_eq_false hi)
  have howned : ∀ a, (∃ i, (c.threads i).ownedNode = some a) ↔
      (∃ i, (c.threads i).privateNode = some a) ∨ (c.threads consumer).heldNode = some a := by
    intro a
    constructor
    · rintro ⟨i, hi⟩
      rcases ownedNode_eq_some.mp hi with hi | hi
      · exact .inl ⟨i, hi⟩
      · by_cases hic : i = consumer
        · exact .inr (hic ▸ hi)
        · exact absurd hi (by simp [hheld i hic])
    · rintro (⟨i, hi⟩ | hi)
      · exact ⟨i, ownedNode_eq_some.mpr (.inl hi)⟩
      · exact ⟨consumer, ownedNode_eq_some.mpr (.inr hi)⟩
  refine ⟨chain, hspells.linked, hspells.linked.nodup, fun a => ?_, fun i a hi => ⟨?_, ?_, ?_⟩,
    fun a ha => ?_, hheld, hfault, fun hidle => ?_⟩
  · rw [hspells.live_iff, howned]
  · exact hspells.owned_notMem i a (ownedNode_of_private hi)
  · intro ha
    obtain rfl := hspells.owned_inj i consumer a (ownedNode_of_private hi)
      (ownedNode_eq_some.mpr (.inr ha))
    exact absurd ha (by simp [heldNode_ne_of_private hi])
  · exact fun j hj => hspells.owned_inj j i a (ownedNode_of_private hj) (ownedNode_of_private hi)
  · exact hspells.owned_notMem consumer a (ownedNode_eq_some.mpr (.inr ha))
  · obtain ⟨sh', hloop, hsh'⟩ := destroyLoop_eq { c.shared with mHead := none }
      hspells.linked fun a ha => hspells.live_of_mem ha
    refine ⟨sh', hloop, fun a => ?_⟩
    have hnone : ∀ i, (c.threads i).ownedNode = none := fun i => by rw [hidle i]; rfl
    have hlive : c.shared.live a = true ↔ a ∈ chain := by simpa [hnone] using hspells.live_iff a
    rw [Bool.eq_false_iff, Ne, hsh', hlive]
    tauto

/-- A producer has allocated a node and the consumer has unlinked one, while three nodes are in the
chain; and when nothing is under way, the destructor deletes the four nodes. -/
theorem linkedStack_ownership_reused_head :
    (∃ c h, producersConsumer.Run producersConsumer.init h c ∧
      (c.threads 0).privateNode = some 4 ∧ (c.threads 2).heldNode = some 2 ∧
      (∀ i f, Event.fault i f ∉ h) ∧ ∃ chain, chain.Nodup ∧ 2 ∉ chain ∧ 4 ∉ chain ∧
        Linked (fun a => (c.shared.node a).next) (some 3) chain) ∧
    ∃ c h sh' chain, producersConsumer.Run producersConsumer.init h c ∧
      (∀ rounds, chain.length ≤ rounds → destroy rounds c.shared = some (sh', chain)) ∧
      ∀ a, sh'.live a = false := by
  constructor
  · obtain ⟨c, h, hrun, hread⟩ := Machine.exists_run_of_exec (M := producersConsumer)
      (reusedHead ++ [(0, .call (.push 6)), (0, .alloc 4), (2, .call .pop), (2, .tau), (2, .tau),
        (2, .cas false)])
      (f := fun r => ((r.1.threads 0).privateNode, (r.1.threads 2).heldNode, r.1.shared.mHead))
      (b := (some 4, some 2, some 3)) (by decide)
    simp only [Prod.mk.injEq] at hread
    obtain ⟨hprivate, hheld, hhead⟩ := hread
    obtain ⟨chain, hlinked, hnodup, -, hout, hunlinked, -, hfault, -⟩ := linkedStack_ownership hrun
    exact ⟨c, h, hrun, hprivate, hheld, hfault, chain, hnodup, hunlinked 2 hheld,
      (hout 0 4 hprivate).1, hhead ▸ hlinked⟩
  · obtain ⟨c, h, hrun, hread⟩ := Machine.exists_run_of_exec (M := producersConsumer) reusedHead
      (f := fun r => decide (∀ i, r.1.threads i = .idle)) (b := true) (by decide)
    obtain ⟨chain, -, -, -, -, -, -, -, hdestroy⟩ := linkedStack_ownership hrun
    obtain ⟨sh', hloop, hfree⟩ := hdestroy (of_decide_eq_true hread)
    exact ⟨c, h, sh', chain, hrun, hloop, hfree⟩

end Multithreading.Stack.LinkedStack
