import Multithreading.Stack.LinkedStack

/-!
# `LockFreeSPSCStack` refines the atomic stack

The chain from `m_head` spells the list of an atomic stack. The nodes that are allocated are the
nodes of the chain, one private node for every push that has allocated and not yet won, and one
node for every pop between its successful compare-and-swap and its deletion.

A pop reads `oldHead->next` before its compare-and-swap, so it relies on the link of `oldHead`
being unchanged when the compare-and-swap succeeds. This is so as long as no allocation returns
the address that a pop in its loop still has as `oldHead`: a node keeps its link while it is on
the chain, and once it has left the chain it cannot come back without being allocated again. The
condition is the guard `SafeAlloc`. It restricts the allocator only, and not the number of pops
that run at the same time.

## Main definitions

* `LinkedStack.SafeAlloc` — the guard.
* `LinkedStack.Spells` — the chain spells the atomic stack, and who owns which node.

## Main results

* `LinkedStack.Spells.move` — every move under the guard is answered by the atomic stack.
* `LinkedStack.exists_spells` — the history of every run under the guard is a history of the
  atomic stack.
-/

open Transition Memory

namespace Multithreading.Stack.LinkedStack

open AtomicStack (Pending)

variable {ι α : Type*}

/-! ### Who owns which node -/

namespace Local

/-- The node that a push has allocated and not yet published. -/
def privateNode : Local α → Option Addr
  | pushLoad n | pushLink n _ | pushCas n => some n
  | _ => none

/-- The node that a pop has unlinked and not yet deleted. -/
def heldNode : Local α → Option Addr
  | popTake a | popDelete a _ => some a
  | _ => none

/-- The node that belongs to the thread alone. -/
def ownedNode (l : Local α) : Option Addr := l.privateNode <|> l.heldNode

/-- The node that a pop in its loop has as `oldHead`. -/
def oldHead : Local α → Option Addr
  | popNext a | popCas a _ => some a
  | _ => none

end Local

/-- The address that an action allocates. -/
def Action.allocated : Action α → Option Addr
  | alloc a => some a
  | _ => none

/-- An allocation does not return an address that a pop in its loop still has as `oldHead`. -/
def SafeAlloc (c : Config ι (Shared α) (Local α)) (x : ι × Action α) : Prop :=
  ∀ a ∈ x.2.allocated, ∀ j, (c.threads j).oldHead ≠ some a

instance [Fintype ι] (c : Config ι (Shared α) (Local α)) (x : ι × Action α) :
    Decidable (SafeAlloc c x) :=
  inferInstanceAs (Decidable (∀ a ∈ x.2.allocated, ∀ j, (c.threads j).oldHead ≠ some a))

/-! ### The invariant -/

/-- Where a thread is in the code, where it is in its operation on the atomic stack, and what it
knows about the chain. -/
def Local.Matches (sh : Shared α) (chain : List Addr) : Local α → Pending α → Prop
  | idle, p => p = .idle
  | pushNew v, p => p = .called (.push v)
  | pushLoad n, p | pushLink n _, p | pushCas n, p => p = .called (.push (sh.node n).data)
  | pushed, p => p = .done .pushed
  | popLoad, p | popNext _, p => p = .called .pop
  | popCas a next, p => p = .called .pop ∧ (a ∈ chain → (sh.node a).next = next)
  | popTake a, p => p = .done (.popped (some (sh.node a).data))
  | popDelete _ v, p => p = .done (.popped (some v))
  | popped r, p => p = .done (.popped r)

/-- What a thread knows depends only on the nodes that it owns and on the link of `oldHead`. -/
theorem Local.Matches.congr {sh sh' : Shared α} {chain chain' : List Addr} {l : Local α}
    {p : Pending α} (h : l.Matches sh chain p)
    (howned : ∀ a, l.ownedNode = some a → sh'.node a = sh.node a)
    (hold : ∀ a, l.oldHead = some a → a ∈ chain' → a ∈ chain ∧ sh'.node a = sh.node a) :
    l.Matches sh' chain' p := by
  cases l with
  | pushLoad n | pushLink n _ | pushCas n | popTake n =>
    simpa only [Matches, howned n rfl] using h
  | popCas a next =>
    refine ⟨h.1, fun ha => ?_⟩
    obtain ⟨hmem, hnode⟩ := hold a rfl ha
    rw [hnode]
    exact h.2 hmem
  | _ => exact h

/-- The chain from `m_head` spells the list of the atomic stack, the allocated nodes are the nodes
of the chain and the nodes that threads own, and every thread is where the atomic stack has it. -/
structure Spells (c : Config ι (Shared α) (Local α)) (t : AtomicStack.State ι α)
    (chain : List Addr) : Prop where
  linked : Linked (fun a => (c.shared.node a).next) c.shared.mHead chain
  items : t.shared = chain.map fun a => (c.shared.node a).data
  live_iff : ∀ a, c.shared.live a = true ↔ a ∈ chain ∨ ∃ i, (c.threads i).ownedNode = some a
  owned_notMem : ∀ i a, (c.threads i).ownedNode = some a → a ∉ chain
  owned_inj : ∀ i j a, (c.threads i).ownedNode = some a → (c.threads j).ownedNode = some a → i = j
  old_ne_private : ∀ i j a, (c.threads i).oldHead = some a → (c.threads j).privateNode ≠ some a
  threads : ∀ i, (c.threads i).Matches c.shared chain (t.threads i)

namespace Spells

variable {c : Config ι (Shared α) (Local α)} {t : AtomicStack.State ι α} {chain : List Addr}

theorem live_of_mem (h : Spells c t chain) {a : Addr} (ha : a ∈ chain) : c.shared.live a = true :=
  (h.live_iff a).mpr (.inl ha)

theorem live_of_owned (h : Spells c t chain) {i : ι} {a : Addr}
    (hi : (c.threads i).ownedNode = some a) : c.shared.live a = true :=
  (h.live_iff a).mpr (.inr ⟨i, hi⟩)

end Spells

theorem ownedNode_of_private {l : Local α} {a : Addr} (h : l.privateNode = some a) :
    l.ownedNode = some a := by
  simp [Local.ownedNode, h]

variable [DecidableEq ι]

namespace Spells

variable {c : Config ι (Shared α) (Local α)} {t : AtomicStack.State ι α} {chain : List Addr}

omit [DecidableEq ι] in
theorem live_iff_of (h : Spells c t chain) (i : ι) (a : Addr) : c.shared.live a = true ↔
    a ∈ chain ∨ (c.threads i).ownedNode = some a ∨
      ∃ j, j ≠ i ∧ (c.threads j).ownedNode = some a := by
  rw [h.live_iff a]
  refine or_congr_right ⟨?_, ?_⟩
  · rintro ⟨j, hj⟩
    by_cases hji : j = i
    · exact .inl (hji ▸ hj)
    · exact .inr ⟨j, hji, hj⟩
  · rintro (hi | ⟨j, -, hj⟩)
    · exact ⟨i, hi⟩
    · exact ⟨j, hj⟩

/-- The obligations of a move of thread `i`: it writes only to a node that it owns or that is not
allocated, it adds only its own private node to the chain, and what it owns afterwards is off the
chain and not owned by another thread. -/
theorem set (h : Spells c t chain) (i : ι) {sh' : Shared α} {l' : Local α} {items : List α}
    {p' : Pending α} {chain' : List Addr}
    (hlinked : Linked (fun a => (sh'.node a).next) sh'.mHead chain')
    (hitems : items = chain'.map fun a => (sh'.node a).data)
    (hmatches : l'.Matches sh' chain' p')
    (hnode : ∀ a, c.shared.live a = true → (c.threads i).ownedNode ≠ some a →
      sh'.node a = c.shared.node a)
    (hchain : ∀ a ∈ chain', a ∈ chain ∨ (c.threads i).privateNode = some a)
    (hlive : ∀ a, sh'.live a = true ↔ a ∈ chain' ∨ l'.ownedNode = some a ∨
      ∃ j, j ≠ i ∧ (c.threads j).ownedNode = some a)
    (howned : ∀ a, l'.ownedNode = some a → a ∉ chain' ∧
      ∀ j, j ≠ i → (c.threads j).ownedNode ≠ some a)
    (hold : ∀ a, l'.oldHead = some a → l'.privateNode ≠ some a ∧
      ∀ j, j ≠ i → (c.threads j).privateNode ≠ some a)
    (hpriv : ∀ a, l'.privateNode = some a → ∀ j, j ≠ i → (c.threads j).oldHead ≠ some a) :
    Spells (c.set i sh' l') (t.set i items p') chain' := by
  have hother : ∀ j a, j ≠ i → (c.threads j).ownedNode = some a →
      a ∉ chain' ∧ sh'.node a = c.shared.node a := by
    intro j a hji hj
    have hne : (c.threads i).ownedNode ≠ some a := fun hi => hji (h.owned_inj j i a hj hi)
    refine ⟨fun ha => ?_, hnode a (h.live_of_owned hj) hne⟩
    rcases hchain a ha with ha | ha
    · exact h.owned_notMem j a hj ha
    · exact hne (ownedNode_of_private ha)
  refine ⟨hlinked, hitems, fun a => ?_, ?_, ?_, ?_, ?_⟩
  · refine (hlive a).trans (or_congr_right ⟨?_, ?_⟩)
    · rintro (hi | ⟨j, hji, hj⟩)
      · exact ⟨i, by simpa using hi⟩
      · exact ⟨j, by simpa [Config.set_threads_of_ne _ _ _ hji] using hj⟩
    · rintro ⟨j, hj⟩
      by_cases hji : j = i
      · subst hji
        exact .inl (by simpa using hj)
      · exact .inr ⟨j, hji, by simpa [Config.set_threads_of_ne _ _ _ hji] using hj⟩
  · refine c.forall_set i sh' l' (P := fun _ l => ∀ a, l.ownedNode = some a → a ∉ chain')
      (fun a ha => (howned a ha).1) fun j hji a hj => (hother j a hji hj).1
  · intro j k a hj hk
    rw [Config.set_threads_apply] at hj hk
    split_ifs at hj hk with hji hki hki
    · rw [hji, hki]
    · exact absurd hk ((howned a hj).2 k hki)
    · exact absurd hj ((howned a hk).2 j hji)
    · exact h.owned_inj j k a hj hk
  · intro j k a hj
    rw [Config.set_threads_apply] at hj ⊢
    by_cases hji : j = i <;> by_cases hki : k = i <;>
      simp only [hji, hki, if_true, if_false] at hj ⊢
    · exact (hold a hj).1
    · exact (hold a hj).2 k hki
    · exact fun hk => hpriv a hk j hji hj
    · exact h.old_ne_private j k a hj
  · intro j
    by_cases hji : j = i
    · subst hji
      simpa using hmatches
    · rw [Config.set_threads_of_ne _ _ _ hji, Config.set_threads_of_ne _ _ _ hji]
      refine (h.threads j).congr (fun a hj => (hother j a hji hj).2) fun a hj ha => ?_
      have hmem : a ∈ chain := (hchain a ha).resolve_right (h.old_ne_private j i a hj)
      refine ⟨hmem, hnode a (h.live_of_mem hmem) fun hi => ?_⟩
      exact h.owned_notMem i a hi hmem

/-- A move that the atomic stack does not see. -/
theorem of_set_self {c' : Config ι (Shared α) (Local α)} (i : ι)
    (h : Spells c' (t.set i t.shared (t.threads i)) chain) : Spells c' t chain := by
  simpa using h

theorem setLocal (h : Spells c t chain) (i : ι) {l' : Local α} {p' : Pending α}
    (hmatches : l'.Matches c.shared chain p')
    (hprivate : l'.privateNode = (c.threads i).privateNode)
    (hheld : l'.heldNode = (c.threads i).heldNode)
    (hold : ∀ a, l'.oldHead = some a → (c.threads i).oldHead = some a ∨ a ∈ chain)
    (hnone : l'.oldHead = none ∨ l'.privateNode = none) :
    Spells (c.set i c.shared l') (t.set i t.shared p') chain := by
  have howned : l'.ownedNode = (c.threads i).ownedNode := by
    rw [Local.ownedNode, Local.ownedNode, hprivate, hheld]
  refine h.set i h.linked h.items hmatches (fun _ _ _ => rfl) (fun a ha => .inl ha)
    (fun a => by rw [howned]; exact h.live_iff_of i a) (fun a ha => ?_) (fun a ha => ?_)
    (fun a ha j _ hj => ?_)
  · rw [howned] at ha
    exact ⟨h.owned_notMem i a ha, fun j hji hj => hji (h.owned_inj j i a hj ha)⟩
  · refine ⟨by rcases hnone with hn | hn <;> simp [hn] at ha ⊢, fun j hji hj => ?_⟩
    rcases hold a ha with hi | hmem
    · exact h.old_ne_private i j a hi hj
    · exact h.owned_notMem j a (ownedNode_of_private hj) hmem
  · rw [hprivate] at ha
    exact h.old_ne_private j i a hj ha

/-- A pop that observes the head enters its loop with a node of the chain, or takes effect on the
empty list. -/
theorem observe (h : Spells c t chain) (i : ι) (hi : t.threads i = .called .pop)
    (hprivate : (c.threads i).privateNode = none) (hheld : (c.threads i).heldNode = none) :
    ∃ t', (atomicStack ι α none).Run t (sawHead i c.shared.mHead) t' ∧
      Spells (c.set i c.shared (.ofHead c.shared.mHead)) t' chain := by
  cases hhead : c.shared.mHead with
  | none =>
    have hnil : chain = [] := (hhead ▸ h.linked).unique rfl
    have hitems : t.shared = [] := by rw [h.items, hnil, List.map_nil]
    exact ⟨_, Spec.Run.single (.empty i hi hitems),
      h.setLocal i rfl hprivate.symm hheld.symm (by simp [Local.ofHead, Local.oldHead])
        (.inl rfl)⟩
  | some a =>
    obtain ⟨rest, hchain, -⟩ := (hhead ▸ h.linked).eq_cons
    have hmem : a ∈ chain := by simp [hchain]
    exact ⟨t, .refl, of_set_self i (h.setLocal i hi hprivate.symm hheld.symm
      (fun b hb => .inr (Option.some.inj hb ▸ hmem)) (.inr rfl))⟩

omit [DecidableEq ι] in
theorem run_use {ι α : Type*} [DecidableEq ι] (t : AtomicStack.State ι α) (sh : Shared α) (i : ι)
    (a : Addr) (f : Fault) : (atomicStack ι α none).Run t (sh.use i a f) t := by
  rw [Shared.use]
  split_ifs
  · exact .refl
  · exact Spec.Run.single (.silent _ trivial)

theorem alloc (h : Spells c t chain) {i : ι} {a : Addr} {v : α} (hl : c.threads i = .pushNew v)
    (hfree : c.shared.live a = false) (hsafe : ∀ j, (c.threads j).oldHead ≠ some a) :
    Spells (c.set i (c.shared.new a v) (.pushLoad a)) t chain := by
  have hne : ∀ b, c.shared.live b = true → b ≠ a := by
    rintro b hb rfl
    exact absurd hb (by simp [hfree])
  have hnode : ∀ b ∈ chain, (c.shared.new a v).node b = c.shared.node b := fun b hb =>
    c.shared.new_node_of_ne a b v (hne b (h.live_of_mem hb))
  have hi : t.threads i = .called (.push v) := by simpa [hl, Local.Matches] using h.threads i
  refine of_set_self i (h.set i (h.linked.congr fun b hb => by rw [hnode b hb])
    (by rw [h.items]; exact List.map_congr_left fun b hb => by rw [hnode b hb])
    (by simpa [Local.Matches] using hi)
    (fun b hb _ => c.shared.new_node_of_ne a b v (hne b hb)) (fun b hb => .inl hb) ?_ ?_
    (by simp [Local.oldHead]) ?_)
  · intro b
    rw [Shared.new_live, h.live_iff_of i b]
    simp [hl, Local.ownedNode, Local.privateNode, Local.heldNode, or_left_comm, eq_comm]
  · rintro b ⟨⟩
    exact ⟨fun ha => hne a (h.live_of_mem ha) rfl,
      fun j _ hj => hne a (h.live_of_owned hj) rfl⟩
  · rintro b ⟨⟩ j -
    exact hsafe j

theorem link (h : Spells c t chain) {i : ι} {n : Addr} {seen : Option Addr}
    (hl : c.threads i = .pushLink n seen) :
    Spells (c.set i (c.shared.setNext n seen) (.pushCas n)) t chain := by
  have hown : (c.threads i).ownedNode = some n := by rw [hl]; rfl
  have hnode : ∀ b ∈ chain, (c.shared.setNext n seen).node b = c.shared.node b := fun b hb =>
    c.shared.setNext_node_of_ne n b seen fun hbn => h.owned_notMem i n hown (hbn ▸ hb)
  have hi : t.threads i = .called (.push (c.shared.node n).data) := by
    simpa [hl, Local.Matches] using h.threads i
  refine of_set_self i (h.set i (h.linked.congr fun b hb => by rw [hnode b hb])
    (by rw [h.items]; exact List.map_congr_left fun b hb => by rw [hnode b hb])
    (by simpa [Local.Matches] using hi)
    (fun b _ hb => c.shared.setNext_node_of_ne n b seen fun hbn => hb (hbn ▸ hown))
    (fun b hb => .inl hb) ?_ ?_ (by simp [Local.oldHead]) ?_)
  · intro b
    rw [Shared.setNext_live, h.live_iff_of i b, hown]
    rfl
  · rintro b ⟨⟩
    exact ⟨h.owned_notMem i n hown, fun j hji hj => hji (h.owned_inj j i n hj hown)⟩
  · rintro b ⟨⟩ j - hj
    exact h.old_ne_private j i n hj (by rw [hl]; rfl)

/-- The successful compare-and-swap of a push puts its private node in front of the chain. -/
theorem publish (h : Spells c t chain) {i : ι} {n : Addr} (hl : c.threads i = .pushCas n)
    (hhead : c.shared.mHead = (c.shared.node n).next) :
    Spells (c.set i { c.shared with mHead := some n } .pushed)
      (t.set i ((c.shared.node n).data :: t.shared) (.done .pushed)) (n :: chain) := by
  have hown : (c.threads i).ownedNode = some n := by rw [hl]; rfl
  have hlinked := h.linked
  rw [hhead] at hlinked
  refine h.set i ⟨rfl, hlinked⟩ (by simp [h.items]) rfl (fun _ _ _ => rfl) ?_ ?_
    (by simp [Local.ownedNode, Local.privateNode, Local.heldNode]) (by simp [Local.oldHead])
    (by simp [Local.privateNode])
  · intro b hb
    rcases List.mem_cons.mp hb with rfl | hb
    · exact .inr (by rw [hl]; rfl)
    · exact .inl hb
  · intro b
    rw [h.live_iff_of i b, hown]
    simp [Local.ownedNode, Local.privateNode, Local.heldNode, or_left_comm, or_assoc, eq_comm]

/-- The successful compare-and-swap of a pop takes the front node off the chain, because the link
that the pop has read is the link of the front node. -/
theorem unlink (h : Spells c t chain) {i : ι} {a : Addr} {next : Option Addr}
    (hl : c.threads i = .popCas a next) (hhead : c.shared.mHead = some a) :
    ∃ rest, t.shared = (c.shared.node a).data :: rest ∧
      Spells (c.set i { c.shared with mHead := next } (.popTake a))
        (t.set i rest (.done (.popped (some (c.shared.node a).data)))) chain.tail := by
  obtain ⟨rest, rfl, hrest⟩ := (hhead ▸ h.linked).eq_cons
  have hmatches := h.threads i
  rw [hl] at hmatches
  have hnext : (c.shared.node a).next = next := hmatches.2 List.mem_cons_self
  have hnotMem : a ∉ rest := (List.nodup_cons.mp h.linked.nodup).1
  refine ⟨rest.map fun b => (c.shared.node b).data, h.items, ?_⟩
  refine h.set i (by simpa [hnext] using hrest) (by simp) rfl (fun _ _ _ => rfl)
    (fun b hb => .inl (List.mem_of_mem_tail hb)) ?_ ?_ (by simp [Local.oldHead])
    (by simp [Local.privateNode])
  · intro b
    rw [h.live_iff_of i b]
    simp [hl, Local.ownedNode, Local.privateNode, Local.heldNode, or_left_comm, or_assoc, eq_comm]
  · rintro b ⟨⟩
    exact ⟨by simpa using hnotMem, fun j _ hj => h.owned_notMem j a hj List.mem_cons_self⟩

theorem take (h : Spells c t chain) (residue : α → α) {i : ι} {a : Addr}
    (hl : c.threads i = .popTake a) :
    Spells (c.set i (c.shared.moveData residue a) (.popDelete a (c.shared.node a).data)) t
      chain := by
  have hown : (c.threads i).ownedNode = some a := by rw [hl]; rfl
  have hnode : ∀ b ∈ chain, (c.shared.moveData residue a).node b = c.shared.node b := fun b hb =>
    c.shared.moveData_node_of_ne a b residue fun hba => h.owned_notMem i a hown (hba ▸ hb)
  have hi : t.threads i = .done (.popped (some (c.shared.node a).data)) := by
    simpa [hl, Local.Matches] using h.threads i
  refine of_set_self i (h.set i (h.linked.congr fun b hb => by rw [hnode b hb])
    (by rw [h.items]; exact List.map_congr_left fun b hb => by rw [hnode b hb]) hi
    (fun b _ hb => c.shared.moveData_node_of_ne a b residue fun hba => hb (hba ▸ hown))
    (fun b hb => .inl hb) ?_ ?_ (by simp [Local.oldHead]) (by simp [Local.privateNode]))
  · intro b
    rw [Shared.moveData_live, h.live_iff_of i b, hown]
    rfl
  · rintro b ⟨⟩
    exact ⟨h.owned_notMem i a hown, fun j hji hj => hji (h.owned_inj j i a hj hown)⟩

theorem release (h : Spells c t chain) {i : ι} {a : Addr} {v : α}
    (hl : c.threads i = .popDelete a v) :
    Spells (c.set i (c.shared.delete a) (.popped (some v))) t chain := by
  have hown : (c.threads i).ownedNode = some a := by rw [hl]; rfl
  have hi : t.threads i = .done (.popped (some v)) := by
    simpa [hl, Local.Matches] using h.threads i
  refine of_set_self i (h.set i h.linked h.items hi (fun _ _ _ => rfl) (fun b hb => .inl hb) ?_
    (by simp [Local.ownedNode, Local.privateNode, Local.heldNode]) (by simp [Local.oldHead])
    (by simp [Local.privateNode]))
  · intro b
    rw [Shared.delete_live, h.live_iff_of i b, hown]
    have hother : ∀ j, j ≠ i → (c.threads j).ownedNode ≠ some a := fun j hji hj =>
      hji (h.owned_inj j i a hj hown)
    by_cases hba : b = a
    · subst hba
      simpa [Local.ownedNode, Local.privateNode, Local.heldNode, h.owned_notMem i b hown]
        using hother
    · simp [Local.ownedNode, Local.privateNode, Local.heldNode, hba, Ne.symm hba]

/-- **Every move is answered by the atomic stack**, as long as allocations are safe. -/
theorem move (h : Spells c t chain) {residue : α → α} {mayPop : ι → Bool} {i : ι} {x : Action α}
    {sh' : Shared α} {l' : Local α} {es : List (Event ι α)}
    (hmove : Move residue mayPop i c.shared x (c.threads i) sh' l' es)
    (hsafe : SafeAlloc c (i, x)) :
    ∃ t' chain', (atomicStack ι α none).Run t es t' ∧ Spells (c.set i sh' l') t' chain' := by
  have hmatches := h.threads i
  generalize hl : c.threads i = l at hmove hmatches
  cases hmove with
  | callPush v =>
    exact ⟨_, chain, Spec.Run.single (.call i (.push v) hmatches),
      h.setLocal i rfl (by rw [hl]; rfl) (by rw [hl]; rfl) (by simp [Local.oldHead]) (.inl rfl)⟩
  | callPop hpop =>
    exact ⟨_, chain, Spec.Run.single (.call i .pop hmatches),
      h.setLocal i rfl (by rw [hl]; rfl) (by rw [hl]; rfl) (by simp [Local.oldHead]) (.inl rfl)⟩
  | alloc a v hfree => exact ⟨t, chain, .refl, h.alloc hl hfree (hsafe a rfl)⟩
  | pushLoad n =>
    exact ⟨t, chain, Spec.Run.single (.silent _ trivial), of_set_self i (h.setLocal i hmatches
      (by rw [hl]; rfl) (by rw [hl]; rfl) (by simp [Local.oldHead]) (.inl rfl))⟩
  | pushLink n seen => exact ⟨t, chain, run_use t _ i n _, h.link hl⟩
  | pushWin spurious n hhead =>
    exact ⟨_, n :: chain,
      (run_use t _ i n _).trans (Spec.Run.single (.push i _ hmatches (by simp))),
      h.publish hl hhead⟩
  | pushLose spurious n =>
    exact ⟨t, chain,
      (run_use t _ i n _).trans (Spec.Run.single (.silent _ (silent_casFailure i _ _))),
      of_set_self i (h.setLocal i hmatches (by rw [hl]; rfl) (by rw [hl]; rfl)
        (by simp [Local.oldHead]) (.inl rfl))⟩
  | pushRet =>
    exact ⟨_, chain, Spec.Run.single (.ret i .pushed hmatches),
      h.setLocal i rfl (by rw [hl]; rfl) (by rw [hl]; rfl) (by simp [Local.oldHead]) (.inl rfl)⟩
  | popLoad =>
    obtain ⟨t', hrun, hset⟩ := h.observe i hmatches (by rw [hl]; rfl) (by rw [hl]; rfl)
    exact ⟨t', chain, hrun.cons (.silent _ trivial), hset⟩
  | popNext a =>
    exact ⟨t, chain, run_use t _ i a _, of_set_self i (h.setLocal i ⟨hmatches, fun _ => rfl⟩
      (by rw [hl]; rfl) (by rw [hl]; rfl) (fun b hb => .inl (by rw [hl]; exact hb)) (.inr rfl))⟩
  | popWin spurious a next hhead =>
    obtain ⟨rest, hitems, hset⟩ := h.unlink hl hhead
    exact ⟨_, chain.tail, Spec.Run.single (.pop i _ rest hmatches.1 hitems), hset⟩
  | popLose spurious a next =>
    obtain ⟨t', hrun, hset⟩ := h.observe i hmatches.1 (by rw [hl]; rfl) (by rw [hl]; rfl)
    exact ⟨t', chain, hrun.cons (.silent _ (silent_casFailure i _ _)), hset⟩
  | popTake a => exact ⟨t, chain, run_use t _ i a _, h.take residue hl⟩
  | popDelete a v => exact ⟨t, chain, run_use t _ i a _, h.release hl⟩
  | popRet r =>
    exact ⟨_, chain, Spec.Run.single (.ret i (.popped r) hmatches),
      h.setLocal i rfl (by rw [hl]; rfl) (by rw [hl]; rfl) (by simp [Local.oldHead]) (.inl rfl)⟩

end Spells

/-! ### Runs -/

variable (residue : α → α) (raw : Addr → Node α) (mayPop : ι → Bool)

theorem spells_init : Spells (linkedStack residue raw mayPop).init (atomicStack ι α none).init
    [] where
  linked := rfl
  items := rfl
  live_iff a := by simp [linkedStack, Local.ownedNode, Local.privateNode, Local.heldNode]
  owned_notMem _ _ _ := by simp
  owned_inj _ _ _ h := absurd h (by simp [linkedStack, Local.ownedNode, Local.privateNode,
    Local.heldNode])
  old_ne_private _ _ _ h := absurd h (by simp [linkedStack, Local.oldHead])
  threads _ := rfl

variable {residue raw mayPop} {c c' : Config ι (Shared α) (Local α)} {h : List (Event ι α)}

theorem Spells.next {t : AtomicStack.State ι α} {chain : List Addr} {x : ι × Action α}
    {es : List (Event ι α)} (h : Spells c t chain) (hsafe : SafeAlloc c x)
    (hnext : (linkedStack residue raw mayPop).next c x = some (c', es)) :
    ∃ t', (atomicStack ι α none).Run t es t' ∧ ∃ chain', Spells c' t' chain' := by
  obtain ⟨sh', l', hstep, rfl⟩ := interleave_next_eq_some.mp hnext
  obtain ⟨t', chain', hread, hspells⟩ := h.move (move_of_step hstep) hsafe
  exact ⟨t', hread, chain', hspells⟩

/-- **The history of every run whose allocations are safe is a history of the atomic stack**, and
the chain spells the list of the atomic stack after it. -/
theorem exists_spells
    (hrun : (linkedStack residue raw mayPop).RunIf SafeAlloc (linkedStack residue raw mayPop).init
      h c) :
    ∃ t, (atomicStack ι α none).Run (atomicStack ι α none).init h t ∧
      ∃ chain, Spells c t chain :=
  hrun.refines (R := fun c t => ∃ chain, Spells c t chain) ⟨[], spells_init residue raw mayPop⟩
    fun _ _ ⟨_, hspells⟩ hsafe hnext => hspells.next hsafe hnext

end Multithreading.Stack.LinkedStack
