import Multithreading.Stack.SingleThread
import Multithreading.Stack.LinkedOwnership
import Multithreading.Stack.BufferedOccupancy
import Multithreading.Transition.RetryLoop
import Mathlib.Data.Set.Finite.Basic

/-!
# The retry loops of the lock-free stacks

The four loops change `m_head` in four ways. `Push` of `LockFreeSPSCStack` keeps its expected value
in `newHead->next`, which a failed compare-and-swap writes, and `Pop` keeps it in `oldHead`; both
operations of `BufferedLockFreeSPSCStack` load `m_head` again after a failure. For each thread the
four are the retry loop of the library: the expected value is `m_head`, or another thread has
swapped `m_head` since the thread has read it.

For `LockFreeSPSCStack` this needs that no other thread writes to the private node of a push, so
the nodes have to have owners.

## Main definitions

* `Event.access` — what an event is for the retry loop of a thread.
* `LinkedStack.Solo`, `BufferedStack.Solo` — the steps of one operation that runs alone.
* `BufferedStack.Overflowed` — a push has added one to the greatest `int`.
* `RetryLaw` — the law of the retry loops, for the machine of a stack.

## Main results

* `LinkedStack.exists_retries`, `BufferedStack.exists_retries` — every thread runs a retry loop.
* `LinkedStack.retries_of_run`, `BufferedStack.retries_of_run` — the law of a run, the second one
  up to an overflow.
* `retryLoops_lockFree_iff` — the retry loops are lock-free, and an operation that runs alone
  finishes, exactly when the capacity of the bounded stack is an `int` or nobody pushes.
-/

open Transition Memory

namespace Multithreading.Stack

open Transition.Retry

variable {ι α : Type*} [DecidableEq ι]

/-- What an event is for the retry loop of thread `i`. A compare-and-swap that fails has read
`m_head`. -/
def Event.access (i : ι) : Event ι α → Access
  | call j _ => if j = i then .call else .other
  | load j | spurious j => if j = i then .read else .other
  | failed j => if j = i then .failure else .other
  | pushed j _ | popped j => if j = i then .swap else .rival
  | ret j _ => if j = i then .ret else .other
  | full _ | empty _ | fault _ _ => .other

variable {i j : ι} {v : α} {p : Phase}

/-- The failure of a compare-and-swap of thread `i`, whose expected value is the head unless another
thread has swapped the head. -/
theorem run_casFailure {β : Type*} [DecidableEq β] {head expected : β}
    (hp : p = .stale ∨ p = .fresh ∧ expected = head) :
    (retryLoop (Event.access i)).Run p [(casFailure i head expected : Event ι α)] .fresh := by
  rw [casFailure]
  split_ifs with heq
  · refine run_single (a := .read) (by simp [Event.access]) ?_
    rcases hp with rfl | ⟨rfl, -⟩ <;> exact .read (.inr trivial)
  · refine run_single (a := .failure) (by simp [Event.access]) (.failure ?_)
    exact hp.resolve_right fun hfresh => heq hfresh.2.symm

theorem access_casFailure_of_ne {β : Type*} [DecidableEq β] (head expected : β) (hji : j ≠ i) :
    (casFailure j head expected : Event ι α).access i = .other := by
  rw [casFailure]
  split_ifs <;> simp [Event.access, hji]

theorem access_casFailure {β : Type*} [DecidableEq β] (i : ι) (head expected : β) :
    (casFailure i head expected : Event ι α).access i ≠ .call ∧
      (casFailure i head expected : Event ι α).access i ≠ .rival := by
  rw [casFailure]
  split_ifs <;> simp [Event.access]

namespace LinkedStack

variable {residue : α → α} {mayPop : ι → Bool} {x : Action α} {sh sh' : Shared α} {l l' : Local α}
  {es : List (Event ι α)}

/-! ### `LockFreeSPSCStack` -/

/-- Where a thread is in the code and in its retry loop: in its loop the expected value is the head,
unless another thread has swapped the head. -/
def Local.Retries (sh : Shared α) : Local α → Phase → Prop
  | idle, p => p = .outside
  | pushNew _, p | pushLoad _, p | popLoad, p => p = .called
  | pushLink _ seen, p => p = .stale ∨ p = .fresh ∧ seen = sh.mHead
  | pushCas n, p => p = .stale ∨ p = .fresh ∧ (sh.node n).next = sh.mHead
  | popNext a, p | popCas a _, p => p = .stale ∨ p = .fresh ∧ some a = sh.mHead
  | _, _ => True

theorem Local.retries_ofHead (sh : Shared α) : (Local.ofHead sh.mHead).Retries sh .fresh := by
  cases hhead : sh.mHead with
  | none => trivial
  | some a => exact .inr ⟨rfl, hhead.symm⟩

theorem access_use (i j : ι) (sh : Shared α) (a : Addr) (f : Fault) :
    ∀ e ∈ sh.use j a f, (e : Event ι α).access i = .other := by
  intro e he
  rw [Shared.use] at he
  split_ifs at he
  · simp at he
  · obtain rfl := List.mem_singleton.mp he
    rfl

theorem access_sawHead (i j : ι) (head : Option Addr) :
    ∀ e ∈ sawHead j head, (e : Event ι α).access i = .other := by
  cases head <;> simp [sawHead, Event.access]

theorem Move.retries (hmove : Move residue mayPop i sh x l sh' l' es) (hl : l.Retries sh p) :
    ∃ q, (retryLoop (Event.access i)).Run p es q ∧ l'.Retries sh' q := by
  have huse (a : Addr) (f : Fault) {q : Phase} :
      (retryLoop (Event.access i)).Run q (sh.use i a f) q :=
    run_of_other (access_use i i sh a f)
  have hsaw {q : Phase} :
      (retryLoop (Event.access i)).Run q (sawHead i sh.mHead : List (Event ι α)) q :=
    run_of_other (access_sawHead i i sh.mHead)
  have hloaded {q : Phase} {P : Prop} (hq : q = .stale ∨ q = .fresh ∧ P) : q.Loaded := by
    rcases hq with rfl | ⟨rfl, -⟩ <;> trivial
  cases hmove with
  | callPush | callPop => exact ⟨.called, run_single (by simp [Event.access]) (.call hl), rfl⟩
  | alloc => exact ⟨p, .refl, hl⟩
  | pushLoad n =>
    exact ⟨.fresh, run_single (by simp [Event.access]) (.read (.inl hl)), .inr ⟨rfl, rfl⟩⟩
  | pushLink n seen =>
    exact ⟨p, huse n .useFreed, by simpa [Local.Retries, Shared.setNext] using hl⟩
  | pushWin spurious n hhead =>
    have hswap : (retryLoop (Event.access i)).Run p [.pushed i (sh.node n).data] .done :=
      run_single (by simp [Event.access]) (.swap (hloaded hl))
    exact ⟨.done, (huse n .useFreed).trans hswap, trivial⟩
  | pushLose spurious n =>
    exact ⟨.fresh, (huse n .useFreed).trans (run_casFailure hl), .inr ⟨rfl, rfl⟩⟩
  | pushRet | popRet => exact ⟨.outside, run_single (by simp [Event.access]) .ret, rfl⟩
  | popLoad =>
    exact ⟨.fresh, (run_single (by simp [Event.access]) (.read (.inl hl))).trans hsaw,
      Local.retries_ofHead sh⟩
  | popNext a => exact ⟨p, huse a .useFreed, hl⟩
  | popWin spurious a next hhead =>
    exact ⟨.done, run_single (by simp [Event.access]) (.swap (hloaded hl)), trivial⟩
  | popLose spurious a next =>
    exact ⟨.fresh, (run_casFailure hl).trans hsaw, Local.retries_ofHead sh⟩
  | popTake a => exact ⟨p, huse a .useFreed, trivial⟩
  | popDelete a v => exact ⟨p, huse a .deleteFreed, trivial⟩

/-- A move of another thread swaps the head, or leaves it as it is. -/
theorem Move.run_of_ne (hmove : Move residue mayPop j sh x l sh' l' es) (hji : j ≠ i) :
    (retryLoop (Event.access i)).Run p es p ∧ sh'.mHead = sh.mHead ∨
      (retryLoop (Event.access i)).Run p es p.overtaken := by
  cases hmove with
  | pushWin spurious n hhead =>
    exact .inr ((run_of_other (access_use i j sh n .useFreed)).trans
      (run_single (by simp [Event.access, hji]) .rival))
  | popWin spurious a next hhead => exact .inr (run_single (by simp [Event.access, hji]) .rival)
  | pushLose spurious n =>
    refine .inl ⟨(run_of_other (access_use i j sh n .useFreed)).trans (run_of_other ?_), rfl⟩
    simp [access_casFailure_of_ne, hji]
  | popLose spurious a next =>
    refine .inl ⟨run_of_other ?_, rfl⟩
    simpa [access_casFailure_of_ne, hji] using access_sawHead i j sh.mHead
  | popLoad =>
    refine .inl ⟨run_of_other ?_, rfl⟩
    simpa [Event.access, hji] using access_sawHead i j sh.mHead
  | pushLink n | popNext n | popTake n => exact .inl ⟨run_of_other (access_use i j sh n _), rfl⟩
  | popDelete n v => exact .inl ⟨run_of_other (access_use i j sh n _), rfl⟩
  | _ => exact .inl ⟨run_of_other (by simp [Event.access, hji]), rfl⟩

omit [DecidableEq ι] in
theorem Local.Retries.overtaken (hl : l.Retries sh p) (sh' : Shared α) :
    l.Retries sh' p.overtaken := by
  cases l with
  | idle =>
    obtain rfl : p = .outside := hl
    rfl
  | pushNew | pushLoad | popLoad =>
    obtain rfl : p = .called := hl
    rfl
  | pushLink | pushCas | popNext | popCas => rcases hl with rfl | ⟨rfl, -⟩ <;> exact .inl rfl
  | _ => trivial

omit [DecidableEq ι] in
/-- What a thread in its retry loop relies on is the head and its private node. -/
theorem Local.Retries.congr (hl : l.Retries sh p) (hhead : sh'.mHead = sh.mHead)
    (hnode : ∀ n, l.privateNode = some n → sh'.node n = sh.node n) : l.Retries sh' p := by
  cases l with
  | pushCas n => simpa [Local.Retries, hhead, hnode n rfl] using hl
  | pushLink | popNext | popCas => simpa [Local.Retries, hhead] using hl
  | _ => exact hl

omit [DecidableEq ι] in
theorem Move.node_eq (hmove : Move residue mayPop j sh x l sh' l' es) {n : Addr}
    (hlive : sh.live n = true) (hown : l.ownedNode ≠ some n) : sh'.node n = sh.node n := by
  cases hmove with
  | alloc a v hfree =>
    refine sh.new_node_of_ne a n v ?_
    rintro rfl
    exact absurd hlive (by simp [hfree])
  | pushLink m seen => exact sh.setNext_node_of_ne m n seen fun hnm => hown (by rw [hnm]; rfl)
  | popTake a => exact sh.moveData_node_of_ne a n residue fun hna => hown (by rw [hna]; rfl)
  | _ => rfl

variable {raw : Addr → Node α} {consumer : ι} {c c' : Config ι (Shared α) (Local α)}
  {h : List (Event ι α)}

/-- **Every thread runs a retry loop**, with any number of producers and one consumer. -/
theorem exists_retries (hrun : (linkedStack residue raw (· = consumer)).Run
      (linkedStack residue raw (· = consumer)).init h c) (i : ι) :
    ∃ p, (retryLoop (Event.access i)).Run .outside h p ∧
      (c.threads i).Retries c.shared p := by
  refine hrun.refines (R := fun c p => (c.threads i).Retries c.shared p) rfl ?_
  rintro h c c' es p ⟨j, x⟩ hrun hl - hnext
  obtain ⟨sh', l', hstep, rfl⟩ := interleave_next_eq_some.mp hnext
  have hmove := move_of_step hstep
  by_cases hji : j = i
  · subst hji
    simpa using hmove.retries hl
  · rw [Config.set_threads_of_ne _ _ _ (Ne.symm hji), Config.set_shared]
    rcases hmove.run_of_ne (p := p) hji with ⟨hread, hhead⟩ | hread
    · obtain ⟨t, -, chain, hspells⟩ := exists_spells (runIf_safeAlloc hrun).1
      refine ⟨p, hread, hl.congr hhead fun n hn => ?_⟩
      have hown := ownedNode_of_private hn
      exact hmove.node_eq (hspells.live_of_owned hown) fun hj =>
        hji (hspells.owned_inj j i n hj hown)
    · exact ⟨p.overtaken, hread, hl.overtaken sh'⟩

/-! #### An operation that runs alone -/

omit [DecidableEq ι] in
/-- Thread `i` goes on with its operation, and no compare-and-swap fails spuriously. -/
def Solo (i : ι) (_ : Config ι (Shared α) (Local α)) (y : ι × Action α) : Prop :=
  y.1 = i ∧ ((∃ a, y.2 = .alloc a) ∨ y.2 = .cas false ∨ y.2 = .tau)

theorem Move.access_of_solo (hmove : Move residue mayPop i sh x l sh' l' es)
    (hx : ∀ op, x ≠ .call op) : ∀ e ∈ es, e.access i ≠ .call ∧ e.access i ≠ .rival := by
  have hother {h : List (Event ι α)} (hh : ∀ e ∈ h, e.access i = .other) :
      ∀ e ∈ h, e.access i ≠ .call ∧ e.access i ≠ .rival := fun e he => by simp [hh e he]
  have huse (a : Addr) (f : Fault) := hother (access_use i i sh a f)
  have hsaw := hother (access_sawHead i i sh.mHead)
  cases hmove with
  | callPush v => exact absurd rfl (hx (.push v))
  | callPop => exact absurd rfl (hx .pop)
  | pushWin spurious n =>
    exact List.forall_mem_append.mpr ⟨huse n .useFreed, by simp [Event.access]⟩
  | pushLose spurious n =>
    exact List.forall_mem_append.mpr
      ⟨huse n .useFreed, List.forall_mem_singleton.mpr (access_casFailure i _ _)⟩
  | popLoad => exact List.forall_mem_cons.mpr ⟨by simp [Event.access], hsaw⟩
  | popLose spurious a => exact List.forall_mem_cons.mpr ⟨access_casFailure i _ _, hsaw⟩
  | pushLink n | popNext n | popTake n => exact huse n _
  | popDelete n v => exact huse n _
  | _ => simp [Event.access]

omit [DecidableEq ι] in
theorem Move.live_subset (hmove : Move residue mayPop i sh x l sh' l' es) :
    ∃ a, {b | sh'.live b = true} ⊆ insert a {b | sh.live b = true} := by
  cases hmove with
  | alloc a v => exact ⟨a, fun b hb => by simpa using hb⟩
  | popDelete a v => exact ⟨a, fun b hb => .inr ((sh.delete_live a b).mp hb).2⟩
  | _ => exact ⟨0, Set.subset_insert _ _⟩

theorem finite_live (hrun : (linkedStack residue raw mayPop).Run
      (linkedStack residue raw mayPop).init h c) : {a | c.shared.live a = true}.Finite := by
  refine hrun.invariant (fun c _ => {a | c.shared.live a = true}.Finite) ?_ ?_
  · simp [linkedStack]
  · rintro h c c' es ⟨j, x⟩ - hfinite - hnext
    obtain ⟨sh', l', hstep, rfl⟩ := interleave_next_eq_some.mp hnext
    obtain ⟨a, hsubset⟩ := (move_of_step hstep).live_subset
    exact (hfinite.insert a).subset hsubset

/-- A thread that moves alone after its call finishes its operation. -/
theorem inevitable_of_solo (hfinite : {a | c.shared.live a = true}.Finite)
    (hfresh : (c.threads i).Fresh c.shared) :
    (linkedStack residue raw mayPop).Inevitable (Solo i) (fun c => c.threads i = .idle) c := by
  refine Machine.inevitable_of_terminal
    (I := fun c => {a | c.shared.live a = true}.Finite ∧ (c.threads i).Fresh c.shared) (Solo i)
    (fun c => (c.threads i).weight) ?_ ?_ ⟨hfinite, hfresh⟩
  · rintro c c' es ⟨j, x⟩ ⟨hfinite, hfresh⟩ ⟨rfl, hx⟩ hnext
    obtain ⟨sh', l', hstep, rfl⟩ := interleave_next_eq_some.mp hnext
    obtain ⟨a, hsubset⟩ := (move_of_step hstep).live_subset
    refine ⟨⟨(hfinite.insert a).subset hsubset, ?_⟩, ?_⟩
    · simpa using (move_of_step hstep).fresh hfresh
    · simpa using weight_lt_of_step hfresh hx hstep
  · rintro c ⟨hfinite, -⟩ hterminal
    refine idle_of_stuck residue mayPop i c.shared (fun _ _ => ?_) fun x hx => ?_
    · obtain ⟨a, ha⟩ := hfinite.exists_notMem
      exact ⟨a, by simpa using ha⟩
    · simpa [linkedStack, interleave] using hterminal (i, x) ⟨rfl, hx⟩

/-- The retry loops of `LockFreeSPSCStack` are lock-free, and an operation that runs alone
finishes. -/
theorem retries_of_run (hrun : (linkedStack residue raw (· = consumer)).Run
      (linkedStack residue raw (· = consumer)).init h c) (i : ι) :
    LockFree (Event.access i) h ∧
      ∀ op c' es, (linkedStack residue raw (· = consumer)).next c (i, .call op) = some (c', es) →
        (linkedStack residue raw (· = consumer)).Inevitable (Solo i)
            (fun c => c.threads i = .idle) c' ∧
          ∀ h'' c'', (linkedStack residue raw (· = consumer)).RunIf (Solo i) c' h'' c'' →
            attempts (Event.access i) h'' ≤ 1 := by
  have hfree : ∀ {h c}, (linkedStack residue raw (· = consumer)).Run
      (linkedStack residue raw (· = consumer)).init h c → LockFree (Event.access i) h := by
    intro h c hrun
    obtain ⟨p, hread, -⟩ := exists_retries hrun i
    exact lockFree_of_run hread
  refine ⟨hfree hrun, fun op c' es hcall => ?_⟩
  have hfinite := finite_live (hrun.tail (i, .call op) trivial hcall)
  have hcall' := hcall
  obtain ⟨sh', l', hstep, rfl⟩ := interleave_next_eq_some.mp hcall
  obtain ⟨rfl, hfresh⟩ : es = [.call i op] ∧ l'.Fresh sh' := by
    have hmove := move_of_step hstep
    generalize c.threads i = l at hmove
    cases hmove <;> exact ⟨rfl, trivial⟩
  refine ⟨inevitable_of_solo hfinite (by simpa using hfresh), fun h'' c'' hsolo => ?_⟩
  refine attempts_le_one_of_runIf hfree ?_ hrun hcall' (by simp [Event.access]) hsolo
  rintro c c' es ⟨j, x⟩ ⟨rfl, hx⟩ hnext
  obtain ⟨sh', l', hstep, rfl⟩ := interleave_next_eq_some.mp hnext
  exact (move_of_step hstep).access_of_solo (by rcases hx with ⟨a, rfl⟩ | rfl | rfl <;> simp)

end LinkedStack

namespace BufferedStack

variable {residue : α → α} {capacity : ℕ} {mayCall : ι → Op α → Bool} {x : Action α}
  {sh sh' : Shared α} {l l' : Local α} {es : List (Event ι α)}

/-! ### `BufferedLockFreeSPSCStack` -/

/-- Where a thread is in the code and in its retry loop: in its loop the expected value is the
counter, unless another thread has swapped the counter. -/
def Local.Retries (sh : Shared α) : Local α → Phase → Prop
  | idle, p => p = .outside
  | pushLoad _, p | popLoad, p => p.Trying
  | pushCas _ top, p | popCas top, p => p = .stale ∨ p = .fresh ∧ top = sh.mHead
  | _, _ => True

theorem Move.retries (hmove : Move residue capacity mayCall i sh x l sh' l' es)
    (hl : l.Retries sh p) :
    ∃ q, (retryLoop (Event.access i)).Run p es q ∧ l'.Retries sh' q := by
  have hloaded {q : Phase} {P : Prop} (hq : q = .stale ∨ q = .fresh ∧ P) : q.Loaded := by
    rcases hq with rfl | ⟨rfl, -⟩ <;> trivial
  have hload : p.Trying → (retryLoop (Event.access i)).Run p [(Event.load i : Event ι α)] .fresh :=
    fun hp => run_single (a := .read) (by simp [Event.access]) (.read hp)
  cases hmove with
  | callPush | callPop =>
    exact ⟨.called, run_single (by simp [Event.access]) (.call hl), .inl rfl⟩
  | pushFull | popEmpty =>
    exact ⟨.fresh, (hload hl).trans (run_single rfl .other), trivial⟩
  | pushLoad | popLoad => exact ⟨.fresh, hload hl, .inr ⟨rfl, rfl⟩⟩
  | pushOverflow | popOverflow => exact ⟨p, run_single rfl .other, trivial⟩
  | pushWin | popWin =>
    exact ⟨.done, run_single (by simp [Event.access]) (.swap (hloaded hl)), trivial⟩
  | pushLose | popLose => exact ⟨.fresh, run_casFailure hl, .inr trivial⟩
  | pushWrite | popRead => exact ⟨p, .refl, trivial⟩
  | pushBounds | popBounds => exact ⟨p, run_single rfl .other, trivial⟩
  | pushRet | rejectRet | popRet =>
    exact ⟨.outside, run_single (by simp [Event.access]) .ret, rfl⟩

theorem Move.run_of_ne (hmove : Move residue capacity mayCall j sh x l sh' l' es) (hji : j ≠ i) :
    (retryLoop (Event.access i)).Run p es p ∧ sh'.mHead = sh.mHead ∨
      (retryLoop (Event.access i)).Run p es p.overtaken := by
  cases hmove with
  | pushWin | popWin => exact .inr (run_single (by simp [Event.access, hji]) .rival)
  | pushLose | popLose =>
    exact .inl ⟨run_single (access_casFailure_of_ne _ _ hji) .other, rfl⟩
  | _ => exact .inl ⟨run_of_other (by simp [Event.access, hji]), rfl⟩

omit [DecidableEq ι] in
theorem Local.Retries.overtaken (hl : l.Retries sh p) (sh' : Shared α) :
    l.Retries sh' p.overtaken := by
  cases l with
  | idle =>
    obtain rfl : p = .outside := hl
    rfl
  | pushLoad | popLoad =>
    cases p <;> simp_all [Local.Retries, Phase.Trying, Phase.Loaded, Phase.overtaken]
  | pushCas | popCas => rcases hl with rfl | ⟨rfl, -⟩ <;> exact .inl rfl
  | _ => trivial

omit [DecidableEq ι] in
theorem Local.Retries.congr (hl : l.Retries sh p) (hhead : sh'.mHead = sh.mHead) :
    l.Retries sh' p := by
  cases l with
  | pushCas | popCas => simpa [Local.Retries, hhead] using hl
  | _ => exact hl

variable {init : α} {c c' : Config ι (Shared α) (Local α)} {h : List (Event ι α)}

/-- **Every thread runs a retry loop**, with any number of threads. -/
theorem exists_retries (hrun : (bufferedStack residue init capacity mayCall).Run
      (bufferedStack residue init capacity mayCall).init h c) (i : ι) :
    ∃ p, (retryLoop (Event.access i)).Run .outside h p ∧
      (c.threads i).Retries c.shared p := by
  refine hrun.refines (R := fun c p => (c.threads i).Retries c.shared p) rfl ?_
  rintro h c c' es p ⟨j, x⟩ - hl - hnext
  obtain ⟨sh', l', hstep, rfl⟩ := interleave_next_eq_some.mp hnext
  have hmove := move_of_step hstep
  by_cases hji : j = i
  · subst hji
    simpa using hmove.retries hl
  · rw [Config.set_threads_of_ne _ _ _ (Ne.symm hji), Config.set_shared]
    rcases hmove.run_of_ne (p := p) hji with ⟨hread, hhead⟩ | hread
    · exact ⟨p, hread, hl.congr hhead⟩
    · exact ⟨p.overtaken, hread, hl.overtaken sh'⟩

/-! #### An operation that runs alone -/

omit [DecidableEq ι] in
/-- Thread `i` goes on with its operation, and no compare-and-swap fails spuriously. -/
def Solo (i : ι) (_ : Config ι (Shared α) (Local α)) (y : ι × Action α) : Prop :=
  y.1 = i ∧ (y.2 = .cas false ∨ y.2 = .tau)

omit [DecidableEq ι] in
/-- Thread `i` has added one to the greatest `int`, which the language leaves undefined. -/
def Overflowed (capacity : ℕ) (c : Config ι (Shared α) (Local α)) (i : ι) : Prop :=
  c.threads i = .undefined ∧ intMax < capacity ∧ c.shared.mHead = intMax

omit [DecidableEq ι] in
theorem Move.fresh (hmove : Move residue capacity mayCall i sh x l sh' l' es) : l'.Fresh sh' := by
  cases hmove with
  | pushLoad | popLoad => rfl
  | _ => trivial

omit [DecidableEq ι] in
/-- The behaviour of a thread that moves alone becomes undefined only in an overflow. -/
theorem Move.overflowed (hmove : Move residue capacity mayCall i sh x l sh' .undefined es)
    (hl : l.InRange capacity) (hfresh : l.Fresh sh) : intMax < capacity ∧ sh'.mHead = intMax := by
  cases hmove with
  | pushOverflow spurious v top hfits =>
    obtain ⟨h0, hlt, hle⟩ := hl
    obtain rfl : top = sh.mHead := hfresh
    rw [Fits, intMin] at hfits
    omega
  | pushBounds v top hbound =>
    obtain ⟨h0, hlt, hle⟩ := hl
    have hsize := natCast_toSizeT top h0 hle
    omega
  | popOverflow spurious top hfits =>
    obtain ⟨h0, hlt, hle⟩ := hl
    rw [Fits, intMin] at hfits
    omega
  | popBounds top hbound =>
    obtain ⟨h0, hlt, hle⟩ := hl
    have hsize := natCast_toSizeT (top - 1) (by omega) (by omega)
    omega

/-- A thread that moves alone after its call finishes its operation, unless a push adds one to the
greatest `int`. -/
theorem inevitable_of_solo (hsh : c.shared.InRange capacity) (hl : (c.threads i).InRange capacity)
    (hfresh : (c.threads i).Fresh c.shared) (hdefined : c.threads i ≠ .undefined) :
    (bufferedStack residue init capacity mayCall).Inevitable (Solo i)
      (fun c => c.threads i = .idle ∨ Overflowed capacity c i) c := by
  refine Machine.inevitable_of_terminal
    (I := fun c => c.shared.InRange capacity ∧ (c.threads i).InRange capacity ∧
      (c.threads i).Fresh c.shared ∧ (c.threads i = .undefined → Overflowed capacity c i))
    (Solo i) (fun c => (c.threads i).weight) ?_ ?_
    ⟨hsh, hl, hfresh, fun hundefined => absurd hundefined hdefined⟩
  · rintro c c' es ⟨j, x⟩ ⟨hsh, hl, hfresh, -⟩ ⟨rfl, hx⟩ hnext
    obtain ⟨sh', l', hstep, rfl⟩ := interleave_next_eq_some.mp hnext
    have hmove := move_of_step hstep
    obtain ⟨hsh', hl'⟩ := hmove.inRange hsh hl
    refine ⟨⟨hsh', by simpa using hl', by simpa using hmove.fresh, fun hundefined => ?_⟩, ?_⟩
    · obtain rfl : l' = .undefined := by simpa using hundefined
      exact ⟨hundefined, hmove.overflowed hl hfresh⟩
    · simpa using weight_lt_of_step hfresh hx hstep
  · rintro c ⟨-, -, -, hundefined⟩ hterminal
    refine (idle_or_undefined_of_stuck residue capacity mayCall i c.shared
      fun x hx => ?_).imp id hundefined
    simpa [bufferedStack, interleave] using hterminal (i, x) ⟨rfl, hx⟩

theorem Move.access_of_solo (hmove : Move residue capacity mayCall i sh x l sh' l' es)
    (hx : ∀ op, x ≠ .call op) : ∀ e ∈ es, e.access i ≠ .call ∧ e.access i ≠ .rival := by
  cases hmove with
  | callPush v => exact absurd rfl (hx (.push v))
  | callPop => exact absurd rfl (hx .pop)
  | pushLose | popLose => exact List.forall_mem_singleton.mpr (access_casFailure i _ _)
  | _ => simp [Event.access]

/-- The retry loops of `BufferedLockFreeSPSCStack` are lock-free, and an operation that runs alone
finishes. -/
theorem retries_of_run (hrun : (bufferedStack residue init capacity mayCall).Run
      (bufferedStack residue init capacity mayCall).init h c) (i : ι) :
    LockFree (Event.access i) h ∧
      ∀ op c' es, (bufferedStack residue init capacity mayCall).next c (i, .call op) =
          some (c', es) →
        (bufferedStack residue init capacity mayCall).Inevitable (Solo i)
            (fun c => c.threads i = .idle ∨ Overflowed capacity c i) c' ∧
          ∀ h'' c'', (bufferedStack residue init capacity mayCall).RunIf (Solo i) c' h'' c'' →
            attempts (Event.access i) h'' ≤ 1 := by
  have hfree : ∀ {h c}, (bufferedStack residue init capacity mayCall).Run
      (bufferedStack residue init capacity mayCall).init h c → LockFree (Event.access i) h := by
    intro h c hrun
    obtain ⟨p, hread, -⟩ := exists_retries hrun i
    exact lockFree_of_run hread
  refine ⟨hfree hrun, fun op c' es hcall => ?_⟩
  have hsh := inRange_of_run (hrun.tail (i, .call op) trivial hcall)
  have hcall' := hcall
  obtain ⟨sh', l', hstep, rfl⟩ := interleave_next_eq_some.mp hcall
  obtain ⟨rfl, hl, hfresh, hdefined⟩ :
      es = [.call i op] ∧ l'.InRange capacity ∧ l'.Fresh sh' ∧ l' ≠ .undefined := by
    have hmove := move_of_step hstep
    generalize c.threads i = l at hmove
    cases hmove <;> exact ⟨rfl, trivial, trivial, by simp⟩
  refine ⟨inevitable_of_solo hsh (by simpa using hl) (by simpa using hfresh)
    (by simpa using hdefined), fun h'' c'' hsolo => ?_⟩
  refine attempts_le_one_of_runIf hfree ?_ hrun hcall' (by simp [Event.access]) hsolo
  rintro c c' es ⟨j, x⟩ ⟨rfl, hx⟩ hnext
  obtain ⟨sh', l', hstep, rfl⟩ := interleave_next_eq_some.mp hnext
  exact (move_of_step hstep).access_of_solo (by rcases hx with rfl | rfl <;> simp)

end BufferedStack

/-! ### The four loops -/

/-- The law of the retry loops after a run with the history `h`: the loop of every thread is
lock-free, and an operation that is called now and runs alone without spurious failures makes at
most one attempt and finishes. -/
def RetryLaw {S L A : Type*} (M : Machine (Config ι S L) (ι × A) (Event ι α)) (call : Op α → A)
    (solo : ι → Config ι S L → ι × A → Prop) (idle : L) (c : Config ι S L)
    (h : List (Event ι α)) : Prop :=
  ∀ i, LockFree (Event.access i) h ∧
    ∀ op c' es, M.next c (i, call op) = some (c', es) →
      M.Inevitable (solo i) (fun c => c.threads i = idle) c' ∧
        ∀ h' c'', M.RunIf (solo i) c' h' c'' → attempts (Event.access i) h' ≤ 1

/-- The law for `LockFreeSPSCStack` with one consumer. -/
def LinkedStack.RetryLaw (residue : α → α) (raw : LinkedStack.Addr → LinkedStack.Node α)
    (consumer : ι) :
    Config ι (LinkedStack.Shared α) (LinkedStack.Local α) → List (Event ι α) → Prop :=
  Stack.RetryLaw (linkedStack residue raw (· = consumer)) .call LinkedStack.Solo .idle

namespace BufferedStack

/-- The law for `BufferedLockFreeSPSCStack`. -/
def RetryLaw (residue : α → α) (init : α) (capacity : ℕ) (mayCall : ι → Op α → Bool) :
    Config ι (Shared α) (Local α) → List (Event ι α) → Prop :=
  Stack.RetryLaw (bufferedStack residue init capacity mayCall) .call Solo .idle

variable {residue : α → α} {init : α} {capacity : ℕ} {mayCall : ι → Op α → Bool}
  {c : Config ι (Shared α) (Local α)} {h : List (Event ι α)}

/-- A thread is in no operation, or in a pop that gets nothing. -/
def Local.PopsNothing : Local α → Prop
  | idle | popLoad | popped none => True
  | _ => False

omit [DecidableEq ι] in
theorem Move.popsNothing (hmove : Move residue capacity mayCall i sh x l sh' l' es)
    (hpush : ∀ v, mayCall i (.push v) = false) (hzero : sh.mHead = 0) (hl : l.PopsNothing) :
    sh'.mHead = 0 ∧ l'.PopsNothing := by
  cases hmove with
  | callPush v hcall => simp [hpush] at hcall
  | callPop | popEmpty => exact ⟨hzero, trivial⟩
  | popLoad hne => exact absurd hzero hne
  | popRet r => exact ⟨hzero, trivial⟩
  | _ => exact hl.elim

/-- When no thread may push, nothing is ever stored. -/
theorem mHead_eq_zero_of_run (hpush : ∀ i v, mayCall i (.push v) = false)
    (hrun : (bufferedStack residue init capacity mayCall).Run
      (bufferedStack residue init capacity mayCall).init h c) : c.shared.mHead = 0 := by
  refine (hrun.invariant (fun c _ => c.shared.mHead = 0 ∧ ∀ j, (c.threads j).PopsNothing)
    ⟨rfl, fun _ => trivial⟩ ?_).1
  rintro h c c' es ⟨j, x⟩ - ⟨hzero, hl⟩ - hnext
  obtain ⟨sh', l', hstep, rfl⟩ := interleave_next_eq_some.mp hnext
  obtain ⟨hzero', hl'⟩ := (move_of_step hstep).popsNothing (hpush j) hzero (hl j)
  exact ⟨hzero', c.forall_set j sh' l' (P := fun _ l => l.PopsNothing) hl' fun k _ => hl k⟩

/-- With a capacity that is an `int`, and when no thread may push, the law holds in every run. -/
theorem retryLaw_of_run
    (hbound : (capacity : ℤ) ≤ intMax ∨ ∀ i v, mayCall i (.push v) = false)
    (hrun : (bufferedStack residue init capacity mayCall).Run
      (bufferedStack residue init capacity mayCall).init h c) :
    RetryLaw residue init capacity mayCall c h := by
  intro i
  obtain ⟨hfree, hcall⟩ := retries_of_run hrun i
  refine ⟨hfree, fun op c' es hnext => ?_⟩
  obtain ⟨hends, hattempts⟩ := hcall op c' es hnext
  refine ⟨hends.imp_of_run fun h' c'' hsolo hend => ?_, hattempts⟩
  refine hend.resolve_right fun ⟨_, hmax, hhead⟩ => ?_
  rcases hbound with hle | hpush
  · exact hmax.not_ge hle
  · have hrun' := (hrun.tail (i, .call op) trivial hnext).trans hsolo.run
    exact absurd ((mHead_eq_zero_of_run hpush hrun').symm.trans hhead) (by decide)

/-- A push that finds the greatest `int` and runs alone does not finish. -/
theorem not_retryLaw (hmax : intMax < capacity) (hpush : mayCall i (.push v) = true)
    (hidle : c.threads i = .idle) (hhead : c.shared.mHead = intMax) :
    ¬ RetryLaw residue init capacity mayCall c h := by
  intro hlaw
  have hsize : toSizeT intMax ≠ capacity := by
    have hcast := natCast_toSizeT intMax (by decide) le_rfl
    omega
  have hoverflow : ¬ Fits (intMax + 1) := fun hfits => absurd hfits.2 (by decide)
  have hcall : (bufferedStack residue init capacity mayCall).next c (i, .call (.push v)) =
      some (c.set i c.shared (.pushLoad v), [.call i (.push v)]) := by
    simp [bufferedStack, interleave, step, hidle, hpush]
  have hload : (bufferedStack residue init capacity mayCall).next
      (c.set i c.shared (.pushLoad v)) (i, .tau) =
        some (c.set i c.shared (.pushCas v intMax), [.load i]) := by
    simp [bufferedStack, interleave, step, hsize, hhead]
  have hcas : (bufferedStack residue init capacity mayCall).next
      (c.set i c.shared (.pushCas v intMax)) (i, .cas false) =
        some (c.set i c.shared .undefined, [.fault i .overflow]) := by
    simp [bufferedStack, interleave, step, hoverflow]
  obtain ⟨hends, -⟩ := (hlaw i).2 _ _ _ hcall
  have hrun : (bufferedStack residue init capacity mayCall).RunIf (Solo i) _
      ([.load i] ++ [.fault i .overflow]) _ :=
    (Machine.RunIf.single ⟨rfl, .inr rfl⟩ hload).tail (i, .cas false) ⟨rfl, .inl rfl⟩ hcas
  -- The thread takes no step any more, and it is not idle.
  have hstuck := (hends.of_runIf hrun).of_terminal fun x hx => by
    obtain ⟨j, x⟩ := x
    obtain ⟨rfl, rfl | rfl⟩ := hx <;> simp [bufferedStack, interleave, step]
  simp at hstuck

end BufferedStack

/-- **The retry loops are lock-free**, for `LockFreeSPSCStack` with any number of producers and one
consumer, and for `BufferedLockFreeSPSCStack` with any threads exactly when the capacity is at most
the greatest `int` or none of them may push. In every run every failure of a compare-and-swap of a
thread that is not spurious is charged to a successful compare-and-swap of another thread since its
latest read of `m_head`, different failures to different ones. An operation makes at most one
attempt more than other threads complete successful ones during the operation, not counting spurious
failures. An operation that runs alone without spurious failures makes at most one attempt and
finishes; with a greater capacity a push can find the greatest `int` in `m_head`, adds one to it and
has undefined behaviour. -/
theorem retryLoops_lockFree_iff (residue : α → α) (init : α) (capacity : ℕ)
    (mayCall : ι → Op α → Bool) :
    (∀ raw consumer c h, (linkedStack residue raw (· = consumer)).Run
        (linkedStack residue raw (· = consumer)).init h c →
      LinkedStack.RetryLaw residue raw (consumer : ι) c h) ∧
    ((∀ c h, (bufferedStack residue init capacity mayCall).Run
        (bufferedStack residue init capacity mayCall).init h c →
      BufferedStack.RetryLaw residue init capacity mayCall c h) ↔
        capacity ≤ 2 ^ 31 - 1 ∨ ∀ i v, mayCall i (.push v) = false) := by
  have hcap : capacity ≤ 2 ^ 31 - 1 ↔ (capacity : ℤ) ≤ intMax := by
    rw [intMax]
    omega
  rw [hcap]
  refine ⟨fun raw consumer c h hrun => LinkedStack.retries_of_run hrun, fun hlaw => ?_,
    fun hbound c h hrun => BufferedStack.retryLaw_of_run hbound hrun⟩
  by_contra! hbound
  obtain ⟨hmax, i, v, hpush⟩ := hbound
  rw [ne_eq, Bool.not_eq_false] at hpush
  obtain ⟨n, hn⟩ : ∃ n : ℕ, (n : ℤ) = intMax := ⟨2147483647, rfl⟩
  obtain ⟨h, c, hrun, hidle, hhead⟩ :=
    BufferedStack.exists_run_head residue init hmax hpush n hn.le
  exact BufferedStack.not_retryLaw hmax hpush hidle (hhead.trans hn) (hlaw c h hrun)

/-- Producer `i` links its node, producer `j` pushes, and the compare-and-swap of producer `i`
fails once. -/
def LinkedStack.contendedPush (i j : ι) : List (ι × LinkedStack.Action ℕ) :=
  List.flatten [[(i, .call (.push 7)), (i, .alloc 0), (i, .tau), (i, .tau)],
    LinkedStack.pushAlone j 8 1, [(i, .cas false), (i, .tau), (i, .cas false), (i, .tau)]]

/-- Thread `i` loads the counter, thread `j` pushes, and the compare-and-swap of thread `i` fails
once. -/
def BufferedStack.contendedPush (i j : ι) : List (ι × BufferedStack.Action ℕ) :=
  [(i, .call (.push 7)), (i, .tau), (j, .call (.push 8)), (j, .tau), (j, .cas false), (j, .tau),
    (j, .tau), (i, .cas false), (i, .tau), (i, .cas false), (i, .tau), (i, .tau)]

/-- In both stacks a push that is disturbed once makes two attempts, and the law holds behind it.
With the first capacity that is not an `int` it does not hold in every run. -/
theorem retryLoops_lockFree_iff_contended :
    (∃ c h, (linkedStack id (fun _ => ⟨0, none⟩) (· = Fin.last 2)).Run
        (linkedStack id (fun _ => ⟨0, none⟩) (· = Fin.last 2)).init h c ∧
      attempts (Event.access 0) h = 2 ∧ count (Event.access 0) .rival h = 1 ∧
      LinkedStack.RetryLaw id (fun _ => ⟨0, none⟩) (Fin.last 2) c h) ∧
    (∃ c h, (bufferedStack id (0 : ℕ) 2 fun (_ : Fin 3) _ => true).Run
        (bufferedStack id (0 : ℕ) 2 fun (_ : Fin 3) _ => true).init h c ∧
      attempts (Event.access 0) h = 2 ∧ count (Event.access 0) .rival h = 1 ∧
      BufferedStack.RetryLaw id (0 : ℕ) 2 (fun (_ : Fin 3) _ => true) c h) ∧
    ¬ ∀ c h, (bufferedStack id (0 : ℕ) (2 ^ 31) fun (_ : Fin 3) _ => true).Run
        (bufferedStack id (0 : ℕ) (2 ^ 31) fun (_ : Fin 3) _ => true).init h c →
      BufferedStack.RetryLaw id (0 : ℕ) (2 ^ 31) (fun (_ : Fin 3) _ => true) c h := by
  have hiff (capacity : ℕ) := retryLoops_lockFree_iff id 0 capacity fun (_ : Fin 3) _ => true
  refine ⟨?_, ?_, fun hlaw => ?_⟩
  · obtain ⟨c, h, hrun, hread⟩ := Machine.exists_run_of_exec
      (M := linkedStack id (fun _ => ⟨0, none⟩) (· = Fin.last 2)) (LinkedStack.contendedPush 0 1)
      (f := fun r => (attempts (Event.access 0) r.2, count (Event.access 0) .rival r.2))
      (b := (2, 1)) (by decide)
    obtain ⟨hattempts, hrivals⟩ := Prod.mk.inj hread
    exact ⟨c, h, hrun, hattempts, hrivals, (hiff 2).1 _ _ c h hrun⟩
  · obtain ⟨c, h, hrun, hread⟩ := Machine.exists_run_of_exec
      (M := bufferedStack id (0 : ℕ) 2 fun (_ : Fin 3) _ => true) (BufferedStack.contendedPush 0 1)
      (f := fun r => (attempts (Event.access 0) r.2, count (Event.access 0) .rival r.2))
      (b := (2, 1)) (by decide)
    obtain ⟨hattempts, hrivals⟩ := Prod.mk.inj hread
    exact ⟨c, h, hrun, hattempts, hrivals, (hiff 2).2.mpr (.inl (by decide)) c h hrun⟩
  · rcases (hiff (2 ^ 31)).2.mp hlaw with hle | hpush
    · exact absurd hle (by decide)
    · exact absurd (hpush 0 0) (by decide)

/-- With the first capacity that is not an `int` the law does not hold: a thread has pushed up to
the greatest `int`, and its next push never finishes. -/
theorem not_retryLoops_lockFree : ∃ c h,
    (bufferedStack id (0 : ℕ) (2 ^ 31) fun (_ : Fin 2) _ => true).Run
        (bufferedStack id (0 : ℕ) (2 ^ 31) fun (_ : Fin 2) _ => true).init h c ∧
      c.shared.mHead = 2147483647 ∧
      ¬ BufferedStack.RetryLaw id (0 : ℕ) (2 ^ 31) (fun (_ : Fin 2) _ => true) c h := by
  let mayCall : Fin 2 → Op ℕ → Bool := fun _ _ => true
  have hpush : mayCall 0 (.push 0) = true := rfl
  have hmax : intMax < (2 ^ 31 : ℕ) := by decide
  obtain ⟨h, c, hrun, hidle, hhead⟩ :=
    BufferedStack.exists_run_head id 0 hmax hpush 2147483647 (by decide)
  exact ⟨c, h, hrun, hhead, BufferedStack.not_retryLaw (v := 0) hmax hpush hidle hhead⟩

end Multithreading.Stack
