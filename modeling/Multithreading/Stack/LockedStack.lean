import Multithreading.Stack.AtomicStack
import Multithreading.Transition.Mutex

/-!
# `SPSCStack`

The stack of a mutex and a `std::stack`, as a machine of any number of threads. A step acquires or
releases `m_mtx`, or is one call on `m_stack`. Between `top` and `pop` the stack has a front element
that has been moved from; nobody sees it, because the thread holds the mutex.

## Main definitions

* `LockedStack.Shared`, `LockedStack.Local`, `LockedStack.step`, `lockedStack` — the machine.
* `LockedStack.Agrees` — the atomic stack as the thread that holds the mutex sees it.

## Main results

* `LockedStack.Agrees.move` — every move is answered by the atomic stack.
* `LockedStack.exists_agrees` — the history of every run is a history of the atomic stack.
-/

open Transition

namespace Multithreading.Stack

namespace LockedStack

open AtomicStack (Pending)

/-- `m_mtx` with its holder, and `m_stack` from its top. -/
structure Shared (ι α : Type*) where
  mMtx : Option ι
  mStack : List α

/-- The program counter of a thread, with the local variables of `Push` and `Pop`. -/
inductive Local (α : Type*)
  | idle
  /-- In `Push`, about to acquire `m_mtx`. -/
  | pushLock (value : α)
  /-- Holding `m_mtx`, about to push. -/
  | push (value : α)
  /-- Holding `m_mtx`, about to release it. -/
  | pushUnlock
  /-- About to return from `Push`. -/
  | pushed
  /-- In `Pop`, about to acquire `m_mtx`. -/
  | popLock
  /-- Holding `m_mtx`, about to test whether the stack is empty. -/
  | popTest
  /-- Holding `m_mtx`, about to move the top into the result. -/
  | popTake
  /-- Holding `m_mtx`, about to pop. -/
  | popPop (result : α)
  /-- Holding `m_mtx`, about to release it. -/
  | popUnlock (result : Option α)
  /-- About to return from `Pop`. -/
  | popped (result : Option α)

/-- What decides a step of a thread. -/
inductive Action (α : Type*)
  | call (op : Op α)
  | tau

variable {ι α : Type*}

/-- Acquiring `m_mtx`, which blocks while it is held. -/
def Shared.acquire (sh : Shared ι α) (i : ι) (l : Local α) :
    Option (Shared ι α × Local α × List (Event ι α)) :=
  if sh.mMtx = none then some ({ sh with mMtx := some i }, l, []) else none

/-- A step of thread `i`. -/
def step (residue : α → α) (i : ι) :
    Action α → Shared ι α → Local α → Option (Shared ι α × Local α × List (Event ι α))
  | .call (.push v), sh, .idle => some (sh, .pushLock v, [.call i (.push v)])
  | .call .pop, sh, .idle => some (sh, .popLock, [.call i .pop])
  | .tau, sh, .pushLock v => sh.acquire i (.push v)
  | .tau, sh, .push v => some ({ sh with mStack := v :: sh.mStack }, .pushUnlock, [.pushed i v])
  | .tau, sh, .pushUnlock => some ({ sh with mMtx := none }, .pushed, [])
  | .tau, sh, .pushed => some (sh, .idle, [.ret i .pushed])
  | .tau, sh, .popLock => sh.acquire i .popTest
  | .tau, ⟨m, []⟩, .popTest => some (⟨m, []⟩, .popUnlock none, [.empty i])
  | .tau, ⟨m, v :: rest⟩, .popTest => some (⟨m, v :: rest⟩, .popTake, [])
  | .tau, ⟨m, v :: rest⟩, .popTake => some (⟨m, residue v :: rest⟩, .popPop v, [])
  | .tau, sh, .popPop v =>
    some ({ sh with mStack := sh.mStack.tail }, .popUnlock (some v), [.popped i])
  | .tau, sh, .popUnlock r => some ({ sh with mMtx := none }, .popped r, [])
  | .tau, sh, .popped r => some (sh, .idle, [.ret i (.popped r)])
  | _, _, _ => none

/-- What a step of thread `i` can do, one case for each branch of `step`. -/
inductive Move (residue : α → α) (i : ι) (sh : Shared ι α) :
    Local α → Shared ι α → Local α → List (Event ι α) → Prop
  | callPush (v : α) : Move residue i sh .idle sh (.pushLock v) [.call i (.push v)]
  | callPop : Move residue i sh .idle sh .popLock [.call i .pop]
  | pushLock (v : α) (hfree : sh.mMtx = none) :
      Move residue i sh (.pushLock v) { sh with mMtx := some i } (.push v) []
  | push (v : α) :
      Move residue i sh (.push v) { sh with mStack := v :: sh.mStack } .pushUnlock [.pushed i v]
  | pushUnlock : Move residue i sh .pushUnlock { sh with mMtx := none } .pushed []
  | pushRet : Move residue i sh .pushed sh .idle [.ret i .pushed]
  | popLock (hfree : sh.mMtx = none) :
      Move residue i sh .popLock { sh with mMtx := some i } .popTest []
  | popEmpty (hempty : sh.mStack = []) :
      Move residue i sh .popTest sh (.popUnlock none) [.empty i]
  | popTest (hempty : sh.mStack ≠ []) : Move residue i sh .popTest sh .popTake []
  | popTake (v : α) (rest : List α) (hstack : sh.mStack = v :: rest) :
      Move residue i sh .popTake { sh with mStack := residue v :: rest } (.popPop v) []
  | popPop (v : α) :
      Move residue i sh (.popPop v) { sh with mStack := sh.mStack.tail } (.popUnlock (some v))
        [.popped i]
  | popUnlock (r : Option α) :
      Move residue i sh (.popUnlock r) { sh with mMtx := none } (.popped r) []
  | popRet (r : Option α) : Move residue i sh (.popped r) sh .idle [.ret i (.popped r)]

theorem move_of_step {residue : α → α} {i : ι} {x : Action α} {sh sh' : Shared ι α}
    {l l' : Local α} {es : List (Event ι α)} (h : step residue i x sh l = some (sh', l', es)) :
    Move residue i sh l sh' l' es := by
  unfold step Shared.acquire at h
  split at h
  all_goals try split at h
  all_goals try contradiction
  all_goals
    obtain ⟨rfl, rfl, rfl⟩ : _ ∧ _ ∧ _ := by simpa using h
    constructor
  all_goals simp_all

end LockedStack

variable {ι α : Type*} [DecidableEq ι]

/-- `SPSCStack` used by the threads `ι`. -/
def lockedStack (ι : Type*) [DecidableEq ι] (residue : α → α) :
    Machine (Config ι (LockedStack.Shared ι α) (LockedStack.Local α))
      (ι × LockedStack.Action α) (Event ι α) :=
  interleave ⟨⟨none, []⟩, fun _ => .idle⟩ (LockedStack.step residue)

namespace LockedStack

open AtomicStack (Pending)

/-- The program counters at which a thread holds `m_mtx`. -/
def Local.inMtx : Local α → Bool
  | push _ | pushUnlock | popTest | popTake | popPop _ | popUnlock _ => true
  | _ => false

/-- The stack as a thread sees it, which has moved its top away before it pops. -/
def Local.view : Local α → List α → List α
  | popPop v, xs => v :: xs.tail
  | _, xs => xs

/-- Where a thread is in its operation on the atomic stack. -/
def Local.Matches (mStack : List α) : Local α → Pending α → Prop
  | idle, p => p = .idle
  | pushLock v, p | push v, p => p = .called (.push v)
  | pushUnlock, p | pushed, p => p = .done .pushed
  | popLock, p | popTest, p => p = .called .pop
  | popTake, p | popPop _, p => p = .called .pop ∧ mStack ≠ []
  | popUnlock r, p | popped r, p => p = .done (.popped r)

theorem Local.Matches.of_outside {mStack mStack' : List α} {l : Local α} {p : Pending α}
    (h : l.Matches mStack p) (hl : l.inMtx = false) : l.Matches mStack' p := by
  cases l <;> simp_all [Local.inMtx, Local.Matches]

/-- The atomic stack has the list that the holder of the mutex sees. -/
structure Agrees (c : Config ι (Shared ι α) (Local α)) (t : AtomicStack.State ι α) : Prop where
  mtx : Mutex.Held c.shared.mMtx fun i => (c.threads i).inMtx
  free : c.shared.mMtx = none → t.shared = c.shared.mStack
  inside : ∀ i, (c.threads i).inMtx = true → t.shared = (c.threads i).view c.shared.mStack
  threads : ∀ i, (c.threads i).Matches c.shared.mStack (t.threads i)

theorem Move.mutexStep {residue : α → α} {c : Config ι (Shared ι α) (Local α)} {i : ι}
    {sh' : Shared ι α} {l' : Local α} {es : List (Event ι α)}
    (hmove : Move residue i c.shared (c.threads i) sh' l' es) :
    Mutex.Step c.shared.mMtx (fun j => (c.threads j).inMtx) sh'.mMtx
      fun j => ((c.set i sh' l').threads j).inMtx := by
  have hkeep := c.comp_set_of_eq i sh' (l := l') Local.inMtx
  generalize hl : c.threads i = l at hmove
  cases hmove with
  | pushLock v hfree | popLock hfree => exact .acquire i hfree rfl (Config.comp_set ..)
  | pushUnlock | popUnlock r => exact .release i (by rw [hl]; rfl) rfl (Config.comp_set ..)
  | _ => exact .keep rfl (hkeep (by rw [hl]; rfl))

namespace Agrees

variable {c : Config ι (Shared ι α) (Local α)} {t : AtomicStack.State ι α} {i : ι}

theorem set (h : Agrees c t) {sh' : Shared ι α} {l' : Local α} {items : List α} {p' : Pending α}
    (hmtx : Mutex.Step c.shared.mMtx (fun j => (c.threads j).inMtx) sh'.mMtx
      fun j => ((c.set i sh' l').threads j).inMtx)
    (hmatches : l'.Matches sh'.mStack p') (hfree : sh'.mMtx = none → items = sh'.mStack)
    (hinside : l'.inMtx = true → items = l'.view sh'.mStack)
    (hother : (c.threads i).inMtx = true ∨ sh'.mStack = c.shared.mStack ∧ items = t.shared) :
    Agrees (c.set i sh' l') (t.set i items p') where
  mtx := hmtx.held h.mtx
  free := hfree
  inside := by
    refine c.forall_set i sh' l' (P := fun _ l => l.inMtx = true → items = l.view sh'.mStack)
      hinside fun j hji hj => ?_
    rcases hother with hi | ⟨hstack, hitems⟩
    · exact absurd (h.mtx.unique (t := j) (u := i) hj hi) hji
    · rw [hitems, hstack]
      exact h.inside j hj
  threads := by
    refine c.forall_set i sh' l'
      (P := fun j l => l.Matches sh'.mStack ((t.set i items p').threads j)) ?_ fun j hji => ?_
    · simpa using hmatches
    · rw [Config.set_threads_of_ne _ _ _ hji]
      rcases hother with hi | ⟨hstack, -⟩
      · refine (h.threads j).of_outside ?_
        by_contra hj
        exact hji (h.mtx.unique (t := j) (u := i) (by simpa using hj) hi)
      · rw [hstack]
        exact h.threads j

/-- **Every move is answered by the atomic stack.** -/
theorem move (h : Agrees c t) {residue : α → α} {sh' : Shared ι α} {l' : Local α}
    {es : List (Event ι α)} (hmove : Move residue i c.shared (c.threads i) sh' l' es) :
    ∃ t', (atomicStack ι α none).Run t es t' ∧ Agrees (c.set i sh' l') t' := by
  have hmtx := hmove.mutexStep
  have hmatches := h.threads i
  have hinside := h.inside i
  have hfree := h.free
  have hholder : (c.threads i).inMtx = true → c.shared.mMtx = some i := (h.mtx i).mpr
  have hset := @set ι α _ c t i h sh' l'
  generalize hl : c.threads i = l at hmove hmatches hinside hholder hset
  -- A step that neither calls nor returns nor takes effect leaves the atomic stack as it is.
  have hsilent {p : Pending α} (hp : t.threads i = p) : t.set i t.shared p = t := by
    rw [← hp, Config.set_self]
  cases hmove with
  | callPush v =>
    exact ⟨_, Spec.Run.single (.call i (.push v) hmatches),
      hset hmtx rfl hfree (by simp [Local.inMtx]) (.inr ⟨rfl, rfl⟩)⟩
  | callPop =>
    exact ⟨_, Spec.Run.single (.call i .pop hmatches),
      hset hmtx rfl hfree (by simp [Local.inMtx]) (.inr ⟨rfl, rfl⟩)⟩
  | pushLock v hnone | popLock hnone =>
    refine ⟨t, .refl, ?_⟩
    rw [← hsilent hmatches]
    exact hset hmtx rfl (by simp) (fun _ => hfree hnone) (.inr ⟨rfl, rfl⟩)
  | push v =>
    refine ⟨_, Spec.Run.single (.push i v hmatches (by simp)), hset hmtx rfl ?_ ?_ (.inl rfl)⟩
    · simp [hholder rfl]
    · exact fun _ => congrArg (v :: ·) (hinside rfl)
  | pushUnlock | popUnlock r =>
    refine ⟨t, .refl, ?_⟩
    rw [← hsilent hmatches]
    exact hset hmtx rfl (fun _ => hinside rfl) (by simp [Local.inMtx]) (.inl rfl)
  | pushRet =>
    exact ⟨_, Spec.Run.single (.ret i .pushed hmatches),
      hset hmtx rfl hfree (by simp [Local.inMtx]) (.inr ⟨rfl, rfl⟩)⟩
  | popEmpty hempty =>
    have hitems : t.shared = [] := (hinside rfl).trans hempty
    refine ⟨_, Spec.Run.single (.empty i hmatches hitems), hset hmtx rfl ?_ ?_ (.inl rfl)⟩
    · simp [hholder rfl]
    · exact fun _ => hinside rfl
  | popTest hempty =>
    refine ⟨t, .refl, ?_⟩
    rw [← hsilent hmatches]
    exact hset hmtx ⟨rfl, hempty⟩ (by simp [hholder rfl]) (fun _ => hinside rfl) (.inl rfl)
  | popTake v rest hstack =>
    refine ⟨t, .refl, ?_⟩
    rw [← hsilent hmatches.1]
    exact hset hmtx ⟨rfl, by simp⟩ (by simp [hholder rfl])
      (fun _ => (hinside rfl).trans hstack) (.inl rfl)
  | popPop v =>
    refine ⟨_, Spec.Run.single (.pop i v _ hmatches.1 (hinside rfl)),
      hset hmtx rfl ?_ ?_ (.inl rfl)⟩
    · simp [hholder rfl]
    · exact fun _ => rfl
  | popRet r =>
    exact ⟨_, Spec.Run.single (.ret i (.popped r) hmatches),
      hset hmtx rfl hfree (by simp [Local.inMtx]) (.inr ⟨rfl, rfl⟩)⟩

end Agrees

omit [DecidableEq ι] in
/-- When the atomic stack is empty, so is `m_stack`, also while a thread has the mutex. -/
theorem Agrees.mStack_eq_nil {c : Config ι (Shared ι α) (Local α)} {t : AtomicStack.State ι α}
    (h : Agrees c t) (ht : t.shared = []) : c.shared.mStack = [] := by
  cases hmtx : c.shared.mMtx with
  | none => exact (h.free hmtx).symm.trans ht
  | some i =>
    have hview := (h.inside i ((h.mtx i).mp hmtx)).symm.trans ht
    cases hl : c.threads i with
    | popPop v => simp [hl, Local.view] at hview
    | _ => simpa [hl, Local.view] using hview

/-- **The history of every run is a history of the atomic stack.** -/
theorem exists_agrees {residue : α → α} {c : Config ι (Shared ι α) (Local α)}
    {h : List (Event ι α)}
    (hrun : (lockedStack ι residue).Run (lockedStack ι residue).init h c) :
    ∃ t, (atomicStack ι α none).Run (atomicStack ι α none).init h t ∧ Agrees c t := by
  refine hrun.refines (R := Agrees) ?_ ?_
  · exact ⟨Mutex.held_none fun _ => rfl, fun _ => rfl, by simp [lockedStack, Local.inMtx],
      fun _ => rfl⟩
  · rintro h c c' es t ⟨i, x⟩ - hagrees - hnext
    obtain ⟨sh', l', hstep, rfl⟩ := interleave_next_eq_some.mp hnext
    exact hagrees.move (move_of_step hstep)

end LockedStack

end Multithreading.Stack
