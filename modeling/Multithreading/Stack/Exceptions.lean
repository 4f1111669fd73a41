import Multithreading.Transition.Exception
import Multithreading.Stack.SingleThread
import Multithreading.Stack.BufferedOccupancy

/-!
# Exceptions in the stacks

The stacks ask nothing of the type of their values, so a move of a value may throw, and an
allocation may throw. A move that throws leaves both operands unchanged, and what the operation has
done before it stays done, except that the mutex is released and that the memory of a `new` whose
constructor throws is given back.

`SPSCStack` moves the top into the result before it pops. `LockFreeSPSCStack` takes the node out of
the chain before it moves the value out of it, and deletes the node after that, so that an exception
of the move loses the value and leaks the node. `BufferedLockFreeSPSCStack` changes `m_head` before
it moves a value into or out of the array.

The compiler may construct `result` in the place of the value that `Pop` returns. When it does not,
that value is moved as well, after everything else.

## Main definitions

* `Throw` — the throw points.
* `LockedStack.raise`, `LinkedStack.raise`, `BufferedStack.raise` — where an operation raises an
  exception, and what it leaves.
* `LockedStack.Since`, `LinkedStack.Since`, `BufferedStack.Since` — what an operation has done so
  far.

## Main results

* `exceptions_atomic_iff` — at which throw points an exception leaves the stack as it was.
* `not_exceptions_atomic` — a push that lets an array grow by a value that was never pushed, and a
  pop that loses its value and leaks its node.
-/

open Transition Memory

namespace Multithreading.Stack

/-- Where an exception comes from. -/
inductive Throw
  /-- An allocation. -/
  | alloc
  /-- The move construction of a value in the stack or in `result`. -/
  | construct
  /-- The move assignment to a slot of the array. -/
  | assign
  /-- The move of `result` into the value that `Pop` returns. -/
  | result
  deriving DecidableEq

variable {α : Type*}

/-- The event is the return of an operation. -/
def Event.Returns {ι : Type*} : Event ι α → Prop
  | ret _ _ => True
  | _ => False

section Leave

variable {S L X : Type*}

/-- An exception that leaves the operation of the only thread. -/
def leave (raise : Throw → S → L → Option S) (idle : L) (t : Throw) (c : Config Unit S L) :
    Option (Config Unit S L) :=
  (raise t c.shared (c.threads ())).map fun sh => c.set () sh idle

theorem leave_eq_some {raise : Throw → S → L → Option S} {idle : L} {t : Throw}
    {c d : Config Unit S L} :
    leave raise idle t c = some d ↔
      ∃ sh, raise t c.shared (c.threads ()) = some sh ∧ c.set () sh idle = d :=
  Option.map_eq_some_iff

/-- A call that exits by an exception: it begins between two operations in the state `c`, and has
come to the state `d` without having returned. -/
abbrev Fails (M : Machine (Config Unit S L) X (Event Unit α)) (raise : Throw → S → L → Option S)
    (idle : L) : Config Unit S L → Throw → Config Unit S L → Config Unit S L → Prop :=
  M.FailedCall (leave raise idle) (fun c => c.threads () = idle) Event.Returns

/-- What the steps of the only thread keep up to its return holds where the call fails. -/
theorem fails_invariant {init : Config Unit S L}
    {step : Unit → X → S → L → Option (S × L × List (Event Unit α))}
    {raise : Throw → S → L → Option S} {idle : L} {c d e : Config Unit S L} {t : Throw}
    (hfails : Fails (interleave init step) raise idle c t d e) (I : S → L → Prop)
    (hidle : I c.shared idle)
    (hstep : ∀ {x sh l sh' l' es}, I sh l → step () x sh l = some (sh', l', es) →
      (∀ y ∈ es, ¬ y.Returns) → I sh' l') :
    I d.shared (d.threads ()) := by
  refine hfails.invariant (fun d => I d.shared (d.threads ())) (by rwa [hfails.idle]) ?_
  rintro d ⟨⟨⟩, x⟩ d' es hd hnext hes
  obtain ⟨sh', l', hstep', rfl⟩ := interleave_next_eq_some.mp hnext
  simpa using hstep hd hstep' hes

end Leave

/-! ### `SPSCStack` -/

namespace LockedStack

/-- Where an operation raises an exception, and the stack that it leaves. -/
def raise (elides : Bool) : Throw → Shared Unit α → Local α → Option (Shared Unit α)
  -- The guard releases the mutex when the exception leaves the function.
  | .alloc, sh, .push _ | .construct, sh, .push _ | .construct, sh, .popTake =>
    some { sh with mMtx := none }
  | .result, sh, .popUnlock (some _) => if elides then none else some { sh with mMtx := none }
  | _, _, _ => none

/-- An exception is raised before the stack is changed, or by the move of the result. -/
theorem raise_cases {elides : Bool} {t : Throw} {sh sh' : Shared Unit α} {l : Local α}
    (h : raise elides t sh l = some sh') : sh' = { sh with mMtx := none } ∧
      (t ≠ .result ∧ ((∃ v, l = .push v) ∨ l = .popTake) ∨
        t = .result ∧ ∃ v, l = .popUnlock (some v)) := by
  unfold raise at h
  split at h
  all_goals try split at h
  all_goals try contradiction
  all_goals obtain rfl := (Option.some.inj h).symm
  all_goals simp

/-- What the operation has done with the list `before` so far. -/
def Since (before now : List α) : Local α → Prop
  | .idle | .pushLock _ | .push _ | .popLock | .popTest | .popTake => now = before
  | .popPop _ => before ≠ [] ∧ now.tail = before.tail
  | .popUnlock (some _) | .popped (some _) => before ≠ [] ∧ now = before.tail
  | .pushUnlock | .pushed | .popUnlock none | .popped none => True

theorem Move.since {residue : α → α} {before : List α} {sh sh' : Shared Unit α} {l l' : Local α}
    {es : List (Event Unit α)} (hsince : Since before sh.mStack l)
    (hmove : Move residue () sh l sh' l' es) (hes : ∀ e ∈ es, ¬ e.Returns) :
    Since before sh'.mStack l' := by
  cases hmove with
  | pushRet | popRet => simp [Event.Returns] at hes
  | popTake v rest hstack =>
    rw [Since, hstack] at hsince
    simp [Since, ← hsince]
  | popPop v => exact hsince
  | popUnlock r =>
    cases r with
    | none => trivial
    | some v => exact hsince
  | push | pushUnlock | popEmpty => trivial
  | _ => exact hsince

/-- `SPSCStack` in one thread, with exceptions. -/
abbrev throwing (residue : α → α) (elides : Bool) :=
  (lockedStack Unit residue).raising (leave (raise elides) .idle)

/-- An exception leaves the list as it was, unless the result has been moved. -/
theorem mStack_eq_iff {residue : α → α} {elides : Bool}
    {c d e : Config Unit (Shared Unit α) (Local α)} {t : Throw}
    (hfails : Fails (lockedStack Unit residue) (raise elides) .idle c t d e) :
    e.shared.mStack = c.shared.mStack ↔ t ≠ .result := by
  have hsince : Since c.shared.mStack d.shared.mStack (d.threads ()) :=
    fails_invariant hfails (fun sh => Since c.shared.mStack sh.mStack) rfl
      fun hsince hstep => (move_of_step hstep).since hsince
  obtain ⟨sh, hraise, rfl⟩ := leave_eq_some.mp hfails.raise
  obtain ⟨rfl, ⟨ht, hpc⟩ | ⟨rfl, v, hpc⟩⟩ := raise_cases hraise
  · have heq : d.shared.mStack = c.shared.mStack := by
      rcases hpc with ⟨v, hpc⟩ | hpc <;> rwa [hpc] at hsince
    simp [heq, ht]
  · rw [hpc] at hsince
    obtain ⟨hne, htail⟩ := hsince
    have hlength : d.shared.mStack.length ≠ c.shared.mStack.length := by
      have hpos := List.length_pos_of_ne_nil hne
      rw [htail, List.length_tail]
      omega
    simpa using fun heq => hlength (congrArg List.length heq)

end LockedStack

/-! ### `LockFreeSPSCStack` -/

namespace LinkedStack

/-- Where an operation raises an exception, and the stack that it leaves. -/
def raise (elides : Bool) : Throw → Shared α → Local α → Option (Shared α)
  -- When the construction of the node throws, its memory is given back.
  | .alloc, sh, .pushNew _ | .construct, sh, .pushNew _ => some sh
  -- The deletion of the node is not reached.
  | .construct, sh, .popTake _ => some sh
  | .result, sh, .popped (some _) => if elides then none else some sh
  | _, _, _ => none

/-- The thread is about to evaluate `new Node(std::move(value))`. -/
def Local.creates : Local α → Bool
  | pushNew _ => true
  | _ => false

/-- An exception is raised by the creation of a node, or after the node has left the chain. -/
theorem raise_cases {elides : Bool} {t : Throw} {sh sh' : Shared α} {l : Local α}
    (h : raise elides t sh l = some sh') : sh' = sh ∧
      ((∃ v, l = .pushNew v) ∨ (∃ a, l = .popTake a) ∨ ∃ v, l = .popped (some v)) := by
  unfold raise at h
  split at h
  all_goals try split at h
  all_goals try contradiction
  all_goals obtain rfl := (Option.some.inj h).symm
  all_goals simp

/-- The chain from `m_head` spells the list. -/
def Shared.Stores (sh : Shared α) (xs : List α) : Prop :=
  ∃ chain, Linked (fun a => (sh.node a).next) sh.mHead chain ∧
    chain.map (fun a => (sh.node a).data) = xs

/-- Every node that is allocated is in the chain from `m_head`. -/
def Shared.NoLeak (sh : Shared α) : Prop :=
  ∀ a, sh.live a = true →
    ∃ chain, Linked (fun a => (sh.node a).next) sh.mHead chain ∧ a ∈ chain

/-- The first node of the stack `before` has been taken out of the chain. -/
structure Unlinked (before now : Shared α) (a : Addr) : Prop where
  head : before.mHead = some a
  rest : now.mHead = (before.node a).next
  next : ∀ b, (now.node b).next = (before.node b).next

/-- What the operation has done with the stack `before` so far. -/
def Since (before now : Shared α) : Local α → Prop
  | .idle | .pushNew _ | .popLoad | .popNext _ => now = before
  | .popCas a next => now = before ∧ next = (before.node a).next
  | .popTake a | .popDelete a _ => Unlinked before now a
  | .popped (some _) => ∃ a, Unlinked before now a
  | .pushLoad _ | .pushLink _ _ | .pushCas _ | .pushed | .popped none => True

theorem since_ofHead (before : Shared α) (p : Option Addr) : Since before before (.ofHead p) := by
  cases p with
  | none => trivial
  | some a => exact rfl

theorem Move.since {residue : α → α} {before sh sh' : Shared α} {x : Action α} {l l' : Local α}
    {es : List (Event Unit α)} (hsince : Since before sh l)
    (hmove : Move residue (fun _ => true) () sh x l sh' l' es) (hes : ∀ e ∈ es, ¬ e.Returns) :
    Since before sh' l' := by
  cases hmove with
  | pushRet | popRet => simp [Event.Returns] at hes
  | popLoad =>
    obtain rfl : sh = before := hsince
    exact since_ofHead sh sh.mHead
  | popNext a =>
    obtain rfl : sh = before := hsince
    exact ⟨rfl, rfl⟩
  | popWin spurious a next hhead =>
    obtain ⟨rfl, rfl⟩ := hsince
    exact ⟨hhead, rfl, fun _ => rfl⟩
  | popLose spurious a next =>
    obtain ⟨rfl, -⟩ := hsince
    exact since_ofHead sh sh.mHead
  | popTake a =>
    obtain ⟨hhead, hrest, hnext⟩ := hsince
    exact ⟨hhead, hrest, fun b => (sh.moveData_next a b residue).trans (hnext b)⟩
  | popDelete a v => exact ⟨a, hsince.head, hsince.rest, hsince.next⟩
  | callPush | callPop => exact hsince
  | _ => trivial

theorem Unlinked.not_stores {before now : Shared α} {a : Addr} {xs : List α}
    (hunlinked : Unlinked before now a) (hxs : before.Stores xs) : ¬ now.Stores xs := by
  obtain ⟨chain, hlinked, rfl⟩ := hxs
  rintro ⟨chain', hlinked', hmap⟩
  rw [hunlinked.rest, funext hunlinked.next] at hlinked'
  have hchain : chain = a :: chain' := hlinked.unique ⟨hunlinked.head, hlinked'⟩
  have hlength := congrArg List.length hmap
  simp [hchain] at hlength

variable {residue : α → α} {raw : Addr → Node α} {elides : Bool}
  {c : Config Unit (Shared α) (Local α)} {h : List (Event Unit α)}

/-- Between two operations that no exception has left, the chain has all nodes. -/
theorem exists_stores_of_run (hrun : (alone residue raw).Run (alone residue raw).init h c)
    (hidle : c.threads () = .idle) : (∃ xs, c.shared.Stores xs) ∧ c.shared.NoLeak := by
  obtain ⟨t, -, chain, hspells⟩ :=
    exists_spells (hrun.strengthen fun _ _ hnext => safeAlloc_of_next hnext)
  refine ⟨⟨_, chain, hspells.linked, rfl⟩, fun a ha => ⟨chain, hspells.linked, ?_⟩⟩
  rcases (hspells.live_iff a).mp ha with hmem | ⟨⟨⟩, hown⟩
  · exact hmem
  · simp [hidle, Local.ownedNode, Local.privateNode, Local.heldNode] at hown

/-- A thread that is about to create a node has changed nothing since its call. -/
theorem exists_run_idle (hrun : (alone residue raw).Run (alone residue raw).init h c)
    (hcreates : (c.threads ()).creates = true) :
    ∃ h', (alone residue raw).Run (alone residue raw).init h' (c.set () c.shared .idle) := by
  refine hrun.invariant (fun c _ => (c.threads ()).creates = true →
    ∃ h', (alone residue raw).Run (alone residue raw).init h' (c.set () c.shared .idle)) ?_ ?_
    hcreates
  · intro hcreates
    contradiction
  · rintro h c c' es ⟨⟨⟩, x⟩ hrun - - hnext
    obtain ⟨sh', l', hstep, rfl⟩ := interleave_next_eq_some.mp hnext
    have hmove := move_of_step hstep
    rw [Config.set_threads_self, Config.set_shared, Config.set_set]
    intro hcreates
    generalize hl : c.threads () = l at hmove
    cases hmove with
    | callPush v => exact ⟨h, by rwa [← hl, Config.set_self]⟩
    | popLoad | popLose =>
      cases hhead : c.shared.mHead <;> simp [hhead, Local.ofHead, Local.creates] at hcreates
    | _ => contradiction

/-- `LockFreeSPSCStack` in one thread, with exceptions. -/
abbrev throwing (residue : α → α) (raw : Addr → Node α) (elides : Bool) :=
  (alone residue raw).raising (leave (raise elides) .idle)

/-- Exceptions are raised only by the creation of a node. -/
def InCreation (c : Config Unit (Shared α) (Local α)) (x : (Unit × Action α) ⊕ Throw) : Prop :=
  ∀ t, x = .inr t → (c.threads ()).creates = true

instance (c : Config Unit (Shared α) (Local α)) (x : (Unit × Action α) ⊕ Throw) :
    Decidable (InCreation c x) :=
  match x with
  | .inl _ => isTrue nofun
  | .inr _ => decidable_of_iff ((c.threads ()).creates = true) ⟨fun h _ _ => h, fun h => h _ rfl⟩

/-- Under the guard, the exceptions do not reach other states. -/
theorem exists_run_of_throwing
    (hrun : (throwing residue raw elides).RunIf InCreation (throwing residue raw elides).init h c) :
    ∃ h', (alone residue raw).Run (alone residue raw).init h' c := by
  refine Machine.exists_run_of_raising ?_ hrun
  intro h c t d hrun hok hraise
  obtain ⟨sh, hleave, rfl⟩ := leave_eq_some.mp hraise
  obtain ⟨rfl, -⟩ := raise_cases hleave
  exact exists_run_idle hrun (hok t rfl)

/-- An exception leaves the list as it was and no node outside the chain exactly when it is raised
by the creation of a node. -/
theorem stores_iff
    (hrun : (throwing residue raw elides).RunIf InCreation (throwing residue raw elides).init h c)
    {d e : Config Unit (Shared α) (Local α)} {t : Throw}
    (hfails : Fails (alone residue raw) (raise elides) .idle c t d e) :
    ((∀ xs, e.shared.Stores xs ↔ c.shared.Stores xs) ∧ e.shared.NoLeak) ↔
      (d.threads ()).creates = true := by
  have hsince : Since c.shared d.shared (d.threads ()) :=
    fails_invariant hfails (Since c.shared) rfl fun hsince hstep =>
      (move_of_step hstep).since hsince
  obtain ⟨h', hrun'⟩ := exists_run_of_throwing hrun
  obtain ⟨⟨xs, hxs⟩, hnoLeak⟩ := exists_stores_of_run hrun' hfails.idle
  obtain ⟨sh, hraise, rfl⟩ := leave_eq_some.mp hfails.raise
  obtain ⟨rfl, hpc⟩ := raise_cases hraise
  have hchanged (a : Addr) (hunlinked : Unlinked c.shared d.shared a) :
      ¬ ∀ xs, d.shared.Stores xs ↔ c.shared.Stores xs :=
    fun heq => hunlinked.not_stores hxs ((heq xs).mpr hxs)
  rw [Config.set_shared]
  rcases hpc with ⟨v, hpc⟩ | ⟨a, hpc⟩ | ⟨v, hpc⟩
  · rw [hpc] at hsince
    have hkept : d.shared = c.shared := hsince
    simp [hpc, Local.creates, hkept, hnoLeak]
  · rw [hpc] at hsince
    simp [hpc, Local.creates, hchanged a hsince]
  · rw [hpc] at hsince
    obtain ⟨a, hunlinked⟩ := hsince
    simp [hpc, Local.creates, hchanged a hunlinked]

end LinkedStack

/-! ### `BufferedLockFreeSPSCStack` -/

namespace BufferedStack

/-- Where an operation raises an exception, and the stack that it leaves. -/
def raise (elides : Bool) : Throw → Shared α → Local α → Option (Shared α)
  -- The slot and the value keep what they have, and the counter has been changed already.
  | .assign, sh, .pushWrite _ _ | .construct, sh, .popRead _ => some sh
  | .result, sh, .popped (some _) => if elides then none else some sh
  | _, _, _ => none

/-- An exception is raised after `m_head` has been changed. -/
theorem raise_cases {elides : Bool} {t : Throw} {sh sh' : Shared α} {l : Local α}
    (h : raise elides t sh l = some sh') : sh' = sh ∧
      ((∃ v top, l = .pushWrite v top) ∨ (∃ top, l = .popRead top) ∨
        ∃ v, l = .popped (some v)) := by
  unfold raise at h
  split at h
  all_goals try split at h
  all_goals try contradiction
  all_goals obtain rfl := (Option.some.inj h).symm
  all_goals simp

/-- What the operation has done with the counter `before` so far. -/
def Since (before now : ℤ) : Local α → Prop
  | .idle | .pushLoad _ | .pushCas _ _ | .popLoad => now = before
  | .popCas top => now = before ∧ top ≠ 0
  | .pushWrite _ _ => now = before + 1 ∧ Fits now
  | .popRead _ | .popped (some _) => now = before - 1 ∧ before ≠ 0
  | .pushed | .rejected | .popped none | .undefined => True

variable {residue : α → α} {init : α} {capacity : ℕ} {elides : Bool}

theorem Move.since {before : ℤ} {sh sh' : Shared α} {x : Action α} {l l' : Local α}
    {es : List (Event Unit α)} (hsince : Since before sh.mHead l)
    (hmove : Move residue capacity (fun _ _ => true) () sh x l sh' l' es)
    (hes : ∀ e ∈ es, ¬ e.Returns) : Since before sh'.mHead l' := by
  cases hmove with
  | pushRet | rejectRet | popRet => simp [Event.Returns] at hes
  | popLoad hzero => exact ⟨hsince, hzero⟩
  | pushWin spurious v top hfits hhead =>
    obtain rfl : sh.mHead = before := hsince
    exact ⟨by rw [hhead], hfits⟩
  | popWin spurious top hfits hhead =>
    obtain ⟨rfl, hzero⟩ := hsince
    exact ⟨by rw [hhead], by rwa [hhead]⟩
  | popLose spurious top hfits => exact hsince.1
  | popRead top hbound => exact hsince
  | callPush | callPop | pushLoad | pushLose => exact hsince
  | _ => trivial

/-- `BufferedLockFreeSPSCStack` in one thread, with exceptions. -/
abbrev throwing (residue : α → α) (init : α) (capacity : ℕ) (elides : Bool) :=
  (alone residue init capacity).raising (leave (raise elides) .idle)

variable {c : Config Unit (Shared α) (Local α)} {h : List (Event Unit α)}

theorem inRange_of_throwing
    (hrun : (throwing residue init capacity elides).Run (throwing residue init capacity elides).init
      h c) : c.shared.InRange capacity := by
  refine (Machine.invariant_of_raising
    (fun c => c.shared.InRange capacity ∧ (c.threads ()).InRange capacity) ?_ ?_ ?_ hrun).1
  · exact ⟨⟨le_rfl, Int.natCast_nonneg capacity, show (0 : ℤ) ≤ intMax by decide⟩, trivial⟩
  · rintro c c' ⟨⟨⟩, x⟩ es ⟨hsh, hl⟩ hnext
    obtain ⟨sh', l', hstep, rfl⟩ := interleave_next_eq_some.mp hnext
    simpa using (move_of_step hstep).inRange hsh hl
  · rintro c c' t ⟨hsh, -⟩ hraise
    obtain ⟨sh, hleave, rfl⟩ := leave_eq_some.mp hraise
    obtain ⟨rfl, -⟩ := raise_cases hleave
    rw [Config.set_threads_self]
    exact ⟨hsh, trivial⟩

/-- Every exception leaves an array with more or fewer elements than before the call. -/
theorem left_ne
    (hrun : (throwing residue init capacity elides).Run (throwing residue init capacity elides).init
      h c) {d e : Config Unit (Shared α) (Local α)} {t : Throw}
    (hfails : Fails (alone residue init capacity) (raise elides) .idle c t d e) :
    e.shared.left ≠ c.shared.left := by
  have hsince : Since c.shared.mHead d.shared.mHead (d.threads ()) :=
    fails_invariant hfails (fun sh => Since c.shared.mHead sh.mHead) rfl fun hsince hstep =>
      (move_of_step hstep).since hsince
  obtain ⟨hlow, -, hhigh⟩ := inRange_of_throwing hrun
  obtain ⟨sh, hraise, rfl⟩ := leave_eq_some.mp hfails.raise
  obtain ⟨rfl, hpc⟩ := raise_cases hraise
  intro heq
  have hlength : toSizeT d.shared.mHead = toSizeT c.shared.mHead := by
    simpa [Shared.left] using congrArg List.length heq
  rcases hpc with ⟨v, top, hpc⟩ | ⟨top, hpc⟩ | ⟨v, hpc⟩
  · rw [hpc] at hsince
    obtain ⟨hnow, -, hfits⟩ := hsince
    rw [intMax] at hhigh hfits
    rw [toSizeT, toSizeT] at hlength
    omega
  all_goals
    rw [hpc] at hsince
    obtain ⟨hnow, hzero⟩ := hsince
    rw [intMax] at hhigh
    rw [toSizeT, toSizeT] at hlength
    omega

end BufferedStack

/-! ### The three stacks -/

/-- **When a call that exits by an exception leaves the stack as it was.** `SPSCStack` has the list
of before the call exactly when the exception is not raised by the move of the result, that is, in
every `Push` and in the `Pop` before the value is popped. `LockFreeSPSCStack` has the list of before
and no node outside the chain exactly when the exception is raised in `Push`, by the creation of
the node; this is about the runs whose earlier exceptions were raised there too. The list of
`BufferedLockFreeSPSCStack` is never the one of before. -/
theorem exceptions_atomic_iff (residue : α → α) (raw : LinkedStack.Addr → LinkedStack.Node α)
    (init : α) (capacity : ℕ) (elides : Bool) :
    (∀ h c t d e, (LockedStack.throwing residue elides).Run
        (LockedStack.throwing residue elides).init h c →
      Fails (lockedStack Unit residue) (LockedStack.raise elides) .idle c t d e →
        (e.shared.mStack = c.shared.mStack ↔ t ≠ .result)) ∧
    (∀ h c t d e, (LinkedStack.throwing residue raw elides).RunIf LinkedStack.InCreation
        (LinkedStack.throwing residue raw elides).init h c →
      Fails (LinkedStack.alone residue raw) (LinkedStack.raise elides) .idle c t d e →
        ((∀ xs, e.shared.Stores xs ↔ c.shared.Stores xs) ∧ e.shared.NoLeak ↔
          (d.threads ()).creates = true)) ∧
    ∀ h c t d e, (BufferedStack.throwing residue init capacity elides).Run
        (BufferedStack.throwing residue init capacity elides).init h c →
      Fails (BufferedStack.alone residue init capacity) (BufferedStack.raise elides) .idle c t d e →
        e.shared.left ≠ c.shared.left :=
  ⟨fun _ _ _ _ _ _ hfails => LockedStack.mStack_eq_iff hfails,
    fun _ _ _ _ _ hrun hfails => LinkedStack.stores_iff hrun hfails,
    fun _ _ _ _ _ hrun hfails => BufferedStack.left_ne hrun hfails⟩

/-- A heap without contents. -/
def blank (_ : LinkedStack.Addr) : LinkedStack.Node ℤ := ⟨0, none⟩

/-- `LockFreeSPSCStack` after a push of 7. -/
def single : LinkedStack.Shared ℤ :=
  { (LinkedStack.Shared.new ⟨none, blank, fun _ => false⟩ 0 7).setNext 0 none with mHead := some 0 }

/-- A push fails in each of the stacks and the next one, of 7, succeeds. After that a pop that fails
leaves the list of `SPSCStack` as it was; a push that fails leaves the chain of `LockFreeSPSCStack`
as it was and a pop that fails does not; the array has changed after a pop that fails. -/
theorem exceptions_atomic_iff_single :
    (∃ h c d e, (LockedStack.throwing id true).Run (LockedStack.throwing id true).init h c ∧
      Fails (lockedStack Unit id) (LockedStack.raise true) .idle c .construct d e ∧
        c.shared.mStack = [(7 : ℤ)] ∧ e.shared.mStack = [7]) ∧
    (∃ h c, (LinkedStack.throwing id blank true).RunIf LinkedStack.InCreation
        (LinkedStack.throwing id blank true).init h c ∧ c.shared.Stores [7] ∧
      (∃ d e, Fails (LinkedStack.alone id blank) (LinkedStack.raise true) .idle c .alloc d e ∧
        e.shared.Stores [7] ∧ e.shared.NoLeak) ∧
      ∃ d e, Fails (LinkedStack.alone id blank) (LinkedStack.raise true) .idle c .construct d e ∧
        ¬ ((∀ xs, e.shared.Stores xs ↔ c.shared.Stores xs) ∧ e.shared.NoLeak)) ∧
    ∃ h c d e, (BufferedStack.throwing id (0 : ℤ) 4 true).Run
        (BufferedStack.throwing id 0 4 true).init h c ∧
      Fails (BufferedStack.alone id (0 : ℤ) 4) (BufferedStack.raise true) .idle c .construct d e ∧
        c.shared.left = [0, 7] ∧ e.shared.left ≠ [0, 7] := by
  obtain ⟨hlocked, hlinked, hbuffered⟩ := exceptions_atomic_iff (id : ℤ → ℤ) blank 0 4 true
  refine ⟨?_, ?_, ?_⟩
  · have hrun : (LockedStack.throwing (id : ℤ → ℤ) true).Run (LockedStack.throwing id true).init
        [.call () (.push 3), .call () (.push 7), .pushed () 7, .ret () .pushed]
        ⟨⟨none, [7]⟩, fun _ => .idle⟩ :=
      Machine.runIf_of_execIf [.inl ((), .call (.push 3)), .inl ((), .tau), .inr .alloc,
        .inl ((), .call (.push 7)), .inl ((), .tau), .inl ((), .tau), .inl ((), .tau),
        .inl ((), .tau)] rfl
    have hfails : Fails (lockedStack Unit id) (LockedStack.raise true) .idle
        ⟨⟨none, [(7 : ℤ)]⟩, fun _ => .idle⟩ .construct ⟨⟨some (), [7]⟩, fun _ => .popTake⟩
          ⟨⟨none, [7]⟩, fun _ => .idle⟩ :=
      ⟨rfl, ⟨[.call () .pop], Machine.runIf_of_execIf
        [((), .call .pop), ((), .tau), ((), .tau)] rfl, by simp [Event.Returns]⟩, rfl⟩
    exact ⟨_, _, _, _, hrun, hfails, rfl, (hlocked _ _ _ _ _ hrun hfails).mpr (by decide)⟩
  · have hrun : (LinkedStack.throwing id blank true).RunIf LinkedStack.InCreation
        (LinkedStack.throwing id blank true).init
        [.call () (.push 3), .call () (.push 7), .load (), .pushed () 7, .ret () .pushed]
        ⟨single, fun _ => .idle⟩ :=
      Machine.runIf_of_execIf (.inl ((), .call (.push 3)) :: .inr .construct ::
        (LinkedStack.pushAlone () 7 0).map .inl) rfl
    have hstores : single.Stores [7] := ⟨[0], ⟨rfl, rfl⟩, rfl⟩
    have hpush : Fails (LinkedStack.alone id blank) (LinkedStack.raise true) .idle
        ⟨single, fun _ => .idle⟩ .alloc ⟨single, fun _ => .pushNew 8⟩ ⟨single, fun _ => .idle⟩ :=
      ⟨rfl, ⟨[.call () (.push 8)], Machine.runIf_of_execIf
        [((), .call (.push 8))] rfl, by simp [Event.Returns]⟩, rfl⟩
    have hpop : Fails (LinkedStack.alone id blank) (LinkedStack.raise true) .idle
        ⟨single, fun _ => .idle⟩ .construct ⟨{ single with mHead := none }, fun _ => .popTake 0⟩
          ⟨{ single with mHead := none }, fun _ => .idle⟩ :=
      ⟨rfl, ⟨[.call () .pop, .load (), .popped ()], Machine.runIf_of_execIf
        [((), .call .pop), ((), .tau), ((), .tau), ((), .cas false)] rfl,
        by simp [Event.Returns]⟩, rfl⟩
    obtain ⟨hkept, hnoLeak⟩ := (hlinked _ _ _ _ _ hrun hpush).mpr rfl
    exact ⟨_, _, hrun, hstores, ⟨_, _, hpush, (hkept [7]).mpr hstores, hnoLeak⟩, _, _, hpop,
      fun hatomic => absurd ((hlinked _ _ _ _ _ hrun hpop).mp hatomic) (by decide)⟩
  · have hrun : (BufferedStack.throwing id (0 : ℤ) 4 true).Run
        (BufferedStack.throwing id 0 4 true).init
        [.call () (.push 3), .load (), .pushed () 3, .call () (.push 7), .load (), .pushed () 7,
          .ret () .pushed]
        ⟨⟨2, Function.update (fun _ => 0) 1 7⟩, fun _ => .idle⟩ :=
      Machine.runIf_of_execIf [.inl ((), .call (.push 3)), .inl ((), .tau), .inl ((), .cas false),
        .inr .assign, .inl ((), .call (.push 7)), .inl ((), .tau), .inl ((), .cas false),
        .inl ((), .tau), .inl ((), .tau)] rfl
    have hfails : Fails (BufferedStack.alone id (0 : ℤ) 4) (BufferedStack.raise true) .idle
        ⟨⟨2, Function.update (fun _ => 0) 1 7⟩, fun _ => .idle⟩ .construct
          ⟨⟨1, Function.update (fun _ => 0) 1 7⟩, fun _ => .popRead 2⟩
          ⟨⟨1, Function.update (fun _ => 0) 1 7⟩, fun _ => .idle⟩ :=
      ⟨rfl, ⟨[.call () .pop, .load (), .popped ()], Machine.runIf_of_execIf
        [((), .call .pop), ((), .tau), ((), .cas false)] rfl, by simp [Event.Returns]⟩, rfl⟩
    exact ⟨_, _, _, _, hrun, hfails, rfl, hbuffered _ _ _ _ _ hrun hfails⟩

/-- **A push that fails can add a value that was never pushed, and a pop that fails can lose its
value and leak its node.** -/
theorem not_exceptions_atomic :
    (∃ d e, Fails (BufferedStack.alone id (0 : ℤ) 4) (BufferedStack.raise true) .idle
        (BufferedStack.alone id 0 4).init .assign d e ∧ e.shared.left = [0]) ∧
      ∃ h c d e, (LinkedStack.alone id blank).Run (LinkedStack.alone id blank).init h c ∧
        Fails (LinkedStack.alone id blank) (LinkedStack.raise true) .idle c .construct d e ∧
          c.shared.Stores [7] ∧ e.shared.Stores [] ∧ ¬ e.shared.NoLeak := by
  constructor
  · refine ⟨⟨⟨1, fun _ => 0⟩, fun _ => .pushWrite 7 0⟩, ⟨⟨1, fun _ => 0⟩, fun _ => .idle⟩,
      ⟨rfl, ⟨[.call () (.push 7), .load (), .pushed () 7], ?_, by simp [Event.Returns]⟩, rfl⟩, rfl⟩
    exact Machine.runIf_of_execIf [((), .call (.push 7)), ((), .tau), ((), .cas false)] rfl
  · refine ⟨[.call () (.push 7), .load (), .pushed () 7, .ret () .pushed],
      ⟨single, fun _ => .idle⟩, ⟨{ single with mHead := none }, fun _ => .popTake 0⟩,
      ⟨{ single with mHead := none }, fun _ => .idle⟩,
      Machine.runIf_of_execIf (LinkedStack.pushAlone () 7 0) rfl,
      ⟨rfl, ⟨[.call () .pop, .load (), .popped ()], ?_, by simp [Event.Returns]⟩, rfl⟩,
      ⟨[0], ⟨rfl, rfl⟩, rfl⟩, ⟨[], rfl, rfl⟩, ?_⟩
    · exact Machine.runIf_of_execIf
        [((), .call .pop), ((), .tau), ((), .tau), ((), .cas false)] rfl
    · intro hnoLeak
      obtain ⟨chain, hlinked, hmem⟩ := hnoLeak 0 rfl
      cases chain with
      | nil => simp at hmem
      | cons a chain => exact absurd hlinked.1 (by simp)

end Multithreading.Stack
