import Multithreading.Ipc.Handshake

/-!
# A semaphore between parent and child

The program `sema` opens a named semaphore and forks. The child waits for the semaphore and the
parent posts it, waits for the child and unlinks the name. The semaphore is opened as it is when its
name is linked, so what a run before has left in it lets the child pass before the parent has
posted.

Every call that the program checks may fail, which ends the process. The labels of the steps choose.

## Main definitions

* `Sema.step`, `sema` — the machine of the two processes.
* `Sema.Inv` — the value of the semaphore against what the processes have done.

## Main results

* `Sema.signals_first_iff` — the child waits for the parent exactly when the semaphore is opened
  with the value zero.
* `Sema.sema_ends` — how the processes end.
-/

open Transition

namespace Multithreading.Ipc

namespace Sema

open Handshake (Semaphore)

/-- The program counter of the parent. -/
inductive Parent
  | semOpen
  | fork
  /-- About to print that it signals. -/
  | signal
  | semPost
  | wait
  | semUnlink
  | exited
  /-- A call has failed. -/
  | failed
  /-- `sem_open` has failed, and nobody has caught the exception. -/
  | aborted
  deriving DecidableEq

/-- The program counter of the child. -/
inductive Child
  | notForked
  /-- About to print that it waits. -/
  | log
  | semWait
  /-- About to print that it has got the signal. -/
  | got
  | semClose
  | exited
  /-- A call has failed. -/
  | failed
  deriving DecidableEq

/-- The process has ended. -/
def Parent.ended : Parent → Bool
  | exited | failed | aborted => true
  | _ => false

@[inherit_doc Parent.ended]
def Child.ended : Child → Bool
  | exited | failed => true
  | _ => false

/-- The state of the program. -/
structure State where
  sema : Semaphore
  parent : Parent
  child : Child
  deriving DecidableEq

/-- The lines that are printed. -/
inductive Event
  | waiting
  | signaling
  | gotSignal
  deriving DecidableEq

/-- How a call ends. -/
inductive Outcome
  | ok
  | fail
  deriving DecidableEq

/-- A step of the parent. -/
def parentStep (s : State) : Parent → Outcome → Option (State × List Event)
  | .semOpen, .ok => some ({ s with sema := s.sema.opened, parent := .fork }, [])
  | .semOpen, .fail => some ({ s with parent := .aborted }, [])
  | .fork, .ok => some ({ s with parent := .signal, child := .log }, [])
  | .signal, .ok => some ({ s with parent := .semPost }, [.signaling])
  | .semPost, .ok =>
    some ({ s with sema := { s.sema with value := s.sema.value + 1 }, parent := .wait }, [])
  | .wait, .ok => if s.child.ended then some ({ s with parent := .semUnlink }, []) else none
  | .semUnlink, .ok =>
    some ({ s with sema := { s.sema with linked := false }, parent := .exited }, [])
  | .fork, .fail | .semPost, .fail | .wait, .fail | .semUnlink, .fail =>
    some ({ s with parent := .failed }, [])
  | .signal, .fail | .exited, _ | .failed, _ | .aborted, _ => none

/-- A step of the child. -/
def childStep (s : State) : Child → Outcome → Option (State × List Event)
  | .log, .ok => some ({ s with child := .semWait }, [.waiting])
  | .semWait, .ok =>
    if 0 < s.sema.value then
      some ({ s with sema := { s.sema with value := s.sema.value - 1 }, child := .got }, [])
    else none
  | .got, .ok => some ({ s with child := .semClose }, [.gotSignal])
  | .semClose, .ok => some ({ s with child := .exited }, [])
  | .semWait, .fail | .semClose, .fail => some ({ s with child := .failed }, [])
  | .log, .fail | .got, .fail | .notForked, _ | .exited, _ | .failed, _ => none

/-- A step of one of the processes. -/
def step (s : State) : Proc × Outcome → Option (State × List Event)
  | (.parent, o) => parentStep s s.parent o
  | (.child, o) => childStep s s.child o

end Sema

/-- `sema`, started with the semaphore as it has been left. -/
def sema (sema₀ : Handshake.Semaphore) : Machine Sema.State (Proc × Sema.Outcome) Sema.Event where
  init := ⟨sema₀, .semOpen, .notForked⟩
  next := Sema.step

namespace Sema

open Handshake (Semaphore)

/-! ### The value of the semaphore -/

/-- How often the parent can have posted. -/
def Parent.Posted : Parent → ℕ → Prop
  | semOpen, n | fork, n | signal, n | semPost, n | aborted, n => n = 0
  | wait, n | semUnlink, n | exited, n => n = 1
  | failed, n => n ≤ 1

/-- How often the child can have passed the semaphore. -/
def Child.Passed : Child → ℕ → Prop
  | notForked, n | log, n | semWait, n => n = 0
  | got, n | semClose, n | exited, n => n = 1
  | failed, n => n ≤ 1

/-- The parent has opened the semaphore. -/
def Parent.opened : Parent → Bool
  | semOpen | aborted => false
  | _ => true

/-- What the processes have done, and the value of the semaphore. -/
structure Inv (sema₀ : Semaphore) (s : State) (h : List Event) : Prop where
  /-- Before the semaphore is opened nothing has happened. -/
  unopened : s.parent.opened = false → s.sema = sema₀
  /-- The value has grown by the posts and fallen by the waits. -/
  value : s.parent.opened = true → ∃ posts waits, s.parent.Posted posts ∧ s.child.Passed waits ∧
    s.sema.value + waits = sema₀.opened.value + posts ∧ (posts = 1 → .signaling ∈ h)
  signaled : s.parent = .semPost → .signaling ∈ h
  unforked : s.parent.opened = false ∨ s.parent = .fork → s.child = .notForked
  forked : s.parent.opened = true → s.parent ≠ .fork → s.parent ≠ .failed → s.child ≠ .notForked
  waited : s.parent = .semUnlink ∨ s.parent = .exited → s.child.ended = true
  unlinked : s.parent = .exited → s.sema.linked = false

variable {sema₀ : Semaphore} {s s' : State} {h es : List Event}

theorem Inv.parent_move (hinv : Inv sema₀ s h) {o : Outcome}
    (hstep : parentStep s s.parent o = some (s', es)) : Inv sema₀ s' (h ++ es) := by
  obtain ⟨hunopened, hvalue, hsignaled, hunforked, hforked, hwaited, hunlinked⟩ := hinv
  obtain ⟨sema, parent, child⟩ := s
  cases parent <;> cases o <;> simp only [parentStep, reduceCtorEq, Option.some.injEq,
    Prod.mk.injEq] at hstep
  case semOpen.ok =>
    obtain ⟨rfl, rfl⟩ := hstep
    obtain rfl : sema = sema₀ := hunopened rfl
    obtain rfl : child = .notForked := hunforked (.inl rfl)
    exact ⟨by simp [Parent.opened], fun _ => ⟨0, 0, rfl, rfl, rfl, by simp⟩, by simp, by simp,
      by simp, by simp, by simp⟩
  case semOpen.fail =>
    obtain ⟨rfl, rfl⟩ := hstep
    exact ⟨fun _ => hunopened rfl, by simp [Parent.opened], by simp, fun _ => hunforked (.inl rfl),
      by simp [Parent.opened], by simp, by simp⟩
  case fork.ok =>
    obtain ⟨rfl, rfl⟩ := hstep
    obtain rfl : child = .notForked := hunforked (.inr rfl)
    refine ⟨by simp [Parent.opened], fun _ => ?_, by simp, by simp [Parent.opened], by simp,
      by simp, by simp⟩
    simpa [Parent.Posted, Child.Passed] using hvalue rfl
  case signal.ok =>
    obtain ⟨rfl, rfl⟩ := hstep
    refine ⟨by simp [Parent.opened], fun _ => ?_, by simp, by simp [Parent.opened],
      fun _ _ _ => hforked rfl (by simp) (by simp), by simp, by simp⟩
    obtain ⟨posts, waits, hposts, hwaits, hsum, -⟩ := hvalue rfl
    exact ⟨posts, waits, hposts, hwaits, hsum, fun _ => by simp⟩
  case semPost.ok =>
    obtain ⟨rfl, rfl⟩ := hstep
    obtain ⟨posts, waits, hposts, hwaits, hsum, -⟩ := hvalue rfl
    obtain rfl : posts = 0 := hposts
    refine ⟨by simp [Parent.opened], fun _ => ⟨1, waits, rfl, hwaits, ?_, fun _ => ?_⟩, by simp,
      by simp [Parent.opened], fun _ _ _ => hforked rfl (by simp) (by simp), by simp, by simp⟩
    · simp only at hsum ⊢
      omega
    · simpa using hsignaled rfl
  case wait.ok =>
    split at hstep
    · rename_i hended
      obtain ⟨rfl, rfl⟩ := Prod.mk.inj (Option.some.inj hstep)
      refine ⟨by simp [Parent.opened], fun _ => ?_, by simp, by simp [Parent.opened],
        fun _ _ _ => hforked rfl (by simp) (by simp), fun _ => hended, by simp⟩
      simpa [Parent.Posted] using hvalue rfl
    · contradiction
  case semUnlink.ok =>
    obtain ⟨rfl, rfl⟩ := hstep
    refine ⟨by simp [Parent.opened], fun _ => ?_, by simp, by simp [Parent.opened],
      fun _ _ _ => hforked rfl (by simp) (by simp), fun _ => hwaited (.inl rfl), by simp⟩
    simpa [Parent.Posted] using hvalue rfl
  -- A call of the parent has failed.
  all_goals
    obtain ⟨rfl, rfl⟩ := hstep
    refine ⟨by simp [Parent.opened], fun _ => ?_, by simp, by simp [Parent.opened], by simp,
      by simp, by simp⟩
    obtain ⟨posts, waits, hposts, hwaits, hsum, hmem⟩ := hvalue rfl
    exact ⟨posts, waits, (show posts ≤ 1 by simp only [Parent.Posted] at hposts; omega), hwaits,
      hsum, by simpa using hmem⟩

theorem Inv.set_child {sema sema' : Semaphore} {parent : Parent} {child child' : Child}
    (hinv : Inv sema₀ ⟨sema, parent, child⟩ h) (hchild : child ≠ .notForked)
    (hchild' : child' ≠ .notForked) (hended : child.ended = false)
    (hlinked : sema'.linked = sema.linked)
    (hcount : ∀ posts waits, child.Passed waits → sema.value + waits = sema₀.opened.value + posts →
      ∃ waits', child'.Passed waits' ∧ sema'.value + waits' = sema₀.opened.value + posts) :
    Inv sema₀ ⟨sema', parent, child'⟩ (h ++ es) := by
  obtain ⟨hunopened, hvalue, hsignaled, hunforked, hforked, hwaited, hunlinked⟩ := hinv
  have hopen : parent.opened = true := by
    by_contra hnot
    exact hchild (hunforked (.inl (Bool.eq_false_iff.mpr hnot)))
  have hfork : parent ≠ .fork := fun hpc => hchild (hunforked (.inr hpc))
  refine ⟨fun hnot => ?_, fun _ => ?_, fun hpc => ?_, fun hpc => ?_, fun _ _ _ => hchild',
    fun hpc => ?_, fun hpc => ?_⟩
  · rw [hopen] at hnot
    contradiction
  · obtain ⟨posts, waits, hposts, hwaits, hsum, hmem⟩ := hvalue hopen
    obtain ⟨waits', hwaits', hsum'⟩ := hcount posts waits hwaits hsum
    exact ⟨posts, waits', hposts, hwaits', hsum', fun hone => List.mem_append_left es (hmem hone)⟩
  · exact List.mem_append_left es (hsignaled hpc)
  · rcases hpc with hpc | hpc
    · rw [hopen] at hpc
      contradiction
    · exact absurd hpc hfork
  · rw [hwaited hpc] at hended
    contradiction
  · rw [hlinked]
    exact hunlinked hpc

theorem Inv.child_move (hinv : Inv sema₀ s h) {o : Outcome}
    (hstep : childStep s s.child o = some (s', es)) : Inv sema₀ s' (h ++ es) := by
  obtain ⟨sema, parent, child⟩ := s
  cases child <;> cases o <;> simp only [childStep, reduceCtorEq, Option.some.injEq,
    Prod.mk.injEq] at hstep
  case semWait.ok =>
    split at hstep
    · obtain ⟨rfl, rfl⟩ := Prod.mk.inj (Option.some.inj hstep)
      refine hinv.set_child (by simp) (by simp) rfl rfl fun posts waits hwaits hsum => ⟨1, rfl, ?_⟩
      obtain rfl : waits = 0 := hwaits
      simp only
      omega
    · contradiction
  case semWait.fail =>
    obtain ⟨rfl, rfl⟩ := hstep
    refine hinv.set_child (by simp) (by simp) rfl rfl fun posts waits hwaits hsum => ⟨0, ?_, ?_⟩
    · exact Nat.zero_le 1
    · obtain rfl : waits = 0 := hwaits
      exact hsum
  all_goals
    obtain ⟨rfl, rfl⟩ := hstep
    exact hinv.set_child (by simp) (by simp) rfl rfl fun posts waits hwaits hsum =>
      ⟨waits, by simp_all [Child.Passed], hsum⟩

theorem inv_of_run (hrun : (sema sema₀).Run (sema sema₀).init h s) : Inv sema₀ s h := by
  refine hrun.invariant (fun s h => Inv sema₀ s h) ?_ ?_
  · exact ⟨fun _ => rfl, by simp [sema, Parent.opened], by simp [sema], fun _ => rfl,
      by simp [sema, Parent.opened], by simp [sema], by simp [sema]⟩
  · rintro h s s' es ⟨_ | _, o⟩ - hinv - hnext
    · exact hinv.parent_move hnext
    · exact hinv.child_move hnext

/-! ### What the child waits for -/

/-- Every `gotSignal` comes after `signaling`. -/
def SignalsFirst (h : List Event) : Prop :=
  ∀ pre post, h = pre ++ Event.gotSignal :: post → Event.signaling ∈ pre

theorem child_of_gotSignal {x : Proc × Outcome} {pre post : List Event}
    (hstep : step s x = some (s', pre ++ .gotSignal :: post)) : pre = [] ∧ s.child = .got := by
  obtain ⟨sema, parent, child⟩ := s
  obtain ⟨_ | _, o⟩ := x
  · cases parent <;> cases o <;>
      simp [step, parentStep, List.cons_eq_append_iff] at hstep
  · cases child <;> cases o <;>
      simp_all [step, childStep, List.cons_eq_append_iff]

/-- The child gets the signal of the parent when the semaphore has been opened with zero. -/
theorem signalsFirst_of_run (hvalue : sema₀.opened.value = 0)
    (hrun : (sema sema₀).Run (sema sema₀).init h s) : SignalsFirst h := by
  intro pre post hh
  have hsignaled : ∀ pre e post, h = pre ++ e :: post → e = .gotSignal → .signaling ∈ pre := by
    refine hrun.forall_event fun {h s s' es} x hrun _ hnext pre e post hes he => ?_
    subst he
    rw [hes] at hnext
    obtain ⟨rfl, hgot⟩ := child_of_gotSignal hnext
    have hinv := inv_of_run hrun
    have hopened : s.parent.opened = true := by
      by_contra hnot
      have hnone := hinv.unforked (.inl (Bool.eq_false_iff.mpr hnot))
      simp [hgot] at hnone
    obtain ⟨posts, waits, hposts, hwaits, hsum, hmem⟩ := hinv.value hopened
    rw [hgot] at hwaits
    obtain rfl : waits = 1 := hwaits
    have hle : posts ≤ 1 := by
      revert hposts
      cases s.parent <;> simp +contextual [Parent.Posted]
    rw [List.append_nil]
    exact hmem (by omega)
  exact hsignaled pre _ post hh rfl

/-- A child that finds a value from before does not wait for the parent. -/
theorem exists_run_early (hvalue : sema₀.opened.value ≠ 0) :
    ∃ s, (sema sema₀).Run (sema sema₀).init [.waiting, .gotSignal] s := by
  have hpos : 0 < sema₀.opened.value := Nat.pos_of_ne_zero hvalue
  have hstart : (sema sema₀).Run (sema sema₀).init [.waiting]
      ⟨sema₀.opened, .signal, .semWait⟩ :=
    Machine.runIf_of_execIf [(.parent, .ok), (.parent, .ok), (.child, .ok)] rfl
  have hpass : (sema sema₀).next ⟨sema₀.opened, .signal, .semWait⟩ (.child, .ok) =
      some (⟨{ sema₀.opened with value := sema₀.opened.value - 1 }, .signal, .got⟩, []) :=
    if_pos hpos
  exact ⟨_, (hstart.tail _ trivial hpass).tail (.child, .ok) trivial rfl⟩

/-- **The child waits for the parent** in every run exactly when the semaphore is opened with the
value zero: when its name is new, or when the runs before have left nothing in it. -/
theorem signals_first_iff (sema₀ : Semaphore) :
    (∀ h s, (sema sema₀).Run (sema sema₀).init h s → SignalsFirst h) ↔
      sema₀.opened.value = 0 := by
  refine ⟨fun hfirst => ?_, fun hvalue h s hrun => signalsFirst_of_run hvalue hrun⟩
  by_contra hvalue
  obtain ⟨s, hrun⟩ := exists_run_early hvalue
  have hmem := hfirst _ _ hrun [.waiting] [] rfl
  simp at hmem

/-! ### The end of the processes -/

/-- The steps that the parent can still take, those of its child included. -/
def Parent.size : Parent → ℕ
  | semOpen => 10
  | fork => 9
  | signal => 4
  | semPost => 3
  | wait => 2
  | semUnlink => 1
  | exited | failed | aborted => 0

/-- The steps that the child can still take. -/
def Child.size : Child → ℕ
  | log => 4
  | semWait => 3
  | got => 2
  | semClose => 1
  | notForked | exited | failed => 0

/-- The steps that are left. -/
def State.size (s : State) : ℕ := s.parent.size + s.child.size

theorem size_lt_of_step {x : Proc × Outcome}
    (hunforked : s.parent = .fork → s.child = .notForked)
    (hstep : step s x = some (s', es)) : s'.size < s.size := by
  obtain ⟨sema, parent, child⟩ := s
  obtain ⟨_ | _, o⟩ := x
  · simp only [step] at hstep
    unfold parentStep at hstep
    split at hstep
    case h_6 =>
      split at hstep
      · obtain ⟨rfl, rfl⟩ := Prod.mk.inj (Option.some.inj hstep)
        simp [State.size, Parent.size]
      · contradiction
    all_goals try contradiction
    all_goals
      obtain ⟨rfl, rfl⟩ := Prod.mk.inj (Option.some.inj hstep)
      simp_all [State.size, Parent.size, Child.size]
  · simp only [step] at hstep
    unfold childStep at hstep
    split at hstep
    case h_2 =>
      split at hstep
      · obtain ⟨rfl, rfl⟩ := Prod.mk.inj (Option.some.inj hstep)
        simp [State.size, Child.size]
      · contradiction
    all_goals try contradiction
    all_goals
      obtain ⟨rfl, rfl⟩ := Prod.mk.inj (Option.some.inj hstep)
      simp [State.size, Child.size]

/-- No call of the child fails. -/
def ChildSucceeds (_ : State) (x : Proc × Outcome) : Prop := x ≠ (.child, .fail)

/-- The processes have ended, or a parent that has failed has left the child behind. -/
def Ended (s : State) : Prop :=
  s.parent.ended = true ∧ (s.child.ended = true ∨ s.child = .notForked ∨
    s.child = .semWait ∧ s.sema.value = 0 ∧ s.parent = .failed)

/-- The processes have ended where nothing can be done but a failure of the child. -/
theorem Inv.ended (hinv : Inv sema₀ s h)
    (hterminal : ∀ x, ChildSucceeds s x → (sema sema₀).next s x = none) : Ended s := by
  have hparent : ∀ o, parentStep s s.parent o = none := fun o =>
    hterminal (.parent, o) (by simp [ChildSucceeds])
  have hchild : childStep s s.child .ok = none :=
    hterminal (.child, .ok) (by simp [ChildSucceeds])
  -- Where the child can be, when it has no step.
  have hplaces : s.child.ended = true ∨ s.child = .notForked ∨
      s.child = .semWait ∧ s.sema.value = 0 := by
    cases hc : s.child with
    | notForked => exact .inr (.inl rfl)
    | exited => exact .inl rfl
    | failed => exact .inl rfl
    | semWait =>
      rw [hc, childStep] at hchild
      split at hchild
      · contradiction
      · rename_i hzero
        exact .inr (.inr ⟨rfl, Nat.eq_zero_of_not_pos hzero⟩)
    | _ => simp [hc, childStep] at hchild
  have hended : s.parent.ended = true := by
    have hfail := hparent .fail
    have hok := hparent .ok
    cases hp : s.parent <;> simp_all [parentStep, Parent.ended]
  refine ⟨hended, hplaces.imp_right fun hplaces => hplaces.imp_right fun hplaces => ?_⟩
  refine ⟨hplaces.1, hplaces.2, ?_⟩
  cases hp : s.parent with
  | failed => rfl
  | exited =>
    have hnot := hinv.waited (.inr hp)
    simp [hplaces.1, Child.ended] at hnot
  | aborted =>
    have hnot := hinv.unforked (.inl (by rw [hp]; rfl))
    simp [hplaces.1] at hnot
  | _ => simp [hp, Parent.ended] at hended

/-- **How the processes end.** When no call of the child fails, every run comes to an end where both
processes have ended, unless a call of the parent has failed: then the child can be left waiting for
a semaphore that nobody posts. A parent that has exited has seen its child end, and the name is
unlinked; when the child has exited as well, the semaphore has the value with which it was opened.
-/
theorem sema_ends (hrun : (sema sema₀).Run (sema sema₀).init h s) :
    (sema sema₀).Inevitable ChildSucceeds Ended s ∧
      (s.parent = .exited → s.child.ended = true ∧ s.sema.linked = false ∧
        (s.child = .exited → s.sema.value = sema₀.opened.value)) := by
  refine ⟨?_, fun hexited => ?_⟩
  · refine Machine.inevitable_of_terminal
      (I := fun s => ∃ h, (sema sema₀).Run (sema sema₀).init h s) _ State.size ?_ ?_ ⟨h, hrun⟩
    · rintro s s' es x ⟨h, hrun⟩ - hnext
      exact ⟨⟨_, hrun.tail x trivial hnext⟩,
        size_lt_of_step (fun hpc => (inv_of_run hrun).unforked (.inr hpc)) hnext⟩
    · rintro s ⟨h, hrun⟩ hterminal
      exact (inv_of_run hrun).ended hterminal
  · have hinv := inv_of_run hrun
    refine ⟨hinv.waited (.inr hexited), hinv.unlinked hexited, fun hchild => ?_⟩
    obtain ⟨posts, waits, hposts, hwaits, hsum, -⟩ := hinv.value (by rw [hexited]; rfl)
    rw [hexited] at hposts
    rw [hchild] at hwaits
    obtain rfl : posts = 1 := hposts
    obtain rfl : waits = 1 := hwaits
    omega

/-- A child that is left waiting by a parent that cannot post, and a run in which both exit. -/
theorem sema_ends_failed :
    (∃ h s, (sema ⟨false, 0⟩).Run (sema ⟨false, 0⟩).init h s ∧ s.child = .semWait ∧
      s.parent = .failed ∧ (sema ⟨false, 0⟩).Inevitable ChildSucceeds Ended s) ∧
    ∃ h s, (sema ⟨true, 2⟩).Run (sema ⟨true, 2⟩).init h s ∧ s.parent = .exited ∧
      s.child = .exited ∧ s.sema.linked = false ∧ s.sema.value = 2 := by
  constructor
  · obtain ⟨s, h, hrun, hpc⟩ := Machine.exists_run_of_exec (M := sema ⟨false, 0⟩)
      [(.parent, .ok), (.parent, .ok), (.child, .ok), (.parent, .ok), (.parent, .fail)]
      (f := fun r => (r.1.child, r.1.parent)) (b := (.semWait, .failed)) (by decide)
    obtain ⟨hchild, hparent⟩ := Prod.mk.inj hpc
    exact ⟨h, s, hrun, hchild, hparent, (sema_ends hrun).1⟩
  · obtain ⟨s, h, hrun, hpc⟩ := Machine.exists_run_of_exec (M := sema ⟨true, 2⟩)
      ([.parent, .parent, .child, .child, .parent, .parent, .child, .child, .parent,
        .parent].map fun p => (p, .ok))
      (f := fun r => (r.1.child, r.1.parent)) (b := (.exited, .exited)) (by decide)
    obtain ⟨hchild, hparent⟩ := Prod.mk.inj hpc
    obtain ⟨-, hlinked, hvalue⟩ := (sema_ends hrun).2 hparent
    exact ⟨h, s, hrun, hparent, hchild, hlinked, hvalue hchild⟩

end Sema

end Multithreading.Ipc
