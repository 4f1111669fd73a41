import Multithreading.Sync.WorkerProgress
import Mathlib.Data.Multiset.OrderedMonoid
import Mathlib.Tactic.Abel

/-!
# Tasks of `Worker` that throw

The `try` block of the worker has the whole loop over the batch in it, and the batch is a variable
of the block around it. A task that throws therefore ends the loop, and what is left of the batch is
destroyed with the variable: the tasks behind the one that threw are neither executed nor put back
into `m_tasks`.

## Main definitions

* `Worker.Accounted` — every task that was appended is executed, has thrown, is in the batch or is
  in `m_tasks`.
* `Worker.ThrowLaw` — a task that throws costs only itself.
* `Worker.ThrowsLast` — the guard.
* `Worker.dropped` — the tasks that a step destroys.

## Main results

* `Worker.Move.account` — what a step does with the tasks.
* `Worker.throwLaw_iff` — the law holds in a run exactly when every task that threw was the last one
  of its batch.
* `Worker.not_throwLaw` — two tasks in a batch, of which the first throws.
-/

open Transition

namespace Multithreading.Sync

namespace Worker

variable {ι : Type*}

/-! ### The law -/

/-- The tasks that threw. -/
def threw (h : List (Event ι)) : List ℤ :=
  h.filterMap fun | .threw task => some task | _ => none

theorem threw_append (h h' : List (Event ι)) : threw (h ++ h') = threw h ++ threw h' :=
  List.filterMap_append

/-- The tasks that have left the worker, and the ones that it still has. -/
def kept (h : List (Event ι)) (s : State ι) : Multiset ℤ :=
  executed h + threw h + (s.worker.batch + s.mTasks)

/-- Each task that was appended to `m_tasks` is exactly one of: executed, itself the one that threw,
in the current batch, or in `m_tasks`. -/
def Accounted (h : List (Event ι)) (s : State ι) : Prop :=
  (pushed h : Multiset ℤ) = kept h s

/-- A task that throws is the last one of its batch. -/
def ThrowsLast (s : State ι) (x : Label ι) : Prop := x = .throws → s.worker.batch.length ≤ 1

instance [DecidableEq ι] (s : State ι) (x : Label ι) : Decidable (ThrowsLast s x) :=
  inferInstanceAs (Decidable (_ → _))

/-! ### One step -/

/-- The tasks that a step destroys: when a task throws, the ones behind it in the batch. -/
def dropped (s : State ι) : Label ι → List ℤ
  | .throws => s.worker.batch.tail
  | _ => []

theorem dropped_eq_nil_iff {s : State ι} {x : Label ι} : dropped s x = [] ↔ ThrowsLast s x := by
  cases x with
  | throws =>
    simp only [dropped, ThrowsLast, forall_const]
    rw [← List.length_eq_zero_iff, List.length_tail]
    omega
  | _ => simp [dropped, ThrowsLast]

variable [DecidableEq ι] {h : List (Event ι)} {s s' : State ι} {x : Label ι} {es : List (Event ι)}

/-- The tasks that were there and the one that is appended go on, leave the worker or are
destroyed. -/
theorem Move.account (hmove : Move s x s' es) :
    s.worker.batch ++ s.mTasks ++ pushed es =
      executed es ++ threw es ++ dropped s x ++ (s'.worker.batch ++ s'.mTasks) := by
  cases hmove <;> simp_all [WorkerThread.batch, executed, threw, pushed, dropped]

/-- Only the tasks that a step destroys get out of the account. -/
theorem Move.kept (hmove : Move s x s' es) :
    kept h s + pushed es = kept (h ++ es) s' + dropped s x := by
  have haccount := congrArg (fun l : List ℤ => (l : Multiset ℤ)) hmove.account
  simp only [← Multiset.coe_add] at haccount
  simp only [Worker.kept, executed_append, threw_append, ← Multiset.coe_add]
  calc executed h + threw h + (s.worker.batch + s.mTasks) + (pushed es : Multiset ℤ)
      = executed h + threw h + (s.worker.batch + s.mTasks + pushed es) := by abel
    _ = executed h + threw h +
          (executed es + threw es + dropped s x + (s'.worker.batch + s'.mTasks)) := by
        rw [haccount]
    _ = executed h + executed es + (threw h + threw es) + (s'.worker.batch + s'.mTasks) +
          dropped s x := by abel

theorem Accounted.move (hacc : Accounted h s) (hlast : ThrowsLast s x) (hmove : Move s x s' es) :
    Accounted (h ++ es) s' := by
  have hkept := hmove.kept (h := h)
  rw [dropped_eq_nil_iff.mpr hlast, Multiset.coe_nil, add_zero, ← hacc] at hkept
  rw [Accounted, pushed_append, ← Multiset.coe_add, hkept]

/-! ### Runs -/

/-- The tasks of which nothing is left. -/
def Lost (h : List (Event ι)) (s : State ι) : Prop := kept h s < (pushed h : Multiset ℤ)

theorem Accounted.lost (hacc : Accounted h s) (hlast : ¬ ThrowsLast s x) (hmove : Move s x s' es) :
    Lost (h ++ es) s' := by
  have hdropped : (dropped s x : Multiset ℤ) ≠ 0 :=
    fun hzero => hlast (dropped_eq_nil_iff.mp (Multiset.coe_eq_zero _ |>.mp hzero))
  rw [Lost, pushed_append, ← Multiset.coe_add, hacc, hmove.kept]
  exact lt_add_of_pos_right _ (pos_iff_ne_zero.mpr hdropped)

theorem Lost.move (hlost : Lost h s) (hmove : Move s x s' es) : Lost (h ++ es) s' := by
  rw [Lost, pushed_append, ← Multiset.coe_add]
  calc kept (h ++ es) s' ≤ kept (h ++ es) s' + dropped s x := le_self_add
    _ = kept h s + pushed es := hmove.kept.symm
    _ < pushed h + pushed es := add_lt_add_left hlost _

variable [Fintype ι]

/-- In every run whose steps all meet the guard, the tasks are accounted for. -/
theorem accounted_of_runIf (hrun : (worker ι).RunIf ThrowsLast (worker ι).init h s) :
    Accounted h s :=
  hrun.invariant (fun s h => Accounted h s) rfl fun _ _ hacc hlast hnext =>
    hacc.move hlast (move_of_step hnext)

/-- A run meets the guard throughout, or it has lost tasks. -/
theorem runIf_or_lost (hrun : (worker ι).Run (worker ι).init h s) :
    (worker ι).RunIf ThrowsLast (worker ι).init h s ∨ Lost h s := by
  refine hrun.invariant (fun s h =>
    (worker ι).RunIf ThrowsLast (worker ι).init h s ∨ Lost h s) (.inl .refl) ?_
  intro h s s' es x _ hor _ hnext
  have hmove : Move s x s' es := move_of_step hnext
  rcases hor with hguarded | hlost
  · by_cases hlast : ThrowsLast s x
    · exact .inl (hguarded.tail x hlast hnext)
    · exact .inr ((accounted_of_runIf hguarded).lost hlast hmove)
  · exact .inr (hlost.move hmove)

/-- A task that throws costs only itself: all tasks are accounted for, and before a stop is
requested the ones in the batch and in `m_tasks` are executed later, when no further one throws. -/
structure ThrowLaw (h : List (Event ι)) (s : State ι) : Prop where
  accounted : Accounted h s
  executed : s.stopRequested = false → (worker ι).Inevitable GoesOn Drained s

/-- **The law of the tasks that throw** holds in a run exactly when every task that threw was the
last one of its batch. -/
theorem throwLaw_iff (hrun : (worker ι).Run (worker ι).init h s) :
    ThrowLaw h s ↔ (worker ι).RunIf ThrowsLast (worker ι).init h s := by
  refine ⟨fun hlaw => (runIf_or_lost hrun).resolve_right fun hlost => ?_, fun hguarded =>
    ⟨accounted_of_runIf hguarded, drains hrun⟩⟩
  have hacc := hlaw.accounted
  rw [Lost, ← hacc] at hlost
  exact lt_irrefl _ hlost

/-- A batch with one task that throws, and a task that is added after the swap. -/
theorem throwLaw_of_last_task : ∃ h s,
    (worker (Fin 1)).Run (worker (Fin 1)).init h s ∧ threw h = [7] ∧ s.mTasks = [8] ∧
      ThrowLaw h s := by
  obtain ⟨s, h, hrun, hs⟩ := Machine.exists_runIf_of_execIf (M := worker (Fin 1)) ThrowsLast
    (List.flatten [[.call 0 7], List.replicate 5 (.addTask 0), List.replicate 5 .worker,
      [.call 0 8], List.replicate 5 (.addTask 0), [.throws]])
    (f := fun r => (threw r.2, r.1.mTasks)) (b := ([7], [8])) (by decide)
  obtain ⟨hthrew, htasks⟩ := Prod.mk.inj hs
  exact ⟨h, s, hrun.run, hthrew, htasks, (throwLaw_iff hrun.run).mpr hrun⟩

/-- The labels by which two tasks are added before the worker swaps, and the first one throws. -/
def throwFirstLabels : List (Label (Fin 1)) :=
  List.flatten [[.call 0 7], List.replicate 5 (.addTask 0), [.call 0 8],
    List.replicate 5 (.addTask 0), List.replicate 5 .worker, [.throws]]

/-- **A task that throws takes the rest of its batch with it.** The second task is nowhere. -/
theorem not_throwLaw : ∃ h s, (worker (Fin 1)).Run (worker (Fin 1)).init h s ∧
    s.stopRequested = false ∧ pushed h = [7, 8] ∧ executed h = [] ∧ threw h = [7] ∧
      s.worker.batch = [] ∧ s.mTasks = [] ∧ ¬ ThrowLaw h s := by
  obtain ⟨s, h, hrun, hs⟩ := Machine.exists_run_of_exec (M := worker (Fin 1)) throwFirstLabels
    (f := fun r => (r.1.stopRequested,
      [pushed r.2, executed r.2, threw r.2, r.1.worker.batch, r.1.mTasks]))
    (b := (false, [[7, 8], [], [7], [], []])) (by decide)
  simp only [Prod.mk.injEq, List.cons.injEq, and_true] at hs
  obtain ⟨hstop, hpushed, hexecuted, hthrew, hbatch, htasks⟩ := hs
  refine ⟨h, s, hrun, hstop, hpushed, hexecuted, hthrew, hbatch, htasks, fun hlaw => ?_⟩
  have hacc := hlaw.accounted
  rw [Accounted, kept, hpushed, hexecuted, hthrew, hbatch, htasks] at hacc
  exact absurd hacc (by decide)

end Worker

end Multithreading.Sync
