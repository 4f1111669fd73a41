import Multithreading.Sync.WorkerShutdown

/-!
# The order of the tasks of `Worker`

A task is appended to `m_tasks` under the mutex, all tasks are swapped into the batch of the worker
under the mutex, and the worker executes its batch from the front. So the executed tasks, the rest
of the batch and `m_tasks` are always the tasks in the order in which they were appended, as long as
no task throws: a task that throws takes the rest of its batch with it.

## Main definitions

* `Worker.executed`, `Worker.pushed` — the executed tasks, and the tasks in the order in which they
  were appended.
* `Worker.WorkerThread.batch` — the rest of the batch of the worker.

## Main results

* `Worker.worker_in_order` — the order, and the notification that a worker asleep on tasks has
  coming.
-/

open Transition

namespace Multithreading.Sync

namespace Worker

variable {ι : Type*}

/-- The executed tasks. -/
def executed (h : List (Event ι)) : List ℤ :=
  h.filterMap fun | .executed task => some task | _ => none

/-- The tasks in the order in which they were appended to `m_tasks`. -/
def pushed (h : List (Event ι)) : List ℤ :=
  h.filterMap fun | .pushed _ task => some task | _ => none

theorem executed_append (h h' : List (Event ι)) : executed (h ++ h') = executed h ++ executed h' :=
  List.filterMap_append

theorem pushed_append (h h' : List (Event ι)) : pushed (h ++ h') = pushed h ++ pushed h' :=
  List.filterMap_append

/-- The tasks of the batch that the worker has not yet executed. -/
def WorkerThread.batch : WorkerThread → List ℤ
  | unlock tasks | execute tasks => tasks
  | _ => []

/-- No task throws. -/
def NoThrow (_ : State ι) (x : Label ι) : Prop := x ≠ .throws

instance [DecidableEq ι] (s : State ι) (x : Label ι) : Decidable (NoThrow s x) :=
  inferInstanceAs (Decidable (_ ≠ _))

variable [DecidableEq ι]

/-- A step executes the first task of the batch, appends a task, or moves tasks from `m_tasks` into
the batch, unless a task throws. -/
theorem Move.batch {s s' : State ι} {x : Label ι} {es : List (Event ι)} (hx : NoThrow s x)
    (hmove : Move s x s' es) :
    s.worker.batch ++ s.mTasks ++ pushed es = executed es ++ s'.worker.batch ++ s'.mTasks := by
  cases hmove with
  | throws => exact absurd rfl hx
  | _ => simp_all [WorkerThread.batch, executed, pushed]

variable [Fintype ι]

/-- **Order and attendance.** In every run in which no task throws, the executed tasks, the rest of
the batch of the worker and `m_tasks` are the tasks in the order in which they were appended; and
while the worker is asleep with tasks in `m_tasks`, an `AddTask` has appended a task and has not yet
called `notify_one`. -/
theorem worker_in_order {h : List (Event ι)} {s : State ι}
    (hrun : (worker ι).RunIf NoThrow (worker ι).init h s) :
    executed h ++ s.worker.batch ++ s.mTasks = pushed h ∧
      (s.worker = .blocked → s.asleep = true → s.mTasks ≠ [] →
        ∃ i, (s.addTask i).notifies = true) := by
  refine ⟨?_, fun _ => (inv_of_run hrun.run).attended⟩
  refine hrun.invariant (fun s h => executed h ++ s.worker.batch ++ s.mTasks = pushed h) rfl ?_
  intro h s s' es x _ heq hx hnext
  have hbatch := (move_of_step hnext : Move s x s' es).batch hx
  rw [executed_append, pushed_append, ← heq]
  simp only [List.append_assoc] at hbatch ⊢
  rw [hbatch]

/-- A task is executed, the next one is in `m_tasks`, and its `AddTask` is about to notify. -/
theorem worker_in_order_two_tasks : ∃ h s,
    (worker (Fin 1)).RunIf NoThrow (worker (Fin 1)).init h s ∧ executed h = [7] ∧
      pushed h = [7, 8] ∧ s.mTasks = [8] ∧ ∃ i, (s.addTask i).notifies = true := by
  obtain ⟨s, h, hrun, hs⟩ := Machine.exists_runIf_of_execIf (M := worker (Fin 1)) NoThrow
    (List.flatten [[.call 0 7], List.replicate 5 (.addTask 0), List.replicate 11 .worker,
      [.call 0 8], List.replicate 3 (.addTask 0)])
    (f := fun r => (r.1.worker, r.1.asleep, r.1.mTasks, executed r.2, pushed r.2))
    (b := (.blocked, true, [8], [7], [7, 8])) (by decide)
  simp only [Prod.mk.injEq] at hs
  obtain ⟨hworker, hasleep, htasks, hexecuted, hpushed⟩ := hs
  exact ⟨h, s, hrun, hexecuted, hpushed, htasks,
    (worker_in_order hrun).2 hworker hasleep (by simp [htasks])⟩

end Worker

end Multithreading.Sync
