import Multithreading.Sync.WorkerOrder
import Multithreading.Transition.Threads

/-!
# The progress of `Worker`

Before a stop is requested the worker does not end, and a worker that is asleep on tasks has a
notification coming. So the tasks in the batch and in `m_tasks` are executed: when no further task
is added, the calls of `AddTask` that are in progress and the worker come to a state in which the
worker has no task left.

## Main definitions

* `Worker.GoesOn` — the steps of `AddTask` and of the worker that are neither calls nor exceptions
  nor spurious wake-ups.
* `Worker.Drained` — the worker has no task left.
* `Worker.Tested` — what the worker has seen before it swaps and before it ends.

## Main results

* `Worker.Move.weight_lt` — every such step goes on.
* `Worker.drains` — the worker executes what it has.
-/

open Transition

namespace Multithreading.Sync

namespace Worker

variable {ι : Type*}

/-- A call of `AddTask` or the worker goes on. -/
def GoesOn (_ : State ι) (x : Label ι) : Prop := x = .worker ∨ ∃ i, x = .addTask i

/-- The worker has no task left. -/
def Drained (s : State ι) : Prop := s.worker.batch = [] ∧ s.mTasks = []

/-- The worker swaps when it has seen tasks, and ends when it has seen the request to stop. -/
structure Tested (s : State ι) : Prop where
  swap : s.worker = .swap → s.mTasks ≠ []
  finished : s.worker = .finished → s.stopRequested = true

/-- A bound on the steps of a call that are left, with the steps of the worker that it causes. -/
def AddTask.weight : AddTask → ℕ
  | idle => 0
  | ret => 1
  | notify => 6
  | unlock => 7
  | push _ => 16
  | lock _ => 17

/-- A bound on the steps of the worker up to its sleep, with the tasks in `m_tasks` aside. -/
def WorkerThread.weight (asleep : Bool) : WorkerThread → ℕ
  | finished => 0
  | blocked => if asleep then 0 else 4
  | block | swap => 1
  | testTasks => 2
  | lock | woken => 3
  | checkStop => 4
  | execute tasks => 5 + tasks.length
  | unlock tasks => 6 + tasks.length

variable [DecidableEq ι] {s s' : State ι} {x : Label ι} {es : List (Event ι)}

theorem Tested.move (htested : Tested s) (hmove : Move s x s' es) : Tested s' where
  swap := by
    have hswap := htested.swap
    cases hmove <;> simp_all
  finished := by
    have hfinished := htested.finished
    cases hmove <;> simp_all

variable [Fintype ι]

/-- A bound on the steps that are left. -/
def State.weight (s : State ι) : ℕ :=
  ∑ i, (s.addTask i).weight + s.worker.weight s.asleep + 8 * s.mTasks.length

theorem weight_lt_of_addTask (i : ι) (l : AddTask)
    (haddTask : s'.addTask = Function.update s.addTask i l)
    (hlt : l.weight + s'.worker.weight s'.asleep + 8 * s'.mTasks.length <
      (s.addTask i).weight + s.worker.weight s.asleep + 8 * s.mTasks.length) :
    s'.weight < s.weight := by
  have hsum := sum_comp_update AddTask.weight s.addTask i l
  rw [State.weight, State.weight, haddTask]
  omega

/-- Before a stop is requested, every step that goes on lowers the bound. -/
theorem Move.weight_lt (hmove : Move s x s' es) (hx : GoesOn s x) (htested : Tested s)
    (hstop : s.stopRequested = false) : s'.weight < s.weight := by
  cases hmove with
  | lock i task hpc =>
    exact weight_lt_of_addTask i (.push task) rfl (by simp [hpc, AddTask.weight])
  | push i task hpc =>
    refine weight_lt_of_addTask i .unlock rfl ?_
    simp only [hpc, AddTask.weight, State.setAddTask, List.length_append, List.length_singleton]
    omega
  | unlock i hpc => exact weight_lt_of_addTask i .notify rfl (by simp [hpc, AddTask.weight])
  | notify i hpc =>
    have hwake : s.worker.weight false ≤ s.worker.weight s.asleep + 4 := by
      cases s.worker <;> simp [WorkerThread.weight]
    refine weight_lt_of_addTask i .ret rfl ?_
    simp only [hpc, AddTask.weight, State.setAddTask]
    omega
  | ret i hpc => exact weight_lt_of_addTask i .idle rfl (by simp [hpc, AddTask.weight])
  | stop hpc hrequested => simp [hrequested] at hstop
  | swap hpc =>
    have hpos := List.length_pos_of_ne_nil (htested.swap hpc)
    simp only [State.weight, hpc, WorkerThread.weight, List.length_nil]
    omega
  | call | spurious | throws | begin | requestStop | join => simp [GoesOn] at hx
  | wakeUp hpc hasleep => simp [State.weight, hpc, hasleep, WorkerThread.weight]
  | execute task tasks hpc => simp [State.weight, hpc, WorkerThread.weight]
  | _ => simp_all [State.weight, WorkerThread.weight]

theorem Inv.mMtx_eq_none (hinv : Inv s)
    (hterminal : ∀ x, GoesOn s x → (worker ι).next s x = none) : s.mMtx = none := by
  refine hinv.mtx.eq_none fun t => ?_
  cases t with
  | addTask i =>
    have hstuck : addTaskStep i s = none := hterminal (.addTask i) (.inr ⟨i, rfl⟩)
    cases hpc : s.addTask i <;> simp_all [State.inside, AddTask.inMtx, addTaskStep]
  | worker =>
    have hstuck : workerStep s = none := hterminal .worker (.inl rfl)
    cases hpc : s.worker <;> simp_all [State.inside, WorkerThread.inMtx, workerStep]
    split at hstuck <;> simp at hstuck

/-- When nothing goes on before a stop is requested, the worker is asleep and has no task left. -/
theorem Inv.drained_of_terminal (hinv : Inv s) (htested : Tested s)
    (hstop : s.stopRequested = false)
    (hterminal : ∀ x, GoesOn s x → (worker ι).next s x = none) : Drained s := by
  have hfree := hinv.mMtx_eq_none hterminal
  have hidle : ∀ i, s.addTask i = .idle := by
    intro i
    have hstuck : addTaskStep i s = none := hterminal (.addTask i) (.inr ⟨i, rfl⟩)
    cases hpc : s.addTask i <;> simp_all [addTaskStep]
  have hblocked : s.worker = .blocked ∧ s.asleep = true := by
    have hstuck : workerStep s = none := hterminal .worker (.inl rfl)
    have hfinished := htested.finished
    cases hpc : s.worker with
    | execute tasks => cases tasks <;> simp [workerStep, hpc] at hstuck
    | testTasks => by_cases htasks : s.mTasks = [] <;> simp [workerStep, hpc, htasks] at hstuck
    | _ => simp_all [workerStep]
  refine ⟨by rw [hblocked.1]; rfl, ?_⟩
  by_contra htasks
  obtain ⟨i, hi⟩ := hinv.attended hblocked.2 htasks
  simp [hidle i, AddTask.notifies] at hi

/-- **What the worker has is executed.** Before a stop is requested, the calls of `AddTask` in
progress and the worker come to a state in which the worker has no task left. -/
theorem drains {h : List (Event ι)} (hrun : (worker ι).Run (worker ι).init h s)
    (hstop : s.stopRequested = false) : (worker ι).Inevitable GoesOn Drained s := by
  have htested : Tested s := by
    refine hrun.invariant (fun s _ => Tested s) ⟨by simp [worker], by simp [worker]⟩
      fun _ _ htested _ hnext => htested.move (move_of_step hnext)
  refine Machine.inevitable_of_terminal
    (I := fun s => Inv s ∧ Tested s ∧ s.stopRequested = false) GoesOn State.weight ?_ ?_
    ⟨inv_of_run hrun, htested, hstop⟩
  · rintro s s' es x ⟨hinv, htested, hstop⟩ hx hnext
    have hmove : Move s x s' es := move_of_step hnext
    refine ⟨⟨hinv.move hmove, htested.move hmove, ?_⟩, hmove.weight_lt hx htested hstop⟩
    cases hmove with
    | requestStop => simp [GoesOn] at hx
    | _ => exact hstop
  · rintro s ⟨hinv, htested, hstop⟩ hterminal
    exact hinv.drained_of_terminal htested hstop hterminal

end Worker

end Multithreading.Sync
