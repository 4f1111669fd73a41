import Multithreading.Transition.Machine
import Mathlib.Data.Fintype.Basic
import Mathlib.Logic.Function.Basic

/-!
# `Worker`

The thread that executes tasks, any number of threads that add tasks, and the thread that destroys
the worker, as one machine. `AddTask` appends the task under `m_mtx`, releases the mutex and
notifies after that. The worker tests the stop flag, waits under `m_mtx` until there are tasks,
swaps them out, releases the mutex and executes them; a task that throws ends the batch. A wait
releases the mutex and blocks in one step, ends with a notification or spuriously, and tests the
predicate again under the mutex. The destructor requests the stop and joins the worker; it may begin
when no `AddTask` is in progress, and none is called from then on.

## Main definitions

* `Worker.AddTask`, `Worker.WorkerThread`, `Worker.Destructor` — the program counters.
* `Worker.State`, `Worker.step`, `worker` — the machine.
* `Worker.Move`, `Worker.move_of_step` — the branches of the step function.
-/

open Transition

namespace Multithreading.Sync

namespace Worker

/-- The program counter of a thread that calls `AddTask`. -/
inductive AddTask
  | idle
  /-- About to acquire `m_mtx`. -/
  | lock (task : ℤ)
  /-- Holding `m_mtx`, about to append the task. -/
  | push (task : ℤ)
  /-- Holding `m_mtx`, about to release it. -/
  | unlock
  /-- About to call `notify_one`. -/
  | notify
  /-- About to return. -/
  | ret
  deriving DecidableEq

/-- The program counter of the worker thread, with its variable `tasks`. -/
inductive WorkerThread
  /-- About to test `stop_requested()`. -/
  | checkStop
  /-- About to acquire `m_mtx`. -/
  | lock
  /-- Holding `m_mtx`, about to test whether there are tasks. -/
  | testTasks
  /-- Holding `m_mtx`, about to block in `wait`. -/
  | block
  | blocked
  /-- Woken in `wait`, about to acquire `m_mtx` again. -/
  | woken
  /-- Holding `m_mtx`, about to swap. -/
  | swap
  /-- Holding `m_mtx`, about to release it. -/
  | unlock (tasks : List ℤ)
  /-- Executing the tasks that are left of the batch. -/
  | execute (tasks : List ℤ)
  | finished
  deriving DecidableEq

/-- The program counter of the thread that destroys the worker. -/
inductive Destructor
  /-- The worker is alive. -/
  | alive
  /-- About to request the stop. -/
  | requestStop
  /-- In `join`. -/
  | join
  | joined
  deriving DecidableEq

/-- The threads. -/
inductive Thread (ι : Type*)
  | addTask (i : ι)
  | worker
  deriving DecidableEq

/-- The state: the holder of `m_mtx`, the tasks, whether the worker is blocked in `m_newTaskAdded`
and has not been notified, the stop flag, and the program counters. -/
structure State (ι : Type*) where
  mMtx : Option (Thread ι)
  mTasks : List ℤ
  asleep : Bool
  stopRequested : Bool
  addTask : ι → AddTask
  worker : WorkerThread
  destructor : Destructor

/-- A step of one thread; the worker may also be woken spuriously, and a task may throw. -/
inductive Label (ι : Type*)
  | call (i : ι) (task : ℤ)
  | addTask (i : ι)
  | worker
  | spurious
  | throws
  | destructor
  deriving DecidableEq

/-- The events. -/
inductive Event (ι : Type*)
  | call (i : ι) (task : ℤ)
  /-- The task is appended to `m_tasks`. -/
  | pushed (i : ι) (task : ℤ)
  | ret (i : ι)
  | executed (task : ℤ)
  /-- The execution of the task throws. -/
  | threw (task : ℤ)
  | stopRequested
  | joined
  deriving DecidableEq

variable {ι : Type*} [DecidableEq ι]

/-- The state with another program counter of a thread that calls `AddTask`. -/
def State.setAddTask (s : State ι) (i : ι) (l : AddTask) : State ι :=
  { s with addTask := Function.update s.addTask i l }

@[simp] theorem State.setAddTask_addTask (s : State ι) (i : ι) (l : AddTask) :
    (s.setAddTask i l).addTask = Function.update s.addTask i l := rfl

@[simp] theorem State.setAddTask_mTasks (s : State ι) (i : ι) (l : AddTask) :
    (s.setAddTask i l).mTasks = s.mTasks := rfl

@[simp] theorem State.setAddTask_asleep (s : State ι) (i : ι) (l : AddTask) :
    (s.setAddTask i l).asleep = s.asleep := rfl

@[simp] theorem State.setAddTask_stopRequested (s : State ι) (i : ι) (l : AddTask) :
    (s.setAddTask i l).stopRequested = s.stopRequested := rfl

@[simp] theorem State.setAddTask_worker (s : State ι) (i : ι) (l : AddTask) :
    (s.setAddTask i l).worker = s.worker := rfl

@[simp] theorem State.setAddTask_destructor (s : State ι) (i : ι) (l : AddTask) :
    (s.setAddTask i l).destructor = s.destructor := rfl

/-- A step of `AddTask`. -/
def addTaskStep (i : ι) (s : State ι) : Option (State ι × List (Event ι)) :=
  match s.addTask i with
  | .idle => none
  | .lock task =>
    if s.mMtx = none then some ({ s.setAddTask i (.push task) with mMtx := some (.addTask i) }, [])
    else none
  | .push task =>
    some ({ s.setAddTask i .unlock with mTasks := s.mTasks ++ [task] }, [.pushed i task])
  | .unlock => some ({ s.setAddTask i .notify with mMtx := none }, [])
  | .notify => some ({ s.setAddTask i .ret with asleep := false }, [])
  | .ret => some (s.setAddTask i .idle, [.ret i])

/-- A step of the worker thread. -/
def workerStep (s : State ι) : Option (State ι × List (Event ι)) :=
  match s.worker with
  | .checkStop =>
    if s.stopRequested then some ({ s with worker := .finished }, [])
    else some ({ s with worker := .lock }, [])
  | .lock =>
    if s.mMtx = none then some ({ s with mMtx := some .worker, worker := .testTasks }, []) else none
  | .testTasks =>
    if s.mTasks = [] then some ({ s with worker := .block }, [])
    else some ({ s with worker := .swap }, [])
  | .block => some ({ s with mMtx := none, asleep := true, worker := .blocked }, [])
  | .blocked => if s.asleep then none else some ({ s with worker := .woken }, [])
  | .woken =>
    if s.mMtx = none then some ({ s with mMtx := some .worker, worker := .testTasks }, []) else none
  | .swap => some ({ s with mTasks := [], worker := .unlock s.mTasks }, [])
  | .unlock tasks => some ({ s with mMtx := none, worker := .execute tasks }, [])
  | .execute (task :: tasks) => some ({ s with worker := .execute tasks }, [.executed task])
  | .execute [] => some ({ s with worker := .checkStop }, [])
  | .finished => none

variable [Fintype ι]

/-- A step of the destructor, which may begin when no `AddTask` is in progress. -/
def destructorStep (s : State ι) : Option (State ι × List (Event ι)) :=
  match s.destructor with
  | .alive =>
    if ∀ i, s.addTask i = .idle then some ({ s with destructor := .requestStop }, []) else none
  | .requestStop =>
    some ({ s with stopRequested := true, destructor := .join }, [.stopRequested])
  | .join =>
    if s.worker = .finished then some ({ s with destructor := .joined }, [.joined]) else none
  | .joined => none

/-- A step. -/
def step (s : State ι) : Label ι → Option (State ι × List (Event ι))
  | .call i task =>
    if s.destructor = .alive ∧ s.addTask i = .idle then
      some (s.setAddTask i (.lock task), [.call i task])
    else none
  | .addTask i => addTaskStep i s
  | .worker => workerStep s
  | .spurious =>
    if s.worker = .blocked then some ({ s with asleep := false, worker := .woken }, []) else none
  | .throws =>
    match s.worker with
    | .execute (task :: _) => some ({ s with worker := .checkStop }, [.threw task])
    | _ => none
  | .destructor => destructorStep s

omit [Fintype ι] in
/-- What a step can do, one case for each branch of `step`. -/
inductive Move (s : State ι) : Label ι → State ι → List (Event ι) → Prop
  | call (i : ι) (task : ℤ) (halive : s.destructor = .alive) (hpc : s.addTask i = .idle) :
      Move s (.call i task) (s.setAddTask i (.lock task)) [.call i task]
  | lock (i : ι) (task : ℤ) (hpc : s.addTask i = .lock task) (hfree : s.mMtx = none) :
      Move s (.addTask i) { s.setAddTask i (.push task) with mMtx := some (.addTask i) } []
  | push (i : ι) (task : ℤ) (hpc : s.addTask i = .push task) :
      Move s (.addTask i) { s.setAddTask i .unlock with mTasks := s.mTasks ++ [task] }
        [.pushed i task]
  | unlock (i : ι) (hpc : s.addTask i = .unlock) :
      Move s (.addTask i) { s.setAddTask i .notify with mMtx := none } []
  | notify (i : ι) (hpc : s.addTask i = .notify) :
      Move s (.addTask i) { s.setAddTask i .ret with asleep := false } []
  | ret (i : ι) (hpc : s.addTask i = .ret) :
      Move s (.addTask i) (s.setAddTask i .idle) [.ret i]
  | stop (hpc : s.worker = .checkStop) (hstop : s.stopRequested = true) :
      Move s .worker { s with worker := .finished } []
  | goOn (hpc : s.worker = .checkStop) (hstop : s.stopRequested = false) :
      Move s .worker { s with worker := .lock } []
  | acquire (hpc : s.worker = .lock) (hfree : s.mMtx = none) :
      Move s .worker { s with mMtx := some .worker, worker := .testTasks } []
  | testEmpty (hpc : s.worker = .testTasks) (hempty : s.mTasks = []) :
      Move s .worker { s with worker := .block } []
  | testTasks (hpc : s.worker = .testTasks) (hempty : s.mTasks ≠ []) :
      Move s .worker { s with worker := .swap } []
  | block (hpc : s.worker = .block) :
      Move s .worker { s with mMtx := none, asleep := true, worker := .blocked } []
  | wakeUp (hpc : s.worker = .blocked) (hawake : s.asleep = false) :
      Move s .worker { s with worker := .woken } []
  | reacquire (hpc : s.worker = .woken) (hfree : s.mMtx = none) :
      Move s .worker { s with mMtx := some .worker, worker := .testTasks } []
  | swap (hpc : s.worker = .swap) :
      Move s .worker { s with mTasks := [], worker := .unlock s.mTasks } []
  | release (tasks : List ℤ) (hpc : s.worker = .unlock tasks) :
      Move s .worker { s with mMtx := none, worker := .execute tasks } []
  | execute (task : ℤ) (tasks : List ℤ) (hpc : s.worker = .execute (task :: tasks)) :
      Move s .worker { s with worker := .execute tasks } [.executed task]
  | batchEnds (hpc : s.worker = .execute []) : Move s .worker { s with worker := .checkStop } []
  | spurious (hpc : s.worker = .blocked) :
      Move s .spurious { s with asleep := false, worker := .woken } []
  | throws (task : ℤ) (tasks : List ℤ) (hpc : s.worker = .execute (task :: tasks)) :
      Move s .throws { s with worker := .checkStop } [.threw task]
  | begin (hpc : s.destructor = .alive) (hidle : ∀ i, s.addTask i = .idle) :
      Move s .destructor { s with destructor := .requestStop } []
  | requestStop (hpc : s.destructor = .requestStop) :
      Move s .destructor { s with stopRequested := true, destructor := .join } [.stopRequested]
  | join (hpc : s.destructor = .join) (hfinished : s.worker = .finished) :
      Move s .destructor { s with destructor := .joined } [.joined]

/-- Every step is one of the moves. -/
theorem move_of_step {s s' : State ι} {x : Label ι} {es : List (Event ι)}
    (h : step s x = some (s', es)) : Move s x s' es := by
  cases x
  all_goals simp only [step, addTaskStep, workerStep, destructorStep] at h
  all_goals try split at h
  all_goals try split at h
  all_goals try contradiction
  all_goals obtain ⟨rfl, rfl⟩ : _ ∧ _ := by simpa using h
  -- Two steps of the worker have the same effect, so their program counters decide.
  all_goals first
    | exact .acquire ‹_› ‹_›
    | exact .reacquire ‹_› ‹_›
    | constructor
  all_goals first | assumption | simp_all

end Worker

/-- `Worker` with the threads `ι` that call `AddTask`. -/
def worker (ι : Type*) [DecidableEq ι] [Fintype ι] :
    Machine (Worker.State ι) (Worker.Label ι) (Worker.Event ι) where
  init := ⟨none, [], false, false, fun _ => .idle, .checkStop, .alive⟩
  next := Worker.step

end Multithreading.Sync
