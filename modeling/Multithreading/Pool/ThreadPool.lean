import Multithreading.Transition.Machine
import Mathlib.Data.Fintype.Basic
import Mathlib.Logic.Function.Basic

/-!
# `ThreadPool`

The pool of tasks of one thread that calls `Submit` and any number of worker threads. The tasks are
in a `std::list`, a circular doubly linked list with a sentinel. `emplace_back` and `pop_front` are
the sequences of reads and writes of links by which the list hooks a node in front of the sentinel
and unhooks its first node, and each read and each write is a step. `GetTask` runs under `m_mtx` and
`Submit` does not.

A pointer to a node is `some` of its address, and a pointer to the sentinel is `none`. Tasks are
numbered in the order of the calls of `Submit`.

## Main definitions

* `ThreadPool.Submit`, `ThreadPool.Worker` — the program counters.
* `ThreadPool.State`, `ThreadPool.step`, `threadPool` — the machine.
* `ThreadPool.Move`, `ThreadPool.move_of_step` — the branches of the step function.
-/

open Transition

namespace Multithreading.Pool

namespace ThreadPool

/-- The program counter of the thread that calls `Submit`. In `emplace_back`, `node` is the new node
and the pointers are those that have been read from the links of the list. -/
inductive Submit (β : Type*)
  | idle
  /-- About to allocate a node for the task. -/
  | allocate (task : ℕ)
  /-- About to write `node->_M_next = sentinel`. -/
  | writeNext (node : β)
  /-- About to read `sentinel->_M_prev`. -/
  | readPrev (node : β)
  /-- About to write `node->_M_prev = last`. -/
  | writePrev (node : β) (last : Option β)
  /-- About to read `sentinel->_M_prev` again. -/
  | readLast (node : β)
  /-- About to write `last->_M_next = node`. -/
  | writeLast (node : β) (last : Option β)
  /-- About to write `sentinel->_M_prev = node`. -/
  | writeTail (node : β)
  deriving DecidableEq

/-- The program counter of a worker. In `pop_front`, `node` is the first node; `task` is the
variable of `GetTask`, a `packaged_task` that may have been moved from. -/
inductive Worker (β : Type*)
  | idle
  /-- In `GetTask`, about to acquire `m_mtx`. -/
  | lock
  /-- About to test `m_tasks.empty()`. -/
  | testEmpty
  /-- About to move the task out of `m_tasks.front()`. -/
  | front
  /-- In `pop_front`, about to read `sentinel->_M_next`. -/
  | readFirst (task : Option ℕ)
  /-- About to read `node->_M_next`. -/
  | readNext (node : β) (task : Option ℕ)
  /-- About to read `node->_M_prev`. -/
  | readPrev (node : β) (next : Option β) (task : Option ℕ)
  /-- About to write `prev->_M_next = next`. -/
  | writeNext (node : β) (next prev : Option β) (task : Option ℕ)
  /-- About to write `next->_M_prev = prev`. -/
  | writePrev (node : β) (next prev : Option β) (task : Option ℕ)
  /-- About to free the node. -/
  | free (node : β) (task : Option ℕ)
  /-- About to release `m_mtx` and to return from `GetTask`. -/
  | unlock (result : Option (Option ℕ))
  /-- About to execute the task. -/
  | execute (task : Option ℕ)
  deriving DecidableEq

/-- The state: the links, the task of every node, the nodes that are allocated, the holder of
`m_mtx`, the number of calls of `Submit`, and the program counters. -/
structure State (ι β : Type*) where
  next : Option β → Option β
  prev : Option β → Option β
  task : β → Option ℕ
  live : β → Bool
  mMtx : Option ι
  submitted : ℕ
  submit : Submit β
  worker : ι → Worker β

/-- A step of one thread; an allocation returns some address that is free. -/
inductive Label (ι β : Type*)
  | submit
  | allocate (node : β)
  | worker (i : ι)
  deriving DecidableEq

/-- The events. -/
inductive Event (ι : Type*)
  | call (task : ℕ)
  /-- `Submit` returns. -/
  | ret
  /-- `GetTask` returns. -/
  | got (i : ι) (result : Option (Option ℕ))
  | executed (i : ι) (task : ℕ)
  deriving DecidableEq

variable {ι β : Type*} [DecidableEq ι] [DecidableEq β]

namespace State

variable (s : State ι β)

/-- The state after a write of a link `_M_next`. -/
def setNext (p q : Option β) : State ι β := { s with next := Function.update s.next p q }

/-- The state after a write of a link `_M_prev`. -/
def setPrev (p q : Option β) : State ι β := { s with prev := Function.update s.prev p q }

/-- The state with another program counter of a worker. -/
def setWorker (i : ι) (l : Worker β) : State ι β :=
  { s with worker := Function.update s.worker i l }

end State

/-- A step of `Submit`, without the allocation. -/
def submitStep (s : State ι β) : Option (State ι β × List (Event ι)) :=
  match s.submit with
  | .idle =>
    some ({ s with submitted := s.submitted + 1, submit := .allocate s.submitted },
      [.call s.submitted])
  | .allocate _ => none
  | .writeNext node => some ({ s.setNext (some node) none with submit := .readPrev node }, [])
  | .readPrev node => some ({ s with submit := .writePrev node (s.prev none) }, [])
  | .writePrev node last => some ({ s.setPrev (some node) last with submit := .readLast node }, [])
  | .readLast node => some ({ s with submit := .writeLast node (s.prev none) }, [])
  | .writeLast node last => some ({ s.setNext last (some node) with submit := .writeTail node }, [])
  | .writeTail node => some ({ s.setPrev none (some node) with submit := .idle }, [.ret])

/-- A step of worker `i`. Executing a `packaged_task` that has been moved from ends the program. -/
def workerStep (i : ι) (s : State ι β) : Option (State ι β × List (Event ι)) :=
  match s.worker i with
  | .idle => some (s.setWorker i .lock, [])
  | .lock =>
    if s.mMtx = none then some ({ s.setWorker i .testEmpty with mMtx := some i }, []) else none
  | .testEmpty =>
    if s.next none = none then some (s.setWorker i (.unlock none), [])
    else some (s.setWorker i .front, [])
  | .front =>
    match s.next none with
    | none => none
    | some node =>
      some ({ s.setWorker i (.readFirst (s.task node)) with
        task := Function.update s.task node none }, [])
  | .readFirst task =>
    match s.next none with
    | none => none
    | some node => some (s.setWorker i (.readNext node task), [])
  | .readNext node task => some (s.setWorker i (.readPrev node (s.next (some node)) task), [])
  | .readPrev node next task =>
    some (s.setWorker i (.writeNext node next (s.prev (some node)) task), [])
  | .writeNext node next prev task =>
    some ((s.setNext prev next).setWorker i (.writePrev node next prev task), [])
  | .writePrev node next prev task =>
    some ((s.setPrev next prev).setWorker i (.free node task), [])
  | .free node task =>
    some ({ s.setWorker i (.unlock (some task)) with
      live := Function.update s.live node false }, [])
  | .unlock result =>
    some ({ s.setWorker i (result.elim .idle .execute) with mMtx := none }, [.got i result])
  | .execute none => none
  | .execute (some task) => some (s.setWorker i .idle, [.executed i task])

/-- A step. -/
def step (s : State ι β) : Label ι β → Option (State ι β × List (Event ι))
  | .submit => submitStep s
  | .allocate node =>
    match s.submit with
    | .allocate task =>
      if s.live node then none
      else some ({ s with live := Function.update s.live node true,
                          task := Function.update s.task node (some task),
                          submit := .writeNext node }, [])
    | _ => none
  | .worker i => workerStep i s

/-- What a step can do, one case for each branch of `step`. -/
inductive Move (s : State ι β) : Label ι β → State ι β → List (Event ι) → Prop
  | call (hpc : s.submit = .idle) :
      Move s .submit { s with submitted := s.submitted + 1, submit := .allocate s.submitted }
        [.call s.submitted]
  | allocate (node : β) (task : ℕ) (hpc : s.submit = .allocate task) (hlive : s.live node = false) :
      Move s (.allocate node) { s with
        live := Function.update s.live node true,
        task := Function.update s.task node (some task), submit := .writeNext node } []
  | writeNext (node : β) (hpc : s.submit = .writeNext node) :
      Move s .submit { s.setNext (some node) none with submit := .readPrev node } []
  | readPrev (node : β) (hpc : s.submit = .readPrev node) :
      Move s .submit { s with submit := .writePrev node (s.prev none) } []
  | writePrev (node : β) (last : Option β) (hpc : s.submit = .writePrev node last) :
      Move s .submit { s.setPrev (some node) last with submit := .readLast node } []
  | readLast (node : β) (hpc : s.submit = .readLast node) :
      Move s .submit { s with submit := .writeLast node (s.prev none) } []
  | writeLast (node : β) (last : Option β) (hpc : s.submit = .writeLast node last) :
      Move s .submit { s.setNext last (some node) with submit := .writeTail node } []
  | writeTail (node : β) (hpc : s.submit = .writeTail node) :
      Move s .submit { s.setPrev none (some node) with submit := .idle } [.ret]
  | getTask (i : ι) (hpc : s.worker i = .idle) : Move s (.worker i) (s.setWorker i .lock) []
  | lock (i : ι) (hpc : s.worker i = .lock) (hfree : s.mMtx = none) :
      Move s (.worker i) { s.setWorker i .testEmpty with mMtx := some i } []
  | testEmpty (i : ι) (hpc : s.worker i = .testEmpty) (hempty : s.next none = none) :
      Move s (.worker i) (s.setWorker i (.unlock none)) []
  | testFull (i : ι) (hpc : s.worker i = .testEmpty) (hempty : s.next none ≠ none) :
      Move s (.worker i) (s.setWorker i .front) []
  | front (i : ι) (node : β) (hpc : s.worker i = .front) (hfirst : s.next none = some node) :
      Move s (.worker i) { s.setWorker i (.readFirst (s.task node)) with
        task := Function.update s.task node none } []
  | readFirst (i : ι) (node : β) (task : Option ℕ) (hpc : s.worker i = .readFirst task)
      (hfirst : s.next none = some node) :
      Move s (.worker i) (s.setWorker i (.readNext node task)) []
  | popReadNext (i : ι) (node : β) (task : Option ℕ) (hpc : s.worker i = .readNext node task) :
      Move s (.worker i) (s.setWorker i (.readPrev node (s.next (some node)) task)) []
  | popReadPrev (i : ι) (node : β) (next : Option β) (task : Option ℕ)
      (hpc : s.worker i = .readPrev node next task) :
      Move s (.worker i) (s.setWorker i (.writeNext node next (s.prev (some node)) task)) []
  | popWriteNext (i : ι) (node : β) (next prev : Option β) (task : Option ℕ)
      (hpc : s.worker i = .writeNext node next prev task) :
      Move s (.worker i) ((s.setNext prev next).setWorker i (.writePrev node next prev task)) []
  | popWritePrev (i : ι) (node : β) (next prev : Option β) (task : Option ℕ)
      (hpc : s.worker i = .writePrev node next prev task) :
      Move s (.worker i) ((s.setPrev next prev).setWorker i (.free node task)) []
  | free (i : ι) (node : β) (task : Option ℕ) (hpc : s.worker i = .free node task) :
      Move s (.worker i) { s.setWorker i (.unlock (some task)) with
        live := Function.update s.live node false } []
  | unlock (i : ι) (result : Option (Option ℕ)) (hpc : s.worker i = .unlock result) :
      Move s (.worker i) { s.setWorker i (result.elim .idle .execute) with mMtx := none }
        [.got i result]
  | execute (i : ι) (task : ℕ) (hpc : s.worker i = .execute (some task)) :
      Move s (.worker i) (s.setWorker i .idle) [.executed i task]

/-- Every step is one of the moves. -/
theorem move_of_step {s s' : State ι β} {x : Label ι β} {es : List (Event ι)}
    (h : step s x = some (s', es)) : Move s x s' es := by
  cases x
  all_goals simp only [step, submitStep, workerStep] at h
  all_goals split at h
  all_goals try split at h
  all_goals try contradiction
  all_goals obtain ⟨rfl, rfl⟩ : _ ∧ _ := by simpa using h
  all_goals constructor
  all_goals first | assumption | simp_all

end ThreadPool

/-- `ThreadPool` with the workers `ι` and the addresses `β`, with arbitrary links in the memory that
is not allocated. -/
def threadPool (ι β : Type*) [DecidableEq ι] [DecidableEq β] (next prev : β → Option β) :
    Machine (ThreadPool.State ι β) (ThreadPool.Label ι β) (ThreadPool.Event ι) where
  init :=
    { next := fun p => p.elim none next
      prev := fun p => p.elim none prev
      task := fun _ => none
      live := fun _ => false
      mMtx := none
      submitted := 0
      submit := .idle
      worker := fun _ => .idle }
  next := ThreadPool.step

end Multithreading.Pool
