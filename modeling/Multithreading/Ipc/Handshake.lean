import Multithreading.Ipc.Process
import Multithreading.Memory.CInt
import Multithreading.Memory.CharArray
import Mathlib.Logic.Function.Basic

/-!
# The shared-memory handshake

The programs `shm_intro` and `mmap_intro`. The parent writes each line of its input into the shared
memory, posts `writeDoneSema` and waits for `readDoneSema`; the child waits for `writeDoneSema`,
prints and posts `readDoneSema`. A message of size zero stops the child. The programs differ in the
calls by which they obtain and release the shared memory, and run the same code in between.

A named semaphore keeps its value as long as its name is linked, and `sem_open` without `O_EXCL`
opens a linked semaphore as it is.

## Main definitions

* `Handshake.Kernel`, `Kernel.setup`, `Kernel.cleanup` — the named objects, and the calls on them.
* `Handshake.Program` — the two programs, with the calls before the fork and after the wait.
* `Handshake.State`, `Handshake.step`, `handshake` — the machine of the two processes.
-/

open Transition Memory

namespace Multithreading.Ipc

namespace Handshake

/-! ### The shared memory and the semaphores -/

/-- The size of the array next to the size field. -/
def bufferSize : ℕ := 4096 - 4

/-- `SharedData`. -/
structure SharedData where
  mMessageSize : ℕ
  buffer : CharArray bufferSize
  deriving DecidableEq

/-- `SharedData{}`. -/
def SharedData.initial : SharedData := ⟨0, .zero _⟩

/-- What the parent leaves in the shared memory for a line. -/
def SharedData.ofLine (input : Line) : SharedData :=
  ⟨toUInt32 input.length, .ofBytes _ input⟩

/-- A named semaphore. -/
structure Semaphore where
  linked : Bool
  value : ℕ
  deriving DecidableEq

/-- The semaphore after `sem_open` with `O_CREAT` and the initial value zero. -/
def Semaphore.opened (sema : Semaphore) : Semaphore := if sema.linked then sema else ⟨true, 0⟩

/-- The two semaphores. -/
inductive Sema
  | writeDone
  | readDone
  deriving DecidableEq

/-- The named objects: the semaphores, and the shared memory with its contents. -/
structure Kernel where
  sema : Sema → Semaphore
  shmLinked : Bool
  sharedData : SharedData

/-- The calls of the parent before the fork. -/
inductive SetupCall
  | makeSemaphore (x : Sema)
  | shmUnlink
  | shmOpen
  | ftruncate
  /-- `mmap` of the named shared memory. -/
  | mmapShared
  /-- `mmap` of new anonymous memory. -/
  | mmapAnonymous
  /-- The placement `new` of `SharedData`. -/
  | construct
  deriving DecidableEq

/-- The calls of the parent after the wait. -/
inductive CleanupCall
  | semUnlink (x : Sema)
  | munmap
  | shmUnlink
  deriving DecidableEq

namespace Kernel

variable (k : Kernel)

/-- The named objects with another value of a semaphore. -/
def setValue (x : Sema) (value : ℕ) : Kernel :=
  { k with sema := Function.update k.sema x { k.sema x with value := value } }

/-- The effect of a call before the fork. -/
def setup : SetupCall → Kernel
  | .makeSemaphore x => { k with sema := Function.update k.sema x (k.sema x).opened }
  | .shmUnlink => { k with shmLinked := false }
  | .shmOpen => if k.shmLinked then k else { k with shmLinked := true, sharedData := .initial }
  | .ftruncate => k
  | .mmapShared => k
  | .mmapAnonymous => { k with sharedData := .initial }
  | .construct => { k with sharedData := .initial }

/-- The effect of a call after the wait. -/
def cleanup : CleanupCall → Kernel
  | .semUnlink x => { k with sema := Function.update k.sema x { k.sema x with linked := false } }
  | .munmap => k
  | .shmUnlink => { k with shmLinked := false }

@[simp] theorem setValue_sharedData (x : Sema) (value : ℕ) :
    (k.setValue x value).sharedData = k.sharedData := rfl

@[simp] theorem cleanup_sharedData (c : CleanupCall) :
    (k.cleanup c).sharedData = k.sharedData := by
  cases c <;> rfl

@[simp] theorem cleanup_value (c : CleanupCall) (x : Sema) :
    ((k.cleanup c).sema x).value = (k.sema x).value := by
  cases c with
  | semUnlink y =>
    by_cases h : x = y
    · subst h
      simp [cleanup]
    · simp [cleanup, h]
  | munmap | shmUnlink => rfl

@[simp] theorem setValue_value_self (x : Sema) (value : ℕ) :
    ((k.setValue x value).sema x).value = value := by simp [setValue]

@[simp] theorem setValue_value_writeDone (value : ℕ) :
    ((k.setValue .writeDone value).sema .readDone).value = (k.sema .readDone).value := by
  simp [setValue]

@[simp] theorem setValue_value_readDone (value : ℕ) :
    ((k.setValue .readDone value).sema .writeDone).value = (k.sema .writeDone).value := by
  simp [setValue]

@[simp] theorem setValue_linked (x y : Sema) (value : ℕ) :
    ((k.setValue x value).sema y).linked = (k.sema y).linked := by
  by_cases h : y = x
  · subst h
    simp [setValue]
  · simp [setValue, h]

end Kernel

/-! ### The programs -/

/-- The programs. -/
inductive Program
  | shmIntro
  | mmapIntro

/-- The calls before the fork. -/
def Program.setup : Program → List SetupCall
  | .shmIntro => [.makeSemaphore .writeDone, .makeSemaphore .readDone, .shmUnlink, .shmOpen,
      .ftruncate, .mmapShared, .construct]
  | .mmapIntro => [.makeSemaphore .writeDone, .makeSemaphore .readDone, .mmapAnonymous, .construct]

/-- The calls of the parent after it has waited for the child. -/
def Program.cleanup : Program → List CleanupCall
  | .shmIntro => [.semUnlink .readDone, .semUnlink .writeDone, .munmap, .shmUnlink]
  | .mmapIntro => [.semUnlink .readDone, .semUnlink .writeDone, .munmap]

/-- The program counter of the parent. `input` is the line that it has read. -/
inductive Parent
  /-- Before the fork, with the calls that are left. -/
  | setup (calls : List SetupCall)
  | getline
  /-- About to assign `m_messageSize`. -/
  | storeSize (input : Line)
  | memset (input : Line)
  | memcpy (input : Line)
  /-- About to print what was written. -/
  | log (input : Line)
  /-- About to post `writeDoneSema`. -/
  | post (input : Line)
  /-- About to wait for `readDoneSema`. -/
  | waitRead (input : Line)
  /-- After the input, about to assign zero to `m_messageSize`. -/
  | storeStop
  /-- About to post `writeDoneSema` for the last time. -/
  | postStop
  /-- In `wait`. -/
  | waitChild
  /-- After the wait, with the calls that are left. -/
  | cleanup (calls : List CleanupCall)
  | exited
  deriving DecidableEq

/-- The program counter of the child. -/
inductive Child
  | notForked
  /-- About to wait for `writeDoneSema`. -/
  | waitWrite
  /-- About to compare `m_messageSize` with zero. -/
  | test
  | printSize
  /-- About to print the content, having printed the size. -/
  | printContent (size : ℕ)
  /-- About to post `readDoneSema`. -/
  | post
  | closeRead
  | closeWrite
  | exited
  deriving DecidableEq

/-- The state of a program: the named objects, the rest of the standard input, and the two program
counters. -/
structure State where
  kernel : Kernel
  cin : List Line
  parent : Parent
  child : Child

/-- The events of a program. -/
inductive Event
  /-- The parent prints the size of a line. -/
  | wrote (size : ℕ)
  /-- The parent posts `writeDoneSema`, with this in the shared memory. -/
  | published (data : SharedData)
  /-- The child has printed the size and the content. -/
  | printed (data : SharedData)
  | exited (p : Proc)
  deriving DecidableEq

variable (prog : Program)

/-- A step of the parent. -/
def parentStep (s : State) : Option (State × List Event) :=
  match s.parent with
  | .setup (c :: calls) => some ({ s with kernel := s.kernel.setup c, parent := .setup calls }, [])
  | .setup [] => some ({ s with parent := .getline, child := .waitWrite }, [])
  | .getline =>
    match s.cin with
    | input :: cin => some ({ s with cin := cin, parent := .storeSize input }, [])
    | [] => some ({ s with parent := .storeStop }, [])
  | .storeSize input =>
    let data := { s.kernel.sharedData with mMessageSize := toUInt32 input.length }
    some ({ s with kernel := { s.kernel with sharedData := data }, parent := .memset input }, [])
  | .memset input =>
    let data := { s.kernel.sharedData with buffer := .zero _ }
    some ({ s with kernel := { s.kernel with sharedData := data }, parent := .memcpy input }, [])
  | .memcpy input =>
    let data := { s.kernel.sharedData with
      buffer := s.kernel.sharedData.buffer.memcpy input (min input.length bufferSize) }
    some ({ s with kernel := { s.kernel with sharedData := data }, parent := .log input }, [])
  | .log input => some ({ s with parent := .post input }, [.wrote input.length])
  | .post input =>
    some ({ s with
      kernel := s.kernel.setValue .writeDone ((s.kernel.sema .writeDone).value + 1),
      parent := .waitRead input }, [.published s.kernel.sharedData])
  | .waitRead _ =>
    match (s.kernel.sema .readDone).value with
    | 0 => none
    | n + 1 => some ({ s with kernel := s.kernel.setValue .readDone n, parent := .getline }, [])
  | .storeStop =>
    let data := { s.kernel.sharedData with mMessageSize := 0 }
    some ({ s with kernel := { s.kernel with sharedData := data }, parent := .postStop }, [])
  | .postStop =>
    some ({ s with
      kernel := s.kernel.setValue .writeDone ((s.kernel.sema .writeDone).value + 1),
      parent := .waitChild }, [.published s.kernel.sharedData])
  | .waitChild =>
    if s.child = .exited then some ({ s with parent := .cleanup prog.cleanup }, []) else none
  | .cleanup (c :: calls) =>
    some ({ s with kernel := s.kernel.cleanup c, parent := .cleanup calls }, [])
  | .cleanup [] => some ({ s with parent := .exited }, [.exited .parent])
  | .exited => none

/-- A step of the child. Printing is a step that completes, also when the array has no NUL and the
program reads past its end. -/
def childStep (s : State) : Option (State × List Event) :=
  match s.child with
  | .notForked => none
  | .waitWrite =>
    match (s.kernel.sema .writeDone).value with
    | 0 => none
    | n + 1 => some ({ s with kernel := s.kernel.setValue .writeDone n, child := .test }, [])
  | .test =>
    if s.kernel.sharedData.mMessageSize = 0 then some ({ s with child := .closeRead }, [])
    else some ({ s with child := .printSize }, [])
  | .printSize =>
    some ({ s with child := .printContent s.kernel.sharedData.mMessageSize }, [])
  | .printContent size =>
    some ({ s with child := .post }, [.printed ⟨size, s.kernel.sharedData.buffer⟩])
  | .post =>
    some ({ s with
      kernel := s.kernel.setValue .readDone ((s.kernel.sema .readDone).value + 1),
      child := .waitWrite }, [])
  | .closeRead => some ({ s with child := .closeWrite }, [])
  | .closeWrite => some ({ s with child := .exited }, [.exited .child])
  | .exited => none

/-- A step of a process. -/
def step (s : State) : Proc → Option (State × List Event)
  | .parent => parentStep prog s
  | .child => childStep s

/-- What a step can do, one case for each branch of `step`. -/
inductive Move (s : State) : Proc → State → List Event → Prop
  | setup (c : SetupCall) (calls : List SetupCall) (hpc : s.parent = .setup (c :: calls)) :
      Move s .parent { s with kernel := s.kernel.setup c, parent := .setup calls } []
  | fork (hpc : s.parent = .setup []) :
      Move s .parent { s with parent := .getline, child := .waitWrite } []
  | getline (input : Line) (cin : List Line) (hpc : s.parent = .getline)
      (hcin : s.cin = input :: cin) :
      Move s .parent { s with cin := cin, parent := .storeSize input } []
  | inputEnds (hpc : s.parent = .getline) (hcin : s.cin = []) :
      Move s .parent { s with parent := .storeStop } []
  | storeSize (input : Line) (hpc : s.parent = .storeSize input) :
      Move s .parent { s with
        kernel := { s.kernel with
          sharedData := { s.kernel.sharedData with mMessageSize := toUInt32 input.length } },
        parent := .memset input } []
  | memset (input : Line) (hpc : s.parent = .memset input) :
      Move s .parent { s with
        kernel := { s.kernel with sharedData := { s.kernel.sharedData with buffer := .zero _ } },
        parent := .memcpy input } []
  | memcpy (input : Line) (hpc : s.parent = .memcpy input) :
      Move s .parent { s with
        kernel := { s.kernel with
          sharedData := { s.kernel.sharedData with
            buffer := s.kernel.sharedData.buffer.memcpy input (min input.length bufferSize) } },
        parent := .log input } []
  | log (input : Line) (hpc : s.parent = .log input) :
      Move s .parent { s with parent := .post input } [.wrote input.length]
  | postWrite (input : Line) (hpc : s.parent = .post input) :
      Move s .parent { s with
        kernel := s.kernel.setValue .writeDone ((s.kernel.sema .writeDone).value + 1),
        parent := .waitRead input } [.published s.kernel.sharedData]
  | waitRead (input : Line) (n : ℕ) (hpc : s.parent = .waitRead input)
      (hvalue : (s.kernel.sema .readDone).value = n + 1) :
      Move s .parent { s with kernel := s.kernel.setValue .readDone n, parent := .getline } []
  | storeStop (hpc : s.parent = .storeStop) :
      Move s .parent { s with
        kernel := { s.kernel with sharedData := { s.kernel.sharedData with mMessageSize := 0 } },
        parent := .postStop } []
  | postStop (hpc : s.parent = .postStop) :
      Move s .parent { s with
        kernel := s.kernel.setValue .writeDone ((s.kernel.sema .writeDone).value + 1),
        parent := .waitChild } [.published s.kernel.sharedData]
  | waitChild (hpc : s.parent = .waitChild) (hchild : s.child = .exited) :
      Move s .parent { s with parent := .cleanup prog.cleanup } []
  | cleanup (c : CleanupCall) (calls : List CleanupCall) (hpc : s.parent = .cleanup (c :: calls)) :
      Move s .parent { s with kernel := s.kernel.cleanup c, parent := .cleanup calls } []
  | exitParent (hpc : s.parent = .cleanup []) :
      Move s .parent { s with parent := .exited } [.exited .parent]
  | waitWrite (n : ℕ) (hpc : s.child = .waitWrite)
      (hvalue : (s.kernel.sema .writeDone).value = n + 1) :
      Move s .child { s with kernel := s.kernel.setValue .writeDone n, child := .test } []
  | testStop (hpc : s.child = .test) (hsize : s.kernel.sharedData.mMessageSize = 0) :
      Move s .child { s with child := .closeRead } []
  | test (hpc : s.child = .test) (hsize : s.kernel.sharedData.mMessageSize ≠ 0) :
      Move s .child { s with child := .printSize } []
  | printSize (hpc : s.child = .printSize) :
      Move s .child { s with child := .printContent s.kernel.sharedData.mMessageSize } []
  | printContent (size : ℕ) (hpc : s.child = .printContent size) :
      Move s .child { s with child := .post } [.printed ⟨size, s.kernel.sharedData.buffer⟩]
  | postRead (hpc : s.child = .post) :
      Move s .child { s with
        kernel := s.kernel.setValue .readDone ((s.kernel.sema .readDone).value + 1),
        child := .waitWrite } []
  | closeRead (hpc : s.child = .closeRead) : Move s .child { s with child := .closeWrite } []
  | exitChild (hpc : s.child = .closeWrite) :
      Move s .child { s with child := .exited } [.exited .child]

variable {prog} in
/-- Every step is one of the moves. -/
theorem move_of_step {s s' : State} {p : Proc} {es : List Event}
    (h : step prog s p = some (s', es)) : Move prog s p s' es := by
  cases p
  · rw [step, parentStep] at h
    split at h
    all_goals try split at h
    all_goals try contradiction
    all_goals
      obtain ⟨rfl, rfl⟩ : _ ∧ _ := by simpa using h
      constructor
    all_goals assumption
  · rw [step, childStep] at h
    split at h
    all_goals try split at h
    all_goals try contradiction
    all_goals
      obtain ⟨rfl, rfl⟩ : _ ∧ _ := by simpa using h
      constructor
    all_goals assumption

end Handshake

/-- A program started with the named objects `kernel` and the input `lines`. -/
def handshake (prog : Handshake.Program) (kernel : Handshake.Kernel) (lines : List Line) :
    Machine Handshake.State Proc Handshake.Event where
  init := ⟨kernel, lines, .setup prog.setup, .notForked⟩
  next := Handshake.step prog

end Multithreading.Ipc
