import Multithreading.Ipc.Process
import Multithreading.Memory.CharArray

/-!
# The relay over a pipe

The programs `pipe_intro`, `dup` and `mkfifo_intro`. The parent writes the bytes of each line of its
input into a pipe, without anything between the lines, and the child reads up to as many bytes as
its array has and prints them, until a read returns zero. The programs differ in the calls by which
the two processes get their ends of the pipe.

The kernel keeps the bytes in order. A write stores all its bytes and does not wait: the capacity of
the pipe is left out. A read returns any number of the next bytes, which the label of the step
chooses; it returns zero when everything has been read and nobody holds the write end, and blocks
when nothing is there and somebody still holds it. A write to a pipe that nobody can read kills the
writer. Opening a named pipe waits until the other side opens it as well, and creating one that
exists fails.

## Main definitions

* `Relay.Program` — the three programs, with the calls after the fork.
* `Relay.State`, `Relay.step`, `relay` — the machine of the two processes.

## Main results

* `Relay.move_of_step` — what a step can do.
-/

open Transition Memory

namespace Multithreading.Ipc

namespace Relay

/-! ### The programs -/

/-- The programs. -/
inductive Program
  | pipeIntro
  | dup
  | mkfifoIntro
  deriving DecidableEq

/-- The calls by which a process gets its end of the pipe. -/
inductive Call
  | closeRead
  | closeWrite
  | dup2
  /-- The beginning of `open` of the named pipe. -/
  | openFifo
  /-- The end of `open`, when the other process has called it as well. -/
  | waitOpen
  deriving DecidableEq

/-- Whether the pipe has a name. -/
def Program.named : Program → Bool
  | .pipeIntro | .dup => false
  | .mkfifoIntro => true

/-- The calls of the parent after the fork. -/
def Program.parentSetup : Program → List Call
  | .pipeIntro | .dup => [.closeRead]
  | .mkfifoIntro => [.openFifo, .waitOpen]

/-- The calls of the child after the fork. -/
def Program.childSetup : Program → List Call
  | .pipeIntro => [.closeWrite]
  | .dup => [.closeWrite, .dup2]
  | .mkfifoIntro => [.openFifo, .waitOpen]

/-- `sizeof(buf)`. -/
def bufSize : ℕ := 1024

/-- The array `buf` after a read has returned the bytes of `chunk`. -/
def received (chunk : List UInt8) : CharArray bufSize :=
  (CharArray.zero bufSize).memcpy chunk chunk.length

/-- The program counter of the parent. -/
inductive Parent
  /-- About to call `pipe` or `mkfifo`. -/
  | create
  | fork
  /-- After the fork, with the calls that are left. -/
  | setup (calls : List Call)
  | getline
  | write (input : Line)
  /-- About to print how many bytes were written. -/
  | log (bytes : ℕ)
  | closeWrite
  | wait
  | exited
  /-- `mkfifo` has failed. -/
  | failed
  /-- The parent has written to a pipe that nobody can read. -/
  | killed
  deriving DecidableEq

/-- The program counter of the child. -/
inductive Child
  | notForked
  /-- After the fork, with the calls that are left. -/
  | setup (calls : List Call)
  /-- About to read into an array of zeros. -/
  | read
  /-- About to print the array, after a read that has returned the bytes of `chunk`. -/
  | print (chunk : List UInt8) (buf : CharArray bufSize)
  | closeRead
  | exited
  deriving DecidableEq

namespace Parent

/-- The parent has got to its call of `open`, if it has one. -/
def calledOpen : Parent → Bool
  | create | fork | failed => false
  | setup calls => .openFifo ∉ calls
  | _ => true

/-- After the fork, the parent holds the write end. -/
def holdsWrite : Parent → Bool
  | setup calls => .openFifo ∉ calls
  | getline | write _ | log _ | closeWrite => true
  | _ => false

end Parent

namespace Child

/-- The child has got to its call of `open`, if it has one. -/
def calledOpen : Child → Bool
  | notForked => false
  | setup calls => .openFifo ∉ calls
  | _ => true

/-- The child still holds the write end. -/
def holdsWrite : Child → Bool
  | setup calls => .closeWrite ∈ calls
  | _ => false

/-- The child holds the read end. -/
def holdsRead : Child → Bool
  | setup calls => .openFifo ∉ calls
  | read | print _ _ | closeRead => true
  | _ => false

end Child

/-- The state of a program: whether the name of the pipe exists, the bytes that are written and not
yet read, the rest of the standard input, and the two program counters. -/
structure State where
  fifoExists : Bool
  pipe : List UInt8
  cin : List Line
  parent : Parent
  child : Child

/-- Somebody holds the write end. -/
def State.hasWriter (s : State) : Bool := s.parent.holdsWrite || s.child.holdsWrite

/-- The events of a program. -/
inductive Event
  /-- The parent prints the number of bytes that it has written. -/
  | wrote (bytes : ℕ)
  /-- The child prints the array, after a read that has returned the bytes of `chunk`. -/
  | printed (chunk : List UInt8) (buf : CharArray bufSize)
  | exited (p : Proc)
  deriving DecidableEq

/-- What decides a step: which process moves, and how many bytes a read returns, if not zero. -/
inductive Label
  | parent
  | child
  | read (bytes : ℕ)

variable (prog : Program)

/-- A step of the parent. -/
def parentStep (s : State) : Option (State × List Event) :=
  match s.parent with
  | .create =>
    if prog.named then
      if s.fifoExists then some ({ s with parent := .failed }, [])
      else some ({ s with fifoExists := true, parent := .fork }, [])
    else some ({ s with parent := .fork }, [])
  | .fork =>
    some ({ s with parent := .setup prog.parentSetup, child := .setup prog.childSetup }, [])
  | .setup (c :: calls) =>
    if c = .waitOpen ∧ s.child.calledOpen = false then none
    else some ({ s with parent := .setup calls }, [])
  | .setup [] => some ({ s with parent := .getline }, [])
  | .getline =>
    match s.cin with
    | input :: cin => some ({ s with cin := cin, parent := .write input }, [])
    | [] => some ({ s with parent := .closeWrite }, [])
  | .write input =>
    if s.child.holdsRead then
      some ({ s with pipe := s.pipe ++ input, parent := .log input.length }, [])
    else some ({ s with parent := .killed }, [])
  | .log bytes => some ({ s with parent := .getline }, [.wrote bytes])
  | .closeWrite => some ({ s with parent := .wait }, [])
  | .wait =>
    if s.child = .exited then some ({ s with parent := .exited }, [.exited .parent]) else none
  | .exited | .failed | .killed => none

/-- A step of the child, other than a read that returns bytes. Printing is a step that completes,
also when the array has no NUL and the program reads past its end. -/
def childStep (s : State) : Option (State × List Event) :=
  match s.child with
  | .notForked => none
  | .setup (c :: calls) =>
    if c = .waitOpen ∧ s.parent.calledOpen = false then none
    else some ({ s with child := .setup calls }, [])
  | .setup [] => some ({ s with child := .read }, [])
  | .read =>
    if s.pipe = [] ∧ s.hasWriter = false then some ({ s with child := .closeRead }, []) else none
  | .print chunk buf => some ({ s with child := .read }, [.printed chunk buf])
  | .closeRead => some ({ s with child := .exited }, [.exited .child])
  | .exited => none

/-- A read that returns `bytes` bytes. -/
def readStep (s : State) (bytes : ℕ) : Option (State × List Event) :=
  if s.child = .read ∧ 0 < bytes ∧ bytes ≤ bufSize ∧ bytes ≤ s.pipe.length then
    some ({ s with
      pipe := s.pipe.drop bytes,
      child := .print (s.pipe.take bytes) (received (s.pipe.take bytes)) }, [])
  else none

/-- A step of a program. -/
def step (s : State) : Label → Option (State × List Event)
  | .parent => parentStep prog s
  | .child => childStep s
  | .read bytes => readStep s bytes

/-- What a step can do, one case for each branch of `step`. -/
inductive Move (s : State) : State → List Event → Prop
  | createFailed (hpc : s.parent = .create) (hnamed : prog.named = true)
      (hexists : s.fifoExists = true) : Move s { s with parent := .failed } []
  | mkfifo (hpc : s.parent = .create) (hnamed : prog.named = true)
      (hexists : s.fifoExists = false) :
      Move s { s with fifoExists := true, parent := .fork } []
  | pipe (hpc : s.parent = .create) (hnamed : prog.named = false) :
      Move s { s with parent := .fork } []
  | fork (hpc : s.parent = .fork) :
      Move s { s with parent := .setup prog.parentSetup, child := .setup prog.childSetup } []
  | setupParent (c : Call) (calls : List Call) (hpc : s.parent = .setup (c :: calls))
      (hwait : c = .waitOpen → s.child.calledOpen = true) :
      Move s { s with parent := .setup calls } []
  | enterParent (hpc : s.parent = .setup []) : Move s { s with parent := .getline } []
  | getline (input : Line) (cin : List Line) (hpc : s.parent = .getline)
      (hcin : s.cin = input :: cin) : Move s { s with cin := cin, parent := .write input } []
  | inputEnds (hpc : s.parent = .getline) (hcin : s.cin = []) :
      Move s { s with parent := .closeWrite } []
  | write (input : Line) (hpc : s.parent = .write input) (hreader : s.child.holdsRead = true) :
      Move s { s with pipe := s.pipe ++ input, parent := .log input.length } []
  | writeKilled (input : Line) (hpc : s.parent = .write input)
      (hreader : s.child.holdsRead = false) : Move s { s with parent := .killed } []
  | log (bytes : ℕ) (hpc : s.parent = .log bytes) :
      Move s { s with parent := .getline } [.wrote bytes]
  | closeWrite (hpc : s.parent = .closeWrite) : Move s { s with parent := .wait } []
  | wait (hpc : s.parent = .wait) (hchild : s.child = .exited) :
      Move s { s with parent := .exited } [.exited .parent]
  | setupChild (c : Call) (calls : List Call) (hpc : s.child = .setup (c :: calls))
      (hwait : c = .waitOpen → s.parent.calledOpen = true) :
      Move s { s with child := .setup calls } []
  | enterChild (hpc : s.child = .setup []) : Move s { s with child := .read } []
  | readEnd (hpc : s.child = .read) (hpipe : s.pipe = []) (hwriter : s.hasWriter = false) :
      Move s { s with child := .closeRead } []
  | print (chunk : List UInt8) (buf : CharArray bufSize) (hpc : s.child = .print chunk buf) :
      Move s { s with child := .read } [.printed chunk buf]
  | closeRead (hpc : s.child = .closeRead) :
      Move s { s with child := .exited } [.exited .child]
  | read (bytes : ℕ) (hpc : s.child = .read) (hpos : 0 < bytes) (hbuf : bytes ≤ bufSize)
      (hpipe : bytes ≤ s.pipe.length) :
      Move s { s with
        pipe := s.pipe.drop bytes,
        child := .print (s.pipe.take bytes) (received (s.pipe.take bytes)) } []

variable {prog} in
/-- Every step is one of the moves. -/
theorem move_of_step {s s' : State} {a : Label} {es : List Event}
    (h : step prog s a = some (s', es)) : Move prog s s' es := by
  cases a with
  | parent =>
    rw [step, parentStep] at h
    split at h
    all_goals try split at h
    all_goals try split at h
    all_goals try contradiction
    all_goals
      obtain ⟨rfl, rfl⟩ : _ ∧ _ := by simpa using h
      constructor
    all_goals try assumption
    all_goals simp_all
  | child =>
    rw [step, childStep] at h
    split at h
    all_goals try split at h
    all_goals try contradiction
    all_goals
      obtain ⟨rfl, rfl⟩ : _ ∧ _ := by simpa using h
      constructor
    all_goals try assumption
    all_goals simp_all
  | read bytes =>
    rw [step, readStep] at h
    split at h
    · rename_i hread
      obtain ⟨rfl, rfl⟩ : _ ∧ _ := by simpa using h
      exact .read bytes hread.1 hread.2.1 hread.2.2.1 hread.2.2.2
    · contradiction

end Relay

/-- A program started with the input `lines`, where the name of the pipe exists already or not. -/
def relay (prog : Relay.Program) (fifoExists : Bool) (lines : List Line) :
    Machine Relay.State Relay.Label Relay.Event where
  init := ⟨fifoExists, [], lines, .create, .notForked⟩
  next := Relay.step prog

end Multithreading.Ipc
