import Multithreading.Ipc.Process
import Multithreading.Memory.CharArray
import Mathlib.Logic.Function.Basic

/-!
# The message queue

The program `mqueue`. The parent sends one message for each line of its input and a last message
that stops the child, closes the queue, unlinks its name and waits for the child. Either process may
come first to `mq_open`, which creates an empty queue when the name does not exist. A queue whose
name is unlinked lives on for the processes that have it open, and a later `mq_open` creates another
one.

All messages have the same priority, so a queue is first in, first out. `mq_send` blocks while the
queue has `mq_maxmsg` messages, and `mq_receive` while it has none.

## Main definitions

* `MessageQueue.Message` — the messages.
* `MessageQueue.Kernel` — the name and the queues, with the calls on them.
* `MessageQueue.State`, `MessageQueue.step`, `messageQueue` — the machine of the two processes.
-/

open Transition Memory

namespace Multithreading.Ipc

namespace MessageQueue

/-! ### Messages and queues -/

/-- `Message::BufferSize`. -/
def bufferSize : ℕ := 1024

/-- `Message::Type`. -/
inductive MessageType
  | default
  | stop
  deriving DecidableEq

structure Message where
  messageType : MessageType
  data : CharArray bufferSize
  deriving DecidableEq

/-- `sizeof(Message)`. -/
def sizeofMessage : ℕ := 4 + bufferSize

/-- `attr.mq_maxmsg`. -/
def maxMsg : ℕ := 10

namespace Message

/-- `Message{}`. -/
def initial : Message := ⟨.default, .zero _⟩

/-- The message with its data overwritten by a line. -/
def fill (message : Message) (input : Line) : Message :=
  { message with data := .ofBytes _ input }

/-- The message with its data cleared and its type set to `Stop`. -/
def fillStop (_ : Message) : Message := ⟨.stop, .zero _⟩

/-- The message for a line. -/
def ofLine (input : Line) : Message := initial.fill input

/-- The last message. -/
def stop : Message := initial.fillStop

end Message

/-- The queue that the name refers to, the messages in every queue, oldest first, and the number of
queues created so far. -/
structure Kernel where
  name : Option ℕ
  queues : ℕ → List Message
  created : ℕ

namespace Kernel

variable (k : Kernel)

def mqUnlink : Kernel := { k with name := none }

/-- `mq_open` with `O_CREAT`. -/
def mqOpen : ℕ × Kernel :=
  match k.name with
  | some queue => (queue, k)
  | none =>
    (k.created, ⟨some k.created, Function.update k.queues k.created [], k.created + 1⟩)

/-- The named objects with other messages in a queue. -/
def setQueue (queue : ℕ) (messages : List Message) : Kernel :=
  { k with queues := Function.update k.queues queue messages }

@[simp] theorem mqUnlink_queues : k.mqUnlink.queues = k.queues := rfl

@[simp] theorem mqOpen_name : k.mqOpen.2.name = some k.mqOpen.1 := by
  rw [mqOpen]
  split <;> simp_all

theorem mqOpen_of_name {queue : ℕ} (h : k.name = some queue) : k.mqOpen = (queue, k) := by
  simp [mqOpen, h]

theorem queues_mqOpen (h : k.name = none) : k.mqOpen.2.queues k.mqOpen.1 = [] := by
  simp [mqOpen, h]

@[simp] theorem setQueue_name (queue : ℕ) (messages : List Message) :
    (k.setQueue queue messages).name = k.name := rfl

@[simp] theorem setQueue_queues (queue : ℕ) (messages : List Message) :
    (k.setQueue queue messages).queues queue = messages := by
  simp [setQueue]

end Kernel

/-! ### The processes -/

/-- The program counter of the parent, with its variables `queue`, `message` and `input`. -/
inductive Parent
  /-- About to unlink the name left by an earlier run. -/
  | unlink
  | fork
  | mqOpen
  | getline (queue : ℕ) (message : Message)
  /-- About to fill the message. -/
  | fill (queue : ℕ) (message : Message) (input : Line)
  | send (queue : ℕ) (message : Message)
  | fillStop (queue : ℕ) (message : Message)
  | sendStop (queue : ℕ) (message : Message)
  | mqClose (queue : ℕ)
  | mqUnlink (queue : ℕ)
  | wait (queue : ℕ)
  | exited
  deriving DecidableEq

/-- The program counter of the child, with its variables `queue`, `size` and `message`. -/
inductive Child
  | notForked
  | mqOpen
  | receive (queue : ℕ)
  /-- About to test the type of the message and to print it. -/
  | handle (queue : ℕ) (size : ℕ) (message : Message)
  | mqClose (queue : ℕ)
  | exited
  deriving DecidableEq

/-- The state of the program: the queues, the rest of the standard input, and the two program
counters. -/
structure State where
  kernel : Kernel
  cin : List Line
  parent : Parent
  child : Child

/-- The events of the program. -/
inductive Event
  /-- The child has received a message of the given size, and prints it or leaves its loop. -/
  | handled (size : ℕ) (message : Message)
  | exited (p : Proc)
  deriving DecidableEq

/-- `mq_send` by the parent, which goes on at `next`. -/
def State.send (s : State) (queue : ℕ) (message : Message) (next : Parent) :
    Option (State × List Event) :=
  if (s.kernel.queues queue).length < maxMsg then
    some ({ s with kernel := s.kernel.setQueue queue (s.kernel.queues queue ++ [message]),
                   parent := next }, [])
  else none

/-- A step of the parent. -/
def parentStep (s : State) : Option (State × List Event) :=
  match s.parent with
  | .unlink => some ({ s with kernel := s.kernel.mqUnlink, parent := .fork }, [])
  | .fork => some ({ s with parent := .mqOpen, child := .mqOpen }, [])
  | .mqOpen =>
    some ({ s with kernel := s.kernel.mqOpen.2, parent := .getline s.kernel.mqOpen.1 .initial }, [])
  | .getline queue message =>
    match s.cin with
    | input :: cin => some ({ s with cin := cin, parent := .fill queue message input }, [])
    | [] => some ({ s with parent := .fillStop queue message }, [])
  | .fill queue message input =>
    some ({ s with parent := .send queue (message.fill input) }, [])
  | .send queue message => s.send queue message (.getline queue message)
  | .fillStop queue message => some ({ s with parent := .sendStop queue message.fillStop }, [])
  | .sendStop queue message => s.send queue message (.mqClose queue)
  | .mqClose queue => some ({ s with parent := .mqUnlink queue }, [])
  | .mqUnlink queue => some ({ s with kernel := s.kernel.mqUnlink, parent := .wait queue }, [])
  | .wait _ =>
    if s.child = .exited then some ({ s with parent := .exited }, [.exited .parent]) else none
  | .exited => none

/-- A step of the child. Printing is a step that completes, also when the array has no NUL and the
program reads past its end. -/
def childStep (s : State) : Option (State × List Event) :=
  match s.child with
  | .notForked => none
  | .mqOpen =>
    some ({ s with kernel := s.kernel.mqOpen.2, child := .receive s.kernel.mqOpen.1 }, [])
  | .receive queue =>
    match s.kernel.queues queue with
    | [] => none
    | message :: messages =>
      some ({ s with kernel := s.kernel.setQueue queue messages,
                     child := .handle queue sizeofMessage message }, [])
  | .handle queue size message =>
    if message.messageType = .stop then
      some ({ s with child := .mqClose queue }, [.handled size message])
    else some ({ s with child := .receive queue }, [.handled size message])
  | .mqClose _ => some ({ s with child := .exited }, [.exited .child])
  | .exited => none

/-- A step of a process. -/
def step (s : State) : Proc → Option (State × List Event)
  | .parent => parentStep s
  | .child => childStep s

/-- What a step can do, one case for each branch of `step`. -/
inductive Move (s : State) : Proc → State → List Event → Prop
  | unlink (hpc : s.parent = .unlink) :
      Move s .parent { s with kernel := s.kernel.mqUnlink, parent := .fork } []
  | fork (hpc : s.parent = .fork) : Move s .parent { s with parent := .mqOpen, child := .mqOpen } []
  | openParent (hpc : s.parent = .mqOpen) :
      Move s .parent { s with
        kernel := s.kernel.mqOpen.2, parent := .getline s.kernel.mqOpen.1 .initial } []
  | getline (queue : ℕ) (message : Message) (input : Line) (cin : List Line)
      (hpc : s.parent = .getline queue message) (hcin : s.cin = input :: cin) :
      Move s .parent { s with cin := cin, parent := .fill queue message input } []
  | inputEnds (queue : ℕ) (message : Message) (hpc : s.parent = .getline queue message)
      (hcin : s.cin = []) : Move s .parent { s with parent := .fillStop queue message } []
  | fill (queue : ℕ) (message : Message) (input : Line)
      (hpc : s.parent = .fill queue message input) :
      Move s .parent { s with parent := .send queue (message.fill input) } []
  | send (queue : ℕ) (message : Message) (hpc : s.parent = .send queue message)
      (hroom : (s.kernel.queues queue).length < maxMsg) :
      Move s .parent { s with
        kernel := s.kernel.setQueue queue (s.kernel.queues queue ++ [message]),
        parent := .getline queue message } []
  | fillStop (queue : ℕ) (message : Message) (hpc : s.parent = .fillStop queue message) :
      Move s .parent { s with parent := .sendStop queue message.fillStop } []
  | sendStop (queue : ℕ) (message : Message) (hpc : s.parent = .sendStop queue message)
      (hroom : (s.kernel.queues queue).length < maxMsg) :
      Move s .parent { s with
        kernel := s.kernel.setQueue queue (s.kernel.queues queue ++ [message]),
        parent := .mqClose queue } []
  | closeParent (queue : ℕ) (hpc : s.parent = .mqClose queue) :
      Move s .parent { s with parent := .mqUnlink queue } []
  | mqUnlink (queue : ℕ) (hpc : s.parent = .mqUnlink queue) :
      Move s .parent { s with kernel := s.kernel.mqUnlink, parent := .wait queue } []
  | wait (queue : ℕ) (hpc : s.parent = .wait queue) (hchild : s.child = .exited) :
      Move s .parent { s with parent := .exited } [.exited .parent]
  | openChild (hpc : s.child = .mqOpen) :
      Move s .child { s with
        kernel := s.kernel.mqOpen.2, child := .receive s.kernel.mqOpen.1 } []
  | receive (queue : ℕ) (message : Message) (messages : List Message)
      (hpc : s.child = .receive queue) (hqueue : s.kernel.queues queue = message :: messages) :
      Move s .child { s with
        kernel := s.kernel.setQueue queue messages,
        child := .handle queue sizeofMessage message } []
  | handleStop (queue size : ℕ) (message : Message) (hpc : s.child = .handle queue size message)
      (htype : message.messageType = .stop) :
      Move s .child { s with child := .mqClose queue } [.handled size message]
  | handle (queue size : ℕ) (message : Message) (hpc : s.child = .handle queue size message)
      (htype : message.messageType ≠ .stop) :
      Move s .child { s with child := .receive queue } [.handled size message]
  | closeChild (queue : ℕ) (hpc : s.child = .mqClose queue) :
      Move s .child { s with child := .exited } [.exited .child]

/-- Every step is one of the moves. -/
theorem move_of_step {s s' : State} {p : Proc} {es : List Event}
    (h : step s p = some (s', es)) : Move s p s' es := by
  cases p
  · rw [step, parentStep] at h
    split at h
    all_goals try unfold State.send at h
    all_goals try split at h
    all_goals try contradiction
    all_goals
      obtain ⟨rfl, rfl⟩ : _ ∧ _ := by simpa using h
      constructor
    all_goals assumption
  · rw [step, childStep] at h
    split at h
    all_goals try split at h
    all_goals try contradiction
    all_goals
      obtain ⟨rfl, rfl⟩ : _ ∧ _ := by simpa using h
      constructor
    all_goals assumption

end MessageQueue

/-- The program started with the queues of `kernel` and the input `lines`. -/
def messageQueue (kernel : MessageQueue.Kernel) (lines : List Line) :
    Machine MessageQueue.State Proc MessageQueue.Event where
  init := ⟨kernel, lines, .unlink, .notForked⟩
  next := MessageQueue.step

end Multithreading.Ipc
