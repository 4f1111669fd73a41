import Multithreading.Stack.AtomicStack
import Multithreading.Memory.Chain

/-!
# `LockFreeSPSCStack`

The lock-free stack of linked heap nodes, as a machine of any number of threads. A step is one
access to `m_head` or to a field of a node, an allocation or a deletion. A compare-and-swap may
fail spuriously, and an allocation may return any address that is not allocated at the moment, so
also the address of a node that was deleted before. A node that is deleted keeps its last contents
until its address is allocated again; a use of it is recorded as a fault.

The destructor runs when all operations are over, so it is a function of the shared state.

## Main definitions

* `LinkedStack.Shared`, `LinkedStack.Local` — the head with the heap, and the program counters of
  `Push` and `Pop` with their local variables.
* `LinkedStack.step`, `linkedStack` — the steps of a thread, and the machine.
* `LinkedStack.destroyLoop`, `LinkedStack.destroy` — the destructor.

## Main results

* `LinkedStack.move_of_step` — what a step of a thread can do.
-/

open Transition

namespace Multithreading.Stack

namespace LinkedStack

/-- Addresses of nodes. A pointer is an optional address, the null pointer being `none`. -/
abbrev Addr := ℕ

/-- `Node`. -/
structure Node (α : Type*) where
  data : α
  next : Option Addr

/-- `m_head` and the heap. -/
structure Shared (α : Type*) where
  mHead : Option Addr
  /-- The contents of the memory at an address, as written last. -/
  node : Addr → Node α
  /-- The addresses that are allocated. -/
  live : Addr → Bool

namespace Shared

variable {α : Type*} (sh : Shared α)

/-- `new Node(value)` at the address `a`. -/
def new (a : Addr) (value : α) : Shared α where
  mHead := sh.mHead
  node := Function.update sh.node a ⟨value, none⟩
  live := Function.update sh.live a true

/-- `a->next = p`. -/
def setNext (a : Addr) (p : Option Addr) : Shared α where
  mHead := sh.mHead
  node := Function.update sh.node a { sh.node a with next := p }
  live := sh.live

/-- What remains in the node after `std::move(a->data)` has been consumed. -/
def moveData (residue : α → α) (a : Addr) : Shared α where
  mHead := sh.mHead
  node := Function.update sh.node a { sh.node a with data := residue (sh.node a).data }
  live := sh.live

/-- `delete a`. -/
def delete (a : Addr) : Shared α where
  mHead := sh.mHead
  node := sh.node
  live := Function.update sh.live a false

/-- The fault of using a node, if it is not allocated. -/
def use {ι : Type*} (i : ι) (a : Addr) (f : Fault) : List (Event ι α) :=
  if sh.live a then [] else [.fault i f]

end Shared

namespace Shared

variable {α : Type*} (sh : Shared α) (a b : Addr)

@[simp] theorem new_node_self (v : α) : (sh.new a v).node a = ⟨v, none⟩ := by simp [new]

theorem new_node_of_ne (v : α) (h : b ≠ a) : (sh.new a v).node b = sh.node b := by simp [new, h]

@[simp] theorem new_live (v : α) : (sh.new a v).live b = true ↔ b = a ∨ sh.live b = true := by
  by_cases h : b = a <;> simp [new, h]

@[simp] theorem setNext_live (p : Option Addr) : (sh.setNext a p).live = sh.live := rfl

theorem setNext_node_of_ne (p : Option Addr) (h : b ≠ a) : (sh.setNext a p).node b = sh.node b := by
  simp [setNext, h]

@[simp] theorem setNext_data (p : Option Addr) :
    ((sh.setNext a p).node b).data = (sh.node b).data := by
  by_cases h : b = a
  · subst h
    simp [setNext]
  · simp [setNext, h]

@[simp] theorem moveData_live (residue : α → α) : (sh.moveData residue a).live = sh.live := rfl

theorem moveData_node_of_ne (residue : α → α) (h : b ≠ a) :
    (sh.moveData residue a).node b = sh.node b := by
  simp [moveData, h]

@[simp] theorem moveData_next (residue : α → α) :
    ((sh.moveData residue a).node b).next = (sh.node b).next := by
  by_cases h : b = a
  · subst h
    simp [moveData]
  · rw [sh.moveData_node_of_ne a b residue h]

@[simp] theorem delete_live : (sh.delete a).live b = true ↔ b ≠ a ∧ sh.live b = true := by
  by_cases h : b = a <;> simp [delete, h]

end Shared

/-- The program counter of a thread, with the local variables of `Push` and `Pop`. -/
inductive Local (α : Type*)
  | idle
  /-- About to evaluate `new Node(std::move(value))`. -/
  | pushNew (value : α)
  /-- About to load `m_head`. -/
  | pushLoad (newHead : Addr)
  /-- About to write the observed head to `newHead->next`. -/
  | pushLink (newHead : Addr) (seen : Option Addr)
  /-- About to compare-and-swap `m_head` from `newHead->next` to `newHead`. -/
  | pushCas (newHead : Addr)
  /-- About to return from `Push`. -/
  | pushed
  /-- About to load `m_head`. -/
  | popLoad
  /-- About to read `oldHead->next` for the argument of the compare-and-swap. -/
  | popNext (oldHead : Addr)
  /-- About to compare-and-swap `m_head` from `oldHead` to the pointer that was read. -/
  | popCas (oldHead : Addr) (next : Option Addr)
  /-- About to move `oldHead->data` into the result. -/
  | popTake (oldHead : Addr)
  /-- About to delete `oldHead`. -/
  | popDelete (oldHead : Addr) (result : α)
  /-- About to return from `Pop`. -/
  | popped (result : Option α)
  deriving DecidableEq

/-- What decides a step of a thread. -/
inductive Action (α : Type*)
  | call (op : Op α)
  | alloc (a : Addr)
  | cas (spurious : Bool)
  | tau

/-- The loop of `Pop` is entered, or entered again, with the observed head. -/
def Local.ofHead {α : Type*} : Option Addr → Local α
  | none => .popped none
  | some a => .popNext a

/-- The observation that the stack is empty. -/
def sawHead {ι α : Type*} (i : ι) : Option Addr → List (Event ι α)
  | none => [.empty i]
  | some _ => []

variable {ι α : Type*}

/-- A step of thread `i`. Only the threads with `mayPop` call `Pop`. -/
def step (residue : α → α) (mayPop : ι → Bool) (i : ι) :
    Action α → Shared α → Local α → Option (Shared α × Local α × List (Event ι α))
  | .call (.push v), sh, .idle => some (sh, .pushNew v, [.call i (.push v)])
  | .call .pop, sh, .idle => if mayPop i then some (sh, .popLoad, [.call i .pop]) else none
  | .alloc a, sh, .pushNew v => if sh.live a then none else some (sh.new a v, .pushLoad a, [])
  | .tau, sh, .pushLoad n => some (sh, .pushLink n sh.mHead, [.load i])
  | .tau, sh, .pushLink n seen => some (sh.setNext n seen, .pushCas n, sh.use i n .useFreed)
  | .cas spurious, sh, .pushCas n =>
    if sh.mHead = (sh.node n).next ∧ spurious = false then
      some ({ sh with mHead := some n }, .pushed,
        sh.use i n .useFreed ++ [.pushed i (sh.node n).data])
    else
      some (sh, .pushLink n sh.mHead,
        sh.use i n .useFreed ++ [casFailure i sh.mHead (sh.node n).next])
  | .tau, sh, .pushed => some (sh, .idle, [.ret i .pushed])
  | .tau, sh, .popLoad => some (sh, .ofHead sh.mHead, .load i :: sawHead i sh.mHead)
  | .tau, sh, .popNext a => some (sh, .popCas a (sh.node a).next, sh.use i a .useFreed)
  | .cas spurious, sh, .popCas a next =>
    if sh.mHead = some a ∧ spurious = false then
      some ({ sh with mHead := next }, .popTake a, [.popped i])
    else
      some (sh, .ofHead sh.mHead, casFailure i sh.mHead (some a) :: sawHead i sh.mHead)
  | .tau, sh, .popTake a =>
    some (sh.moveData residue a, .popDelete a (sh.node a).data, sh.use i a .useFreed)
  | .tau, sh, .popDelete a v => some (sh.delete a, .popped (some v), sh.use i a .deleteFreed)
  | .tau, sh, .popped r => some (sh, .idle, [.ret i (.popped r)])
  | _, _, _ => none

/-- What a step of thread `i` can do, one case for each branch of `step`. -/
inductive Move (residue : α → α) (mayPop : ι → Bool) (i : ι) (sh : Shared α) :
    Action α → Local α → Shared α → Local α → List (Event ι α) → Prop
  | callPush (v : α) : Move residue mayPop i sh (.call (.push v)) .idle sh (.pushNew v)
      [.call i (.push v)]
  | callPop (hpop : mayPop i = true) : Move residue mayPop i sh (.call .pop) .idle sh .popLoad
      [.call i .pop]
  | alloc (a : Addr) (v : α) (hfree : sh.live a = false) :
      Move residue mayPop i sh (.alloc a) (.pushNew v) (sh.new a v) (.pushLoad a) []
  | pushLoad (n : Addr) :
      Move residue mayPop i sh .tau (.pushLoad n) sh (.pushLink n sh.mHead) [.load i]
  | pushLink (n : Addr) (seen : Option Addr) :
      Move residue mayPop i sh .tau (.pushLink n seen) (sh.setNext n seen) (.pushCas n)
        (sh.use i n .useFreed)
  | pushWin (spurious : Bool) (n : Addr) (hhead : sh.mHead = (sh.node n).next) :
      Move residue mayPop i sh (.cas spurious) (.pushCas n) { sh with mHead := some n } .pushed
        (sh.use i n .useFreed ++ [.pushed i (sh.node n).data])
  | pushLose (spurious : Bool) (n : Addr) :
      Move residue mayPop i sh (.cas spurious) (.pushCas n) sh (.pushLink n sh.mHead)
        (sh.use i n .useFreed ++ [casFailure i sh.mHead (sh.node n).next])
  | pushRet : Move residue mayPop i sh .tau .pushed sh .idle [.ret i .pushed]
  | popLoad : Move residue mayPop i sh .tau .popLoad sh (.ofHead sh.mHead)
      (.load i :: sawHead i sh.mHead)
  | popNext (a : Addr) : Move residue mayPop i sh .tau (.popNext a) sh
      (.popCas a (sh.node a).next) (sh.use i a .useFreed)
  | popWin (spurious : Bool) (a : Addr) (next : Option Addr) (hhead : sh.mHead = some a) :
      Move residue mayPop i sh (.cas spurious) (.popCas a next) { sh with mHead := next }
        (.popTake a) [.popped i]
  | popLose (spurious : Bool) (a : Addr) (next : Option Addr) :
      Move residue mayPop i sh (.cas spurious) (.popCas a next) sh (.ofHead sh.mHead)
        (casFailure i sh.mHead (some a) :: sawHead i sh.mHead)
  | popTake (a : Addr) : Move residue mayPop i sh .tau (.popTake a) (sh.moveData residue a)
      (.popDelete a (sh.node a).data) (sh.use i a .useFreed)
  | popDelete (a : Addr) (v : α) : Move residue mayPop i sh .tau (.popDelete a v) (sh.delete a)
      (.popped (some v)) (sh.use i a .deleteFreed)
  | popRet (r : Option α) : Move residue mayPop i sh .tau (.popped r) sh .idle [.ret i (.popped r)]

/-- Every step is one of the moves. -/
theorem move_of_step {residue : α → α} {mayPop : ι → Bool} {i : ι} {x : Action α}
    {sh sh' : Shared α} {l l' : Local α} {es : List (Event ι α)}
    (h : step residue mayPop i x sh l = some (sh', l', es)) :
    Move residue mayPop i sh x l sh' l' es := by
  unfold step at h
  split at h
  all_goals try split at h
  all_goals try contradiction
  all_goals
    obtain ⟨rfl, rfl, rfl⟩ : _ ∧ _ ∧ _ := by simpa using h
    constructor
  all_goals simp_all

/-- The loop of the destructor, for at most the given number of rounds. It has no result when the
rounds do not suffice or when it would use a node that is not allocated. -/
def destroyLoop : ℕ → Shared α → Option Addr → Option (Shared α × List Addr)
  | _, sh, none => some (sh, [])
  | 0, _, some _ => none
  | rounds + 1, sh, some head =>
    if sh.live head then
      (destroyLoop rounds (sh.delete head) (sh.node head).next).map fun r => (r.1, head :: r.2)
    else none

/-- `~LockFreeSPSCStack`, with the list of the nodes that it deletes. -/
def destroy (rounds : ℕ) (sh : Shared α) : Option (Shared α × List Addr) :=
  destroyLoop rounds { sh with mHead := none } sh.mHead

end LinkedStack

variable {ι α : Type*} [DecidableEq ι]

/-- `LockFreeSPSCStack` used by the threads `ι`, of which those with `mayPop` call `Pop`. The
memory `raw` is what the heap contains before the first allocation. -/
def linkedStack (residue : α → α) (raw : LinkedStack.Addr → LinkedStack.Node α)
    (mayPop : ι → Bool) :
    Machine (Config ι (LinkedStack.Shared α) (LinkedStack.Local α)) (ι × LinkedStack.Action α)
      (Event ι α) :=
  interleave ⟨⟨none, raw, fun _ => false⟩, fun _ => .idle⟩ (LinkedStack.step residue mayPop)

namespace LinkedStack

/-- The labels of a call of `Push` that no other thread disturbs. -/
def pushAlone {ι α : Type*} (i : ι) (v : α) (a : Addr) : List (ι × Action α) :=
  [(i, .call (.push v)), (i, .alloc a), (i, .tau), (i, .tau), (i, .cas false), (i, .tau)]

/-- The labels of a call of `Pop` on a nonempty stack that no other thread disturbs. -/
def popAlone {ι α : Type*} (i : ι) : List (ι × Action α) :=
  [(i, .call .pop), (i, .tau), (i, .tau), (i, .cas false), (i, .tau), (i, .tau), (i, .tau)]

end LinkedStack

end Multithreading.Stack
