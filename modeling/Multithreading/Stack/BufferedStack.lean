import Multithreading.Stack.AtomicStack
import Multithreading.Memory.CInt

/-!
# `BufferedLockFreeSPSCStack`

The lock-free stack of a bounded array and a counter, as a machine of any number of threads. A step
is one access to `m_head` or to a slot of `m_buffer`; a compare-and-swap may fail spuriously. `Push`
publishes the new `m_head` before it writes the slot, and `Pop` gives the slot back before it reads
it. The counter is an `int`, the capacity is a `size_t`, and a thread that leaves the range of `int`
or the bounds of the array is recorded as a fault and stops.

## Main definitions

* `BufferedStack.Shared`, `BufferedStack.Local` — the counter with the array, and the program
  counters of `Push` and `Pop` with their local variables.
* `BufferedStack.step`, `bufferedStack` — the steps of a thread, and the machine.

## Main results

* `BufferedStack.move_of_step` — what a step of a thread can do.
-/

open Transition Memory

namespace Multithreading.Stack

namespace BufferedStack

/-- `m_head` and `m_buffer`. The slots from the capacity on are not part of the array. -/
structure Shared (α : Type*) where
  mHead : ℤ
  mBuffer : ℕ → α

/-- Assignment to a slot. -/
def Shared.write {α : Type*} (sh : Shared α) (k : ℕ) (v : α) : Shared α where
  mHead := sh.mHead
  mBuffer := Function.update sh.mBuffer k v

@[simp] theorem Shared.write_mBuffer_self {α : Type*} (sh : Shared α) (k : ℕ) (v : α) :
    (sh.write k v).mBuffer k = v := by simp [write]

theorem Shared.write_mBuffer_of_ne {α : Type*} (sh : Shared α) {k m : ℕ} (v : α) (h : m ≠ k) :
    (sh.write k v).mBuffer m = sh.mBuffer m := by simp [write, h]

/-- The program counter of a thread, with the local variables of `Push` and `Pop`. -/
inductive Local (α : Type*)
  | idle
  /-- About to load `m_head`. -/
  | pushLoad (value : α)
  /-- About to compare-and-swap `m_head` from `top` to `top + 1`. -/
  | pushCas (value : α) (top : ℤ)
  /-- About to write `m_buffer[top]`. -/
  | pushWrite (value : α) (top : ℤ)
  /-- About to return `true` from `Push`. -/
  | pushed
  /-- About to return `false` from `Push`. -/
  | rejected
  /-- About to load `m_head`. -/
  | popLoad
  /-- About to compare-and-swap `m_head` from `top` to `top - 1`. -/
  | popCas (top : ℤ)
  /-- About to move `m_buffer[top - 1]` into the result. -/
  | popRead (top : ℤ)
  /-- About to return from `Pop`. -/
  | popped (result : Option α)
  /-- The behaviour of the program is undefined. -/
  | undefined

/-- What decides a step of a thread. -/
inductive Action (α : Type*)
  | call (op : Op α)
  | cas (spurious : Bool)
  | tau

variable {ι α : Type*}

/-- A step of thread `i`. A thread calls the operations that `mayCall` allows it. -/
def step (residue : α → α) (capacity : ℕ) (mayCall : ι → Op α → Bool) (i : ι) :
    Action α → Shared α → Local α → Option (Shared α × Local α × List (Event ι α))
  | .call (.push v), sh, .idle =>
    if mayCall i (.push v) then some (sh, .pushLoad v, [.call i (.push v)]) else none
  | .call .pop, sh, .idle =>
    if mayCall i .pop then some (sh, .popLoad, [.call i .pop]) else none
  | .tau, sh, .pushLoad v =>
    if toSizeT sh.mHead = capacity then some (sh, .rejected, [.load i, .full i])
    else some (sh, .pushCas v sh.mHead, [.load i])
  | .cas spurious, sh, .pushCas v top =>
    if ¬ Fits (top + 1) then some (sh, .undefined, [.fault i .overflow])
    else if sh.mHead = top ∧ spurious = false then
      some ({ sh with mHead := top + 1 }, .pushWrite v top, [.pushed i v])
    else some (sh, .pushLoad v, [casFailure i sh.mHead top])
  | .tau, sh, .pushWrite v top =>
    if toSizeT top < capacity then some (sh.write (toSizeT top) v, .pushed, [])
    else some (sh, .undefined, [.fault i .outOfBounds])
  | .tau, sh, .pushed => some (sh, .idle, [.ret i .pushed])
  | .tau, sh, .rejected => some (sh, .idle, [.ret i .rejected])
  | .tau, sh, .popLoad =>
    if sh.mHead = 0 then some (sh, .popped none, [.load i, .empty i])
    else some (sh, .popCas sh.mHead, [.load i])
  | .cas spurious, sh, .popCas top =>
    if ¬ Fits (top - 1) then some (sh, .undefined, [.fault i .overflow])
    else if sh.mHead = top ∧ spurious = false then
      some ({ sh with mHead := top - 1 }, .popRead top, [.popped i])
    else some (sh, .popLoad, [casFailure i sh.mHead top])
  | .tau, sh, .popRead top =>
    if toSizeT (top - 1) < capacity then
      some (sh.write (toSizeT (top - 1)) (residue (sh.mBuffer (toSizeT (top - 1)))),
        .popped (some (sh.mBuffer (toSizeT (top - 1)))), [])
    else some (sh, .undefined, [.fault i .outOfBounds])
  | .tau, sh, .popped r => some (sh, .idle, [.ret i (.popped r)])
  | _, _, _ => none

/-- What a step of thread `i` can do, one case for each branch of `step`. -/
inductive Move (residue : α → α) (capacity : ℕ) (mayCall : ι → Op α → Bool) (i : ι)
    (sh : Shared α) : Action α → Local α → Shared α → Local α → List (Event ι α) → Prop
  | callPush (v : α) (hcall : mayCall i (.push v) = true) :
      Move residue capacity mayCall i sh (.call (.push v)) .idle sh (.pushLoad v)
        [.call i (.push v)]
  | callPop (hcall : mayCall i .pop = true) :
      Move residue capacity mayCall i sh (.call .pop) .idle sh .popLoad [.call i .pop]
  | pushFull (v : α) (hfull : toSizeT sh.mHead = capacity) :
      Move residue capacity mayCall i sh .tau (.pushLoad v) sh .rejected [.load i, .full i]
  | pushLoad (v : α) (hroom : toSizeT sh.mHead ≠ capacity) :
      Move residue capacity mayCall i sh .tau (.pushLoad v) sh (.pushCas v sh.mHead) [.load i]
  | pushOverflow (spurious : Bool) (v : α) (top : ℤ) (hfits : ¬ Fits (top + 1)) :
      Move residue capacity mayCall i sh (.cas spurious) (.pushCas v top) sh .undefined
        [.fault i .overflow]
  | pushWin (spurious : Bool) (v : α) (top : ℤ) (hfits : Fits (top + 1)) (hhead : sh.mHead = top) :
      Move residue capacity mayCall i sh (.cas spurious) (.pushCas v top)
        { sh with mHead := top + 1 } (.pushWrite v top) [.pushed i v]
  | pushLose (spurious : Bool) (v : α) (top : ℤ) (hfits : Fits (top + 1)) :
      Move residue capacity mayCall i sh (.cas spurious) (.pushCas v top) sh (.pushLoad v)
        [casFailure i sh.mHead top]
  | pushWrite (v : α) (top : ℤ) (hbound : toSizeT top < capacity) :
      Move residue capacity mayCall i sh .tau (.pushWrite v top) (sh.write (toSizeT top) v)
        .pushed []
  | pushBounds (v : α) (top : ℤ) (hbound : capacity ≤ toSizeT top) :
      Move residue capacity mayCall i sh .tau (.pushWrite v top) sh .undefined
        [.fault i .outOfBounds]
  | pushRet : Move residue capacity mayCall i sh .tau .pushed sh .idle [.ret i .pushed]
  | rejectRet : Move residue capacity mayCall i sh .tau .rejected sh .idle [.ret i .rejected]
  | popEmpty (hzero : sh.mHead = 0) :
      Move residue capacity mayCall i sh .tau .popLoad sh (.popped none) [.load i, .empty i]
  | popLoad (hzero : sh.mHead ≠ 0) :
      Move residue capacity mayCall i sh .tau .popLoad sh (.popCas sh.mHead) [.load i]
  | popOverflow (spurious : Bool) (top : ℤ) (hfits : ¬ Fits (top - 1)) :
      Move residue capacity mayCall i sh (.cas spurious) (.popCas top) sh .undefined
        [.fault i .overflow]
  | popWin (spurious : Bool) (top : ℤ) (hfits : Fits (top - 1)) (hhead : sh.mHead = top) :
      Move residue capacity mayCall i sh (.cas spurious) (.popCas top)
        { sh with mHead := top - 1 } (.popRead top) [.popped i]
  | popLose (spurious : Bool) (top : ℤ) (hfits : Fits (top - 1)) :
      Move residue capacity mayCall i sh (.cas spurious) (.popCas top) sh .popLoad
        [casFailure i sh.mHead top]
  | popRead (top : ℤ) (hbound : toSizeT (top - 1) < capacity) :
      Move residue capacity mayCall i sh .tau (.popRead top)
        (sh.write (toSizeT (top - 1)) (residue (sh.mBuffer (toSizeT (top - 1)))))
        (.popped (some (sh.mBuffer (toSizeT (top - 1))))) []
  | popBounds (top : ℤ) (hbound : capacity ≤ toSizeT (top - 1)) :
      Move residue capacity mayCall i sh .tau (.popRead top) sh .undefined
        [.fault i .outOfBounds]
  | popRet (r : Option α) :
      Move residue capacity mayCall i sh .tau (.popped r) sh .idle [.ret i (.popped r)]

/-- Every step is one of the moves. -/
theorem move_of_step {residue : α → α} {capacity : ℕ} {mayCall : ι → Op α → Bool} {i : ι}
    {x : Action α} {sh sh' : Shared α} {l l' : Local α} {es : List (Event ι α)}
    (h : step residue capacity mayCall i x sh l = some (sh', l', es)) :
    Move residue capacity mayCall i sh x l sh' l' es := by
  unfold step at h
  split at h
  all_goals try split at h
  all_goals try split at h
  all_goals try contradiction
  all_goals
    obtain ⟨rfl, rfl, rfl⟩ : _ ∧ _ ∧ _ := by simpa using h
    constructor
  all_goals simp_all

end BufferedStack

variable {ι α : Type*} [DecidableEq ι]

/-- `BufferedLockFreeSPSCStack` of the given capacity used by the threads `ι`, which call the
operations that `mayCall` allows them. The array is initialised with `init`. -/
def bufferedStack (residue : α → α) (init : α) (capacity : ℕ) (mayCall : ι → Op α → Bool) :
    Machine (Config ι (BufferedStack.Shared α) (BufferedStack.Local α))
      (ι × BufferedStack.Action α) (Event ι α) :=
  interleave ⟨⟨0, fun _ => init⟩, fun _ => .idle⟩ (BufferedStack.step residue capacity mayCall)

end Multithreading.Stack
