import Multithreading.Transition.Refinement
import Multithreading.Transition.Threads
import Mathlib.Data.Multiset.AddSub

/-!
# The atomic stack

What a concurrent stack is for: a list of values that any number of threads push to and pop from,
each operation taking effect at one instant between its call and its return. The list has an
optional capacity. A push into a full list is rejected, and a pop from an empty list returns
nothing; both leave the list as it is.

The implementations emit the events of this module. The events that do not concern the list (the
load of the head, a compare-and-swap that fails, a use of memory that has been given back) are
silent for the atomic stack.

## Main definitions

* `Event` — the events of a stack operation.
* `AtomicStack.Step`, `atomicStack` — the atomic stack as a specification of histories.
* `stored` — the list that is stored after a history.
* `pushedValues`, `returnedValues` — the values accepted and handed out in a history.

## Main results

* `AtomicStack.conservation` — accepted values are handed out, in flight, or stored.
* `AtomicStack.exists_effect_of_ret` — a returned operation took effect at one instant between
  its call and its return.
* `AtomicStack.ret_popped_some`, `AtomicStack.ret_popped_none` — what a pop saw at that instant.
-/

open Transition

namespace Multithreading.Stack

/-- The operations of a stack. -/
inductive Op (α : Type*)
  | push (v : α)
  | pop
  deriving DecidableEq

/-- The ways in which an operation returns. -/
inductive Outcome (α : Type*)
  | pushed
  | rejected
  | popped (r : Option α)
  deriving DecidableEq

/-- Uses of memory or of integers that the language leaves undefined. -/
inductive Fault
  | overflow
  | outOfBounds
  | useFreed
  | deleteFreed
  deriving DecidableEq

/-- The events of the operations of the threads `ι` on a stack of values `α`. -/
inductive Event (ι α : Type*)
  /-- An operation is called. -/
  | call (i : ι) (op : Op α)
  /-- The head is loaded. -/
  | load (i : ι)
  /-- A compare-and-swap of the head succeeds and adds a value. -/
  | pushed (i : ι) (v : α)
  /-- A compare-and-swap of the head succeeds and removes the front value. -/
  | popped (i : ι)
  /-- A push sees that the stack is full. -/
  | full (i : ι)
  /-- A pop sees that the stack is empty. -/
  | empty (i : ι)
  /-- A compare-and-swap fails because the head is not the expected one. -/
  | failed (i : ι)
  /-- A compare-and-swap fails although the head is the expected one. -/
  | spurious (i : ι)
  /-- The language leaves the behaviour undefined. -/
  | fault (i : ι) (f : Fault)
  /-- An operation returns. -/
  | ret (i : ι) (o : Outcome α)
  deriving DecidableEq

namespace Event

variable {ι α : Type*}

/-- The events that do not concern the stored list. -/
def Silent : Event ι α → Prop
  | load _ | failed _ | spurious _ | fault _ _ => True
  | _ => False

/-- The event at which an operation of thread `i` takes effect. -/
def EffectOf (i : ι) : Event ι α → Prop
  | pushed j _ | popped j | full j | empty j => j = i
  | _ => False

/-- The calls and the returns of thread `i`. -/
def BoundaryOf (i : ι) : Event ι α → Prop
  | call j _ | ret j _ => j = i
  | _ => False

/-- The value that an event adds. -/
def pushedValue : Event ι α → Option α
  | pushed _ v => some v
  | _ => none

/-- The value that an event hands out. -/
def returnedValue : Event ι α → Option α
  | ret _ (.popped r) => r
  | _ => none

end Event

variable {ι α : Type*}

/-- The failure of a compare-and-swap of the head, which is spurious when the head is the expected
one. -/
def casFailure {β : Type*} [DecidableEq β] (i : ι) (head expected : β) : Event ι α :=
  if head = expected then .spurious i else .failed i

theorem silent_casFailure {β : Type*} [DecidableEq β] (i : ι) (head expected : β) :
    (casFailure i head expected : Event ι α).Silent := by
  rw [casFailure]
  split_ifs <;> trivial

theorem fault_ne_casFailure {β : Type*} [DecidableEq β] (i j : ι) (f : Fault) (head expected : β) :
    (.fault j f : Event ι α) ≠ casFailure i head expected := by
  rw [casFailure]
  split_ifs <;> simp

/-- What an event does to the stored list. -/
def Event.apply : Event ι α → List α → List α
  | .pushed _ v, xs => v :: xs
  | .popped _, xs => xs.tail
  | _, xs => xs

/-- The list that is stored after a history, front first. It changes only where a
compare-and-swap succeeds. -/
def stored (h : List (Event ι α)) : List α := h.foldl (fun xs e => e.apply xs) []

theorem stored_snoc (h : List (Event ι α)) (e : Event ι α) :
    stored (h ++ [e]) = e.apply (stored h) := by
  simp [stored]

/-- The values accepted in a history, in order. -/
def pushedValues (h : List (Event ι α)) : List α := h.filterMap Event.pushedValue

/-- The values handed out in a history, in order. -/
def returnedValues (h : List (Event ι α)) : List α := h.filterMap Event.returnedValue

theorem pushedValues_append (h h' : List (Event ι α)) :
    pushedValues (h ++ h') = pushedValues h ++ pushedValues h' :=
  List.filterMap_append

theorem pushedValues_snoc (h : List (Event ι α)) (e : Event ι α) :
    pushedValues (h ++ [e]) = pushedValues h ++ e.pushedValue.toList := by
  cases he : e.pushedValue <;> simp [pushedValues, he]

theorem returnedValues_snoc (h : List (Event ι α)) (e : Event ι α) :
    returnedValues (h ++ [e]) = returnedValues h ++ e.returnedValue.toList := by
  cases he : e.returnedValue <;> simp [returnedValues, he]

namespace AtomicStack

/-- Where a thread is in its current operation. -/
inductive Pending (α : Type*)
  | idle
  /-- The operation has been called and has not taken effect. -/
  | called (op : Op α)
  /-- The operation has taken effect and has not returned. -/
  | done (o : Outcome α)

/-- A state of the atomic stack: the stored list, front first, and where every thread is. -/
abbrev State (ι α : Type*) := Config ι (List α) (Pending α)

variable [DecidableEq ι]

/-- The atomic stack reads an event. The capacity `none` is unbounded. -/
inductive Step (capacity : Option ℕ) (t : State ι α) : Event ι α → State ι α → Prop
  | call (i : ι) (op : Op α) (hi : t.threads i = .idle) :
      Step capacity t (.call i op) (t.set i t.shared (.called op))
  | push (i : ι) (v : α) (hi : t.threads i = .called (.push v))
      (hroom : ∀ n ∈ capacity, t.shared.length < n) :
      Step capacity t (.pushed i v) (t.set i (v :: t.shared) (.done .pushed))
  | full (i : ι) (v : α) (hi : t.threads i = .called (.push v))
      (hfull : t.shared.length ∈ capacity) :
      Step capacity t (.full i) (t.set i t.shared (.done .rejected))
  | pop (i : ι) (v : α) (rest : List α) (hi : t.threads i = .called .pop)
      (hitems : t.shared = v :: rest) :
      Step capacity t (.popped i) (t.set i rest (.done (.popped (some v))))
  | empty (i : ι) (hi : t.threads i = .called .pop) (hitems : t.shared = []) :
      Step capacity t (.empty i) (t.set i t.shared (.done (.popped none)))
  | ret (i : ι) (o : Outcome α) (hi : t.threads i = .done o) :
      Step capacity t (.ret i o) (t.set i t.shared .idle)
  | silent (e : Event ι α) (he : e.Silent) : Step capacity t e t

end AtomicStack

variable [DecidableEq ι]

/-- The atomic stack with an optional capacity, initially empty and with all threads idle. -/
def atomicStack (ι α : Type*) [DecidableEq ι] (capacity : Option ℕ) :
    Spec (AtomicStack.State ι α) (Event ι α) where
  init := ⟨[], fun _ => .idle⟩
  step := AtomicStack.Step capacity

namespace AtomicStack

variable {capacity : Option ℕ} {t t' : State ι α} {h h' : List (Event ι α)} {i : ι}
  {o : Outcome α}

/-- The stored list is determined by the history. -/
theorem shared_eq_stored
    (hrun : (atomicStack ι α capacity).Run (atomicStack ι α capacity).init h t) :
    t.shared = stored h := by
  refine hrun.invariant (fun t h => t.shared = stored h) rfl fun {h b c e} _ ih hstep => ?_
  rw [stored_snoc, ← ih]
  cases hstep with
  | pop i v rest hi hitems => simp [Event.apply, hitems]
  | silent e he => cases e <;> simp_all [Event.Silent, Event.apply]
  | _ => rfl

/-! ### Conservation -/

/-- The value that an operation holds between its effect and its return. -/
def Pending.held : Pending α → Multiset α
  | .done (.popped (some v)) => {v}
  | _ => 0

section Conservation

variable [Fintype ι]

private theorem step_conservation {e : Event ι α} (hstep : Step capacity t e t') :
    (e.pushedValue.toList : Multiset α) + (t.census Pending.held + t.shared) =
      e.returnedValue.toList + (t'.census Pending.held + t'.shared) := by
  have key (i : ι) (sh : List α) (l : Pending α) := t.census_set i sh l Pending.held
  cases hstep with
  | call i op hi =>
    have hcensus := key i t.shared (.called op)
    simp only [hi, Pending.held, add_zero] at hcensus
    simp [Event.pushedValue, Event.returnedValue, hcensus]
  | push i v hi hroom =>
    have hcensus := key i (v :: t.shared) (.done .pushed)
    simp only [hi, Pending.held, add_zero] at hcensus
    simp [Event.pushedValue, Event.returnedValue, hcensus, ← Multiset.cons_coe,
      ← Multiset.singleton_add, add_left_comm]
  | full i v hi hfull =>
    have hcensus := key i t.shared (.done .rejected)
    simp only [hi, Pending.held, add_zero] at hcensus
    simp [Event.pushedValue, Event.returnedValue, hcensus]
  | pop i v rest hi hitems =>
    have hcensus := key i rest (.done (.popped (some v)))
    simp only [hi, Pending.held, add_zero] at hcensus
    simp [Event.pushedValue, Event.returnedValue, hcensus, hitems, ← Multiset.cons_coe,
      ← Multiset.singleton_add, add_assoc]
  | empty i hi hitems =>
    have hcensus := key i t.shared (.done (.popped none))
    simp only [hi, Pending.held, add_zero] at hcensus
    simp [Event.pushedValue, Event.returnedValue, hcensus]
  | ret i o hi =>
    have hcensus := key i t.shared .idle
    have hidle : (Pending.idle : Pending α).held = 0 := rfl
    rw [hi, hidle, add_zero] at hcensus
    rw [← hcensus]
    rcases o with - | - | - | v <;>
      simp [Event.pushedValue, Event.returnedValue, Pending.held, add_left_comm, add_comm]
  | silent e he =>
    cases e <;> simp_all [Event.Silent, Event.pushedValue, Event.returnedValue]

/-- **Conservation.** The accepted values are the values that were handed out, the values that an
operation has removed and not yet returned, and the values that are stored. -/
theorem conservation (hrun : (atomicStack ι α capacity).Run (atomicStack ι α capacity).init h t) :
    (pushedValues h : Multiset α) = returnedValues h + t.census Pending.held + t.shared := by
  refine hrun.invariant
    (fun t h => (pushedValues h : Multiset α) = returnedValues h + t.census Pending.held + t.shared)
    ?_ ?_
  · rw [Config.census_const _ Pending.held .idle (fun _ => rfl) rfl]
    rfl
  · intro h b c e _ ih hstep
    have hone := step_conservation hstep
    rw [pushedValues_snoc, returnedValues_snoc, ← Multiset.coe_add, ← Multiset.coe_add, ih]
    calc (returnedValues h : Multiset α) + b.census Pending.held + b.shared +
          (e.pushedValue.toList : Multiset α)
        = returnedValues h +
          ((e.pushedValue.toList : Multiset α) + (b.census Pending.held + b.shared)) := by abel
      _ = returnedValues h + (e.returnedValue.toList : Multiset α) + c.census Pending.held +
          c.shared := by rw [hone]; abel

/-- When no operation is in flight the accepted values are the values handed out and the values
that are stored. -/
theorem conservation_of_idle
    (hrun : (atomicStack ι α capacity).Run (atomicStack ι α capacity).init h t)
    (hidle : ∀ i, t.threads i = .idle) :
    (pushedValues h : Multiset α) = returnedValues h + t.shared := by
  rw [conservation hrun, t.census_const Pending.held .idle hidle rfl, add_zero]

theorem returned_le_pushed
    (hrun : (atomicStack ι α capacity).Run (atomicStack ι α capacity).init h t) :
    (returnedValues h : Multiset α) ≤ pushedValues h := by
  rw [conservation hrun, add_assoc]
  exact Multiset.le_add_right _ _

end Conservation

/-! ### The instant of effect -/

/-- A history in which an operation of thread `i` takes effect at the event `e`, read in the state
`b`, with the outcome `o`, and thread `i` neither returns nor calls afterwards. -/
structure EffectAt (capacity : Option ℕ) (i : ι) (o : Outcome α) (pre : List (Event ι α))
    (e : Event ι α) (post : List (Event ι α)) (b : State ι α) : Prop where
  effect : e.EffectOf i
  before : (atomicStack ι α capacity).Run (atomicStack ι α capacity).init pre b
  outcome : ∃ c, Step capacity b e c ∧ c.threads i = .done o
  pending : ∀ e' ∈ post, ¬ e'.BoundaryOf i

private theorem effectOf_of_done {e : Event ι α} (hstep : Step capacity t e t')
    (hnew : t.threads i ≠ .done o) (hi : t'.threads i = .done o) : e.EffectOf i := by
  cases hstep with
  | silent e he => exact absurd hi hnew
  | call j op hj =>
    rw [Config.set_threads_apply] at hi
    split_ifs at hi with hij
    exact absurd hi hnew
  | ret j o' hj =>
    rw [Config.set_threads_apply] at hi
    split_ifs at hi with hij
    exact absurd hi hnew
  | _ =>
    by_contra hne
    rw [Config.set_threads_of_ne _ _ _ (fun hij => hne hij.symm)] at hi
    exact hnew hi

private theorem not_boundaryOf_of_done {e : Event ι α} (hstep : Step capacity t e t')
    (hold : t.threads i = .done o) (hi : t'.threads i = .done o) : ¬ e.BoundaryOf i := by
  cases hstep with
  | call j op hj =>
    rintro rfl
    simp at hi
  | ret j o' hj =>
    rintro rfl
    simp at hi
  | silent e he => cases e <;> simp_all [Event.Silent, Event.BoundaryOf]
  | _ => simp [Event.BoundaryOf]

/-- An operation that has taken effect did so at one event of its history. -/
theorem exists_effect (hrun : (atomicStack ι α capacity).Run (atomicStack ι α capacity).init h t)
    (hi : t.threads i = .done o) :
    ∃ pre e post b, h = pre ++ e :: post ∧ EffectAt capacity i o pre e post b := by
  induction hrun with
  | refl => exact absurd hi (by simp [atomicStack])
  | @tail h b c e hrun hstep ih =>
    by_cases hold : b.threads i = .done o
    · obtain ⟨pre, e', post, d, rfl, heff⟩ := ih hold
      refine ⟨pre, e', post ++ [e], d, by simp, heff.effect, heff.before, heff.outcome, ?_⟩
      intro e'' he''
      rcases List.mem_append.mp he'' with hmem | hmem
      · exact heff.pending e'' hmem
      · obtain rfl := List.mem_singleton.mp hmem
        exact not_boundaryOf_of_done hstep hold hi
    · exact ⟨h, e, [], b, rfl, effectOf_of_done hstep hold hi, hrun, ⟨c, hstep, hi⟩, by simp⟩

/-- An operation that returns took effect at one event between its call and its return. -/
theorem exists_effect_of_ret {post : List (Event ι α)}
    (hrun : (atomicStack ι α capacity).Run (atomicStack ι α capacity).init
      (h ++ .ret i o :: post) t) :
    ∃ pre e mid b, h = pre ++ e :: mid ∧ EffectAt capacity i o pre e mid b := by
  obtain ⟨b, hrun, hret⟩ := Spec.run_append.mp hrun
  obtain ⟨c, hstep, -⟩ := Spec.run_cons.mp hret
  refine exists_effect hrun ?_
  cases hstep with
  | ret _ _ hi => exact hi
  | silent _ he => exact absurd he (by simp [Event.Silent])

/-- A pop that returns nothing saw the empty list at an instant between its call and its
return. -/
theorem ret_popped_none {post : List (Event ι α)}
    (hrun : (atomicStack ι α capacity).Run (atomicStack ι α capacity).init
      (h ++ .ret i (.popped none) :: post) t) :
    ∃ pre mid, h = pre ++ .empty i :: mid ∧ stored pre = [] ∧ ∀ e ∈ mid, ¬ e.BoundaryOf i := by
  obtain ⟨pre, e, mid, b, rfl, heff⟩ := exists_effect_of_ret hrun
  obtain ⟨c, hstep, hi⟩ := heff.outcome
  have he := heff.effect
  have hshared := shared_eq_stored heff.before
  suffices e = .empty i ∧ b.shared = [] from
    ⟨pre, mid, by rw [this.1], hshared ▸ this.2, heff.pending⟩
  cases hstep with
  | empty j hj hitems =>
    obtain rfl : j = i := he
    exact ⟨rfl, hitems⟩
  | silent e hs => cases e <;> simp_all [Event.Silent, Event.EffectOf]
  | _ => simp_all [Event.EffectOf]

/-- A pop that returns a value removed that value from the front of the list at an instant between
its call and its return. -/
theorem ret_popped_some {v : α} {post : List (Event ι α)}
    (hrun : (atomicStack ι α capacity).Run (atomicStack ι α capacity).init
      (h ++ .ret i (.popped (some v)) :: post) t) :
    ∃ pre mid rest, h = pre ++ .popped i :: mid ∧ stored pre = v :: rest ∧
      ∀ e ∈ mid, ¬ e.BoundaryOf i := by
  obtain ⟨pre, e, mid, b, rfl, heff⟩ := exists_effect_of_ret hrun
  obtain ⟨c, hstep, hi⟩ := heff.outcome
  have he := heff.effect
  have hshared := shared_eq_stored heff.before
  suffices e = .popped i ∧ ∃ rest, b.shared = v :: rest by
    obtain ⟨rfl, rest, hrest⟩ := this
    exact ⟨pre, mid, rest, rfl, hshared ▸ hrest, heff.pending⟩
  cases hstep with
  | pop j w rest hj hitems =>
    obtain rfl : j = i := he
    obtain rfl : w = v := by simpa using hi
    exact ⟨rfl, rest, hitems⟩
  | silent e hs => cases e <;> simp_all [Event.Silent, Event.EffectOf]
  | _ => simp_all [Event.EffectOf]

end AtomicStack

end Multithreading.Stack
