import Mathlib.Logic.Function.Basic

/-!
# A mutex

What the threads that use a mutex have to do with its holder. A step of the system acquires the
mutex when it is free, releases it on behalf of its holder, or leaves it alone. The threads that are
inside the critical section by their program counters are then the holders at all times, and there
is at most one.

## Main definitions

* `Mutex.Held` — the threads inside are the holder.
* `Mutex.Step` — what a step does to the holder and to the threads inside.

## Main results

* `Mutex.Step.held` — every step keeps `Mutex.Held`.
* `Mutex.Held.unique` — at most one thread is inside.
-/

namespace Transition.Mutex

variable {τ : Type*} {holder holder' : Option τ} {inside inside' : τ → Bool}

/-- The mutex is held by the thread inside, and only then. -/
def Held (holder : Option τ) (inside : τ → Bool) : Prop :=
  ∀ t, holder = some t ↔ inside t = true

theorem held_none (h : ∀ t, inside t = false) : Held none inside := by
  simp [Held, h]

/-- At most one thread is inside. -/
theorem Held.unique (h : Held holder inside) {t u : τ} (ht : inside t = true)
    (hu : inside u = true) : t = u :=
  Option.some.inj (((h t).mpr ht).symm.trans ((h u).mpr hu))

theorem Held.eq_none (h : Held holder inside) (hinside : ∀ t, inside t = false) :
    holder = none := by
  cases holder with
  | none => rfl
  | some t => exact absurd ((h t).mp rfl) (by simp [hinside t])

/-- What a step does to the holder and to the threads inside. -/
inductive Step [DecidableEq τ] (holder : Option τ) (inside : τ → Bool) (holder' : Option τ)
    (inside' : τ → Bool) : Prop
  | acquire (t : τ) (hfree : holder = none) (hholder : holder' = some t)
      (hinside : inside' = Function.update inside t true)
  | release (t : τ) (hheld : inside t = true) (hholder : holder' = none)
      (hinside : inside' = Function.update inside t false)
  | keep (hholder : holder' = holder) (hinside : inside' = inside)

variable [DecidableEq τ]

/-- Every step keeps the mutex in the hands of the thread inside. -/
theorem Step.held (hstep : Step holder inside holder' inside') (h : Held holder inside) :
    Held holder' inside' := by
  intro u
  cases hstep with
  | acquire t hfree hholder hinside =>
    rw [hholder, hinside, Option.some.injEq]
    by_cases hu : u = t
    · simp [hu]
    · rw [Function.update_of_ne hu, ← h u, hfree]
      simp [Ne.symm hu]
  | release t hheld hholder hinside =>
    rw [hholder, hinside]
    by_cases hu : u = t
    · simp [hu]
    · have hout : inside u ≠ true := fun hin => hu (h.unique hin hheld)
      simp [Function.update_of_ne hu, hout]
  | keep hholder hinside => rw [hholder, hinside, h u]

end Transition.Mutex
