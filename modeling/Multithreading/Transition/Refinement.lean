import Multithreading.Transition.Machine
import Mathlib.Data.List.Induction

/-!
# Specifications and refinement

A specification says which histories are allowed: it has an initial state and a relation that
reads a history one event at a time. A machine refines a specification when some relation between
their states holds initially and is kept by every step of the machine, the specification reading
the events that the step emits. Every history of the machine is then a history of the
specification, and the related state of the specification says what the history amounts to.

## Main definitions

* `Spec`, `Spec.Run` — a specification, and the histories that it reads.

## Main results

* `Spec.Run.invariant` — what every event keeps holds after a history.
* `Machine.RunIf.refines` — the histories of a machine that simulates a specification.
-/

namespace Transition

/-- A specification with states `τ` that reads events `ε`. -/
structure Spec (τ ε : Type*) where
  /-- The state before the first event. -/
  init : τ
  /-- Reading one event. -/
  step : τ → ε → τ → Prop

namespace Spec

variable {τ ε : Type*} (N : Spec τ ε)

/-- Reading a history, from a state to a state. -/
inductive Run (a : τ) : List ε → τ → Prop
  | refl : Run a [] a
  | tail {h : List ε} {b c : τ} {e : ε} (hrun : Run a h b) (hstep : N.step b e c) :
      Run a (h ++ [e]) c

variable {N} {a b c : τ} {h h' : List ε}

theorem Run.single {e : ε} (hstep : N.step a e b) : N.Run a [e] b :=
  Run.refl.tail hstep

theorem Run.trans (h₁ : N.Run a h b) (h₂ : N.Run b h' c) : N.Run a (h ++ h') c := by
  induction h₂ with
  | refl => simpa using h₁
  | tail _ hstep ih => simpa only [List.append_assoc] using ih.tail hstep

theorem Run.cons {e : ε} (hstep : N.step a e b) (hrun : N.Run b h c) : N.Run a (e :: h) c :=
  (Run.single hstep).trans hrun

@[simp] theorem run_nil : N.Run a [] b ↔ b = a := by
  constructor
  · intro hrun
    generalize hh : ([] : List ε) = h at hrun
    cases hrun with
    | refl => rfl
    | tail _ _ => simp at hh
  · rintro rfl
    exact .refl

/-- What the first state has and every event keeps holds after every history. -/
theorem Run.invariant (hrun : N.Run a h b) (I : τ → List ε → Prop) (h0 : I a [])
    (hstep : ∀ {h b c e}, N.Run a h b → I b h → N.step b e c → I c (h ++ [e])) : I b h := by
  induction hrun with
  | refl => exact h0
  | tail hrun hnext ih => exact hstep hrun ih hnext

theorem run_concat {e : ε} : N.Run a (h ++ [e]) c ↔ ∃ b, N.Run a h b ∧ N.step b e c := by
  constructor
  · intro hrun
    generalize hh : h ++ [e] = w at hrun
    cases hrun with
    | refl => simp at hh
    | tail hrun hstep =>
      obtain ⟨rfl, he⟩ := List.append_inj' hh rfl
      obtain rfl : e = _ := by simpa using he
      exact ⟨_, hrun, hstep⟩
  · rintro ⟨b, hrun, hstep⟩
    exact hrun.tail hstep

/-- A history is read event by event: its parts are read one after the other. -/
theorem run_append : N.Run a (h ++ h') c ↔ ∃ b, N.Run a h b ∧ N.Run b h' c := by
  constructor
  · intro hrun
    induction h' using List.reverseRecOn generalizing c with
    | nil => exact ⟨c, by simpa using hrun, .refl⟩
    | append_singleton h' e ih =>
      rw [← List.append_assoc, run_concat] at hrun
      obtain ⟨b, hrun, hlast⟩ := hrun
      obtain ⟨d, h₁, h₂⟩ := ih hrun
      exact ⟨d, h₁, h₂.tail hlast⟩
  · rintro ⟨b, h₁, h₂⟩
    exact h₁.trans h₂

theorem run_cons {e : ε} : N.Run a (e :: h) c ↔ ∃ b, N.step a e b ∧ N.Run b h c := by
  constructor
  · intro hrun
    obtain ⟨b, hfirst, hrest⟩ := run_append.mp (show N.Run a ([e] ++ h) c from hrun)
    obtain ⟨d, hnil, hstep⟩ := run_concat.mp (show N.Run a ([] ++ [e]) b from hfirst)
    obtain rfl := run_nil.mp hnil
    exact ⟨b, hstep, hrest⟩
  · rintro ⟨b, hstep, hrun⟩
    exact hrun.cons hstep

end Spec

namespace Machine

variable {σ τ α ε : Type*} {M : Machine σ α ε} {ok : σ → α → Prop} {s t : σ} {h : List ε}

/-- **Refinement.** When every step under the guard is answered by the specification, which reads
the events of the step, the specification reads the history of every run. -/
theorem RunIf.refines {N : Spec τ ε} (hrun : M.RunIf ok s h t) {R : σ → τ → Prop} {a : τ}
    (hinit : R s a)
    (hstep : ∀ {h t u es b} (x : α), M.RunIf ok s h t → R t b → ok t x →
      M.next t x = some (u, es) → ∃ c, N.Run b es c ∧ R u c) :
    ∃ b, N.Run a h b ∧ R t b := by
  induction hrun with
  | refl => exact ⟨a, .refl, hinit⟩
  | tail x hrun hok hnext ih =>
    obtain ⟨b, hb, hR⟩ := ih
    obtain ⟨c, hc, hR'⟩ := hstep x hrun hR hok hnext
    exact ⟨c, hb.trans hc, hR'⟩

end Machine

end Transition
