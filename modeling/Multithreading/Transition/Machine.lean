import Mathlib.Logic.Relation
import Mathlib.Data.List.Basic
import Mathlib.Order.WellFounded

/-!
# Labelled machines and their runs

A machine has an initial state and a partial step function. A label of the machine resolves every
choice that the modelled system leaves open: which thread moves, whether a weak
compare-and-swap fails spuriously, which address an allocation returns. So the step function is
deterministic, can be evaluated, and a run is determined by its labels. A step emits a list of
events, and the *history* of a run is the concatenation of the events of its steps.

Runs are also considered under a *guard*, a condition on the state before a step and on the label
of the step. A run of the machine is a run under the guard that always holds.

## Main definitions

* `Machine`, `Machine.execIf` — a machine, and the execution of a list of labels.
* `Machine.RunIf`, `Machine.Run` — the runs whose steps all meet a guard, and all runs.
* `Machine.Blocked`, `Machine.BlockedForever` — no label of a class can be taken, now or in any
  continuation.
* `Machine.Inevitable` — every run under a guard ends, and ends well.

## Main results

* `Machine.RunIf.invariant` — what the initial state has and every step keeps holds after a run.
* `Machine.exists_runIf_terminal` — a machine whose steps lower a measure comes to an end.
* `Machine.not_blockedForever_of_terminal` — a process that has finished at every end is not
  blocked for ever before.
-/

namespace Transition

/-- A machine with states `σ`, labels `α` and events `ε`. -/
structure Machine (σ α ε : Type*) where
  /-- The state before the first step. -/
  init : σ
  /-- The step with a given label, together with the events that it emits. -/
  next : σ → α → Option (σ × List ε)

namespace Machine

variable {σ α ε : Type*} (M : Machine σ α ε)

/-- The execution of a list of labels all of which meet the guard `ok`, with the history that it
emits. -/
def execIf (ok : σ → α → Prop) [∀ s a, Decidable (ok s a)] : σ → List α → Option (σ × List ε)
  | s, [] => some (s, [])
  | s, a :: as =>
    if ok s a then
      match M.next s a with
      | none => none
      | some (t, es) =>
        match execIf ok t as with
        | none => none
        | some (u, es') => some (u, es ++ es')
    else none

/-- The execution of a list of labels, with the history that it emits. -/
abbrev exec (s : σ) (as : List α) : Option (σ × List ε) := M.execIf (fun _ _ => True) s as

/-- The runs from a state all of whose steps meet the guard `ok`, with their history and the
state that they reach. -/
inductive RunIf (ok : σ → α → Prop) (s : σ) : List ε → σ → Prop
  | refl : RunIf ok s [] s
  | tail {h : List ε} {t u : σ} {es : List ε} (a : α) (hrun : RunIf ok s h t) (hok : ok t a)
      (hstep : M.next t a = some (u, es)) : RunIf ok s (h ++ es) u

/-- The runs from a state, with their history and the state that they reach. -/
abbrev Run (s : σ) (h : List ε) (t : σ) : Prop := M.RunIf (fun _ _ => True) s h t

variable {M} {ok ok' : σ → α → Prop} {s t u : σ} {h h' : List ε}

theorem RunIf.single {a : α} (hok : ok s a) {es : List ε} (hstep : M.next s a = some (t, es)) :
    M.RunIf ok s es t := by
  simpa using RunIf.refl.tail a hok hstep

theorem RunIf.trans (h₁ : M.RunIf ok s h t) (h₂ : M.RunIf ok t h' u) :
    M.RunIf ok s (h ++ h') u := by
  induction h₂ with
  | refl => simpa using h₁
  | tail a _ hok hstep ih => simpa only [List.append_assoc] using ih.tail a hok hstep

theorem RunIf.mono (hrun : M.RunIf ok s h t) (hle : ∀ s a, ok s a → ok' s a) :
    M.RunIf ok' s h t := by
  induction hrun with
  | refl => exact .refl
  | tail a _ hok hstep ih => exact ih.tail a (hle _ _ hok) hstep

theorem RunIf.run (hrun : M.RunIf ok s h t) : M.Run s h t :=
  hrun.mono fun _ _ _ => trivial

/-- When the guard holds at every step that can be taken under it, every run is one under the
guard. -/
theorem RunIf.strengthen (hrun : M.Run s h t)
    (hok : ∀ {h t u es} (a : α), M.RunIf ok s h t → M.next t a = some (u, es) → ok t a) :
    M.RunIf ok s h t := by
  induction hrun with
  | refl => exact .refl
  | tail a _ _ hstep ih => exact ih.tail a (hok a ih hstep) hstep

/-- What the first state has and every step under the guard keeps holds after every run. -/
theorem RunIf.invariant (hrun : M.RunIf ok s h t) (I : σ → List ε → Prop) (h0 : I s [])
    (hstep : ∀ {h t u es} (a : α), M.RunIf ok s h t → I t h → ok t a →
      M.next t a = some (u, es) → I u (h ++ es)) : I t h := by
  induction hrun with
  | refl => exact h0
  | tail a hrun hok hnext ih => exact hstep a hrun ih hok hnext

/-- What holds of every event when a step emits it, after the history before it, holds of every
event of a run. -/
theorem RunIf.forall_event {P : List ε → ε → Prop} (hrun : M.RunIf ok s h t)
    (hstep : ∀ {h t u es} (a : α), M.RunIf ok s h t → ok t a → M.next t a = some (u, es) →
      ∀ pre e post, es = pre ++ e :: post → P (h ++ pre) e) :
    ∀ pre e post, h = pre ++ e :: post → P pre e := by
  induction hrun with
  | refl => simp
  | tail a hrun hok hnext ih =>
    intro pre e post heq
    rcases List.append_eq_append_iff.mp heq with ⟨mid, rfl, hes⟩ | ⟨mid, hh, htail⟩
    · exact hstep a hrun hok hnext mid e post hes
    · rcases List.cons_eq_append_iff.mp htail with ⟨rfl, hes⟩ | ⟨mid', rfl, -⟩
      · have hpre := hstep a hrun hok hnext [] e post hes
        rwa [hh, List.append_nil, List.append_nil] at hpre
      · exact ih pre e mid' hh

/-- A list of labels that executes under a guard gives a run under the guard. -/
theorem runIf_of_execIf [∀ s a, Decidable (ok s a)] (as : List α)
    (hexec : M.execIf ok s as = some (t, h)) : M.RunIf ok s h t := by
  induction as generalizing s h with
  | nil =>
    obtain ⟨rfl, rfl⟩ : s = t ∧ [] = h := by simpa [execIf] using hexec
    exact .refl
  | cons a as ih =>
    rw [execIf] at hexec
    split at hexec
    · rename_i hok
      split at hexec
      · exact absurd hexec (by simp)
      · rename_i v es hstep
        split at hexec
        · exact absurd hexec (by simp)
        · rename_i w es' htail
          obtain ⟨rfl, rfl⟩ : w = t ∧ es ++ es' = h := by simpa using hexec
          exact (RunIf.single hok hstep).trans (ih htail)
    · exact absurd hexec (by simp)

theorem exists_runIf_of_execIf (ok : σ → α → Prop) [∀ s a, Decidable (ok s a)] {β : Type*}
    (as : List α) (f : σ × List ε → β) {b : β} (hexec : (M.execIf ok M.init as).map f = some b) :
    ∃ t h, M.RunIf ok M.init h t ∧ f (t, h) = b := by
  obtain ⟨⟨t, h⟩, hsome, hf⟩ := Option.map_eq_some_iff.mp hexec
  exact ⟨t, h, runIf_of_execIf as hsome, hf⟩

theorem exists_run_of_exec {β : Type*} (as : List α) (f : σ × List ε → β) {b : β}
    (hexec : (M.exec M.init as).map f = some b) : ∃ t h, M.Run M.init h t ∧ f (t, h) = b :=
  exists_runIf_of_execIf _ as f hexec

/-! ### Blocking and progress -/

variable (M)

/-- No label of the class `p` can be taken in the state. -/
def Blocked (p : α → Prop) (s : σ) : Prop := ∀ a, p a → M.next s a = none

/-- No label of the class `p` can be taken in any continuation from the state. -/
def BlockedForever (p : α → Prop) (s : σ) : Prop := ∀ h t, M.Run s h t → M.Blocked p t

variable {M}

/-- A state in which no label at all can be taken blocks every class for ever. -/
theorem blockedForever_of_terminal (hs : ∀ a, M.next s a = none) (p : α → Prop) :
    M.BlockedForever p s := by
  intro h t hrun
  have hst : t = s := by
    induction hrun with
    | refl => rfl
    | tail a _ _ hstep ih =>
      subst ih
      exact absurd hstep (by simp [hs a])
  subst hst
  exact fun a _ => hs a

theorem RunIf.eq_of_terminal (hrun : M.RunIf ok s h t) (hs : ∀ a, ok s a → M.next s a = none) :
    h = [] ∧ t = s := by
  induction hrun with
  | refl => exact ⟨rfl, rfl⟩
  | tail a _ hok hstep ih =>
    obtain ⟨-, rfl⟩ := ih
    exact absurd hstep (by simp [hs a hok])

/-- When every step under a guard keeps an invariant and lowers a measure, a state without steps
under the guard is reached. -/
theorem exists_runIf_terminal {I : σ → Prop} (ok : σ → α → Prop) (μ : σ → ℕ)
    (hstep : ∀ {s t es} (a : α), I s → ok s a → M.next s a = some (t, es) → I t ∧ μ t < μ s)
    (hs : I s) : ∃ h t, M.RunIf ok s h t ∧ I t ∧ ∀ a, ok t a → M.next t a = none := by
  induction hn : μ s using Nat.strongRecOn generalizing s with
  | _ n ih =>
    by_cases hterminal : ∀ a, ok s a → M.next s a = none
    · exact ⟨[], s, .refl, hs, hterminal⟩
    · push Not at hterminal
      obtain ⟨a, hok, ha⟩ := hterminal
      obtain ⟨⟨t, es⟩, hnext⟩ := Option.ne_none_iff_exists'.mp ha
      obtain ⟨ht, hlt⟩ := hstep a hs hok hnext
      obtain ⟨h, u, hrun, hu⟩ := ih (μ t) (hn ▸ hlt) ht rfl
      exact ⟨es ++ h, u, (RunIf.single hok hnext).trans hrun, hu⟩

variable (M) in
/-- Every run under the guard comes to an end, and the property holds where it ends. -/
inductive Inevitable (ok : σ → α → Prop) (p : σ → Prop) : σ → Prop
  | intro {s : σ} (hend : (∀ a, ok s a → M.next s a = none) → p s)
      (hnext : ∀ a t es, ok s a → M.next s a = some (t, es) → Inevitable ok p t) :
      Inevitable ok p s

/-- When every step under a guard keeps an invariant and goes down in a well-founded order, every
run under the guard comes to a state without steps under the guard. -/
theorem inevitable_of_wellFounded {I p : σ → Prop} {β : Type*} [LT β] [WellFoundedLT β]
    (ok : σ → α → Prop) (μ : σ → β)
    (hstep : ∀ {s t es} (a : α), I s → ok s a → M.next s a = some (t, es) → I t ∧ μ t < μ s)
    (hterminal : ∀ t, I t → (∀ a, ok t a → M.next t a = none) → p t) (hs : I s) :
    M.Inevitable ok p s := by
  induction hn : μ s using WellFoundedLT.induction generalizing s with
  | _ n ih =>
    refine .intro (hterminal s hs) fun a t es hok hnext => ?_
    obtain ⟨ht, hlt⟩ := hstep a hs hok hnext
    exact ih (μ t) (hn ▸ hlt) ht rfl

theorem inevitable_of_terminal {I p : σ → Prop} (ok : σ → α → Prop) (μ : σ → ℕ)
    (hstep : ∀ {s t es} (a : α), I s → ok s a → M.next s a = some (t, es) → I t ∧ μ t < μ s)
    (hterminal : ∀ t, I t → (∀ a, ok t a → M.next t a = none) → p t) (hs : I s) :
    M.Inevitable ok p s :=
  inevitable_of_wellFounded ok μ hstep hterminal hs

/-- What is inevitable stays so in every run under the guard. -/
theorem Inevitable.of_runIf {p : σ → Prop} (hs : M.Inevitable ok p s) (hrun : M.RunIf ok s h t) :
    M.Inevitable ok p t := by
  induction hrun with
  | refl => exact hs
  | tail a _ hok hstep ih =>
    cases ih with
    | intro hend hnext => exact hnext a _ _ hok hstep

theorem Inevitable.of_terminal {p : σ → Prop} (hs : M.Inevitable ok p s)
    (hterminal : ∀ a, ok s a → M.next s a = none) : p s := by
  cases hs with
  | intro hend hnext => exact hend hterminal

theorem Inevitable.imp_of_run {p q : σ → Prop} (hs : M.Inevitable ok p s)
    (hpq : ∀ h t, M.RunIf ok s h t → p t → q t) : M.Inevitable ok q s := by
  induction hs with
  | @intro s hend hnext ih =>
    refine .intro (fun hterminal => hpq [] s .refl (hend hterminal)) fun a t es hok hstep => ?_
    exact ih a t es hok hstep fun h u hrun =>
      hpq (es ++ h) u ((RunIf.single hok hstep).trans hrun)

/-- What is inevitable happens in some run. -/
theorem Inevitable.exists_run {p : σ → Prop} (hs : M.Inevitable ok p s) :
    ∃ h t, M.RunIf ok s h t ∧ p t ∧ ∀ a, ok t a → M.next t a = none := by
  induction hs with
  | @intro s hend hnext ih =>
    by_cases hterminal : ∀ a, ok s a → M.next s a = none
    · exact ⟨[], s, .refl, hend hterminal, hterminal⟩
    · push Not at hterminal
      obtain ⟨a, hok, ha⟩ := hterminal
      obtain ⟨⟨t, es⟩, hstep⟩ := Option.ne_none_iff_exists'.mp ha
      obtain ⟨h, u, hrun, hu⟩ := ih a t es hok hstep
      exact ⟨es ++ h, u, (RunIf.single hok hstep).trans hrun, hu⟩

/-- A class without whose steps nothing gets done is not blocked for ever when something gets done
later. -/
theorem not_blockedForever_of_run {p : α → Prop} {done : σ → Prop}
    (hframe : ∀ {s t es} (a : α), ¬ p a → M.next s a = some (t, es) → done t → done s)
    (hrun : M.Run s h t) (hs : ¬ done s) (ht : done t) : ¬ M.BlockedForever p s := by
  intro hblocked
  refine hs ?_
  clear hs
  induction hrun with
  | refl => exact ht
  | tail a hrun _ hstep ih =>
    by_cases hp : p a
    · exact absurd hstep (by simp [hblocked _ _ hrun a hp])
    · exact ih (hframe a hp hstep ht)

/-- **Progress.** When every step under a guard keeps an invariant and lowers a measure, and the
class is done in every state with the invariant that has no step under the guard, the class is not
blocked for ever before it is done. -/
theorem not_blockedForever_of_terminal {I : σ → Prop} (ok : σ → α → Prop) (μ : σ → ℕ)
    (hstep : ∀ {s t es} (a : α), I s → ok s a → M.next s a = some (t, es) → I t ∧ μ t < μ s)
    {p : α → Prop} (done : σ → Prop)
    (hframe : ∀ {s t es} (a : α), ¬ p a → M.next s a = some (t, es) → done t → done s)
    (hterminal : ∀ t, I t → (∀ a, ok t a → M.next t a = none) → done t) (hs : I s)
    (hdone : ¬ done s) : ¬ M.BlockedForever p s := by
  obtain ⟨h, t, hrun, ht, hblocked⟩ := exists_runIf_terminal ok μ hstep hs
  exact not_blockedForever_of_run hframe hrun.run hdone (hterminal t ht hblocked)

end Machine

end Transition
