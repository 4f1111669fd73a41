import Multithreading.Transition.Machine
import Mathlib.Algebra.BigOperators.Group.Finset.Basic
import Mathlib.Algebra.Order.BigOperators.Group.Finset
import Mathlib.Tactic.Abel

/-!
# Threads over a shared state

The interleaving of any number of threads over a shared state: a configuration has the shared
state and the local state of every thread, and a step is a step of one thread on the shared state
and on its own local state. What a step does to the other threads is therefore only what it does
to the shared state.

A quantity that the threads hold together is a sum over the threads, a *census*. A step changes
the contribution of one thread, so a census changes by one term.

## Main definitions

* `Config`, `Config.set` — a configuration, and the effect of a step of one thread on it.
* `interleave` — the machine of all interleavings of the steps of the threads.
* `Config.census` — the sum of a quantity over the threads.

## Main results

* `interleave_next_eq_some` — the steps of the machine are the steps of the threads.
* `Config.census_set` — a step moves one term of a census.
-/

namespace Transition

variable {ι S L A ε : Type*}

theorem sum_comp_update [DecidableEq ι] [Fintype ι] {N : Type*} [AddCommMonoid N] (f : L → N)
    (w : ι → L) (i : ι) (l : L) :
    ∑ j, f (Function.update w i l j) + f (w i) = ∑ j, f (w j) + f l := by
  have hnew : ∑ j, f (Function.update w i l j) = f l + ∑ j ∈ Finset.univ.erase i, f (w j) := by
    rw [← Finset.add_sum_erase _ (fun j => f (Function.update w i l j)) (Finset.mem_univ i)]
    refine congrArg₂ _ (by simp) (Finset.sum_congr rfl fun j hj => ?_)
    rw [Function.update_of_ne (Finset.ne_of_mem_erase hj)]
  have hold : ∑ j, f (w j) = f (w i) + ∑ j ∈ Finset.univ.erase i, f (w j) := by
    rw [Finset.add_sum_erase _ (fun j => f (w j)) (Finset.mem_univ i)]
  rw [hnew, hold]
  abel

/-- When one term of a sum falls by more than all others together can rise, the sum falls. -/
theorem sum_lt_sum_of_le_add [DecidableEq ι] [Fintype ι] {f g : ι → ℕ} (i : ι) (d : ℕ)
    (hself : g i + d * Fintype.card ι < f i) (hother : ∀ j, j ≠ i → g j ≤ f j + d) :
    ∑ j, g j < ∑ j, f j := by
  have hrest : ∑ j ∈ Finset.univ.erase i, g j ≤
      ∑ j ∈ Finset.univ.erase i, f j + d * Fintype.card ι := by
    calc ∑ j ∈ Finset.univ.erase i, g j
        ≤ ∑ j ∈ Finset.univ.erase i, (f j + d) :=
          Finset.sum_le_sum fun j hj => hother j (Finset.ne_of_mem_erase hj)
      _ = ∑ j ∈ Finset.univ.erase i, f j + (Finset.univ.erase i).card * d := by
          rw [Finset.sum_add_distrib, Finset.sum_const]
          rfl
      _ ≤ ∑ j ∈ Finset.univ.erase i, f j + d * Fintype.card ι := by
          rw [mul_comm d]
          exact Nat.add_le_add_left
            (Nat.mul_le_mul_right d (Finset.card_le_card (Finset.erase_subset i _))) _
  rw [← Finset.add_sum_erase _ g (Finset.mem_univ i),
    ← Finset.add_sum_erase _ f (Finset.mem_univ i)]
  omega

/-- When every counted event is an event of one thread, the threads together have all of them. -/
theorem sum_countP [Fintype ι] {p : ι → ε → Bool} {q : ε → Bool}
    (hone : ∀ e, (∑ i, if p i e then 1 else 0) = if q e then 1 else 0) (h : List ε) :
    ∑ i, h.countP (p i) = h.countP q := by
  induction h with
  | nil => simp
  | cons e h ih => simp only [List.countP_cons, Finset.sum_add_distrib, ih, hone]

/-- A configuration of threads `ι` with local states `L` over the shared state `S`. -/
@[ext]
structure Config (ι S L : Type*) where
  /-- The state that all threads read and write. -/
  shared : S
  /-- The local state of every thread. -/
  threads : ι → L

namespace Config

variable [DecidableEq ι]

/-- The configuration after thread `i` has moved to the local state `l`, leaving the shared state
`sh`. -/
def set (c : Config ι S L) (i : ι) (sh : S) (l : L) : Config ι S L where
  shared := sh
  threads := Function.update c.threads i l

variable (c : Config ι S L) (i j : ι) (sh : S) (l : L)

@[simp] theorem set_shared : (c.set i sh l).shared = sh := rfl

@[simp] theorem set_threads_self : (c.set i sh l).threads i = l := by simp [set]

variable {i j} in
theorem set_threads_of_ne (h : j ≠ i) : (c.set i sh l).threads j = c.threads j := by
  simp [set, h]

theorem set_threads_apply :
    (c.set i sh l).threads j = if j = i then l else c.threads j := by
  simp [set, Function.update_apply]

theorem comp_set {β : Type*} (f : L → β) :
    (fun j => f ((c.set i sh l).threads j)) =
      Function.update (fun j => f (c.threads j)) i (f l) := by
  funext j
  by_cases h : j = i
  · subst h
    simp
  · rw [set_threads_of_ne c sh l h, Function.update_of_ne h]

variable {l} in
theorem comp_set_of_eq {β : Type*} (f : L → β) (h : f (c.threads i) = f l) :
    (fun j => f ((c.set i sh l).threads j)) = fun j => f (c.threads j) := by
  rw [comp_set, ← h, Function.update_eq_self]

@[simp] theorem set_self : c.set i c.shared (c.threads i) = c := by
  simp [set]

@[simp] theorem set_set (sh' : S) (l' : L) : (c.set i sh l).set i sh' l' = c.set i sh' l' := by
  simp [set]

theorem forall_set {P : ι → L → Prop} (hself : P i l) (hother : ∀ j, j ≠ i → P j (c.threads j)) :
    ∀ j, P j ((c.set i sh l).threads j) := by
  intro j
  by_cases h : j = i
  · subst h
    simpa using hself
  · simpa [set_threads_of_ne c sh l h] using hother j h

/-! ### Census -/

section Census

variable [Fintype ι] {N : Type*} [AddCommMonoid N]

omit [DecidableEq ι] in
/-- The sum over the threads of a quantity of their local states. -/
def census (f : L → N) : N := ∑ j, f (c.threads j)

omit [DecidableEq ι] in
theorem census_const (f : L → N) (l₀ : L) (h : ∀ j, c.threads j = l₀) (h0 : f l₀ = 0) :
    c.census f = 0 := by
  simp [census, h, h0]

/-- A step moves one term of a census. -/
theorem census_set (f : L → N) :
    (c.set i sh l).census f + f (c.threads i) = c.census f + f l :=
  sum_comp_update f c.threads i l

end Census

omit [DecidableEq ι] in
theorem le_census [Fintype ι] (f : L → ℕ) (i : ι) : f (c.threads i) ≤ c.census f :=
  Finset.single_le_sum (f := fun j => f (c.threads j)) (fun _ _ => Nat.zero_le _)
    (Finset.mem_univ i)

end Config

/-! ### Interleaving -/

variable [DecidableEq ι]

/-- The machine of all interleavings of the threads: its labels are pairs of a thread and an
action, and `step` says what a thread does with an action. -/
def interleave (init : Config ι S L) (step : ι → A → S → L → Option (S × L × List ε)) :
    Machine (Config ι S L) (ι × A) ε where
  init := init
  next c a := (step a.1 a.2 c.shared (c.threads a.1)).map fun r => (c.set a.1 r.1 r.2.1, r.2.2)

@[simp] theorem interleave_init (init : Config ι S L)
    (step : ι → A → S → L → Option (S × L × List ε)) : (interleave init step).init = init :=
  rfl

/-- The steps of the machine are the steps of the threads. -/
theorem interleave_next_eq_some {init : Config ι S L}
    {step : ι → A → S → L → Option (S × L × List ε)} {c c' : Config ι S L} {i : ι} {a : A}
    {es : List ε} : (interleave init step).next c (i, a) = some (c', es) ↔
      ∃ sh l, step i a c.shared (c.threads i) = some (sh, l, es) ∧ c' = c.set i sh l := by
  simp only [interleave, Option.map_eq_some_iff, Prod.mk.injEq, Prod.exists]
  constructor
  · rintro ⟨sh, l, es', hstep, rfl, rfl⟩
    exact ⟨sh, l, hstep, rfl⟩
  · rintro ⟨sh, l, hstep, rfl⟩
    exact ⟨sh, l, es, hstep, rfl, rfl⟩

theorem run_set {init : Config ι S L} {step : ι → A → S → L → Option (S × L × List ε)}
    {c₀ c : Config ι S L} {h : List ε} (i : ι) (a : A) (sh : S) (l : L) (es : List ε)
    (hrun : (interleave init step).Run c₀ h c)
    (hstep : step i a c.shared (c.threads i) = some (sh, l, es)) :
    (interleave init step).Run c₀ (h ++ es) (c.set i sh l) :=
  hrun.tail (i, a) trivial (interleave_next_eq_some.mpr ⟨sh, l, hstep, rfl⟩)

/-- The threads of a list, all of which are at `old`, take the same step one after the other and
come to `new`, while the shared state goes through `sh`. -/
theorem exists_run_each {init : Config ι S L} {step : ι → A → S → L → Option (S × L × List ε)}
    {c : Config ι S L} {l : List ι} (hnodup : l.Nodup) (a : A) (old new : L) (sh : ℕ → S)
    (hsh : c.shared = sh 0) (hold : ∀ i ∈ l, c.threads i = old)
    (hstep : ∀ i k, k < l.length → ∃ es, step i a (sh k) old = some (sh (k + 1), new, es)) :
    ∃ h c', (interleave init step).Run c h c' ∧ c'.shared = sh l.length ∧
      ∀ j, c'.threads j = if j ∈ l then new else c.threads j := by
  induction l generalizing c sh with
  | nil => exact ⟨[], c, .refl, hsh, by simp⟩
  | cons i l ih =>
    obtain ⟨hi, hnodup⟩ := List.nodup_cons.mp hnodup
    obtain ⟨es, hes⟩ := hstep i 0 (Nat.succ_pos _)
    have hfirst : (interleave init step).Run c es (c.set i (sh 1) new) :=
      run_set i a (sh 1) new es .refl (by rw [hsh, hold i List.mem_cons_self]; exact hes)
    have hothers : ∀ j ∈ l, (c.set i (sh 1) new).threads j = old := by
      intro j hj
      have hji : j ≠ i := fun hji => hi (hji ▸ hj)
      rw [Config.set_threads_of_ne _ _ _ hji, hold j (List.mem_cons_of_mem i hj)]
    obtain ⟨h, c', hrun, hshared, hthreads⟩ := ih hnodup (fun k => sh (k + 1)) rfl hothers
      fun j k hk => hstep j (k + 1) (Nat.succ_lt_succ hk)
    refine ⟨es ++ h, c', hfirst.trans hrun, hshared, fun j => ?_⟩
    rw [hthreads j]
    by_cases hji : j = i
    · subst hji
      simp [hi]
    · simp [hji, Config.set_threads_of_ne]

/-- What the actions of a list, which one thread takes one after the other, make of the shared state
and of the thread. -/
def execThread (step : A → S → L → Option (S × L × List ε)) : List A → S → L → Option (S × L)
  | [], sh, l => some (sh, l)
  | a :: as, sh, l => (step a sh l).bind fun r => execThread step as r.1 r.2.1

/-- A thread takes the actions of a list, all of which the guard allows. -/
theorem exists_runIf_thread {init : Config ι S L} {step : ι → A → S → L → Option (S × L × List ε)}
    {ok : Config ι S L → ι × A → Prop} {c : Config ι S L} {sh : S} {l : L} (i : ι) (as : List A)
    (hok : ∀ c, ∀ a ∈ as, ok c (i, a))
    (hexec : execThread (step i) as c.shared (c.threads i) = some (sh, l)) :
    ∃ h, (interleave init step).RunIf ok c h (c.set i sh l) := by
  induction as generalizing c with
  | nil =>
    obtain ⟨rfl, rfl⟩ : c.shared = sh ∧ c.threads i = l := by simpa [execThread] using hexec
    exact ⟨[], by rw [Config.set_self]; exact .refl⟩
  | cons a as ih =>
    obtain ⟨⟨sh₁, l₁, es⟩, hstep, hrest⟩ := Option.bind_eq_some_iff.mp hexec
    have hfirst : (interleave init step).RunIf ok c es (c.set i sh₁ l₁) :=
      .single (hok c a List.mem_cons_self) (interleave_next_eq_some.mpr ⟨sh₁, l₁, hstep, rfl⟩)
    obtain ⟨h, hrun⟩ := ih (c := c.set i sh₁ l₁)
      (fun c b hb => hok c b (List.mem_cons_of_mem a hb)) (by simpa using hrest)
    rw [Config.set_set] at hrun
    exact ⟨es ++ h, hfirst.trans hrun⟩

end Transition
