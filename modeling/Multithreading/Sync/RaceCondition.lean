import Multithreading.Transition.Threads
import Multithreading.Memory.CInt
import Mathlib.Data.Fintype.Card

/-!
# The race condition of `x > 0` and `x -= 100`

Threads that test an atomic integer and subtract 100 from it when it is positive. Each of the two
accesses is atomic, but not both together: any number of threads may pass the test before the first
of them subtracts. So the integer can end at several values, where the loop of
`compare_exchange_weak` has only one.

## Main definitions

* `RaceCondition.step`, `raceCondition` — the machine, for any number of threads.

## Main results

* `RaceCondition.raceCondition_values` — every run ends, and the values at the ends.
-/

open Transition Memory

namespace Multithreading.Sync

namespace RaceCondition

/-- The program counter of a thread. -/
inductive Pc
  /-- About to test `x > 0`. -/
  | test
  /-- About to evaluate `x -= 100`. -/
  | subtract
  | left
  deriving DecidableEq

/-- How a thread comes to its end. -/
inductive Event (ι : Type*)
  | subtracted (i : ι)
  /-- The integer was not positive. -/
  | skipped (i : ι)

variable {ι : Type*}

/-- A step of thread `i` on the integer `x`. -/
def step (i : ι) : Unit → ℤ → Pc → Option (ℤ × Pc × List (Event ι))
  | (), x, .test => if 0 < x then some (x, .subtract, []) else some (x, .left, [.skipped i])
  | (), x, .subtract => some (wrapInt (x - 100), .left, [.subtracted i])
  | (), _, .left => none

/-- What a step can do, one case for each branch of `step`. -/
inductive Move (i : ι) (x : ℤ) : Pc → ℤ → Pc → List (Event ι) → Prop
  | pass (hpos : 0 < x) : Move i x .test x .subtract []
  | skip (hpos : x ≤ 0) : Move i x .test x .left [.skipped i]
  | subtract : Move i x .subtract (wrapInt (x - 100)) .left [.subtracted i]

theorem move_of_step {i : ι} {x x' : ℤ} {pc pc' : Pc} {es : List (Event ι)}
    (h : step i () x pc = some (x', pc', es)) : Move i x pc x' pc' es := by
  unfold step at h
  split at h
  all_goals try split at h
  all_goals try contradiction
  all_goals
    obtain ⟨rfl, rfl, rfl⟩ : _ ∧ _ ∧ _ := by simpa using h
    constructor
  all_goals simp_all

end RaceCondition

/-- The threads `ι` on an integer with the value `x₀`. -/
def raceCondition (ι : Type*) [DecidableEq ι] (x₀ : ℤ) :
    Machine (Config ι ℤ RaceCondition.Pc) (ι × Unit) (RaceCondition.Event ι) :=
  interleave ⟨x₀, fun _ => .test⟩ RaceCondition.step

namespace RaceCondition

variable {ι : Type*}

/-- The threads that have subtracted. -/
def subtractions (h : List (Event ι)) : ℕ := h.countP fun | .subtracted _ => true | _ => false

/-- The threads that have not passed the test. -/
def skips (h : List (Event ι)) : ℕ := h.countP fun | .skipped _ => true | _ => false

theorem subtractions_append (h h' : List (Event ι)) :
    subtractions (h ++ h') = subtractions h + subtractions h' :=
  List.countP_append

theorem skips_append (h h' : List (Event ι)) : skips (h ++ h') = skips h + skips h' :=
  List.countP_append

/-- One for a thread that has not come to its end. -/
def Pc.running : Pc → ℕ
  | test | subtract => 1
  | left => 0

/-- The steps that a thread has still to take. -/
def Pc.size : Pc → ℕ
  | test => 2
  | subtract => 1
  | left => 0

theorem Move.size_lt {i : ι} {x x' : ℤ} {pc pc' : Pc} {es : List (Event ι)}
    (hmove : Move i x pc x' pc' es) : pc'.size < pc.size := by
  cases hmove <;> simp [Pc.size]

/-- The integer has lost 100 with each thread that has subtracted, and it is not positive any more
when a thread has not passed the test. A first value that is not positive is not passed at all. -/
structure Inv [Fintype ι] (x₀ : ℤ) (c : Config ι ℤ Pc) (h : List (Event ι)) : Prop where
  threads : subtractions h + skips h + c.census Pc.running = Fintype.card ι
  value : c.shared = x₀ - 100 * subtractions h
  skipped : 0 < skips h → c.shared ≤ 0
  closed : x₀ ≤ 0 → subtractions h = 0 ∧ ∀ i, c.threads i ≠ .subtract

/-- All threads have come to their ends. -/
def Finished (c : Config ι ℤ Pc) : Prop := ∀ i, c.threads i = .left

variable [DecidableEq ι] [Fintype ι] {x₀ x' : ℤ} {c c' : Config ι ℤ Pc} {i : ι} {pc' : Pc}
  {h es : List (Event ι)}

/-- Every step keeps the invariant, as long as the integer does not leave the range of `int`. -/
theorem Inv.move (hinv : Inv x₀ c h) (hfits : Fits x₀)
    (hlow : 0 < x₀ → intMin ≤ x₀ - 100 * Fintype.card ι)
    (hmove : Move i c.shared (c.threads i) x' pc' es) : Inv x₀ (c.set i x' pc') (h ++ es) := by
  obtain ⟨hthreads, hvalue, hskipped, hclosed⟩ := hinv
  have hcensus := c.census_set i x' pc' Pc.running
  have hother (hpc : pc' ≠ .subtract) (hold : ∀ j, c.threads j ≠ .subtract) (j : ι) :
      (c.set i x' pc').threads j ≠ .subtract :=
    c.forall_set i x' pc' (P := fun _ pc => pc ≠ .subtract) hpc (fun j _ => hold j) j
  generalize hpc : c.threads i = pc at hmove hcensus
  cases hmove with
  | pass hpos =>
    simp only [Pc.running] at hcensus
    refine ⟨by simp only [List.append_nil]; omega, by simpa using hvalue, by simpa using hskipped,
      fun hneg => ?_⟩
    exact absurd hpos (by have := hclosed hneg; omega)
  | skip hpos =>
    have hnone : subtractions (h ++ [.skipped i]) = subtractions h := subtractions_append _ _
    have hone : skips (h ++ [.skipped i]) = skips h + 1 := skips_append _ _
    simp only [Pc.running] at hcensus
    exact ⟨by omega, by rw [hnone]; exact hvalue, fun _ => hpos, fun hneg =>
      ⟨hnone.trans (hclosed hneg).1, hother (by simp) (hclosed hneg).2⟩⟩
  | subtract =>
    have hone : subtractions (h ++ [.subtracted i]) = subtractions h + 1 := subtractions_append _ _
    have hnone : skips (h ++ [.subtracted i]) = skips h := skips_append _ _
    simp only [Pc.running] at hcensus
    have hle : subtractions h + 1 ≤ Fintype.card ι := by omega
    have hpos : 0 < x₀ := not_le.mp fun hneg => (hclosed hneg).2 i hpc
    have hbound := hlow hpos
    have hwrap : wrapInt (c.shared - 100) = c.shared - 100 := by
      refine wrapInt_of_fits ?_
      rw [intMin] at hbound
      rw [Fits, intMin, intMax] at *
      omega
    refine ⟨by omega, ?_, fun hskips => ?_, fun hneg => absurd hpc ((hclosed hneg).2 i)⟩
    · rw [Config.set_shared, hwrap, hone, hvalue]
      omega
    · rw [Config.set_shared, hwrap]
      have := hskipped (by omega)
      omega

theorem inv_of_run (hfits : Fits x₀) (hlow : 0 < x₀ → intMin ≤ x₀ - 100 * Fintype.card ι)
    (hrun : (raceCondition ι x₀).Run (raceCondition ι x₀).init h c) : Inv x₀ c h := by
  refine hrun.invariant (Inv x₀) ?_ ?_
  · refine ⟨?_, by simp [raceCondition, subtractions], by simp [skips], fun _ => ⟨rfl, nofun⟩⟩
    simp [raceCondition, subtractions, skips, Config.census, Pc.running]
  · rintro h c c' es ⟨i, ⟨⟩⟩ - hinv - hnext
    obtain ⟨x', pc', hstep, rfl⟩ := interleave_next_eq_some.mp hnext
    exact hinv.move hfits hlow (move_of_step hstep)

theorem inevitable_finished : (raceCondition ι x₀).Inevitable (fun _ _ => True) Finished c := by
  refine Machine.inevitable_of_terminal (I := fun _ => True) _ (fun c => c.census Pc.size) ?_ ?_
    trivial
  · rintro c c' es ⟨i, ⟨⟩⟩ - - hnext
    obtain ⟨x', pc', hstep, rfl⟩ := interleave_next_eq_some.mp hnext
    have hcensus := c.census_set i x' pc' Pc.size
    have hlt := (move_of_step hstep).size_lt
    exact ⟨trivial, by omega⟩
  · rintro c - hstuck i
    have hnone : step i () c.shared (c.threads i) = none := by
      simpa [raceCondition, interleave] using hstuck (i, ()) trivial
    cases hpc : c.threads i with
    | left => rfl
    | test =>
      rw [hpc, step] at hnone
      split at hnone <;> contradiction
    | subtract => simp [hpc, step] at hnone

/-! ### The values at the ends -/

variable (x₀) in
omit [Fintype ι] in
theorem exists_run_pass {l : List ι} (hnodup : l.Nodup) (hold : ∀ i ∈ l, c.threads i = .test)
    (hpos : l ≠ [] → 0 < c.shared) :
    ∃ h c', (raceCondition ι x₀).Run c h c' ∧ c'.shared = c.shared ∧
      ∀ j, c'.threads j = if j ∈ l then .subtract else c.threads j :=
  exists_run_each hnodup () .test .subtract (fun _ => c.shared) rfl hold fun i _ hk =>
    ⟨[], by simp [step, hpos (List.ne_nil_of_length_pos (Nat.zero_lt_of_lt hk))]⟩

variable (x₀) in
omit [Fintype ι] in
theorem exists_run_skip {l : List ι} (hnodup : l.Nodup) (hold : ∀ i ∈ l, c.threads i = .test)
    (hpos : l ≠ [] → c.shared ≤ 0) :
    ∃ h c', (raceCondition ι x₀).Run c h c' ∧ c'.shared = c.shared ∧
      ∀ j, c'.threads j = if j ∈ l then .left else c.threads j :=
  exists_run_each hnodup () .test .left (fun _ => c.shared) rfl hold fun i _ hk =>
    ⟨[.skipped i], by
      simp [step, not_lt.mpr (hpos (List.ne_nil_of_length_pos (Nat.zero_lt_of_lt hk)))]⟩

variable (x₀) in
omit [Fintype ι] in
theorem exists_run_subtract {l : List ι} (hnodup : l.Nodup)
    (hold : ∀ i ∈ l, c.threads i = .subtract) (hfits : Fits c.shared)
    (hlow : intMin ≤ c.shared - 100 * l.length) :
    ∃ h c', (raceCondition ι x₀).Run c h c' ∧ c'.shared = c.shared - 100 * l.length ∧
      ∀ j, c'.threads j = if j ∈ l then .left else c.threads j := by
  refine exists_run_each hnodup () Pc.subtract Pc.left (fun k : ℕ => c.shared - 100 * k) (by simp)
    hold fun i k hk => ⟨[Event.subtracted i], ?_⟩
  have hwrap : wrapInt (c.shared - 100 * k - 100) = c.shared - 100 * (k + 1 : ℕ) := by
    rw [wrapInt_of_fits ?_]
    · omega
    · rw [Fits, intMin, intMax] at *
      omega
  simp [step, hwrap]

/-- The first threads of a list pass the test together and subtract, and only then the others
test. -/
theorem exists_run_finished {k : ℕ} (hfits : Fits x₀) (hk : k ≤ Fintype.card ι)
    (hlow : intMin ≤ x₀ - 100 * k) (hpos : 0 < k → 0 < x₀)
    (hrest : k < Fintype.card ι → x₀ - 100 * k ≤ 0) :
    ∃ h c, (raceCondition ι x₀).Run (raceCondition ι x₀).init h c ∧ Finished c ∧
      c.shared = x₀ - 100 * k := by
  let l₁ := (Finset.univ : Finset ι).toList.take k
  let l₂ := (Finset.univ : Finset ι).toList.drop k
  have hall : ∀ i, i ∈ l₁ ∨ i ∈ l₂ := fun i => by
    rw [← List.mem_append, List.take_append_drop]
    exact Finset.mem_toList.mpr (Finset.mem_univ i)
  have hnodup : (l₁ ++ l₂).Nodup := by
    rw [List.take_append_drop]
    exact Finset.nodup_toList _
  obtain ⟨hnodup₁, hnodup₂, hdisjoint⟩ := List.nodup_append'.mp hnodup
  have hlen₁ : l₁.length = k := by simp [l₁, hk]
  have hlen₂ : l₂ ≠ [] → k < Fintype.card ι := by simp [l₂]
  obtain ⟨h₁, c₁, hrun₁, hsh₁, hth₁⟩ := exists_run_pass x₀
    (c := (raceCondition ι x₀).init) hnodup₁ (fun _ _ => rfl)
    (fun hne => hpos (hlen₁ ▸ List.length_pos_iff.mpr hne))
  have hx₁ : c₁.shared = x₀ := hsh₁
  obtain ⟨h₂, c₂, hrun₂, hsh₂, hth₂⟩ := exists_run_subtract x₀ hnodup₁
    (fun i hi => by rw [hth₁ i, if_pos hi]) (hx₁ ▸ hfits) (by rw [hx₁, hlen₁]; exact hlow)
  rw [hx₁, hlen₁] at hsh₂
  obtain ⟨h₃, c₃, hrun₃, hsh₃, hth₃⟩ := exists_run_skip x₀ hnodup₂
    (fun i hi => by
      have hi₁ : i ∉ l₁ := fun hi₁ => hdisjoint hi₁ hi
      rw [hth₂ i, if_neg hi₁, hth₁ i, if_neg hi₁]
      rfl)
    (fun hne => by rw [hsh₂]; exact hrest (hlen₂ hne))
  refine ⟨_, c₃, (hrun₁.trans hrun₂).trans hrun₃, fun i => ?_, by rw [hsh₃, hsh₂]⟩
  rw [hth₃ i]
  split
  · rfl
  · rename_i hi
    rw [hth₂ i, if_pos ((hall i).resolve_right hi)]

/-- **The race condition.** When the first value is in the range of `int`, and, if it is positive,
still is after a subtraction by each thread, every run comes to an end, and the integer can end at
the values that it has after `k` subtractions, where either all threads subtract or the integer is
not positive then, and nobody subtracts from a first value that is not positive. -/
theorem raceCondition_values (hfits : Fits x₀)
    (hlow : 0 < x₀ → intMin ≤ x₀ - 100 * Fintype.card ι) :
    (raceCondition ι x₀).Inevitable (fun _ _ => True) Finished (raceCondition ι x₀).init ∧
      ∀ x, (∃ h c, (raceCondition ι x₀).Run (raceCondition ι x₀).init h c ∧ Finished c ∧
        c.shared = x) ↔
          ∃ k ≤ Fintype.card ι, x = x₀ - 100 * k ∧ (x₀ ≤ 0 → k = 0) ∧
            (k < Fintype.card ι → x ≤ 0) := by
  refine ⟨?_, fun x => ⟨?_, ?_⟩⟩
  · exact inevitable_finished
  · rintro ⟨h, c, hrun, hfinished, rfl⟩
    obtain ⟨hthreads, hvalue, hskipped, hclosed⟩ := inv_of_run hfits hlow hrun
    have hnone : c.census Pc.running = 0 := c.census_const Pc.running .left hfinished rfl
    exact ⟨subtractions h, by omega, hvalue, fun hneg => (hclosed hneg).1, fun hlt =>
      hskipped (by omega)⟩
  · rintro ⟨k, hk, rfl, hclosed, hrest⟩
    have hpos : 0 < k → 0 < x₀ := fun hk0 => not_le.mp fun hneg => hk0.ne' (hclosed hneg)
    refine exists_run_finished hfits hk ?_ hpos hrest
    rcases k.eq_zero_or_pos with rfl | hk0
    · simpa using hfits.1
    · have hbound := hlow (hpos hk0)
      omega

/-- The two threads of a run of `main` end, at zero or at -100. -/
theorem raceCondition_values_main :
    (raceCondition (Fin 2) 100).Inevitable (fun _ _ => True) Finished
        (raceCondition (Fin 2) 100).init ∧
      ∀ x, (∃ h c, (raceCondition (Fin 2) 100).Run (raceCondition (Fin 2) 100).init h c ∧
        Finished c ∧ c.shared = x) ↔ x = 0 ∨ x = -100 := by
  have hfits : Fits 100 := by decide
  have hlow : 0 < (100 : ℤ) → intMin ≤ 100 - 100 * Fintype.card (Fin 2) := by decide
  obtain ⟨hends, hvalues⟩ := raceCondition_values hfits hlow
  refine ⟨hends, fun x => ?_⟩
  rw [hvalues x]
  constructor
  · rintro ⟨k, hk, rfl, -, hrest⟩
    simp only [Fintype.card_fin] at hk hrest
    omega
  · rintro (rfl | rfl)
    · exact ⟨1, by simp⟩
    · exact ⟨2, by simp⟩

end RaceCondition

end Multithreading.Sync
