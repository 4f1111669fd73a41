import Multithreading.Transition.Threads
import Multithreading.Memory.CInt
import Mathlib.Algebra.Order.Floor.Ring
import Mathlib.Data.Int.ModEq
import Mathlib.Data.Prod.Lex
import Mathlib.Data.Rat.Floor

/-!
# The loop of `compare_exchange_weak`

Threads that subtract 100 from an atomic integer as long as it is positive. A thread loads the
integer once. A failed `compare_exchange_weak`, spurious or not, refreshes `expected`; a successful
one does not, so a thread goes round again with a value that it has itself made stale.

The integer only decreases, so a stale `expected` lies above it and cannot be swapped a second time,
and a thread leaves its loop with a value above the integer too.

## Main definitions

* `Cas.Local`, `Cas.step`, `cas` — the machine.
* `Cas.swaps` — the successful swaps.

## Main results

* `Cas.decreasing_of_run` — the integer, and what each thread expects.
* `Cas.cas_decrement` — the law of the loop.
* `Cas.cas_ends` — every run without spurious failures ends.
-/

open Transition Memory

namespace Multithreading.Sync

namespace Cas

/-- The program counter of a thread, with its `expected`. -/
inductive Local
  /-- About to load `x`. -/
  | load
  /-- About to test `expected > 0`. -/
  | test (expected : ℤ)
  /-- About to evaluate `x.compare_exchange_weak(expected, expected - 100)`. -/
  | exchange (expected : ℤ)
  /-- Out of the loop. -/
  | left
  deriving DecidableEq

/-- What decides a step of a thread. -/
inductive Action
  | tau
  /-- The `compare_exchange_weak` fails spuriously. -/
  | spurious

/-- The events of the loop. -/
inductive Event (ι : Type*)
  /-- A `compare_exchange_weak` succeeds, with the given value as the desired one. -/
  | swapped (i : ι) (expected desired : ℤ)
  deriving DecidableEq

variable {ι : Type*}

/-- A step of thread `i` on the integer `x`. -/
def step (i : ι) : Action → ℤ → Local → Option (ℤ × Local × List (Event ι))
  | .tau, x, .load => some (x, .test x, [])
  | .tau, x, .test expected => some (x, if 0 < expected then .exchange expected else .left, [])
  | .tau, x, .exchange expected =>
    if x = expected then
      some (expected - 100, .test expected, [.swapped i expected (expected - 100)])
    else some (x, .test x, [])
  | .spurious, x, .exchange _ => some (x, .test x, [])
  | _, _, _ => none

/-- What a step of thread `i` can do, one case for each branch of `step`. -/
inductive Move (i : ι) (x : ℤ) : Local → ℤ → Local → List (Event ι) → Prop
  | load : Move i x .load x (.test x) []
  | enter (e : ℤ) (hpos : 0 < e) : Move i x (.test e) x (.exchange e) []
  | leave (e : ℤ) (hpos : e ≤ 0) : Move i x (.test e) x .left []
  | swap (e : ℤ) (heq : x = e) : Move i x (.exchange e) (e - 100) (.test e) [.swapped i e (e - 100)]
  | fail (e : ℤ) : Move i x (.exchange e) x (.test x) []

theorem move_of_step {i : ι} {a : Action} {x x' : ℤ} {l l' : Local} {es : List (Event ι)}
    (h : step i a x l = some (x', l', es)) : Move i x l x' l' es := by
  unfold step at h
  split at h
  all_goals try split at h
  all_goals try contradiction
  all_goals
    obtain ⟨rfl, rfl, rfl⟩ : _ ∧ _ ∧ _ := by simpa using h
    constructor
  all_goals simp_all

end Cas

/-- The loop with the initial value `x₀`, run by the threads `ι`. -/
def cas (ι : Type*) [DecidableEq ι] (x₀ : ℤ) :
    Machine (Config ι ℤ Cas.Local) (ι × Cas.Action) (Cas.Event ι) :=
  interleave ⟨x₀, fun _ => .load⟩ Cas.step

namespace Cas

variable {ι : Type*}

/-- The successful swaps. -/
def swaps (h : List (Event ι)) : ℕ := h.length

/-- What a thread knows of the integer: it expects a value that is not below it, a value that it is
about to swap is positive, and it leaves after the integer has lost its sign. -/
def Local.Knows : Local → ℤ → Prop
  | load, _ => True
  | test expected, x => x ≤ expected
  | exchange expected, x => x ≤ expected ∧ 0 < expected
  | left, x => x ≤ 0

theorem Local.Knows.anti {l : Local} {x x' : ℤ} (hl : l.Knows x) (hx : x' ≤ x) : l.Knows x' := by
  cases l with
  | load => trivial
  | test e => exact hx.trans hl
  | exchange e => exact ⟨hx.trans hl.1, hl.2⟩
  | left => exact hx.trans hl

theorem Move.x_cases {i : ι} {x x' : ℤ} {l l' : Local} {es : List (Event ι)}
    (hmove : Move i x l x' l' es) (hl : l.Knows x) :
    x' = x ∧ es = [] ∨ 0 < x ∧ x' = x - 100 ∧ es = [.swapped i x (x - 100)] := by
  cases hmove with
  | swap e heq =>
    obtain rfl := heq
    exact .inr ⟨hl.2, rfl, rfl⟩
  | _ => exact .inl ⟨rfl, rfl⟩

theorem Move.knows {i : ι} {x x' : ℤ} {l l' : Local} {es : List (Event ι)}
    (hmove : Move i x l x' l' es) (hl : l.Knows x) : l'.Knows x' := by
  cases hmove with
  | load | fail e => exact le_rfl
  | enter e hpos => exact ⟨hl, hpos⟩
  | leave e hpos => exact le_trans hl hpos
  | swap e heq => exact Int.sub_le_self e (by decide)

/-- A value that a thread expects was loaded, so it is at most the initial value. -/
def Local.Bounded : Local → ℤ → Prop
  | test expected, x₀ | exchange expected, x₀ => expected ≤ x₀
  | _, _ => True

theorem Move.bounded {i : ι} {x x' x₀ : ℤ} {l l' : Local} {es : List (Event ι)}
    (hmove : Move i x l x' l' es) (hx : x ≤ x₀) (hl : l.Bounded x₀) : l'.Bounded x₀ := by
  cases hmove with
  | load | fail e => exact hx
  | enter e _ | swap e _ => exact hl
  | leave e _ => trivial

/-- The integer has lost 100 with each swap and does not fall below -99 on the way down, and each
thread knows it. -/
structure Decreasing (x₀ : ℤ) (c : Config ι ℤ Local) (h : List (Event ι)) : Prop where
  total : c.shared = x₀ - 100 * swaps h
  le : min x₀ (-99) ≤ c.shared
  knows : ∀ i, (c.threads i).Knows c.shared
  bounded : ∀ i, (c.threads i).Bounded x₀

variable [DecidableEq ι]

theorem Decreasing.move {x₀ : ℤ} {c : Config ι ℤ Local} {h : List (Event ι)} {i : ι} {x' : ℤ}
    {l' : Local} {es : List (Event ι)} (hinv : Decreasing x₀ c h)
    (hmove : Move i c.shared (c.threads i) x' l' es) :
    Decreasing x₀ (c.set i x' l') (h ++ es) := by
  have htotal := hinv.total
  have hle := hinv.le
  have hx := hmove.x_cases (hinv.knows i)
  have hdown : x' ≤ c.shared := by
    rcases hx with ⟨rfl, -⟩ | ⟨-, rfl, -⟩ <;> omega
  have hswaps : swaps (h ++ es) = swaps h + swaps es := List.length_append
  refine ⟨?_, ?_, ?_, ?_⟩
  · rw [Config.set_shared, hswaps]
    rcases hx with ⟨rfl, rfl⟩ | ⟨-, rfl, rfl⟩ <;> simp only [swaps, List.length] at * <;> omega
  · rw [Config.set_shared]
    rcases hx with ⟨rfl, -⟩ | ⟨hpos, rfl, -⟩ <;> omega
  · exact c.forall_set i x' l' (P := fun _ l => l.Knows x') (hmove.knows (hinv.knows i))
      fun j _ => (hinv.knows j).anti hdown
  · exact c.forall_set i x' l' (P := fun _ l => l.Bounded x₀)
      (hmove.bounded (by omega) (hinv.bounded i)) fun j _ => hinv.bounded j

variable {x₀ : ℤ} {c : Config ι ℤ Local} {h : List (Event ι)}

/-- The invariant, for every run. -/
theorem decreasing_of_run (hrun : (cas ι x₀).Run (cas ι x₀).init h c) : Decreasing x₀ c h := by
  refine hrun.invariant (Decreasing x₀) ?_ ?_
  · exact ⟨by simp [cas, swaps], min_le_left _ _, fun _ => trivial, fun _ => trivial⟩
  · rintro h c c' es ⟨i, a⟩ - hinv - hnext
    obtain ⟨x', l', hstep, rfl⟩ := interleave_next_eq_some.mp hnext
    exact hinv.move (move_of_step hstep)

/-- The integer changes only in a successful swap, which subtracts 100 from a positive value. -/
theorem next_cases (hrun : (cas ι x₀).Run (cas ι x₀).init h c) {a : ι × Action}
    {c' : Config ι ℤ Local} {es : List (Event ι)} (hnext : (cas ι x₀).next c a = some (c', es)) :
    c'.shared = c.shared ∧ es = [] ∨ 0 < c.shared ∧ c'.shared = c.shared - 100 ∧
      es = [.swapped a.1 c.shared (c.shared - 100)] := by
  obtain ⟨x', l', hstep, rfl⟩ := interleave_next_eq_some.mp hnext
  exact (move_of_step hstep).x_cases ((decreasing_of_run hrun).knows a.1)

theorem shared_le_of_run (hrun : (cas ι x₀).Run (cas ι x₀).init h c) {h' : List (Event ι)}
    {c' : Config ι ℤ Local} (hrun' : (cas ι x₀).Run c h' c') : c'.shared ≤ c.shared := by
  refine hrun'.invariant (fun d _ => d.shared ≤ c.shared) le_rfl ?_
  rintro h₁ d d' es a hrun₁ hle - hnext
  rcases next_cases (hrun.trans hrun₁) hnext with ⟨hsame, -⟩ | ⟨-, hless, -⟩ <;> omega

/-- A number of swaps that takes a positive value to one above -100 and not above zero is the value
divided by 100 and rounded up. -/
theorem eq_ceil_of_total {x : ℤ} {n : ℕ} (htotal : x = x₀ - 100 * n) (hlow : -100 < x)
    (hhigh : x ≤ 0) : (n : ℤ) = ⌈(x₀ : ℚ) / 100⌉ := by
  symm
  rw [Int.ceil_eq_iff, div_le_iff₀ (by norm_num), lt_div_iff₀ (by norm_num)]
  constructor
  · have hlt : ((n : ℤ) - 1) * 100 < x₀ := by omega
    exact_mod_cast hlt
  · have hle : x₀ ≤ (n : ℤ) * 100 := by omega
    exact_mod_cast hle

/-- **The loop.** In every reachable state, a step changes the integer only by a successful swap at
a positive value, the integer never increases and is never below `x₀` and -99, and `expected - 100`
does not overflow. When all threads have left the loop, an initial value that is not positive is
unchanged. Otherwise the integer is the value above -100 and not above zero that is congruent to the
initial value, and the number of swaps is the initial value divided by 100 and rounded up. -/
theorem cas_decrement [Nonempty ι] (hx₀ : Fits x₀)
    (hrun : (cas ι x₀).Run (cas ι x₀).init h c) :
    (∀ a c' es, (cas ι x₀).next c a = some (c', es) →
      c'.shared = c.shared ∧ es = [] ∨ 0 < c.shared ∧ c'.shared = c.shared - 100 ∧
        es = [.swapped a.1 c.shared (c.shared - 100)]) ∧
    (∀ h' c', (cas ι x₀).Run c h' c' → c'.shared ≤ c.shared) ∧
    min x₀ (-99) ≤ c.shared ∧
    (∀ i expected, c.threads i = .exchange expected → Fits (expected - 100)) ∧
    ((∀ i, c.threads i = .left) →
      (x₀ ≤ 0 → c.shared = x₀ ∧ swaps h = 0) ∧
      (0 < x₀ → (∀ y, y = c.shared ↔ -100 < y ∧ y ≤ 0 ∧ y ≡ x₀ [ZMOD 100]) ∧
        (swaps h : ℤ) = ⌈(x₀ : ℚ) / 100⌉)) := by
  have hinv := decreasing_of_run hrun
  have htotal := hinv.total
  have hle := hinv.le
  refine ⟨fun a c' es hnext => next_cases hrun hnext, fun h' c' => shared_le_of_run hrun, hle,
    fun i e hi => ?_, fun hleft => ?_⟩
  · have hknows := hinv.knows i
    have hbounded := hinv.bounded i
    simp only [hi, Local.Knows, Local.Bounded] at hknows hbounded
    rw [Fits, intMin, intMax] at hx₀ ⊢
    omega
  · obtain ⟨i⟩ := ‹Nonempty ι›
    have hhigh : c.shared ≤ 0 := by
      have hknows := hinv.knows i
      rwa [hleft i] at hknows
    refine ⟨fun hneg => by omega, fun hpos => ⟨fun y => ?_, ?_⟩⟩
    · rw [Int.ModEq]
      omega
    · exact eq_ceil_of_total htotal (by omega) hhigh

/-- Two threads load 150. The first one swaps it, goes round with the stale value and is refreshed;
the second one swaps what is left. -/
theorem cas_decrement_two_threads : ∃ c h, (cas (Fin 2) 150).Run (cas (Fin 2) 150).init h c ∧
    (∀ i, c.threads i = .left) ∧ c.shared = -50 ∧ (swaps h : ℤ) = ⌈((150 : ℤ) : ℚ) / 100⌉ := by
  obtain ⟨c, h, hrun, hc⟩ := Machine.exists_run_of_exec (M := cas (Fin 2) 150)
    [(0, .tau), (1, .tau), (0, .tau), (0, .tau), (0, .tau), (0, .tau), (1, .tau), (1, .spurious),
      (1, .tau), (1, .tau), (1, .tau), (1, .tau), (1, .tau), (0, .tau), (0, .tau), (0, .tau)]
    (f := fun r => (r.1.threads 0, r.1.threads 1)) (b := (.left, .left)) (by decide)
  have hleft : ∀ i, c.threads i = .left := Fin.forall_fin_two.mpr (Prod.mk.inj hc)
  obtain ⟨hvalue, hswaps⟩ := ((cas_decrement (by decide) hrun).2.2.2.2 hleft).2 (by decide)
  exact ⟨c, h, hrun, hleft, ((hvalue (-50)).mpr (by decide)).symm, hswaps⟩

/-! ### The end of the loop -/

/-- The guard that leaves the spurious failures out. -/
def NotSpurious (_ : Config ι ℤ Local) (a : ι × Action) : Prop := a.2 = .tau

/-- The steps of a thread to its next successful swap or out of the loop, as long as the integer
does not change. A thread with a stale value fails first, and is refreshed by that. -/
def Local.size (x : ℤ) : Local → ℕ
  | load => 5
  | test expected => if expected = x then 2 else 4
  | exchange expected => if expected = x then 1 else 3
  | left => 0

omit [DecidableEq ι] in
theorem size_lt {i : ι} {x x' : ℤ} {l l' : Local} {es : List (Event ι)}
    (hstep : step i .tau x l = some (x', l', es)) (hl : l.Knows x) :
    0 < x ∧ x' = x - 100 ∨ x' = x ∧ l'.size x < l.size x := by
  cases l with
  | load =>
    obtain ⟨rfl, rfl, rfl⟩ : _ ∧ _ ∧ _ := by simpa [step] using hstep
    exact .inr ⟨rfl, by simp [Local.size]⟩
  | test e =>
    obtain ⟨rfl, rfl, rfl⟩ : _ ∧ _ ∧ _ := by simpa [step] using hstep
    refine .inr ⟨rfl, ?_⟩
    by_cases hpos : 0 < e
    · rw [if_pos hpos]
      simp only [Local.size]
      split <;> omega
    · rw [if_neg hpos]
      simp only [Local.size]
      split <;> omega
  | exchange e =>
    by_cases hx : x = e
    · obtain ⟨rfl, rfl, rfl⟩ : _ ∧ _ ∧ _ := by simpa [step, hx] using hstep
      exact .inl ⟨hx ▸ hl.2, by rw [hx]⟩
    · obtain ⟨rfl, rfl, rfl⟩ : _ ∧ _ ∧ _ := by simpa [step, hx] using hstep
      exact .inr ⟨rfl, by simp [Local.size, Ne.symm hx]⟩
  | left => contradiction

/-- The value at the end: the one above -100 and not above zero that is congruent to a positive
first value, and otherwise the first value. -/
def finalValue (x₀ : ℤ) : ℤ := if 0 < x₀ then -(-x₀ % 100) else x₀

omit [DecidableEq ι] in
theorem Decreasing.eq_finalValue [Nonempty ι] (hinv : Decreasing x₀ c h)
    (hleft : ∀ i, c.threads i = .left) : c.shared = finalValue x₀ := by
  obtain ⟨i⟩ := ‹Nonempty ι›
  have hknows := hinv.knows i
  rw [hleft i] at hknows
  have hhigh : c.shared ≤ 0 := hknows
  have htotal := hinv.total
  have hle := hinv.le
  rw [finalValue]
  split <;> omega

/-- **The loop ends.** From every reachable state, every schedule without spurious failures lets all
threads leave the loop, with one value at the end whatever the schedule was. -/
theorem cas_ends [Fintype ι] [Nonempty ι] (hrun : (cas ι x₀).Run (cas ι x₀).init h c) :
    (cas ι x₀).Inevitable NotSpurious
      (fun c => (∀ i, c.threads i = .left) ∧ c.shared = finalValue x₀) c := by
  refine Machine.inevitable_of_wellFounded (I := fun c => ∃ h, Decreasing x₀ c h) _
    (fun c => toLex (c.shared.toNat, c.census (Local.size c.shared))) ?_ ?_
    ⟨h, decreasing_of_run hrun⟩
  · rintro c c' es ⟨i, a⟩ ⟨h, hinv⟩ rfl hnext
    obtain ⟨x', l', hstep, rfl⟩ := interleave_next_eq_some.mp hnext
    refine ⟨⟨_, hinv.move (move_of_step hstep)⟩, ?_⟩
    rw [Prod.Lex.toLex_lt_toLex]
    rcases size_lt hstep (hinv.knows i) with ⟨hpos, rfl⟩ | ⟨rfl, hlt⟩
    · exact .inl (by rw [Config.set_shared]; omega)
    · have hcensus := c.census_set i c.shared l' (Local.size c.shared)
      exact .inr ⟨rfl, by rw [Config.set_shared]; omega⟩
  · rintro c ⟨h, hinv⟩ hstuck
    have hleft (i : ι) : c.threads i = .left := by
      have hnone : step i .tau c.shared (c.threads i) = none := by
        simpa [cas, interleave] using hstuck (i, .tau) rfl
      cases hl : c.threads i with
      | left => rfl
      | exchange e =>
        rw [hl, step] at hnone
        split at hnone <;> contradiction
      | _ => simp [hl, step] at hnone
    exact ⟨hleft, hinv.eq_finalValue hleft⟩

/-- Two threads have loaded 100, and the first one has swapped it. -/
theorem cas_ends_stale : ∃ c h, (cas (Fin 2) 100).Run (cas (Fin 2) 100).init h c ∧
    c.threads 1 = .exchange 100 ∧ (cas (Fin 2) 100).Inevitable NotSpurious
      (fun c => (∀ i, c.threads i = .left) ∧ c.shared = finalValue 100) c := by
  obtain ⟨c, h, hrun, hc⟩ := Machine.exists_run_of_exec (M := cas (Fin 2) 100)
    [(0, .tau), (1, .tau), (0, .tau), (1, .tau), (0, .tau)]
    (f := fun r => r.1.threads 1) (b := .exchange 100) (by decide)
  exact ⟨c, h, hrun, hc, cas_ends hrun⟩

end Cas

end Multithreading.Sync
