import Mathlib.Algebra.Order.Ring.Int

/-!
# Integers of the language

The range of `int` and the conversions of the integer types that the modelled code relies on. An
`int` is a mathematical integer; the operations that leave its range are undefined behaviour and
are tested for explicitly by `Fits`.

## Main definitions

* `intMin`, `intMax`, `Fits` — the range of `int`.
* `wrapInt` — the arithmetic of `std::atomic<int>`.
* `toSizeT`, `toUInt32` — the conversions to `size_t` and to `uint32_t`.
-/

namespace Memory

/-- The least `int`. -/
def intMin : ℤ := -2 ^ 31

/-- The greatest `int`. -/
def intMax : ℤ := 2 ^ 31 - 1

/-- The value is in the range of `int`. -/
def Fits (x : ℤ) : Prop := intMin ≤ x ∧ x ≤ intMax

instance (x : ℤ) : Decidable (Fits x) := inferInstanceAs (Decidable (intMin ≤ x ∧ x ≤ intMax))

/-- The arithmetic of `std::atomic<int>`, which wraps around. -/
def wrapInt (x : ℤ) : ℤ := (x + 2 ^ 31) % 2 ^ 32 - 2 ^ 31

/-- The conversion of an `int` to `size_t`. -/
def toSizeT (x : ℤ) : ℕ := (x % 2 ^ 64).toNat

/-- The conversion of a `size_t` to `uint32_t`. -/
def toUInt32 (n : ℕ) : ℕ := n % 2 ^ 32

theorem wrapInt_of_fits {x : ℤ} (h : Fits x) : wrapInt x = x := by
  rw [Fits, intMin, intMax] at h
  rw [wrapInt, Int.emod_eq_of_lt (by omega) (by omega), add_sub_cancel_right]

theorem fits_wrapInt (x : ℤ) : Fits (wrapInt x) := by
  rw [Fits, intMin, intMax, wrapInt]
  omega

/-- Counting down reaches zero only from one. -/
theorem eq_one_of_wrapInt_sub_one {x : ℤ} (hx : Fits x) (h : wrapInt (x - 1) = 0) : x = 1 := by
  rw [Fits, intMin, intMax] at hx
  rw [wrapInt] at h
  omega

theorem toSizeT_natCast {n : ℕ} (h : (n : ℤ) ≤ intMax) : toSizeT n = n := by
  rw [intMax] at h
  rw [toSizeT, Int.emod_eq_of_lt (by omega) (by omega), Int.toNat_natCast]

theorem natCast_toSizeT (x : ℤ) (h0 : 0 ≤ x) (hx : x ≤ intMax) : (toSizeT x : ℤ) = x := by
  obtain ⟨n, rfl⟩ := Int.eq_ofNat_of_zero_le h0
  rw [toSizeT_natCast hx]

end Memory
