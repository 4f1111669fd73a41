import Mathlib.Data.List.TakeWhile
import Multithreading.Memory.CInt

/-!
# Integers as text

`std::to_string` and `std::stoi`. The second one reads the longest integer at the start of a text
and throws when there is none or when it is no `int`.

## Main results

* `stoi_toString` — what has been printed is read back.
-/

namespace Memory

/-- `std::to_string`. -/
def toString (x : ℤ) : List Char :=
  (if x < 0 then ['-'] else []) ++ Nat.toDigits 10 x.natAbs

/-- `std::isspace`: the blank, and the characters from the tabulator to the carriage return. -/
def isSpace (c : Char) : Bool := c.toNat = 32 || 9 ≤ c.toNat && c.toNat ≤ 13

/-- The sign at the start of a text, and what comes after it. -/
def sign : List Char → ℤ × List Char
  | '-' :: s => (-1, s)
  | '+' :: s => (1, s)
  | s => (1, s)

/-- `std::stoi`, where `none` is an exception. -/
def stoi (s : List Char) : Option ℤ :=
  let (sgn, rest) := sign (s.dropWhile isSpace)
  let digits := rest.takeWhile Char.isDigit
  let x := sgn * Nat.ofDigitChars 10 digits 0
  if digits ≠ [] ∧ Fits x then some x else none

theorem isDigit_of_mem_toDigits {n : ℕ} {c : Char} (hc : c ∈ Nat.toDigits 10 n) :
    c.isDigit = true :=
  Nat.isDigit_of_mem_toDigits (by decide) le_rfl hc

theorem isSpace_of_isDigit {c : Char} (hc : c.isDigit = true) : isSpace c = false := by
  obtain ⟨hlow, hhigh⟩ : '0'.val ≤ c.val ∧ c.val ≤ '9'.val := by
    simpa only [Char.isDigit, Bool.and_eq_true, decide_eq_true_eq] using hc
  have hlow : 48 ≤ c.toNat := UInt32.le_iff_toNat_le.mp hlow
  have hhigh : c.toNat ≤ 57 := UInt32.le_iff_toNat_le.mp hhigh
  simp only [isSpace, Bool.or_eq_false_iff, Bool.and_eq_false_iff, decide_eq_false_iff_not]
  omega

theorem sign_cons {c : Char} (hc : c.isDigit = true) (s : List Char) :
    sign (c :: s) = (1, c :: s) := by
  unfold sign
  split <;> simp_all [Char.isDigit]

theorem takeWhile_toDigits (n : ℕ) :
    (Nat.toDigits 10 n).takeWhile Char.isDigit = Nat.toDigits 10 n :=
  List.takeWhile_eq_self_iff.mpr fun _ => isDigit_of_mem_toDigits

/-- The sign of what has been printed, and its digits. -/
theorem sign_toString (x : ℤ) :
    sign ((toString x).dropWhile isSpace) =
      (if x < 0 then -1 else 1, Nat.toDigits 10 x.natAbs) := by
  obtain ⟨c, s, hcs⟩ := List.exists_cons_of_ne_nil (Nat.toDigits_ne_nil (n := x.natAbs) (b := 10))
  have hc : c.isDigit = true := isDigit_of_mem_toDigits (n := x.natAbs) (by simp [hcs])
  rw [toString, hcs]
  split_ifs with hx
  · rfl
  · rw [List.nil_append, List.dropWhile_cons_of_neg (by simp [isSpace_of_isDigit hc]),
      sign_cons hc]

/-- **What has been printed is read back.** -/
theorem stoi_toString {x : ℤ} (hx : Fits x) : stoi (toString x) = some x := by
  have hval : (if x < 0 then -1 else 1) * (x.natAbs : ℤ) = x := by
    split_ifs with h <;> omega
  simp only [stoi, sign_toString, takeWhile_toDigits, Nat.ofDigitChars_ten_toDigits, hval]
  rw [if_pos ⟨Nat.toDigits_ne_nil, hx⟩]

end Memory
