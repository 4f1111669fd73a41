import Mathlib.Data.List.TakeWhile
import Mathlib.Order.Basic

/-!
# Character arrays

An array of `char` of a fixed size, with the operations by which a program fills it: the value
initialization and `memset` with zero, and `memcpy` into its first bytes.

## Main definitions

* `CharArray`, `CharArray.zero`, `CharArray.memcpy` — the arrays and the operations.
* `CharArray.ofBytes` — an array that is cleared and then receives as many bytes as fit.
* `CharArray.render` — what formatting the array prints.

## Main results

* `CharArray.render_ofBytes_iff` — when formatting shows the bytes that the array has received.
-/

namespace Memory

/-- An array of `n` bytes. -/
structure CharArray (n : ℕ) where
  bytes : List UInt8
  length_bytes : bytes.length = n
  deriving DecidableEq

namespace CharArray

variable {n : ℕ}

/-- The array after its value initialization, or after `memset` with zero. -/
def zero (n : ℕ) : CharArray n := ⟨List.replicate n 0, List.length_replicate⟩

/-- `memcpy` of the first `count` bytes of the source into the array. -/
def memcpy (a : CharArray n) (source : List UInt8) (count : ℕ) : CharArray n where
  bytes := (source.take count ++ a.bytes.drop (source.take count).length).take n
  length_bytes := by
    have := a.length_bytes
    simp only [List.length_take, List.length_append, List.length_drop]
    omega

/-- The array with the first bytes of the source, as many as fit, and zeros behind them. -/
def ofBytes (n : ℕ) (source : List UInt8) : CharArray n :=
  (zero n).memcpy source (min source.length n)

/-- What formatting the array prints: the bytes up to the first NUL. Without a NUL in the array the
formatting reads on behind its end, and there is no result. -/
def render (a : CharArray n) : Option (List UInt8) :=
  if 0 ∈ a.bytes then some (a.bytes.takeWhile (· ≠ 0)) else none

theorem take_min_length (source : List UInt8) :
    source.take (min source.length n) = source.take n := by
  simp [Nat.min_comm]

theorem bytes_ofBytes (source : List UInt8) :
    (ofBytes n source).bytes = source.take n ++ List.replicate (n - source.length) 0 := by
  simp only [ofBytes, memcpy, zero, take_min_length, List.drop_replicate, List.length_take]
  rw [show n - min n source.length = n - source.length by omega]
  refine List.take_of_length_le ?_
  simp only [List.length_append, List.length_take, List.length_replicate]
  omega

/-- **An array shows the bytes that it has received** exactly when they leave room for a NUL and
contain none. -/
theorem render_ofBytes_iff (source : List UInt8) :
    (ofBytes n source).render = some (source.take (min source.length n)) ↔
      source.length < n ∧ 0 ∉ source := by
  rw [render, bytes_ofBytes, take_min_length]
  constructor
  · intro hrender
    split at hrender
    · rename_i hmem
      have htake := Option.some.inj hrender
      have hnonzero : 0 ∉ source.take n := by
        intro hzero
        rw [← htake] at hzero
        simpa using List.mem_takeWhile_imp hzero
      have hlt : source.length < n := by
        by_contra hle
        rw [Nat.sub_eq_zero_of_le (by omega), List.replicate_zero, List.append_nil] at hmem
        exact hnonzero hmem
      rw [List.take_of_length_le hlt.le] at hnonzero
      exact ⟨hlt, hnonzero⟩
    · exact absurd hrender (by simp)
  · rintro ⟨hlt, hnonzero⟩
    obtain ⟨k, hk⟩ : ∃ k, n - source.length = k + 1 := ⟨n - source.length - 1, by omega⟩
    have hall : ∀ b ∈ source, (b ≠ 0 : Bool) = true := by
      intro b hb
      simpa using fun hb0 : b = 0 => hnonzero (hb0 ▸ hb)
    rw [List.take_of_length_le hlt.le, hk, List.replicate_succ, if_pos (by simp),
      List.takeWhile_append_of_pos hall]
    simp

end CharArray

end Memory
