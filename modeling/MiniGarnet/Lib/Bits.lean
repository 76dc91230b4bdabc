import Mathlib.Data.Nat.Bitwise
import Mathlib.Tactic.Ring

/-! # Shift-and-or arithmetic

    Packed words are written with shifts and `|||`; reasoning about them is
    done in `*`, `+`, `/` and `%`.  These are the translations.
-/

namespace Bits

/-- Or-ing a small number under a shifted one is addition. -/
theorem shiftLeft_or_of_lt {a b k : ℕ} (h : b < 2 ^ k) : a <<< k ||| b = a * 2 ^ k + b := by
  rw [← Nat.shiftLeft_add_eq_or_of_lt h, Nat.shiftLeft_eq]

/-- Or-ing exactly the first bit above the field: a carry when `a` is even,
    and nothing at all when `a` is odd. -/
theorem shiftLeft_or_two_pow (a k : ℕ) :
    a <<< k ||| 2 ^ k = if a % 2 = 1 then a * 2 ^ k else (a + 1) * 2 ^ k := by
  have hone : (2 ^ k : ℕ) = 1 <<< k := by rw [Nat.shiftLeft_eq, one_mul]
  rw [hone, ← Nat.shiftLeft_or_distrib, Nat.shiftLeft_eq]
  have hor : a ||| 1 = if a % 2 = 1 then a else a + 1 := by
    have hhalf : (a ||| 1) / 2 = a / 2 := by
      have h := Nat.shiftRight_or_distrib (a := a) (b := 1) (i := 1)
      simpa only [Nat.shiftRight_eq_div_pow, pow_one, Nat.reduceDiv, Nat.or_zero] using h
    have hlow : (a ||| 1) % 2 = 1 := by simp
    split <;> omega
  rw [hor, ← hone]
  split <;> rfl

theorem and_two_pow_sub_one (a k : ℕ) : a &&& (2 ^ k - 1) = a % 2 ^ k :=
  Nat.and_two_pow_sub_one_eq_mod a k

/-- Masking a field out of the middle of a word. -/
theorem and_shiftLeft (w m k : ℕ) : w &&& m <<< k = (w >>> k &&& m) <<< k := by
  apply Nat.eq_of_testBit_eq
  intro i
  simp only [Nat.testBit_and, Nat.testBit_shiftLeft, Nat.testBit_shiftRight]
  by_cases h : k ≤ i
  · simp [h]
  · simp [h]

theorem shiftRight_eq (a k : ℕ) : a >>> k = a / 2 ^ k := Nat.shiftRight_eq_div_pow a k

end Bits
