import Mathlib.Data.Nat.Basic
import Mathlib.Tactic.Ring

/-! # Little-endian integers

    Fixed-width little-endian byte strings: writing keeps the low bytes of
    a number, reading is the number the bytes spell.
-/

namespace LittleEndian

/-- The low `width` bytes of `n`, least significant first. -/
def toBytes : ℕ → ℕ → List UInt8
  | 0, _ => []
  | width + 1, n => UInt8.ofNat (n % 256) :: toBytes width (n / 256)

/-- The number spelled by a byte string, least significant byte first. -/
def ofBytes : List UInt8 → ℕ
  | [] => 0
  | b :: bs => b.toNat + 256 * ofBytes bs

@[simp] theorem length_toBytes (width n : ℕ) : (toBytes width n).length = width := by
  induction width generalizing n with
  | zero => rfl
  | succ width ih => simp [toBytes, ih]

/-- Reading back gives the number modulo the width it was written with. -/
theorem ofBytes_toBytes (width n : ℕ) : ofBytes (toBytes width n) = n % 256 ^ width := by
  induction width generalizing n with
  | zero => simp [toBytes, ofBytes, Nat.mod_one]
  | succ width ih =>
    have hbyte : (UInt8.ofNat (n % 256)).toNat = n % 256 := by
      simp [UInt8.toNat_ofNat']
    rw [toBytes, ofBytes, hbyte, ih, Nat.pow_succ', Nat.mod_mul]

theorem ofBytes_toBytes_of_lt {width n : ℕ} (h : n < 256 ^ width) :
    ofBytes (toBytes width n) = n := by
  rw [ofBytes_toBytes, Nat.mod_eq_of_lt h]

theorem ofBytes_lt (bs : List UInt8) : ofBytes bs < 256 ^ bs.length := by
  induction bs with
  | nil => exact Nat.one_pos
  | cons b bs ih =>
    have hb := b.toNat_lt
    rw [ofBytes, List.length_cons, Nat.pow_succ]
    omega

theorem ofBytes_replicate_zero (n : ℕ) : ofBytes (List.replicate n 0) = 0 := by
  induction n with
  | zero => rfl
  | succ n ih => rw [List.replicate_succ, ofBytes, ih]; rfl

/-- A small number leaves every byte but the first zero. -/
theorem getElem?_toBytes_of_lt {width n i : ℕ} (h : n < 256) (hi : 0 < i) (hw : i < width) :
    (toBytes width n)[i]? = some 0 := by
  have hzero : ∀ width j, j < width → (toBytes width 0)[j]? = some 0 := by
    intro width
    induction width with
    | zero => intro j hj; omega
    | succ width ih =>
      intro j hj
      cases j with
      | zero => rfl
      | succ j => simpa [toBytes] using ih j (by omega)
  cases width with
  | zero => omega
  | succ width =>
    cases i with
    | zero => omega
    | succ i =>
      simp only [toBytes, List.getElem?_cons_succ, Nat.div_eq_of_lt h]
      exact hzero width i (by omega)

end LittleEndian
