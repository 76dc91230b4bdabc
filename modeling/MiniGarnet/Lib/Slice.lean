import Mathlib.Data.List.Basic

/-! # Writes into slices

    A buffer is a list.  `copyFrom` and `fill` overwrite a range of it and
    keep its length and the bytes outside the range, which may be anything;
    they fail where the range is not inside the buffer or the source has
    another length than the range.  What matters of the result is its
    beginning up to some length at or past the range.
-/

namespace Slice

variable {α : Type*} {buf v : List α} {start stop n : ℕ}

/-- `buf[start..stop].copy_from_slice(v)`, or `none` where that panics. -/
def copyFrom (buf : List α) (start stop : ℕ) (v : List α) : Option (List α) :=
  if start ≤ stop ∧ stop ≤ buf.length ∧ v.length = stop - start then
    some (buf.take start ++ v ++ buf.drop stop)
  else none

/-- `buf[start..stop].fill(x)` -/
def fill (buf : List α) (start stop : ℕ) (x : α) : Option (List α) :=
  copyFrom buf start stop (List.replicate (stop - start) x)

/-- A write into the buffer succeeds and keeps the length; up to a length past the range,
    the result is the old beginning, the source, and what was there behind it. -/
theorem copyFrom_spec (buf v : List α) (hle : start ≤ stop) (hstop : stop ≤ buf.length)
    (hlen : v.length = stop - start) :
    ∃ buf', copyFrom buf start stop v = some buf' ∧ buf'.length = buf.length ∧
      ∀ n, stop ≤ n → buf'.take n = buf.take start ++ v ++ (buf.take n).drop stop := by
  refine ⟨_, if_pos ⟨hle, hstop, hlen⟩, ?_, ?_⟩
  · simp only [List.length_append, List.length_take, List.length_drop]
    omega
  · intro n hn
    have hfront : (buf.take start ++ v).length = stop := by
      simp only [List.length_append, List.length_take]
      omega
    rw [List.take_append, List.take_of_length_le (by omega), hfront, List.drop_take]

/-- The same for a range of one byte value. -/
theorem fill_spec (buf : List α) (x : α) (hle : start ≤ stop) (hstop : stop ≤ buf.length) :
    ∃ buf', fill buf start stop x = some buf' ∧ buf'.length = buf.length ∧
      ∀ n, stop ≤ n →
        buf'.take n = buf.take start ++ List.replicate (stop - start) x ++ (buf.take n).drop stop :=
  copyFrom_spec buf _ hle hstop (List.length_replicate ..)

/-- Up to the end of the range. -/
theorem drop_take_self : (buf.take stop).drop stop = [] := by
  rw [List.drop_eq_nil_iff, List.length_take]
  omega

end Slice
