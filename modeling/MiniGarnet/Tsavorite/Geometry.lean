import Mathlib.Algebra.Order.Floor.Ring
import Mathlib.Data.Rat.Floor
import Mathlib.Data.Nat.Log
import MiniGarnet.Lib.Bits

/-! # Log geometry and the packed tail word

    The hybrid log is one logical address space cut into pages of
    `2 ^ pageBits` bytes, of which `bufferSize` are held in memory
    (`log.rs`).  Its tail is a single 64-bit word `(page << 32) | offset`
    that allocators advance with fetch-and-add; the offset field may
    exceed the page size while a page turn is in progress.

    Words are natural numbers with the truncation to 64 bits written out
    where an operation can lose bits.
-/

namespace Tsavorite

/-! ## Settings -/

/-- Bytes reserved at the start of each page. -/
def PAGE_HEADER_SIZE : ℕ := 64

/-- The first address a record can have. -/
def FIRST_VALID_ADDRESS : ℕ := PAGE_HEADER_SIZE

/-- `LogSettings`.  `mutableFraction` is an `f64` in the source; the product with
    the (power of two) buffer size is exact there, so a rational carries the
    same information.  A NaN behaves like `0` and an infinity like a large
    fraction of the same sign. -/
structure LogSettings where
  pageBits : ℕ
  memoryPages : ℕ
  mutableFraction : ℚ

/-- What `HybridLog::new` fixes for the lifetime of a log.  The fields state what
    its assertion and its clamping of the settings guarantee. -/
structure Geometry where
  pageBits : ℕ
  bufferSize : ℕ
  mutablePages : ℕ
  nine_le_pageBits : 9 ≤ pageBits
  pageBits_le_thirty : pageBits ≤ 30
  two_le_bufferSize : 2 ≤ bufferSize
  bufferSize_isPowerOfTwo : bufferSize.isPowerOfTwo
  one_le_mutablePages : 1 ≤ mutablePages
  mutablePages_lt : mutablePages < bufferSize

namespace LogSettings

/-- The assertion at the head of `HybridLog::new`. -/
def Accepted (s : LogSettings) : Prop := 9 ≤ s.pageBits ∧ s.pageBits ≤ 30

/-- `settings.memory_pages.max(2).next_power_of_two()` -/
def bufferSize (s : LogSettings) : ℕ := 2 ^ Nat.clog 2 (max s.memoryPages 2)

/-- The mutable page count before it is clamped below the buffer size. -/
def rawMutablePages (s : LogSettings) : ℕ := max 1 ⌈(s.bufferSize : ℚ) * s.mutableFraction⌉.toNat

theorem two_le_bufferSize (s : LogSettings) : 2 ≤ s.bufferSize :=
  le_trans (le_max_right s.memoryPages 2) (Nat.le_pow_clog Nat.one_lt_two _)

/-- The geometry `HybridLog::new` computes from settings it accepts. -/
def geometry (s : LogSettings) (h : s.Accepted) : Geometry where
  pageBits := s.pageBits
  bufferSize := s.bufferSize
  mutablePages := min s.rawMutablePages (s.bufferSize - 1)
  nine_le_pageBits := h.1
  pageBits_le_thirty := h.2
  two_le_bufferSize := s.two_le_bufferSize
  bufferSize_isPowerOfTwo := ⟨_, rfl⟩
  one_le_mutablePages := by
    have := s.two_le_bufferSize
    have : 1 ≤ s.rawMutablePages := le_max_left _ _
    omega
  mutablePages_lt := by
    have := s.two_le_bufferSize
    omega

end LogSettings

namespace Geometry

/-- A log with two in-memory pages of `2 ^ bits` bytes. -/
def twoPages (bits : ℕ) (h : 9 ≤ bits ∧ bits ≤ 30) : Geometry where
  pageBits := bits
  bufferSize := 2
  mutablePages := 1
  nine_le_pageBits := h.1
  pageBits_le_thirty := h.2
  two_le_bufferSize := le_refl _
  bufferSize_isPowerOfTwo := ⟨1, rfl⟩
  one_le_mutablePages := le_refl _
  mutablePages_lt := by decide

/-- The smallest page. -/
theorem nine_pageBits : 9 ≤ 9 ∧ 9 ≤ 30 := by decide

variable (g : Geometry)

/-- `1 << page_bits` -/
def pageSize : ℕ := 2 ^ g.pageBits

/-- `addr >> page_bits` -/
def pageOf (addr : ℕ) : ℕ := addr >>> g.pageBits

/-- `addr & page_mask` -/
def pageOffset (addr : ℕ) : ℕ := addr &&& (g.pageSize - 1)

/-- The slot of the circular buffer that holds `page`. -/
def slotOf (page : ℕ) : ℕ := page &&& (g.bufferSize - 1)

/-- `page_is_free`: the slot has never been used, or its previous occupant is closed. -/
def pageIsFree (closedUntil page : ℕ) : Bool :=
  page < g.bufferSize || (page - g.bufferSize + 1) <<< g.pageBits ≤ closedUntil

theorem pageSize_pos : 0 < g.pageSize := Nat.two_pow_pos _

theorem pageSize_ge : 512 ≤ g.pageSize :=
  le_trans (by norm_num : (512 : ℕ) ≤ 2 ^ 9) (Nat.pow_le_pow_right (by norm_num) g.nine_le_pageBits)

theorem pageSize_le : g.pageSize ≤ 2 ^ 30 :=
  Nat.pow_le_pow_right (by norm_num) g.pageBits_le_thirty

theorem header_lt_pageSize : FIRST_VALID_ADDRESS < g.pageSize :=
  lt_of_lt_of_le (by decide) g.pageSize_ge

theorem pageOf_eq (addr : ℕ) : g.pageOf addr = addr / g.pageSize := Bits.shiftRight_eq _ _

theorem pageOffset_eq (addr : ℕ) : g.pageOffset addr = addr % g.pageSize :=
  Bits.and_two_pow_sub_one _ _

theorem slotOf_eq (page : ℕ) : g.slotOf page = page % g.bufferSize := by
  obtain ⟨k, hk⟩ := g.bufferSize_isPowerOfTwo
  rw [slotOf, hk, Bits.and_two_pow_sub_one]

/-- The address with page `page` and an offset inside the page. -/
theorem join_eq {page off : ℕ} (h : off < g.pageSize) :
    page <<< g.pageBits ||| off = page * g.pageSize + off :=
  Bits.shiftLeft_or_of_lt h

theorem pageOf_join {page off : ℕ} (h : off < g.pageSize) :
    g.pageOf (page * g.pageSize + off) = page := by
  rw [pageOf_eq, mul_comm, Nat.mul_add_div g.pageSize_pos, Nat.div_eq_of_lt h, add_zero]

theorem pageOffset_join {page off : ℕ} (h : off < g.pageSize) :
    g.pageOffset (page * g.pageSize + off) = off := by
  rw [pageOffset_eq, mul_comm, Nat.mul_add_mod, Nat.mod_eq_of_lt h]

theorem join_split (addr : ℕ) : g.pageOf addr * g.pageSize + g.pageOffset addr = addr := by
  rw [pageOf_eq, pageOffset_eq, mul_comm]
  exact Nat.div_add_mod addr g.pageSize

theorem pageOffset_lt (addr : ℕ) : g.pageOffset addr < g.pageSize := by
  rw [pageOffset_eq]
  exact Nat.mod_lt _ g.pageSize_pos

/-- Pages less than a buffer apart never share a slot. -/
theorem slotOf_ne {p q : ℕ} (hlt : p < q) (hnear : q < p + g.bufferSize) :
    g.slotOf p ≠ g.slotOf q := by
  rw [slotOf_eq, slotOf_eq]
  intro heq
  have hmod : (q - p) % g.bufferSize = 0 := Nat.sub_mod_eq_zero_of_mod_eq heq.symm
  rw [Nat.mod_eq_of_lt (by omega)] at hmod
  omega

variable {g} in
theorem pageIsFree_mono {closed closed' page : ℕ} (hle : closed ≤ closed')
    (h : g.pageIsFree closed page = true) : g.pageIsFree closed' page = true := by
  simp only [pageIsFree, Bool.or_eq_true, decide_eq_true_eq] at h ⊢
  exact h.imp id fun h => le_trans h hle

variable {g} in
theorem window_of_free {closed page : ℕ} (hfree : g.pageIsFree closed page = true) :
    page * g.pageSize < closed + g.bufferSize * g.pageSize := by
  have hps := g.pageSize_pos
  simp only [Geometry.pageIsFree, Bool.or_eq_true, decide_eq_true_eq, Nat.shiftLeft_eq] at hfree
  rcases hfree with hlt | hle
  · have := Nat.mul_lt_mul_of_pos_right hlt hps
    omega
  · by_cases hlt : page < g.bufferSize
    · have := Nat.mul_lt_mul_of_pos_right hlt hps
      omega
    · have hsplit : page + 1 = (page - g.bufferSize + 1) + g.bufferSize := by omega
      have hmul : (page + 1) * g.pageSize =
          (page - g.bufferSize + 1) * g.pageSize + g.bufferSize * g.pageSize := by
        rw [← Nat.add_mul, ← hsplit]
      rw [Nat.add_mul, one_mul] at hmul
      have hle' : (page - g.bufferSize + 1) * g.pageSize ≤ closed := hle
      omega

end Geometry

/-! ## The packed tail word -/

/-- `(page << 32) | offset` in a `u64`: high bits of the page are lost. -/
def pack (page offset : ℕ) : ℕ := (page <<< 32) % 2 ^ 64 ||| offset

/-- `(w >> 32, w & 0xffff_ffff)` -/
def unpack (w : ℕ) : ℕ × ℕ := (w >>> 32, w &&& 0xffffffff)

theorem unpack_eq (w : ℕ) : unpack w = (w / 2 ^ 32, w % 2 ^ 32) :=
  Prod.ext (Bits.shiftRight_eq _ _) (Bits.and_two_pow_sub_one _ 32)

theorem pack_eq {page offset : ℕ} (hp : page < 2 ^ 32) (ho : offset < 2 ^ 32) :
    pack page offset = page * 2 ^ 32 + offset := by
  have hsmall : page <<< 32 % 2 ^ 64 = page <<< 32 := by
    rw [Nat.shiftLeft_eq]
    exact Nat.mod_eq_of_lt (by omega)
  rw [pack, hsmall, Bits.shiftLeft_or_of_lt ho]

theorem unpack_pack {page offset : ℕ} (hp : page < 2 ^ 32) (ho : offset < 2 ^ 32) :
    unpack (pack page offset) = (page, offset) := by
  rw [unpack_eq, pack_eq hp ho]
  ext <;> simp only <;> omega

/-- `fetch_add` on the 64-bit tail: the new word. -/
def fetchAdd (w size : ℕ) : ℕ := (w + size) % 2 ^ 64

theorem fetchAdd_lt (w size : ℕ) : fetchAdd w size < 2 ^ 64 := Nat.mod_lt _ (by norm_num)

/-- As long as the offset field does not overflow, `fetch_add` moves only the offset. -/
theorem unpack_fetchAdd {w size : ℕ} (hw : w < 2 ^ 64) (h : (unpack w).2 + size < 2 ^ 32) :
    unpack (fetchAdd w size) = ((unpack w).1, (unpack w).2 + size) := by
  simp only [unpack_eq, fetchAdd] at h ⊢
  ext <;> simp only <;> omega

-- The words are 64 bits wide: they are only ever taken apart by the lemmas above.
attribute [irreducible] pack unpack fetchAdd

/-- `tail_address`: `none` while the code spins on a page turn in progress. -/
def tailAddress (g : Geometry) (w : ℕ) : Option ℕ :=
  let (page, off) := unpack w
  if off ≤ g.pageSize then some (page <<< g.pageBits ||| off) else none

/-- The tail word stands exactly at the end of an odd page, where the `|` in
    `tail_address` adds nothing to the page base. -/
def OddPageFull (g : Geometry) (w : ℕ) : Prop :=
  (unpack w).1 % 2 = 1 ∧ (unpack w).2 = g.pageSize

instance (g : Geometry) (w : ℕ) : Decidable (OddPageFull g w) :=
  inferInstanceAs (Decidable (_ ∧ _))

/-- Off the end of an odd page `tail_address` is the position of the tail word. -/
theorem tailAddress_eq {g : Geometry} {w T : ℕ} (h : tailAddress g w = some T)
    (hne : ¬ OddPageFull g w) :
    (unpack w).2 ≤ g.pageSize ∧ T = (unpack w).1 * g.pageSize + (unpack w).2 := by
  simp only [tailAddress, Option.ite_none_right_eq_some, Option.some.injEq] at h
  obtain ⟨hle, rfl⟩ := h
  refine ⟨hle, ?_⟩
  rcases Nat.lt_or_eq_of_le hle with hlt | heq
  · exact g.join_eq hlt
  · have heven : ¬ (unpack w).1 % 2 = 1 := fun hodd => hne ⟨hodd, heq⟩
    rw [heq, Geometry.pageSize, Bits.shiftLeft_or_two_pow, if_neg heven]
    ring

end Tsavorite
