import Mathlib.Logic.Function.Basic
import MiniGarnet.Tsavorite.LogInv

/-! # How records lie in the log

    Pages are filled from the front: behind the page header records follow
    each other without a gap, so where no record begins none follows on the
    page (`Packed`).  A log whose addresses read as a packed image (`Laid`)
    stays one whatever the page machinery does, and when a record is written
    where the allocator has granted space.
-/

namespace Tsavorite

/-! ## Section 1: Packed pages -/

/-- The records of `image` fill their pages from the front. -/
structure Packed (g : Geometry) (image : ℕ → Option Record) : Prop where
  header : ∀ a r, image a = some r → r.isZeroHeader = false
  inPage : ∀ a r, image a = some r →
    FIRST_VALID_ADDRESS ≤ g.pageOffset a ∧ g.pageOffset a + r.totalSize ≤ g.pageSize
  apart : ∀ a b r r', image a = some r → image b = some r' → a < b → a + r.totalSize ≤ b
  tiled : ∀ a r, image a = some r → g.pageOffset a = FIRST_VALID_ADDRESS ∨
    ∃ b r', image b = some r' ∧ b + r'.totalSize = a

/-- Offset `off` of page `p` is behind the page header or behind a record. -/
def Boundary (g : Geometry) (image : ℕ → Option Record) (p off : ℕ) : Prop :=
  off = FIRST_VALID_ADDRESS ∨ ∃ b r, image b = some r ∧ b + r.totalSize = p * g.pageSize + off

section Packing

variable {g : Geometry} {image : ℕ → Option Record}

theorem Record.totalSize_ge (r : Record) : MIN_DISK_READ ≤ r.totalSize := r.data.totalSize_ge

theorem pageStart_eq (g : Geometry) (p : ℕ) : p <<< g.pageBits = p * g.pageSize := Nat.shiftLeft_eq _ _

theorem pageOf_of_mem {g : Geometry} {p a : ℕ} (h : p * g.pageSize ≤ a)
    (h' : a < p * g.pageSize + g.pageSize) : g.pageOf a = p := by
  have hsplit : a = p * g.pageSize + (a - p * g.pageSize) := by omega
  rw [hsplit]
  exact g.pageOf_join (by omega)

theorem pageOffset_of_mem {g : Geometry} {p a : ℕ} (h : p * g.pageSize ≤ a)
    (h' : a < p * g.pageSize + g.pageSize) : g.pageOffset a = a - p * g.pageSize := by
  have hsplit : a = p * g.pageSize + (a - p * g.pageSize) := by omega
  conv_lhs => rw [hsplit]
  exact g.pageOffset_join (by omega)

/-- A record that reaches into a page from the front lies in that page. -/
theorem Packed.page_of_stop (h : Packed g image) {b p : ℕ} {r : Record} (hb : image b = some r)
    (hstop : p * g.pageSize < b + r.totalSize) (hlt : b < p * g.pageSize + g.pageSize) :
    p * g.pageSize + FIRST_VALID_ADDRESS ≤ b := by
  obtain ⟨hfirst, hfits⟩ := h.inPage b r hb
  have hsplit := g.join_split b
  have hpage : g.pageOf b = p := by
    apply Nat.le_antisymm
    · rw [g.pageOf_eq]
      exact Nat.lt_succ_iff.mp (Nat.div_lt_of_lt_mul (by rw [mul_comm, Nat.succ_mul]; exact hlt))
    · by_contra hlt'
      have := Nat.mul_le_mul_right g.pageSize (Nat.lt_of_not_le hlt')
      rw [Nat.succ_mul] at this
      omega
  rw [hpage] at hsplit
  omega

/-- Where no record begins, none follows on the page. -/
theorem Packed.nothing_after (h : Packed g image) {p off : ℕ} (hoff : FIRST_VALID_ADDRESS ≤ off)
    (hb : Boundary g image p off) (hnone : image (p * g.pageSize + off) = none) :
    ∀ a r, image a = some r → p * g.pageSize + off ≤ a → p * g.pageSize + g.pageSize ≤ a := by
  intro a
  -- The first such record would have to begin where the one before it ends.
  induction a using Nat.strong_induction_on with
  | _ a ih =>
    intro r ha hle
    by_contra hlt
    have hfv : FIRST_VALID_ADDRESS = 64 := rfl
    have hne : a ≠ p * g.pageSize + off := by
      rintro rfl
      rw [hnone] at ha
      cases ha
    rcases h.tiled a r ha with hfirst | ⟨b, r', hb', hstop⟩
    · rw [pageOffset_of_mem (p := p) (by omega) (by omega)] at hfirst
      omega
    · have hsize := r'.totalSize_ge
      have hmin : MIN_DISK_READ = 24 := rfl
      have hpage := h.page_of_stop (p := p) hb' (by omega) (by omega)
      by_cases hba : p * g.pageSize + off ≤ b
      · exact absurd (ih b (by omega) r' hb' hba) (by omega)
      · rcases hb with rfl | ⟨e, re, he, hestop⟩
        · omega
        · rcases Nat.lt_trichotomy b e with hbe | rfl | hbe
          · have := h.apart b e r' re hb' he hbe
            have := re.totalSize_ge
            omega
          · rw [hb'] at he
            cases he
            omega
          · have := h.apart e b re r' he hb' hbe
            omega

/-- A record behind all others, at the front of a page or behind another record. -/
theorem Packed.push (h : Packed g image) {a : ℕ} {r : Record} (hr : r.isZeroHeader = false)
    (hfirst : FIRST_VALID_ADDRESS ≤ g.pageOffset a)
    (hfits : g.pageOffset a + r.totalSize ≤ g.pageSize)
    (hstops : ∀ b r', image b = some r' → b + r'.totalSize ≤ a)
    (hplaced : g.pageOffset a = FIRST_VALID_ADDRESS ∨
      ∃ b r', image b = some r' ∧ b + r'.totalSize = a) :
    Packed g (Function.update image a (some r)) := by
  have hmin : MIN_DISK_READ = 24 := rfl
  have hcases : ∀ b r', Function.update image a (some r) b = some r' →
      (b = a ∧ r' = r) ∨ (b ≠ a ∧ image b = some r') := by
    intro b r' hb
    by_cases hba : b = a
    · subst hba
      rw [Function.update_self] at hb
      exact .inl ⟨rfl, (Option.some.inj hb).symm⟩
    · rw [Function.update_of_ne hba] at hb
      exact .inr ⟨hba, hb⟩
  have hkeep : ∀ b r', image b = some r' → Function.update image a (some r) b = some r' := by
    intro b r' hb
    have := hstops b r' hb
    have := r'.totalSize_ge
    rw [Function.update_of_ne (by omega)]
    exact hb
  refine ⟨?_, ?_, ?_, ?_⟩
  · intro b r' hb
    rcases hcases b r' hb with ⟨rfl, rfl⟩ | ⟨-, hb⟩
    · exact hr
    · exact h.header b r' hb
  · intro b r' hb
    rcases hcases b r' hb with ⟨rfl, rfl⟩ | ⟨-, hb⟩
    · exact ⟨hfirst, hfits⟩
    · exact h.inPage b r' hb
  · intro b c r₁ r₂ hb hc hlt
    rcases hcases c r₂ hc with ⟨hca, -⟩ | ⟨-, hc'⟩
    · rcases hcases b r₁ hb with ⟨hba, -⟩ | ⟨-, hb'⟩
      · omega
      · rw [hca]
        exact hstops b r₁ hb'
    · have hstop := hstops c r₂ hc'
      have := r₂.totalSize_ge
      rcases hcases b r₁ hb with ⟨hba, -⟩ | ⟨-, hb'⟩
      · omega
      · exact h.apart b c r₁ r₂ hb' hc' hlt
  · intro b r' hb
    rcases hcases b r' hb with ⟨rfl, rfl⟩ | ⟨-, hb⟩
    · exact hplaced.imp id fun ⟨c, r', hc, hstop⟩ => ⟨c, r', hkeep c r' hc, hstop⟩
    · exact (h.tiled b r' hb).imp id fun ⟨c, r', hc, hstop⟩ => ⟨c, r', hkeep c r' hc, hstop⟩

/-- A record overwritten by one of its size. -/
theorem Packed.rewrite (h : Packed g image) {a : ℕ} {r r' : Record} (ha : image a = some r)
    (hr : r'.isZeroHeader = false) (hsize : r'.totalSize = r.totalSize) :
    Packed g (Function.update image a (some r')) := by
  have hcases : ∀ b x, Function.update image a (some r') b = some x →
      ∃ y, image b = some y ∧ y.totalSize = x.totalSize ∧ (x.isZeroHeader = false) := by
    intro b x hb
    by_cases hba : b = a
    · subst hba
      rw [Function.update_self] at hb
      cases hb
      exact ⟨r, ha, hsize.symm, hr⟩
    · rw [Function.update_of_ne hba] at hb
      exact ⟨x, hb, rfl, h.header b x hb⟩
  have hback : ∀ b y, image b = some y →
      ∃ x, Function.update image a (some r') b = some x ∧ x.totalSize = y.totalSize := by
    intro b y hb
    by_cases hba : b = a
    · subst hba
      rw [ha] at hb
      cases hb
      exact ⟨r', Function.update_self _ _ _, hsize⟩
    · exact ⟨y, by rw [Function.update_of_ne hba]; exact hb, rfl⟩
  refine ⟨?_, ?_, ?_, ?_⟩
  · intro b x hb
    obtain ⟨-, -, -, hx⟩ := hcases b x hb
    exact hx
  · intro b x hb
    obtain ⟨y, hy, hyx, -⟩ := hcases b x hb
    rw [← hyx]
    exact h.inPage b y hy
  · intro b c x x' hb hc hlt
    obtain ⟨y, hy, hyx, -⟩ := hcases b x hb
    obtain ⟨y', hy', -, -⟩ := hcases c x' hc
    rw [← hyx]
    exact h.apart b c y y' hy hy' hlt
  · intro b x hb
    obtain ⟨y, hy, -, -⟩ := hcases b x hb
    refine (h.tiled b y hy).imp id ?_
    rintro ⟨c, z, hc, hstop⟩
    obtain ⟨w, hw, hwz⟩ := hback c z hc
    exact ⟨c, w, hw, by rw [hwz]; exact hstop⟩

end Packing

/-! ## Section 2: A log with a packed image -/

/-- No record of `image` lies across `b`. -/
def CutOf (image : ℕ → Option Record) (b : ℕ) : Prop :=
  ∀ a r, image a = some r → a < b → a + r.totalSize ≤ b

/-- Up to `f`, the log reads as a packed image. -/
structure Laid (g : Geometry) (f : Record → Record) (log : HybridLog) (image : ℕ → Option Record) :
    Prop where
  pages : PagesInv g f log image (CutOf image)
  packed : Packed g image
  stops : ∀ a r, image a = some r → a + r.totalSize ≤ log.tailPos g
  tail : log.tailOffset = FIRST_VALID_ADDRESS ∨ log.tailOffset = g.pageSize ∨
    ∃ b r, image b = some r ∧ b + r.totalSize = log.tailPos g

section Layout

variable {g : Geometry} {f : Record → Record} {image : ℕ → Option Record} {log log' : HybridLog}

theorem laid_new (g : Geometry) (f : Record → Record) (device : Device) :
    Laid g f (HybridLog.new device) fun _ => none where
  pages := pagesInv_new g f device fun _ => nofun
  packed := ⟨fun _ _ => nofun, fun _ _ => nofun, fun _ _ _ _ => nofun, fun _ _ => nofun⟩
  stops := fun _ _ => nofun
  tail := by
    have hw : unpack (pack 0 FIRST_VALID_ADDRESS) = (0, FIRST_VALID_ADDRESS) := by decide +kernel
    exact .inl (congrArg Prod.snd hw)

theorem Packed.cut_page (h : Packed g image) (p : ℕ) : CutOf image (p * g.pageSize) := by
  intro a r ha hlt
  have hsplit := g.join_split a
  have hfits := (h.inPage a r ha).2
  have hpage : g.pageOf a < p := by
    rw [g.pageOf_eq]
    exact Nat.div_lt_of_lt_mul (by rwa [mul_comm] at hlt)
  have hle : (g.pageOf a + 1) * g.pageSize ≤ p * g.pageSize := Nat.mul_le_mul_right _ hpage
  rw [Nat.succ_mul] at hle
  omega

/-- The end of a record is not inside another one. -/
theorem Packed.cut_stop (h : Packed g image) {a : ℕ} {r : Record} (ha : image a = some r) :
    CutOf image (a + r.totalSize) := by
  intro b r' hb hlt
  rcases Nat.lt_trichotomy b a with hba | rfl | hba
  · have := h.apart b a r' r hb ha hba
    omega
  · rw [ha] at hb
    cases hb
    exact le_refl _
  · have := h.apart a b r r' ha hb hba
    omega

theorem Laid.addr_lt_tailPos (h : Laid g f log image) {a : ℕ} {r : Record} (ha : image a = some r) :
    a < log.tailPos g := by
  have := h.stops a r ha
  have := r.totalSize_ge
  have : MIN_DISK_READ = 24 := rfl
  omega

theorem Laid.tailPos_le (h : Laid g f log image) :
    log.tailPos g ≤ (log.tailPage + 1) * g.pageSize := by
  have := h.pages.offset_le
  rw [Nat.succ_mul]
  unfold HybridLog.tailPos
  omega

theorem Laid.first_le (h : Laid g f log image) {a : ℕ} {r : Record} (ha : image a = some r) :
    FIRST_VALID_ADDRESS ≤ a := by
  have hle : g.pageOffset a ≤ a := by rw [g.pageOffset_eq]; exact Nat.mod_le _ _
  exact le_trans (h.packed.inPage a r ha).1 hle

/-- A step of the page machinery that leaves the tail alone. -/
theorem Laid.move (h : Laid g f log image) (hpages : PagesInv g f log' image (CutOf image))
    (htail : log'.tail = log.tail) : Laid g f log' image := by
  have hpos : log'.tailPos g = log.tailPos g := tailPos_of_tail_eq htail
  have hoff : log'.tailOffset = log.tailOffset := by
    unfold HybridLog.tailOffset
    rw [htail]
  refine ⟨hpages, h.packed, ?_, ?_⟩
  · rw [hpos]
    exact h.stops
  · rw [hpos, hoff]
    exact h.tail

/-- A page turn that has been refused. -/
theorem Laid.refuse (h : Laid g f log image) (hpages : PagesInv g f log' image (CutOf image))
    (hle : log.tailPos g ≤ log'.tailPos g) (hoff : log'.tailOffset = g.pageSize) :
    Laid g f log' image :=
  ⟨hpages, h.packed, fun a r ha => le_trans (h.stops a r ha) hle, .inr (.inl hoff)⟩

/-- The place that has been granted is filled. -/
theorem Laid.push (h : Laid g f log image) {a : ℕ} {r : Record}
    (hr : (f r).isZeroHeader = false) (hsize : (f r).totalSize = r.totalSize)
    (hpages : PagesInv g f log' image (CutOf image)) (hgr : Granted g log log' a r.totalSize) :
    Laid g f (log'.setRecord g a r) (Function.update image a (some (f r))) := by
  have hmin : MIN_DISK_READ = 24 := rfl
  have hge := r.totalSize_ge
  have hstop := hgr.stop
  have hfrom := hgr.from_tail
  have hstops : ∀ b r', image b = some r' → b + r'.totalSize ≤ a := fun b r' hb =>
    le_trans (h.stops b r' hb) hfrom
  have hplaced : g.pageOffset a = FIRST_VALID_ADDRESS ∨
      ∃ b r', image b = some r' ∧ b + r'.totalSize = a := by
    rcases hgr.placed with hoff | hat
    · exact .inl hoff
    · rcases h.tail with hoff | hoff | ⟨b, r', hb, hbstop⟩
      · left
        rw [hat, HybridLog.tailPos, hoff]
        exact g.pageOffset_join g.header_lt_pageSize
      · exfalso
        have hheader := hgr.header
        rw [hat, HybridLog.tailPos, hoff, g.pageOffset_eq, ← Nat.succ_mul,
          Nat.mul_mod_left] at hheader
        exact absurd hheader (by decide)
      · exact .inr ⟨b, r', hb, hbstop.trans hat.symm⟩
  have hpacked := h.packed.push hr hgr.header (by rw [hsize]; exact hgr.fits) hstops hplaced
  have htailPos : (log'.setRecord g a r).tailPos g = log'.tailPos g := rfl
  refine ⟨?_, hpacked, ?_, ?_⟩
  · refine hpages.setRecord hgr.isMutable (by omega) (fun b => ?_) (fun b hb hcut => ?_)
      hpacked.cut_page
    · by_cases hba : b = a
      · rw [if_pos hba, hba, Function.update_self]
      · rw [if_neg hba, Function.update_of_ne hba]
    · intro c r' hc hlt
      rw [Function.update_of_ne (by omega)] at hc
      exact hcut c r' hc hlt
  · intro b r' hb
    rw [htailPos]
    by_cases hba : b = a
    · subst hba
      rw [Function.update_self] at hb
      cases hb
      rw [hsize]
      omega
    · rw [Function.update_of_ne hba] at hb
      have := hstops b r' hb
      omega
  · exact .inr (.inr ⟨a, f r, Function.update_self _ _ _, by rw [hsize]; exact hstop⟩)

/-- A mutable record overwritten by one of its size. -/
theorem Laid.rewrite (h : Laid g f log image) {a : ℕ} {r r' : Record} (ha : image a = some r)
    (hro : log.readOnly ≤ a) (hr : (f r').isZeroHeader = false)
    (hsize : (f r').totalSize = r.totalSize) :
    Laid g f (log.setRecord g a r') (Function.update image a (some (f r'))) := by
  have hpacked := h.packed.rewrite ha hr hsize
  have hcases : ∀ b x, Function.update image a (some (f r')) b = some x →
      ∃ y, image b = some y ∧ y.totalSize = x.totalSize := by
    intro b x hb
    by_cases hba : b = a
    · subst hba
      rw [Function.update_self] at hb
      cases hb
      exact ⟨r, ha, hsize.symm⟩
    · rw [Function.update_of_ne hba] at hb
      exact ⟨x, hb, rfl⟩
  have htailPos : (log.setRecord g a r').tailPos g = log.tailPos g := rfl
  refine ⟨?_, hpacked, ?_, ?_⟩
  · refine h.pages.setRecord hro (h.addr_lt_tailPos ha) (fun b => ?_) (fun b _ hcut => ?_)
      hpacked.cut_page
    · by_cases hba : b = a
      · rw [if_pos hba, hba, Function.update_self]
      · rw [if_neg hba, Function.update_of_ne hba]
    · intro c x hc hlt
      obtain ⟨y, hy, hyx⟩ := hcases c x hc
      rw [← hyx]
      exact hcut c y hy hlt
  · intro b x hb
    obtain ⟨y, hy, hyx⟩ := hcases b x hb
    rw [htailPos, ← hyx]
    exact h.stops b y hy
  · rw [htailPos]
    refine h.tail.imp id (Or.imp id ?_)
    rintro ⟨b, y, hb, hstop⟩
    by_cases hba : b = a
    · subst hba
      rw [ha] at hb
      cases hb
      exact ⟨b, f r', Function.update_self _ _ _, by rw [hsize]; exact hstop⟩
    · exact ⟨b, y, by rw [Function.update_of_ne hba]; exact hb, hstop⟩

end Layout

end Tsavorite
