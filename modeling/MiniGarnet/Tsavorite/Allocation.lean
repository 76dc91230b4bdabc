import Mathlib.Data.List.Pairwise
import MiniGarnet.Tsavorite.Layout

/-! # Cells, and what else the log holds

    The records that chains lead to are the cells.  Below and between them
    the log may hold others that no chain leads to any more, because the
    index has been cleared or because recovery has taken them out:
    `LogOver` is the invariant of the log around them.

    `try_allocate` either grants a place behind every record, refuses the
    page turn, or rejects the size.  A granted place becomes a cell once its
    record is written, and a mutable cell can be overwritten.
-/

namespace Tsavorite

/-! ## Section 1: Edits of the list of cells -/

section Cells

variable {cells : List Cell}

theorem imageAt_cons (c : Cell) (cells : List Cell) (a : ℕ) :
    imageAt (c :: cells) a = if a = c.addr then some c.image else imageAt cells a := by
  by_cases ha : a = c.addr
  · subst ha; simp [imageAt]
  · simp [imageAt, List.find?_cons_of_neg, Ne.symm ha, ha]

theorem Cut.cons {c : Cell} {cells : List Cell} {b : ℕ} (h : Cut cells b) (hb : b ≤ c.addr) :
    Cut (c :: cells) b := by
  intro d hd hlt
  rcases List.mem_cons.mp hd with rfl | hd
  · omega
  · exact h d hd hlt

/-- Cells are found by their address. -/
theorem find_addr_of_mem {c : Cell}
    (hord : cells.Pairwise fun newer older => older.stop ≤ newer.addr) (hc : c ∈ cells) :
    (cells.find? fun d => d.addr = c.addr) = some c := by
  induction cells with
  | nil => cases hc
  | cons d cells ih =>
    rw [List.pairwise_cons] at hord
    rcases List.mem_cons.mp hc with rfl | hc'
    · simp
    · have := hord.1 c hc'
      have := c.addr_lt_stop
      rw [List.find?_cons_of_neg (by simp only [decide_eq_true_eq]; omega)]
      exact ih hord.2 hc'

theorem imageAt_of_mem {c : Cell}
    (hord : cells.Pairwise fun newer older => older.stop ≤ newer.addr) (hc : c ∈ cells) :
    imageAt cells c.addr = some c.image := by
  rw [imageAt, find_addr_of_mem hord hc]
  rfl

/-- Of two cells the newer one lies behind the older one. -/
theorem cells_apart (hord : cells.Pairwise fun newer older => older.stop ≤ newer.addr) {c d : Cell}
    (hc : c ∈ cells) (hd : d ∈ cells) : c = d ∨ c.stop ≤ d.addr ∨ d.stop ≤ c.addr := by
  have hboth : cells.Pairwise fun x y => x.stop ≤ y.addr ∨ y.stop ≤ x.addr := hord.imp .inr
  have : Std.Symm fun x y : Cell => x.stop ≤ y.addr ∨ y.stop ≤ x.addr := ⟨fun _ _ hxy => hxy.symm⟩
  by_cases heq : c = d
  · exact .inl heq
  · exact .inr (hboth.forall hc hd heq)

theorem mem_of_imageAt {a : ℕ} {r : Record} (h : imageAt cells a = some r) :
    ∃ c ∈ cells, c.addr = a ∧ c.image = r := by
  obtain ⟨c, hc, hr⟩ := Option.map_eq_some_iff.mp h
  exact ⟨c, List.mem_of_find?_eq_some hc, by simpa using List.find?_some hc, hr⟩

/-- Replace the cell at `a`. -/
def editAt (cells : List Cell) (a : ℕ) (f : Cell → Cell) : List Cell :=
  cells.map fun c => if c.addr = a then f c else c

/-- An edit leaves alone where a cell is and whose it is. -/
structure Cell.Keeps (f : Cell → Cell) : Prop where
  addr : ∀ c, (f c).addr = c.addr
  prev : ∀ c, (f c).prev = c.prev
  newVersion : ∀ c, (f c).newVersion = c.newVersion
  key : ∀ c, (f c).data.key = c.data.key
  size : ∀ c, (f c).data.totalSize = c.data.totalSize

theorem Cell.Keeps.stop {f : Cell → Cell} (h : Cell.Keeps f) (c : Cell) : (f c).stop = c.stop := by
  simp only [Cell.stop, h.addr, h.size]

theorem forall_mem_editAt {f : Cell → Cell} {a : ℕ} {P : Cell → Prop}
    (h : ∀ c ∈ cells, P c) (hf : ∀ c ∈ cells, P c → P (f c)) : ∀ c ∈ editAt cells a f, P c := by
  intro c hc
  obtain ⟨d, hd, rfl⟩ := List.mem_map.mp hc
  split
  · exact hf d hd (h d hd)
  · exact h d hd

theorem imageAt_editAt {f : Cell → Cell} (hf : Cell.Keeps f) (a b : ℕ) :
    imageAt (editAt cells a f) b =
      if b = a then ((cells.find? fun c => c.addr = a).map f).map Cell.image
      else imageAt cells b := by
  induction cells with
  | nil => simp [editAt, imageAt]
  | cons c cells ih =>
    have hcons : editAt (c :: cells) a f = (if c.addr = a then f c else c) :: editAt cells a f := rfl
    rw [hcons, imageAt_cons, imageAt_cons, ih]
    by_cases hca : c.addr = a
    · have haddr : (f c).addr = a := (hf.addr c).trans hca
      rw [if_pos hca, haddr, List.find?_cons_of_pos (by simpa using hca), hca]
      by_cases hba : b = a <;> simp [hba]
    · rw [if_neg hca, List.find?_cons_of_neg (by simpa using hca)]
      by_cases hba : b = a
      · subst hba; simp [Ne.symm hca]
      · simp [hba]

end Cells

/-! ## Section 2: Records that are no cells -/

/-- What an address should read as, with `rest` besides the cells. -/
def imageOver (rest : ℕ → Option Record) (cells : List Cell) (a : ℕ) : Option Record :=
  (imageAt cells a).or (rest a)

/-- The log below `2 ^ 48` reads as the cells and `rest`. -/
structure LogOver (g : Geometry) (rest : ℕ → Option Record) (log : HybridLog)
    (cells : List Cell) : Prop where
  laid : Laid g Record.strip log (imageOver rest cells)
  space : (log.tailPage + 1) * g.pageSize ≤ 2 ^ 48
  ordered : cells.Pairwise fun newer older => older.stop ≤ newer.addr

theorem Cell.image_totalSize (c : Cell) : c.image.totalSize = c.data.totalSize :=
  congrArg RecordData.totalSize rfl

theorem Cell.stop_eq (c : Cell) : c.addr + c.image.totalSize = c.stop := by
  rw [Cell.stop, c.image_totalSize]

theorem Cell.image_header (c : Cell) : c.image.isZeroHeader = false := by
  simp [Record.isZeroHeader, Cell.image, RecordInfo.zero]

section LogOver

variable {g : Geometry} {rest : ℕ → Option Record} {log log' : HybridLog} {cells : List Cell}
  {c : Cell}

theorem imageOver_cons (rest : ℕ → Option Record) (c : Cell) (cells : List Cell) :
    imageOver rest (c :: cells) =
      Function.update (imageOver rest cells) c.addr (some c.image) := by
  funext b
  unfold imageOver
  rw [imageAt_cons]
  by_cases hb : b = c.addr
  · subst hb
    rw [if_pos rfl, Function.update_self]
    rfl
  · rw [if_neg hb, Function.update_of_ne hb]

theorem imageOver_of_mem (rest : ℕ → Option Record)
    (hord : cells.Pairwise fun newer older => older.stop ≤ newer.addr) (hc : c ∈ cells) :
    imageOver rest cells c.addr = some c.image := by
  unfold imageOver
  rw [imageAt_of_mem hord hc]
  rfl

theorem imageOver_editAt (rest : ℕ → Option Record)
    (hord : cells.Pairwise fun newer older => older.stop ≤ newer.addr) (hc : c ∈ cells)
    {f : Cell → Cell} (hf : Cell.Keeps f) :
    imageOver rest (editAt cells c.addr f) =
      Function.update (imageOver rest cells) c.addr (some (f c).image) := by
  funext b
  unfold imageOver
  rw [imageAt_editAt hf, find_addr_of_mem hord hc]
  by_cases hb : b = c.addr
  · subst hb
    rw [if_pos rfl, Function.update_self]
    rfl
  · rw [if_neg hb, Function.update_of_ne hb]

theorem imageOver_none (cells : List Cell) : imageOver (fun _ => none) cells = imageAt cells := by
  funext a
  exact Option.or_none

theorem LogOver.pages (h : LogOver g rest log cells) :
    PagesInv g Record.strip log (imageOver rest cells) (CutOf (imageOver rest cells)) :=
  h.laid.pages

theorem LogOver.image_of_mem (h : LogOver g rest log cells) (hc : c ∈ cells) :
    imageOver rest cells c.addr = some c.image := imageOver_of_mem rest h.ordered hc

theorem LogOver.below (h : LogOver g rest log cells) (hc : c ∈ cells) :
    c.stop ≤ log.tailPos g := by
  rw [← c.stop_eq]
  exact h.laid.stops _ _ (h.image_of_mem hc)

theorem LogOver.inPage (h : LogOver g rest log cells) (hc : c ∈ cells) : c.InPage g := by
  have hin := h.laid.packed.inPage _ _ (h.image_of_mem hc)
  rw [c.image_totalSize] at hin
  exact hin

theorem LogOver.first_le_addr (h : LogOver g rest log cells) (hc : c ∈ cells) :
    FIRST_VALID_ADDRESS ≤ c.addr := h.laid.first_le (h.image_of_mem hc)

theorem LogOver.addr_lt_top (h : LogOver g rest log cells) (hc : c ∈ cells) :
    c.addr < (log.tailPage + 1) * g.pageSize :=
  lt_of_lt_of_le (h.laid.addr_lt_tailPos (h.image_of_mem hc)) h.laid.tailPos_le

theorem LogOver.tailPos_le (h : LogOver g rest log cells) : log.tailPos g ≤ 2 ^ 48 :=
  le_trans h.laid.tailPos_le h.space

theorem LogOver.head_le_readOnly (h : LogOver g rest log cells) : log.head ≤ log.readOnly :=
  le_trans h.pages.head_le (le_trans h.pages.flushed_le h.pages.safeReadOnly_le)

theorem LogOver.desc (h : LogOver g rest log cells) :
    cells.Pairwise fun newer older => older.addr < newer.addr :=
  h.ordered.imp fun {_ b} hab => lt_of_lt_of_le b.addr_lt_stop hab

/-- A log that has moved on under the same records. -/
theorem LogOver.move (h : LogOver g rest log cells)
    (h' : PagesInv g Record.strip log' (imageOver rest cells) (CutOf (imageOver rest cells)))
    (htail : log'.tail = log.tail) : LogOver g rest log' cells :=
  ⟨h.laid.move h' htail, by rw [tailPage_of_tail_eq htail]; exact h.space, h.ordered⟩

/-- A record written to a place that has been granted becomes a cell. -/
theorem LogOver.push (h : LogOver g rest log cells)
    (h' : PagesInv g Record.strip log' (imageOver rest cells) (CutOf (imageOver rest cells)))
    (hspace : (log'.tailPage + 1) * g.pageSize ≤ 2 ^ 48) {r : Record}
    (hgr : Granted g log log' c.addr c.data.totalSize) (hr : r.strip = c.image) :
    LogOver g rest (log'.setRecord g c.addr r) (c :: cells) := by
  have hsize : r.totalSize = c.data.totalSize := congrArg (fun r => r.data.totalSize) hr
  refine ⟨?_, hspace, List.pairwise_cons.mpr
    ⟨fun d hd => le_trans (h.below hd) hgr.from_tail, h.ordered⟩⟩
  rw [imageOver_cons, ← hr]
  exact h.laid.push (by rw [hr]; exact c.image_header) rfl h' (by rw [hsize]; exact hgr)

/-- A mutable record overwritten in place. -/
theorem LogOver.edit (h : LogOver g rest log cells) {f : Cell → Cell} {r : Record}
    (hc : c ∈ cells) (hro : log.readOnly ≤ c.addr) (hf : Cell.Keeps f)
    (hr : r.strip = (f c).image) :
    LogOver g rest (log.setRecord g c.addr r) (editAt cells c.addr f) := by
  refine ⟨?_, h.space, List.pairwise_map.mpr (h.ordered.imp fun {x y} hxy => ?_)⟩
  · rw [imageOver_editAt rest h.ordered hc hf, ← hr]
    refine h.laid.rewrite (h.image_of_mem hc) hro (by rw [hr]; exact Cell.image_header _) ?_
    rw [hr]
    exact hf.size c
  · split <;> split <;> simpa only [hf.addr, hf.stop] using hxy

end LogOver

/-! ## Section 3: Allocation -/

/-- One more page turn stays inside the page field and the 48-bit address space. -/
def HybridLog.HasSpace (g : Geometry) (log : HybridLog) : Prop :=
  log.tailPage + 1 < 2 ^ 32 ∧ (log.tailPage + 2) * g.pageSize ≤ 2 ^ 48

instance (g : Geometry) (log : HybridLog) : Decidable (log.HasSpace g) :=
  inferInstanceAs (Decidable (_ ∧ _))

/-- What a call of `try_allocate` comes to. -/
inductive AllocSpec (g : Geometry) (rest : ℕ → Option Record) (log : HybridLog)
    (cells : List Cell) (size : ℕ) : AllocResult × HybridLog → Prop where
  | ok {addr : ℕ} {log' : HybridLog} :
      PagesInv g Record.strip log' (imageOver rest cells) (CutOf (imageOver rest cells)) →
      (log'.tailPage + 1) * g.pageSize ≤ 2 ^ 48 → Kept g log log' →
      Granted g log log' addr size → AllocSpec g rest log cells size (.ok addr, log')
  | retryLater {log' : HybridLog} : LogOver g rest log' cells → Kept g log log' →
      Refused g log log' → AllocSpec g rest log cells size (.retryLater, log')
  | tooLarge : g.pageSize < size + PAGE_HEADER_SIZE →
      AllocSpec g rest log cells size (.tooLarge, log)

section Allocation

variable {g : Geometry} {rest : ℕ → Option Record} {log : HybridLog} {cells : List Cell}

theorem LogInv.tailPage_lt (h : LogInv g log cells) : log.tailPage < 2 ^ 32 := h.pages.tailPage_lt

theorem LogOver.tryAllocateRetryNow (h : LogOver g rest log cells) (hspace : log.HasSpace g)
    {size n : ℕ} (hsize : 0 < size) :
    AllocSpec g rest log cells size (log.tryAllocateRetryNow g (n + 1) size) := by
  have hspec := h.pages.tryAllocateRetryNow (n := n) (fun _ _ => hspace.1) hsize
  generalize log.tryAllocateRetryNow g (n + 1) size = r at hspec
  cases hspec with
  | @ok addr log' hinv hkept hgr hpage =>
    have hle : (log'.tailPage + 1) * g.pageSize ≤ (log.tailPage + 2) * g.pageSize :=
      Nat.mul_le_mul_right _ (by omega)
    exact .ok hinv (le_trans hle hspace.2) hkept hgr
  | retryLater hinv hkept hpage hoff href =>
    exact .retryLater ⟨h.laid.refuse hinv hkept.tailPos hoff, by rw [hpage]; exact h.space,
      h.ordered⟩ hkept href
  | tooLarge hbig => exact .tooLarge hbig

end Allocation

/-! ## Section 4: Nothing but cells -/

/-- Inside a page, cells follow each other without a gap. -/
structure Tiled (g : Geometry) (log : HybridLog) (cells : List Cell) : Prop where
  tiled : ∀ c ∈ cells, g.pageOffset c.addr = FIRST_VALID_ADDRESS ∨ ∃ d ∈ cells, d.stop = c.addr
  tail : log.tailOffset = FIRST_VALID_ADDRESS ∨ log.tailOffset = g.pageSize ∨
    ∃ d ∈ cells, d.stop = log.tailPos g

section OnlyCells

variable {g : Geometry} {log : HybridLog} {cells : List Cell}

theorem tiled_new (g : Geometry) (device : Device) : Tiled g (HybridLog.new device) [] := by
  have hw : unpack (pack 0 FIRST_VALID_ADDRESS) = (0, FIRST_VALID_ADDRESS) := by decide +kernel
  exact ⟨nofun, .inl (congrArg Prod.snd hw)⟩

theorem cutOf_imageAt (hord : cells.Pairwise fun newer older => older.stop ≤ newer.addr) (b : ℕ) :
    CutOf (imageAt cells) b ↔ Cut cells b := by
  constructor
  · intro h c hc hlt
    rw [← c.stop_eq]
    exact h _ _ (imageAt_of_mem hord hc) hlt
  · intro h a r ha hlt
    obtain ⟨c, hc, rfl, rfl⟩ := mem_of_imageAt ha
    rw [c.stop_eq]
    exact h c hc hlt

theorem PagesInv.congr_cut {f : Record → Record} {image : ℕ → Option Record} {cut cut' : ℕ → Prop}
    (h : PagesInv g f log image cut) (hcut : ∀ b, cut b ↔ cut' b) :
    PagesInv g f log image cut' := by
  obtain rfl : cut = cut' := funext fun b => propext (hcut b)
  exact h

theorem LogInv.over (h : LogInv g log cells) (ht : Tiled g log cells) :
    LogOver g (fun _ => none) log cells := by
  refine ⟨?_, h.space, h.ordered⟩
  rw [imageOver_none]
  refine ⟨h.pages.congr_cut fun b => (cutOf_imageAt h.ordered b).symm, ⟨?_, ?_, ?_, ?_⟩, ?_, ?_⟩
  · intro a r ha
    obtain ⟨c, -, -, rfl⟩ := mem_of_imageAt ha
    exact c.image_header
  · intro a r ha
    obtain ⟨c, hc, rfl, rfl⟩ := mem_of_imageAt ha
    exact h.inPage c hc
  · intro a b r r' ha hb hlt
    obtain ⟨c, hc, rfl, rfl⟩ := mem_of_imageAt ha
    obtain ⟨d, hd, rfl, rfl⟩ := mem_of_imageAt hb
    rw [c.stop_eq]
    rcases cells_apart h.ordered hc hd with rfl | hle | hle
    · exact absurd hlt (lt_irrefl _)
    · exact hle
    · have := d.addr_lt_stop
      omega
  · intro a r ha
    obtain ⟨c, hc, rfl, rfl⟩ := mem_of_imageAt ha
    exact (ht.tiled c hc).imp id fun ⟨d, hd, hstop⟩ =>
      ⟨d.addr, d.image, imageAt_of_mem h.ordered hd, d.stop_eq.trans hstop⟩
  · intro a r ha
    obtain ⟨c, hc, rfl, rfl⟩ := mem_of_imageAt ha
    rw [c.stop_eq]
    exact h.below c hc
  · exact ht.tail.imp id (Or.imp id fun ⟨d, hd, hstop⟩ =>
      ⟨d.addr, d.image, imageAt_of_mem h.ordered hd, d.stop_eq.trans hstop⟩)

theorem LogOver.inv (h : LogOver g (fun _ => none) log cells) : LogInv g log cells := by
  have hp := h.pages
  have hin : ∀ c ∈ cells, c.InPage g := fun c hc => h.inPage hc
  have hbelow : ∀ c ∈ cells, c.stop ≤ log.tailPos g := fun c hc => h.below hc
  rw [imageOver_none] at hp
  exact .of_pagesInv (hp.congr_cut (cutOf_imageAt h.ordered)) h.space h.ordered hin hbelow

theorem LogOver.tiled (h : LogOver g (fun _ => none) log cells) : Tiled g log cells := by
  have hmem : ∀ {b : ℕ}, (∃ a r, imageOver (fun _ => none) cells a = some r ∧
      a + r.totalSize = b) → ∃ d ∈ cells, d.stop = b := by
    rintro b ⟨a, r, ha, hstop⟩
    rw [imageOver_none] at ha
    obtain ⟨d, hd, rfl, rfl⟩ := mem_of_imageAt ha
    exact ⟨d, hd, d.stop_eq.symm.trans hstop⟩
  exact ⟨fun c hc => (h.laid.packed.tiled _ _ (h.image_of_mem hc)).imp id hmem,
    h.laid.tail.imp id (Or.imp id hmem)⟩

end OnlyCells

end Tsavorite
