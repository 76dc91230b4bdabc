import MiniGarnet.Tsavorite.PageTurns

/-! # What the hybrid log holds

    Seen from above, the log is a list of published records, the *cells*,
    newest first.  Where the bytes of a cell are (a memory page, the device,
    or both) and which page slots have been reused underneath is settled
    here once: `LogInv` says that every in-memory address reads as its cell,
    that every flushed address reads as its cell from the device, and that
    no step of the page machinery disturbs either.
-/

namespace Tsavorite

/-! ## Section 1: Cells -/

/-- A published record, as an unbounded log would hold it. -/
structure Cell where
  addr : ℕ
  prev : ℕ
  tombstone : Bool
  newVersion : Bool
  data : RecordData
  deriving DecidableEq, Repr

namespace Cell

/-- The record image of a cell, without its Sealed and Modified bits. -/
def image (c : Cell) : Record := ⟨⟨c.prev, c.tombstone, true, c.newVersion, false, false⟩, c.data⟩

/-- The first address behind the record. -/
def stop (c : Cell) : ℕ := c.addr + c.data.totalSize

theorem addr_lt_stop (c : Cell) : c.addr < c.stop := by
  have := c.data.totalSize_ge
  unfold stop
  unfold FIXED_HEADER_SIZE at this
  omega

end Cell

/-- Forget the two header bits that mean nothing on disk. -/
def Record.strip (r : Record) : Record :=
  { r with info := { r.info with isModified := false, isSealed := false } }

/-- What an address should read as. -/
def imageAt (cells : List Cell) (a : ℕ) : Option Record :=
  (cells.find? fun c => c.addr = a).map Cell.image

/-- No record lies across `b`. -/
def Cut (cells : List Cell) (b : ℕ) : Prop := ∀ c ∈ cells, c.addr < b → c.stop ≤ b

/-- `[c.addr, c.stop)` lies inside one page, behind its header. -/
def Cell.InPage (g : Geometry) (c : Cell) : Prop :=
  FIRST_VALID_ADDRESS ≤ g.pageOffset c.addr ∧ g.pageOffset c.addr + c.data.totalSize ≤ g.pageSize

/-- A page boundary is never inside a record. -/
theorem cut_of_page {g : Geometry} {cells : List Cell} (h : ∀ c ∈ cells, c.InPage g) (p : ℕ) :
    Cut cells (p * g.pageSize) := by
  intro c hc hlt
  have hin := (h c hc).2
  have hsplit := g.join_split c.addr
  have hpage : g.pageOf c.addr < p := by
    rw [g.pageOf_eq]
    exact Nat.div_lt_of_lt_mul (by rwa [mul_comm] at hlt)
  have hle : (g.pageOf c.addr + 1) * g.pageSize ≤ p * g.pageSize := Nat.mul_le_mul_right _ hpage
  rw [Nat.add_mul, one_mul] at hle
  unfold Cell.stop
  omega

/-! ## Section 2: The invariant -/

/-- What a registered action may do when it runs. -/
def DrainAction.Ok (log : HybridLog) (cells : List Cell) : DrainAction → Prop
  | .markReadOnly newRo => newRo ≤ log.readOnly ∧ Cut cells newRo
  | .closePages newHead => newHead ≤ log.head
  | .observe => True

structure LogInv (g : Geometry) (log : HybridLog) (cells : List Cell) : Prop where
  word : log.tail < 2 ^ 64
  offset_ge : FIRST_VALID_ADDRESS ≤ log.tailOffset
  offset_le : log.tailOffset ≤ g.pageSize
  space : (log.tailPage + 1) * g.pageSize ≤ 2 ^ 48
  begin_eq : log.beginAddress = FIRST_VALID_ADDRESS
  closed_page : log.closedUntil % g.pageSize = 0
  window : log.tailPage * g.pageSize < log.closedUntil + g.bufferSize * g.pageSize
  closed_le : log.closedUntil ≤ log.head
  first_le : FIRST_VALID_ADDRESS ≤ log.head
  head_le : log.head ≤ log.flushedUntil
  flushed_le : log.flushedUntil ≤ log.safeReadOnly
  safeReadOnly_le : log.safeReadOnly ≤ log.readOnly
  readOnly_le : log.readOnly ≤ log.tailPos g
  ordered : cells.Pairwise fun newer older => older.stop ≤ newer.addr
  inPage : ∀ c ∈ cells, c.InPage g
  below : ∀ c ∈ cells, c.stop ≤ log.tailPos g
  flushed_cut : Cut cells log.flushedUntil
  readOnly_cut : Cut cells log.readOnly
  memory : ∀ a, log.head ≤ a → a < (log.tailPage + 1) * g.pageSize →
    (log.slotAt g a).map Record.strip = imageAt cells a
  disk : ∀ a, FIRST_VALID_ADDRESS ≤ a → a < log.flushedUntil →
    (log.device.data a).map Record.strip = imageAt cells a
  device_len : log.flushedUntil = FIRST_VALID_ADDRESS ∨ log.flushedUntil ≤ log.device.len
  pending : ∀ x ∈ log.epoch.drain, x.2.Ok log cells

/-! ## Section 3: The page machinery under the cells -/

section Machinery

variable {g : Geometry} {log log' : HybridLog} {cells : List Cell}

theorem DrainAction.ok_iff {a : DrainAction} : a.Ok log cells ↔ a.Within log (Cut cells) := by
  cases a <;> exact Iff.rfl

theorem DrainAction.Ok.mono {a : DrainAction} (h : a.Ok log cells)
    (hro : log.readOnly ≤ log'.readOnly) (hhead : log.head ≤ log'.head) : a.Ok log' cells :=
  DrainAction.ok_iff.mpr ((DrainAction.ok_iff.mp h).mono hro hhead)

theorem imageAt_of_above (hbelow : ∀ c ∈ cells, c.stop ≤ log.tailPos g) {a : ℕ}
    (ha : log.tailPos g ≤ a) : imageAt cells a = none := by
  simp only [imageAt, Option.map_eq_none_iff, List.find?_eq_none, decide_eq_true_eq]
  intro c hc heq
  have := hbelow c hc
  have := c.addr_lt_stop
  omega

/-- The cells give every address its content. -/
theorem LogInv.pages (h : LogInv g log cells) :
    PagesInv g Record.strip log (imageAt cells) (Cut cells) :=
  { h with
    above := fun _ ha => imageAt_of_above h.below ha
    page_cut := cut_of_page h.inPage
    pending := fun x hx => DrainAction.ok_iff.mp (h.pending x hx) }

theorem LogInv.of_pagesInv (h : PagesInv g Record.strip log (imageAt cells) (Cut cells))
    (space : (log.tailPage + 1) * g.pageSize ≤ 2 ^ 48)
    (ordered : cells.Pairwise fun newer older => older.stop ≤ newer.addr)
    (inPage : ∀ c ∈ cells, c.InPage g) (below : ∀ c ∈ cells, c.stop ≤ log.tailPos g) :
    LogInv g log cells :=
  { h with
    space := space
    ordered := ordered
    inPage := inPage
    below := below
    pending := fun x hx => DrainAction.ok_iff.mpr (h.pending x hx) }

theorem logInv_new (g : Geometry) (device : Device) : LogInv g (HybridLog.new device) [] := by
  have hw : unpack (pack 0 FIRST_VALID_ADDRESS) = (0, FIRST_VALID_ADDRESS) := by decide +kernel
  have hps := g.pageSize_le
  have hspace : ((HybridLog.new device).tailPage + 1) * g.pageSize ≤ 2 ^ 48 := by
    simp [HybridLog.new, HybridLog.tailPage, hw]
    omega
  have hcut (b : ℕ) : Cut [] b := by
    intro c hc
    cases hc
  exact .of_pagesInv (pagesInv_new g Record.strip device hcut) hspace .nil (by simp) (by simp)

/-- A log that has moved on under the same cells. -/
theorem LogInv.of_pages (h : LogInv g log cells)
    (h' : PagesInv g Record.strip log' (imageAt cells) (Cut cells))
    (hpos : log.tailPos g ≤ log'.tailPos g) (hspace : (log'.tailPage + 1) * g.pageSize ≤ 2 ^ 48) :
    LogInv g log' cells :=
  .of_pagesInv h' hspace h.ordered h.inPage fun c hc => le_trans (h.below c hc) hpos

theorem tailPage_of_tail_eq (h : log'.tail = log.tail) : log'.tailPage = log.tailPage := by
  unfold HybridLog.tailPage
  rw [h]

theorem tailPos_of_tail_eq (h : log'.tail = log.tail) : log'.tailPos g = log.tailPos g := by
  simp only [HybridLog.tailPos, HybridLog.tailPage, HybridLog.tailOffset, h]

theorem LogInv.of_pages_same (h : LogInv g log cells)
    (h' : PagesInv g Record.strip log' (imageAt cells) (Cut cells)) (htail : log'.tail = log.tail) :
    LogInv g log' cells :=
  h.of_pages h' (le_of_eq (tailPos_of_tail_eq htail).symm)
    (by rw [tailPage_of_tail_eq htail]; exact h.space)

theorem LogInv.slotAt_setRecord (h : LogInv g log cells) {a b : ℕ} (r : Record)
    (ha : log.head ≤ a) (ha' : a < (log.tailPage + 1) * g.pageSize)
    (hb : log.head ≤ b) (hb' : b < (log.tailPage + 1) * g.pageSize) :
    (log.setRecord g a r).slotAt g b = if b = a then some r else log.slotAt g b :=
  h.pages.slotAt_setRecord r ha ha' hb hb'

theorem LogInv.setEpoch (h : LogInv g log cells) {e : LightEpoch DrainAction}
    (he : ∀ x ∈ e.drain, x.2.Ok log cells) : LogInv g { log with epoch := e } cells :=
  h.of_pages_same (h.pages.setEpoch fun x hx => DrainAction.ok_iff.mp (he x hx)) rfl

theorem LogInv.bumpCurrentEpoch (h : LogInv g log cells) :
    LogInv g (log.bumpCurrentEpoch g) cells :=
  h.of_pages_same h.pages.bumpCurrentEpoch (bumpCurrentEpoch_drained g log).tail

theorem LogInv.bumpWithAction (h : LogInv g log cells) {a : DrainAction} (ha : a.Ok log cells) :
    LogInv g (log.bumpWithAction g a) cells :=
  h.of_pages_same (h.pages.bumpWithAction (DrainAction.ok_iff.mp ha))
    (bumpWithAction_drained g log a).tail

theorem LogInv.shiftReadOnlyAddress (h : LogInv g log cells) {u : ℕ} (hu : u ≤ log.tailPos g)
    (hcut : Cut cells u) : LogInv g (log.shiftReadOnlyAddress g u) cells :=
  h.of_pages_same (h.pages.shiftReadOnlyAddress hu hcut) (shiftReadOnlyAddress_shifted g log u).1.tail

end Machinery

end Tsavorite
