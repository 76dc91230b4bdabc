import MiniGarnet.Tsavorite.Chains

/-! # Writing to the store

    There are three ways to change what a key reads as: a record is
    published at the tail, the newest record is overwritten in place, or the
    newest record is tombstoned in place.  Each is one edit of the list of
    cells, and `StoreInv` survives it.
-/

namespace Tsavorite

/-! ## Section 1: Records in memory -/

section Memory

variable (g : Geometry) (log : HybridLog) (a : ℕ)

theorem recordAt_setRecord (r : Record) : (log.setRecord g a r).recordAt g a = r := by
  simp [HybridLog.recordAt, slotAt_setRecord_self]

theorem setRecord_setRecord (r r' : Record) :
    (log.setRecord g a r).setRecord g a r' = log.setRecord g a r' := by
  simp only [HybridLog.setRecord]
  congr 1
  funext s o
  split <;> rfl

theorem updateInfo_setRecord (r : Record) (f : RecordInfo → RecordInfo) :
    (log.setRecord g a r).updateInfo g a f = log.setRecord g a { r with info := f r.info } := by
  rw [HybridLog.updateInfo, recordAt_setRecord, setRecord_setRecord]

theorem updateData_setRecord (r : Record) (p : Payload) :
    (log.setRecord g a r).updateData g a p = log.setRecord g a { r with data := r.data.write p } := by
  rw [HybridLog.updateData, recordAt_setRecord, setRecord_setRecord]

end Memory

/-! ## Section 2: What a key reads as -/

/-- The body of a live cell. -/
def Cell.live (c : Cell) : Option RecordData := if c.tombstone then none else some c.data

/-- The plain map behind a list of cells. -/
def view (cells : List Cell) (key : Key) : Option RecordData := (newest cells key).bind Cell.live

theorem newest_cons (c : Cell) (cells : List Cell) (key : Key) :
    newest (c :: cells) key = if c.data.key = key then some c else newest cells key := by
  unfold newest
  rw [List.find?_cons]
  split <;> simp_all

theorem view_push (c : Cell) (cells : List Cell) :
    view (c :: cells) = Function.update (view cells) c.data.key c.live := by
  funext k
  unfold view
  rw [newest_cons]
  by_cases hk : c.data.key = k
  · subst hk; simp
  · rw [if_neg hk, Function.update_of_ne (Ne.symm hk)]

theorem newest_editAt (cells : List Cell) (a : ℕ) {f : Cell → Cell} (hf : Cell.Keeps f) (key : Key) :
    newest (editAt cells a f) key =
      (newest cells key).map fun c => if c.addr = a then f c else c := by
  unfold newest editAt
  rw [List.find?_map]
  congr 2
  funext c
  simp only [Function.comp_apply]
  split
  · rw [hf.key]
  · rfl

theorem view_edit {cells : List Cell}
    (hord : cells.Pairwise fun newer older => older.stop ≤ newer.addr) {c : Cell}
    {f : Cell → Cell} (hf : Cell.Keeps f) {key : Key} (hc : newest cells key = some c) :
    view (editAt cells c.addr f) = Function.update (view cells) key (f c).live := by
  funext k
  unfold view
  rw [newest_editAt cells c.addr hf]
  by_cases hk : k = key
  · subst hk
    simp [hc]
  · rw [Function.update_of_ne hk]
    cases hd : newest cells k with
    | none => rfl
    | some d =>
      have hne : d.addr ≠ c.addr := by
        intro heq
        have hd' := find_addr_of_mem hord (newest_mem hd).1
        rw [heq, find_addr_of_mem hord (newest_mem hc).1] at hd'
        cases hd'
        exact hk ((newest_mem hd).2.symm.trans (newest_mem hc).2)
      simp [hne]

/-! ## Section 3: Edits of the list of cells -/

/-- The record was written by a version `v + 1` thread of the checkpoint in progress. -/
def Cell.InNewVersion (start : ℕ) (c : Cell) : Prop := c.newVersion = true ∧ start ≤ c.addr

/-- One edit by a thread in `state`: publish at or above `tail`, or change the newest
    cell in place at or above `ro`, if its version allows it. -/
inductive Edit (state : SystemState) (start ro tail : ℕ) (key : Key) :
    List Cell → Option RecordData → List Cell → Prop where
  | push {cells : List Cell} {c : Cell} : c.data.key = key → c.newVersion = state.inNewVersion →
      tail ≤ c.addr → Edit state start ro tail key cells c.live (c :: cells)
  | edit {cells : List Cell} {c : Cell} {f : Cell → Cell} : newest cells key = some c →
      ro ≤ c.addr → Cell.Keeps f →
      ¬ (state.phase = .prepare ∧ c.InNewVersion start) →
      (state.inNewVersion = true → c.InNewVersion start) →
      Edit state start ro tail key cells (f c).live (editAt cells c.addr f)

/-- The edits of one attempt; the middle argument is the last value written. -/
inductive Edits (state : SystemState) (start ro tail : ℕ) (key : Key) :
    List Cell → Option (Option RecordData) → List Cell → Prop where
  | refl (cells : List Cell) : Edits state start ro tail key cells none cells
  | step {cells cells' cells'' : List Cell} {w : Option (Option RecordData)}
      {x : Option RecordData} : Edits state start ro tail key cells w cells' →
      Edit state start ro tail key cells' x cells'' →
      Edits state start ro tail key cells (some x) cells''

/-- What publishing above `tail` and changing cells at or above `ro` preserve, attempts
    preserve. -/
theorem Edits.preserve {state : SystemState} {start ro tail : ℕ} {key : Key}
    {P : List Cell → Prop} {cells cells' : List Cell} {w : Option (Option RecordData)}
    (h : Edits state start ro tail key cells w cells')
    (hpush : ∀ {cells : List Cell} {c : Cell}, tail ≤ c.addr → P cells → P (c :: cells))
    (hedit : ∀ {cells : List Cell} {a : ℕ} {f : Cell → Cell}, ro ≤ a → Cell.Keeps f → P cells →
      P (editAt cells a f)) (h₀ : P cells) : P cells' := by
  induction h with
  | refl => exact h₀
  | step _ hone ih =>
    cases hone with
    | push _ _ htail => exact hpush htail ih
    | edit _ hro hf _ _ => exact hedit hro hf ih

theorem update_applyWrote (m : Key → Option RecordData) (key : Key)
    (w : Option (Option RecordData)) (x : Option RecordData) :
    Function.update (applyWrote m key w) key x = Function.update m key x := by
  cases w with
  | none => rfl
  | some y => exact Function.update_idem _ _ _

theorem ordered_of_editAt {cells : List Cell} {a : ℕ} {f : Cell → Cell} (hf : Cell.Keeps f)
    (h : (editAt cells a f).Pairwise fun newer older => older.stop ≤ newer.addr) :
    cells.Pairwise fun newer older => older.stop ≤ newer.addr := by
  refine (List.pairwise_map.mp h).imp fun {x y} hxy => ?_
  split at hxy <;> split at hxy <;> simpa only [hf.addr, hf.stop] using hxy

/-- The plain map behind the cells after an attempt. -/
theorem view_edits {state : SystemState} {start ro tail : ℕ} {key : Key} {cells cells' : List Cell}
    {w : Option (Option RecordData)} (h : Edits state start ro tail key cells w cells')
    (hord : cells'.Pairwise fun newer older => older.stop ≤ newer.addr) :
    view cells' = applyWrote (view cells) key w := by
  induction h with
  | refl => rfl
  | step _ hone ih =>
    cases hone with
    | push hkey _ _ =>
      rw [view_push, ih (List.pairwise_cons.mp hord).2, hkey, applyWrote_some, update_applyWrote]
    | edit hc _ hf _ _ =>
      have hord' := ordered_of_editAt hf hord
      rw [view_edit hord' hf hc, ih hord', applyWrote_some, update_applyWrote]

/-! ## Section 4: In place -/

section InPlace

variable {g : Geometry} {rest : ℕ → Option Record} {store : Store} {cells : List Cell}

/-- The newest record of a key, when it is mutable, overwritten. -/
theorem StoreOver.edit (h : StoreOver g rest store cells) {c : Cell} {f : Cell → Cell} {r : Record}
    {key : Key} (hc : newest cells key = some c) (hro : store.log.readOnly ≤ c.addr)
    (hf : Cell.Keeps f) (hr : r.strip = (f c).image) (hs : r.info.isSealed = false) :
    StoreOver g rest { store with log := store.log.setRecord g c.addr r } (editAt cells c.addr f) where
  log := h.log.edit (newest_mem hc).1 hro hf hr
  linked := by
    intro s
    simp only
    rw [chain_editAt _ _ _ _ hf]
    exact linked_editAt hf (h.linked s)
  entries := by
    intro s
    simp only
    rw [chain_editAt _ _ _ _ hf, headAddr_editAt _ _ hf]
    refine (h.entries s).imp id fun hs => ⟨hs.1, ?_⟩
    rw [hs.2]
    rfl
  unsealed := by
    intro d hd hhead r' hr'
    rw [newest_editAt _ _ hf] at hd
    obtain ⟨e, he, heq⟩ := Option.map_eq_some_iff.mp hd
    have hkeye : e.data.key = d.data.key := (newest_mem he).2
    have haddr : d.addr = e.addr := by
      rw [← heq]
      split
      · exact hf.addr e
      · rfl
    have hhead' : store.log.head ≤ c.addr := le_trans h.log.head_le_readOnly hro
    simp only at hhead hr'
    rw [haddr] at hhead hr'
    have hhead₀ : store.log.head ≤ e.addr := hhead
    rw [h.log.pages.slotAt_setRecord r hhead' (h.log.addr_lt_top (newest_mem hc).1) hhead₀
      (h.log.addr_lt_top (newest_mem he).1)] at hr'
    split at hr'
    · cases hr'
      exact hs
    · exact h.unsealed e (by rw [hkeye]; exact he) hhead₀ r' hr'

/-- Claiming a slot changes no chain. -/
theorem StoreOver.claim (h : StoreOver g rest store cells) {hash : ℕ} {index : HashIndex} {slot : SlotRef}
    (hclaim : store.index.findOrCreateTag hash = some (index, slot)) :
    StoreOver g rest { store with index := index } cells := by
  obtain ⟨-, hmask, hload⟩ := HashIndex.findOrCreateTag_spec hclaim
  refine ⟨h.log, ?_, ?_, h.unsealed⟩
  · simp only [hmask]
    exact h.linked
  · intro s
    simp only [hmask, hload s]
    split
    · next heq =>
      subst heq
      left
      rcases h.entries s with hs | ⟨hs, hnil⟩
      · rw [hs]; rfl
      · rw [hs, hnil]; rfl
    · exact h.entries s

end InPlace

/-! ## Section 5: Sealing -/

section Sealing

variable {g : Geometry} {rest : ℕ → Option Record} {store : Store} {cells : List Cell}

theorem strip_trySeal (r : Record) : Record.strip { r with info := r.info.trySeal } = r.strip := by
  unfold RecordInfo.trySeal Record.strip
  split <;> rfl

/-- Sealing a record that is no longer the newest of its key.  Its page may have gone
    below the head meanwhile, but its slot has not been reused. -/
theorem StoreOver.sealAt (h : StoreOver g rest store cells) {a : ℕ}
    (hplace : ∀ b, store.log.head ≤ b → b < (store.log.tailPage + 1) * g.pageSize → b ≠ a →
      ¬ (g.slotOf (g.pageOf b) = g.slotOf (g.pageOf a) ∧ g.pageOffset b = g.pageOffset a))
    (hcell : ∃ c ∈ cells, c.addr = a) (hold : ∀ c, newest cells c.data.key = some c → c.addr ≠ a) :
    StoreOver g rest (Tsavorite.sealAt g a store) cells := by
  have hslot : ∀ b, store.log.head ≤ b → b < (store.log.tailPage + 1) * g.pageSize → b ≠ a →
      (Tsavorite.sealAt g a store).log.slotAt g b = store.log.slotAt g b := by
    intro b hb hb' hne
    simp only [Tsavorite.sealAt, HybridLog.updateInfo, HybridLog.setRecord, HybridLog.slotAt]
    rw [if_neg (hplace b hb hb' hne)]
  refine ⟨h.log.move { h.log.pages with memory := ?_, pending := ?_ } rfl, h.linked, h.entries, ?_⟩
  · intro b hb hb'
    by_cases hba : b = a
    · subst hba
      obtain ⟨c, hc, hca⟩ := hcell
      obtain ⟨hs, hstrip⟩ := h.log.recordAt_cell hc (by rw [hca]; exact hb)
      rw [hca] at hs hstrip
      have hset : (Tsavorite.sealAt g b store).log.slotAt g b = some
          { store.log.recordAt g b with info := (store.log.recordAt g b).info.trySeal } :=
        slotAt_setRecord_self _ _
      rw [hset, Option.map_some, strip_trySeal, hstrip, ← hca, h.log.image_of_mem hc]
    · rw [hslot b hb hb' hba]
      exact h.log.pages.memory b hb hb'
  · exact fun x hx => (h.log.pages.pending x hx).mono (le_refl _) (le_refl _)
  · intro c hc hhead r hr
    have hmem := (newest_mem hc).1
    refine h.unsealed c hc hhead r ?_
    rw [← hslot c.addr hhead (h.log.addr_lt_top hmem) (hold c hc)]
    exact hr

end Sealing

/-! ## Section 6: Publishing -/

/-- The body `RecordPtr::init` leaves for the writer callback. -/
def blank (key : Key) (size : RecordSizeInfo) : RecordData :=
  ⟨key, size.valueCap, size.hasExpiration, ⟨[], 0⟩⟩

theorem blank_totalSize {key : Key} {size : RecordSizeInfo} (h : size.keyLen = key.length) :
    (blank key size).totalSize = size.totalSize := by
  unfold RecordSizeInfo.totalSize
  rw [h]
  rfl

theorem RecordSizeInfo.totalSize_pos (size : RecordSizeInfo) : 0 < size.totalSize := by
  have := align8_ge (FIXED_HEADER_SIZE + (if size.hasExpiration then EXPIRATION_SIZE else 0) +
    size.keyLen + size.valueCap)
  have : FIXED_HEADER_SIZE = 24 := rfl
  unfold RecordSizeInfo.totalSize
  omega

/-- The cell a publishing attempt adds. -/
def newCell (state : SystemState) (addr prev : ℕ) (tombstone : Bool) (data : RecordData) : Cell :=
  ⟨addr, prev, tombstone, state.inNewVersion, data⟩

/-- The boundaries only move up. -/
structure Ahead (g : Geometry) (log log' : HybridLog) : Prop where
  head : log.head ≤ log'.head
  readOnly : log.readOnly ≤ log'.readOnly
  flushed : log.flushedUntil ≤ log'.flushedUntil
  tailPos : log.tailPos g ≤ log'.tailPos g

theorem Ahead.refl (g : Geometry) (log : HybridLog) : Ahead g log log :=
  ⟨le_refl _, le_refl _, le_refl _, le_refl _⟩

theorem Ahead.trans {g : Geometry} {a b c : HybridLog} (h : Ahead g a b) (h' : Ahead g b c) :
    Ahead g a c :=
  ⟨le_trans h.head h'.head, le_trans h.readOnly h'.readOnly, le_trans h.flushed h'.flushed,
    le_trans h.tailPos h'.tailPos⟩

theorem Shifted.ahead {g : Geometry} {log log' : HybridLog} (h : Shifted log log') :
    Ahead g log log' :=
  ⟨h.head, h.readOnly, h.flushed, le_of_eq h.tailPos.symm⟩

/-- What one attempt does to the boundaries. -/
structure Advanced (g : Geometry) (log log' : HybridLog) : Prop extends Ahead g log log' where
  table : log'.epoch.table = log.epoch.table
  due : Due g log → Due g log'

theorem Advanced.refl (g : Geometry) (log : HybridLog) : Advanced g log log :=
  ⟨Ahead.refl g log, rfl, id⟩

theorem Advanced.trans {g : Geometry} {a b c : HybridLog} (h : Advanced g a b)
    (h' : Advanced g b c) : Advanced g a c :=
  ⟨h.toAhead.trans h'.toAhead, h'.table.trans h.table, h'.due ∘ h.due⟩

theorem Kept.advanced {g : Geometry} {log log' : HybridLog} (h : Kept g log log') :
    Advanced g log log' := ⟨⟨h.head, h.readOnly, h.flushed, h.tailPos⟩, h.table, h.due⟩

/-- Writing records moves no boundary. -/
theorem Advanced.setRecord {g : Geometry} {log log' : HybridLog} (h : Advanced g log log') (a : ℕ)
    (r : Record) : Advanced g log (log'.setRecord g a r) :=
  ⟨⟨h.head, h.readOnly, h.flushed, h.tailPos⟩, h.table, fun hd =>
    ⟨(h.due hd).readOnly, (h.due hd).head, (h.due hd).past⟩⟩

/-- What an attempt that tries to publish comes to. -/
inductive PublishSpec {O : Type} (g : Geometry) (rest : ℕ → Option Record) (store : Store)
    (state : SystemState) (cells : List Cell) (key : Key) (size : RecordSizeInfo) (out : O) (calls : List Call)
    (wrote : Option (Option RecordData)) (fill : RecordData → O → Payload × O) (tombstone : Bool)
    (status : Status) (fillCalls : List Call) : Attempt O → Prop where
  | done {store' : Store} {c : Cell} :
      c.data = (blank key size).write (fill (blank key size) out).1 → c.tombstone = tombstone →
      c.newVersion = state.inNewVersion → store.log.tailPos g ≤ c.addr →
      StoreOver g rest store' (c :: cells) → Advanced g store.log store'.log →
      store'.systemState = store.systemState →
      store'.checkpointStartAddress = store.checkpointStartAddress →
      store'.index.mask = store.index.mask →
      PublishSpec g rest store state cells key size out calls wrote fill tombstone status fillCalls
        ⟨.done status, store', (fill (blank key size) out).2, calls ++ fillCalls, some c.live⟩
  | retryLater {log' : HybridLog} : StoreOver g rest { store with log := log' } cells →
      Advanced g store.log log' → Refused g store.log log' →
      PublishSpec g rest store state cells key size out calls wrote fill tombstone status fillCalls
        ⟨.retryLater, { store with log := log' }, out, calls, wrote⟩
  | tooLarge : g.pageSize < size.totalSize + PAGE_HEADER_SIZE →
      PublishSpec g rest store state cells key size out calls wrote fill tombstone status fillCalls
        ⟨.aborted .recordLargerThanPage, store, out, calls, wrote⟩

section Publishing

variable {g : Geometry} {rest : ℕ → Option Record} {store : Store} {cells : List Cell}

/-- A log that has moved on under the same cells. -/
theorem StoreOver.setLog (h : StoreOver g rest store cells) {log' : HybridLog}
    (hlog : LogOver g rest log' cells) (hkept : Kept g store.log log') :
    StoreOver g rest { store with log := log' } cells := by
  refine ⟨hlog, h.linked, h.entries, ?_⟩
  intro c hc hhead r hr
  have hmem := (newest_mem hc).1
  refine h.unsealed c hc (le_trans hkept.head hhead) r ?_
  rw [← hkept.memory c.addr hhead (h.log.addr_lt_top hmem)]
  exact hr

/-- A chain head lies below the tail. -/
theorem StoreOver.headAddr_lt_tailPos (h : StoreOver g rest store cells) (s : SlotRef) :
    headAddr (chain store.index.mask s cells) < store.log.tailPos g := by
  cases hch : chain store.index.mask s cells with
  | nil =>
    have := h.log.pages.offset_ge
    have hfv : FIRST_VALID_ADDRESS = 64 := rfl
    have htemp : TEMP_INVALID_ADDRESS = 1 := rfl
    rw [headAddr_nil]
    unfold HybridLog.tailPos
    omega
  | cons c l =>
    have hc : c ∈ cells := chain_subset _ s _ c (by rw [hch]; simp)
    exact lt_of_lt_of_le c.addr_lt_stop (h.log.below hc)

/-- The store once the record at `c.addr` has been written and published. -/
theorem StoreOver.pushCell (h : StoreOver g rest store cells) {c : Cell} {key : Key} {log' : HybridLog}
    {index : HashIndex} {r : Record}
    (hpages : PagesInv g Record.strip log' (imageOver rest cells) (CutOf (imageOver rest cells)))
    (hspace : (log'.tailPage + 1) * g.pageSize ≤ 2 ^ 48) (hkept : Kept g store.log log')
    (hgr : Granted g store.log log' c.addr c.data.totalSize) (hkey : c.data.key = key)
    (hprev : c.prev = headAddr (store.chainOf cells key)) (hr : r.strip = c.image)
    (hs : r.info.isSealed = false)
    (hcas : store.index.tryCas (keySlot store.index.mask key) c.prev c.addr = some index) :
    StoreOver g rest { store with log := log'.setRecord g c.addr r, index := index } (c :: cells) := by
  obtain ⟨hmask, hload⟩ := HashIndex.tryCas_spec hcas
  have hpush := h.log.push hpages hspace hgr hr
  have hmem : c ∈ c :: cells := by simp
  have htop : c.addr < (log'.tailPage + 1) * g.pageSize := hpush.addr_lt_top hmem
  have hlt48 : c.addr < 2 ^ 48 := lt_of_lt_of_le htop hspace
  refine ⟨hpush, ?_, ?_, ?_⟩
  · intro s
    simp only [hmask]
    rw [chain_cons]
    split
    · next hslot =>
      refine ⟨?_, h.linked s⟩
      rw [hprev, ← hslot, hkey]
      rfl
    · exact h.linked s
  · intro s
    simp only [hmask, hload s]
    rw [chain_cons, hkey]
    by_cases hslot : s = keySlot store.index.mask key
    · rw [if_pos hslot, if_pos hslot.symm, maskAddress_of_lt hlt48]
      exact .inl rfl
    · rw [if_neg hslot, if_neg (Ne.symm hslot)]
      exact h.entries s
  · intro d hd hhead r' hr'
    have hdm := (newest_mem hd).1
    have hin : log'.head ≤ c.addr := le_trans hpages.head_le (le_trans hpages.flushed_le
      (le_trans hpages.safeReadOnly_le hgr.isMutable))
    have htop' : d.addr < (log'.tailPage + 1) * g.pageSize := hpush.addr_lt_top hdm
    have hhead' : log'.head ≤ d.addr := hhead
    simp only at hr'
    rw [hpages.slotAt_setRecord r hin htop hhead' htop'] at hr'
    split at hr'
    · cases hr'
      exact hs
    · next hne =>
      have hdold : newest cells d.data.key = some d := by
        rw [newest_cons] at hd
        split at hd
        · cases hd; exact absurd rfl hne
        · exact hd
      refine h.unsealed d hdold (le_trans hkept.head hhead') r' ?_
      rw [← hkept.memory d.addr hhead' (h.log.addr_lt_top (newest_mem hdold).1)]
      exact hr'

/-- An old record's place is shared with no page in memory after one allocation. -/
theorem PagesInv.old_place_ne {f : Record → Record} {log log' : HybridLog}
    {image : ℕ → Option Record} {cut : ℕ → Prop} (h : PagesInv g f log image cut)
    (hkept : Kept g log log') {a b : ℕ}
    (ha : log.head ≤ a) (ha' : a < (log.tailPage + 1) * g.pageSize) (hb : log'.head ≤ b)
    (hb' : b < (log'.tailPage + 1) * g.pageSize) (hne : b ≠ a) :
    ¬ (g.slotOf (g.pageOf b) = g.slotOf (g.pageOf a) ∧ g.pageOffset b = g.pageOffset a) := by
  have hnear : ∀ p q : ℕ, log.closedUntil ≤ p * g.pageSize → q ≤ log'.tailPage →
      q < p + g.bufferSize := by
    intro p q hp hq
    have hq' : q * g.pageSize ≤ log'.tailPage * g.pageSize := Nat.mul_le_mul_right _ hq
    have hw := hkept.window
    have : q * g.pageSize < (p + g.bufferSize) * g.pageSize := by rw [Nat.add_mul]; omega
    exact Nat.lt_of_mul_lt_mul_right this
  have hpa := h.closed_le_page ha
  have hpb := h.closed_le_page (le_trans hkept.head hb)
  have hta : g.pageOf a ≤ log'.tailPage := le_trans (PagesInv.page_le_tailPage ha') hkept.tailPage
  have htb : g.pageOf b ≤ log'.tailPage := PagesInv.page_le_tailPage hb'
  rintro ⟨hslot, hoff⟩
  rcases Nat.lt_trichotomy (g.pageOf b) (g.pageOf a) with hlt | heq | hgt
  · exact g.slotOf_ne hlt (hnear _ _ hpb hta) hslot
  · exact hne (by rw [← g.join_split a, ← g.join_split b, heq, hoff])
  · exact g.slotOf_ne hgt (hnear _ _ hpa htb) hslot.symm

/-- `allocate_record` never has to waste an address: the tail is above every chain. -/
theorem allocateRecord_eq {log : HybridLog} (h : LogOver g rest log cells) (hspace : log.HasSpace g)
    {state : SystemState} {size : RecordSizeInfo} {key : Key} {prev n : ℕ}
    (hprev : prev < log.tailPos g) :
    (∃ addr log', allocateRecord g state size key prev (n + 1) log =
        (.ok addr, log'.setRecord g addr (Record.init prev state.inNewVersion size key)) ∧
      PagesInv g Record.strip log' (imageOver rest cells) (CutOf (imageOver rest cells)) ∧
      (log'.tailPage + 1) * g.pageSize ≤ 2 ^ 48 ∧ Kept g log log' ∧
      Granted g log log' addr size.totalSize) ∨
    (∃ log', allocateRecord g state size key prev (n + 1) log = (.retryLater, log') ∧
      LogOver g rest log' cells ∧ Kept g log log' ∧ Refused g log log') ∨
    (allocateRecord g state size key prev (n + 1) log = (.tooLarge, log) ∧
      g.pageSize < size.totalSize + PAGE_HEADER_SIZE) := by
  obtain ⟨m, hm⟩ : ∃ m : ℕ, 2 ^ 32 = m + 1 := ⟨2 ^ 32 - 1, by norm_num⟩
  have hspec := h.tryAllocateRetryNow hspace (n := m) size.totalSize_pos
  unfold allocateRecord
  rw [hm]
  generalize log.tryAllocateRetryNow g (m + 1) size.totalSize = r at hspec
  cases hspec with
  | ok hinv htop hkept hgr =>
    left
    have := hgr.from_tail
    refine ⟨_, _, ?_, hinv, htop, hkept, hgr⟩
    simp only
    rw [if_neg (by omega)]
  | retryLater hinv hkept href => exact .inr (.inl ⟨_, rfl, hinv, hkept, href⟩)
  | tooLarge hbig => exact .inr (.inr ⟨rfl, hbig⟩)

/-- All the writes to a new record collapse to one. -/
theorem publish_granted {O : Type} {state : SystemState} {slot : SlotRef} {entry addr : ℕ}
    {key : Key} {size : RecordSizeInfo} (out : O) (calls : List Call)
    (wrote : Option (Option RecordData)) (fill : RecordData → O → Payload × O) (tombstone : Bool)
    (old : Option ℕ) (status : Status) (fillCalls : List Call) {log' : HybridLog}
    {index : HashIndex}
    (halloc : allocateRecord g state size key entry (entry + 2) store.log =
      (.ok addr, log'.setRecord g addr (Record.init entry state.inNewVersion size key)))
    (hcas : store.index.tryCas slot entry addr = some index)
    (hmask : maskAddress entry = entry) :
    publish g store state slot entry key size out calls wrote fill tombstone old status fillCalls =
      ⟨.done status, sealOld g old { store with
          log := log'.setRecord g addr
            ⟨⟨entry, tombstone, true, state.inNewVersion, false, false⟩,
              (blank key size).write (fill (blank key size) out).1⟩
          index := index },
        (fill (blank key size) out).2, calls ++ fillCalls,
        some (if tombstone then none
          else some ((blank key size).write (fill (blank key size) out).1))⟩ := by
  unfold publish
  rw [halloc]
  simp only [recordAt_setRecord, updateData_setRecord, hcas]
  cases tombstone <;>
    simp only [updateInfo_setRecord, recordAt_setRecord, Record.init, RecordInfo.new, hmask,
      RecordInfo.zero, RecordInfo.unsealAndValidate, RecordInfo.setTombstone, blank, if_true,
      Bool.false_eq_true, if_false]

theorem publish_refused {O : Type} {state : SystemState} {slot : SlotRef} {entry : ℕ}
    {key : Key} {size : RecordSizeInfo} {out : O} {calls : List Call}
    {wrote : Option (Option RecordData)} {fill : RecordData → O → Payload × O} {tombstone : Bool}
    {old : Option ℕ} {status : Status} {fillCalls : List Call} {log' : HybridLog}
    (halloc : allocateRecord g state size key entry (entry + 2) store.log = (.retryLater, log')) :
    publish g store state slot entry key size out calls wrote fill tombstone old status fillCalls =
      ⟨.retryLater, { store with log := log' }, out, calls, wrote⟩ := by
  unfold publish
  rw [halloc]

theorem publish_spec {O : Type} (h : StoreOver g rest store cells) (hspace : store.log.HasSpace g)
    {state : SystemState} {key : Key} {size : RecordSizeInfo} (hsize : size.keyLen = key.length)
    {entry : ℕ} (hload : store.index.load (keySlot store.index.mask key) = some entry) {out : O}
    {calls : List Call} {wrote : Option (Option RecordData)}
    {fill : RecordData → O → Payload × O} {tombstone : Bool} {old : Option ℕ} {status : Status}
    {fillCalls : List Call}
    (hold : ∀ a, old = some a → ∃ c, newest cells key = some c ∧ c.addr = a ∧ store.log.head ≤ a) :
    PublishSpec g rest store state cells key size out calls wrote fill tombstone status fillCalls
      (publish g store state (keySlot store.index.mask key) entry key size out calls wrote fill
        tombstone old status fillCalls) := by
  have hentry := h.load_eq hload
  have hprev : entry < store.log.tailPos g := by rw [hentry]; exact h.headAddr_lt_tailPos _
  have hmask : maskAddress entry = entry :=
    maskAddress_of_lt (lt_of_lt_of_le hprev h.log.tailPos_le)
  rcases allocateRecord_eq h.log hspace (n := entry + 1) hprev with
    ⟨addr, log', heq, hinv, htop, hkept, hgr⟩ | ⟨log', heq, hinv, hkept, href⟩ | ⟨heq, hbig⟩
  · obtain ⟨index, hcas⟩ := HashIndex.tryCas_isSome addr hload
    have hpub := publish_granted out calls wrote fill tombstone old status fillCalls heq hcas hmask
    set c : Cell := ⟨addr, entry, tombstone, state.inNewVersion,
      (blank key size).write (fill (blank key size) out).1⟩ with hc
    have hcsize : c.data.totalSize = size.totalSize := blank_totalSize hsize
    have hgr' : Granted g store.log log' c.addr c.data.totalSize := by rw [hcsize]; exact hgr
    have hpush := h.pushCell (c := c) (r := c.image) hinv htop hkept hgr' rfl hentry rfl rfl hcas
    have hlive : c.live = if tombstone then none
        else some ((blank key size).write (fill (blank key size) out).1) := rfl
    rw [hpub, ← hlive]
    have hadv : Advanced g store.log log' := hkept.advanced
    cases old with
    | none =>
      exact .done rfl rfl rfl hgr.from_tail hpush (hadv.setRecord _ _) rfl rfl
        (HashIndex.tryCas_spec hcas).1
    | some a =>
      obtain ⟨o, ho, rfl, hhead⟩ := hold a rfl
      have hmem := (newest_mem ho).1
      have hsealed := hpush.sealAt (a := o.addr) (fun b hb hb' hne =>
        h.log.pages.old_place_ne hkept hhead (h.log.addr_lt_top hmem) hb hb' hne) ⟨o, by simp [hmem], rfl⟩
        (by
          -- The new cell is now the newest of the key; `o` is older and of the same key.
          intro d hd heq
          have hdo : d = o ∨ d = c := by
            rcases List.mem_cons.mp (newest_mem hd).1 with rfl | hdm
            · exact .inr rfl
            · left
              have h₁ := find_addr_of_mem h.log.ordered hdm
              rw [heq, find_addr_of_mem h.log.ordered hmem] at h₁
              exact (Option.some.inj h₁).symm
          rcases hdo with rfl | rfl
          · have hkeys : c.data.key = d.data.key := (newest_mem ho).2.symm
            rw [newest_cons, if_pos hkeys] at hd
            have := hgr.from_tail
            have := h.log.below hmem
            have := d.addr_lt_stop
            have hcd : addr = d.addr := congrArg Cell.addr (Option.some.inj hd)
            omega
          · have := hgr.from_tail
            have := h.log.below hmem
            have := o.addr_lt_stop
            have hcd : addr = o.addr := heq
            omega)
      exact .done rfl rfl rfl hgr.from_tail hsealed ((hadv.setRecord _ _).setRecord _ _) rfl rfl
        (HashIndex.tryCas_spec hcas).1
  · rw [publish_refused heq]
    exact .retryLater (h.setLog hinv hkept) hkept.advanced href
  · have hpub : publish g store state (keySlot store.index.mask key) entry key size out calls wrote
        fill tombstone old status fillCalls =
        ⟨.aborted .recordLargerThanPage, store, out, calls, wrote⟩ := by
      unfold publish
      rw [heq]
    rw [hpub]
    exact .tooLarge hbig

end Publishing

end Tsavorite
