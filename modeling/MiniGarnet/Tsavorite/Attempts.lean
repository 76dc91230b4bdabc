import MiniGarnet.Tsavorite.PlainMap

/-! # Attempts refine the plain map

    One attempt of an operation, started in a store that satisfies
    `StoreInv`, edits the list of cells in ways its state allows, keeps the
    invariant, and shows exactly what an attempt on the plain map behind
    the cells would show.  For an attempt that uses a record read from
    disk, the last part needs that record to be the newest one still.
-/

namespace Tsavorite

/-! ## Section 1: What an attempt may do -/

/-- `store` and `cells` can be reached from `store₀` and `cells₀` by part of one attempt. -/
structure Reached (g : Geometry) (rest : ℕ → Option Record) (store₀ : Store) (cells₀ : List Cell) (state : SystemState)
    (key : Key) (store : Store) (cells : List Cell) (wrote : Option (Option RecordData)) : Prop where
  inv : StoreOver g rest store cells
  edits : Edits state store₀.checkpointStartAddress store₀.log.readOnly (store₀.log.tailPos g) key
    cells₀ wrote cells
  advanced : Advanced g store₀.log store.log
  systemState : store.systemState = store₀.systemState
  start : store.checkpointStartAddress = store₀.checkpointStartAddress
  mask : store.index.mask = store₀.index.mask

/-- Where a cell is and whose it is. -/
def Cell.place (c : Cell) : ℕ × Key := (c.addr, c.data.key)

/-- The same before anything has been allocated. -/
structure Prepared (g : Geometry) (rest : ℕ → Option Record) (store₀ : Store) (cells₀ : List Cell) (state : SystemState)
    (key : Key) (store : Store) (cells : List Cell) (wrote : Option (Option RecordData)) : Prop
    extends Reached g rest store₀ cells₀ state key store cells wrote where
  log_eq : ∃ pages, store.log = { store₀.log with pages := pages }
  places : cells.map Cell.place = cells₀.map Cell.place

/-- The key's newest record is below the head, and `addr` is where its chain goes on. -/
structure OnDisk (store : Store) (cells : List Cell) (key : Key) (addr latest : ℕ) : Prop where
  latest_eq : latest = headAddr (store.chainOf cells key)
  below : ∃ below, below <:+ store.chainOf cells key ∧ addr = headAddr below ∧
    newest cells key = newest below key ∧ ∀ c ∈ below, c.addr < store.log.head

/-- The ways an attempt can end; `seen` is the chain head observed before the disk read
    whose result it was given. -/
inductive Outcome {O : Type} (g : Geometry) (store : Store) (cells cells' : List Cell)
    (state : SystemState) (key : Key) (seen : Option ℕ) (a : Attempt O) : Prop where
  | done {s : Status} : a.outcome = .done s → Outcome g store cells cells' state key seen a
  /-- No room: the page turn was refused. -/
  | refused {pages : ℕ → ℕ → Option Record} : a.outcome = .retryLater →
      cells'.map Cell.place = cells.map Cell.place →
      Refused g { store.log with pages := pages } a.store.log →
      Outcome g store cells cells' state key seen a
  /-- The record is no longer mutable but may still be under way to being immutable. -/
  | fuzzy {c : Cell} : a.outcome = .retryLater → cells' = cells → a.store.log = store.log →
      newest cells key = some c → store.log.safeReadOnly ≤ c.addr →
      c.addr < store.log.readOnly → Outcome g store cells cells' state key seen a
  /-- A version `v` thread has met a version `v + 1` record. -/
  | shift : a.outcome = .cprShift → cells' = cells → a.store.log = store.log →
      state.phase = .prepare → Outcome g store cells cells' state key seen a
  /-- The chain has a new head. -/
  | stale {n : ℕ} : a.outcome = .retryNow → cells' = cells → a.store.log = store.log →
      seen = some n → n ≠ headAddr (store.chainOf cells key) →
      Outcome g store cells cells' state key seen a
  | onDisk {addr latest : ℕ} : a.outcome = .recordOnDisk addr latest → cells' = cells →
      a.store.log = store.log → seen = none → OnDisk store cells key addr latest →
      Outcome g store cells cells' state key seen a

/-- An attempt that has to be made again and shows nothing. -/
def Attempt.Silent {O : Type} (a : Attempt O) (out : O) : Prop := a.shown = ⟨none, out, [], none⟩

inductive AttemptSpec {O : Type} (g : Geometry) (rest : ℕ → Option Record) (store : Store) (cells : List Cell)
    (state : SystemState) (key : Key) (seen : Option ℕ) (a : Attempt O) (sim : Prop) : Prop where
  | aborted {x : Abort} : x ≠ .spinning → a.outcome = .aborted x →
      AttemptSpec g rest store cells state key seen a sim
  | kept {cells' : List Cell} : Reached g rest store cells state key a.store cells' a.wrote →
      Outcome g store cells cells' state key seen a → sim →
      AttemptSpec g rest store cells state key seen a sim

section Pieces

variable {I O : Type} {g : Geometry} {rest : ℕ → Option Record} {store₀ store : Store} {cells₀ cells : List Cell}
  {state : SystemState} {key : Key} {wrote : Option (Option RecordData)} {seen : Option ℕ}

theorem Prepared.refl (h : StoreOver g rest store cells) :
    Prepared g rest store cells state key store cells none :=
  ⟨⟨h, .refl _, Advanced.refl _ _, rfl, rfl, rfl⟩, ⟨_, rfl⟩, rfl⟩

theorem Prepared.claim (h : StoreOver g rest store cells) {index : HashIndex} {slot : SlotRef}
    (hclaim : store.index.findOrCreateTag (hash64 key) = some (index, slot)) :
    Prepared g rest store cells state key { store with index := index } cells none :=
  ⟨⟨h.claim hclaim, .refl _, Advanced.refl _ _, rfl, rfl,
    (HashIndex.findOrCreateTag_spec hclaim).2.1⟩, ⟨_, rfl⟩, rfl⟩

theorem AttemptSpec.imp {seen : Option ℕ} {a : Attempt O} {P Q : Prop}
    (h : AttemptSpec g rest store cells state key seen a P) (hPQ : P → Q) :
    AttemptSpec g rest store cells state key seen a Q := by
  cases h with
  | aborted hx ha => exact .aborted hx ha
  | kept hr ho hp => exact .kept hr ho (hPQ hp)

/-- The old record that an attempt seals is the newest of its key. -/
def OldOk (log : HybridLog) (cells : List Cell) (key : Key) (old : Option ℕ) : Prop :=
  ∀ a, old = some a → ∃ c, newest cells key = some c ∧ c.addr = a ∧ log.head ≤ a

theorem OldOk.none (log : HybridLog) (cells : List Cell) (key : Key) : OldOk log cells key none := by
  intro a ha
  cases ha

theorem Prepared.publish (h : Prepared g rest store₀ cells₀ state key store cells wrote)
    (hspace : store.log.HasSpace g) {size : RecordSizeInfo} (hsize : size.keyLen = key.length)
    {entry : ℕ} (hload : store.index.load (keySlot store.index.mask key) = some entry) {out : O}
    {calls : List Call} {fill : RecordData → O → Payload × O} {tombstone : Bool} {old : Option ℕ}
    {status : Status} {fillCalls : List Call} (hold : OldOk store.log cells key old) :
    let a := Tsavorite.publish g store state (keySlot store.index.mask key) entry key size out calls
      wrote fill tombstone old status fillCalls
    AttemptSpec g rest store₀ cells₀ state key seen a (∃ room, ∀ luck : Luck, luck.room = room →
      a.shown = Plain.publish luck key size out calls wrote fill tombstone status fillCalls) := by
  intro a
  have hspec : PublishSpec g rest store state cells key size out calls wrote fill tombstone status
      fillCalls a := publish_spec h.inv hspace hsize hload hold
  clear_value a
  cases hspec with
  | done hdata htomb hnv haddr hinv hadv hsys hstart hmask =>
    refine .kept ⟨hinv, .step h.edits (.push ?_ hnv (le_trans h.advanced.tailPos haddr)),
      h.advanced.trans hadv, hsys.trans h.systemState, hstart.trans h.start, hmask.trans h.mask⟩
      (.done rfl) ⟨true, fun luck hluck => ?_⟩
    · rw [hdata]; rfl
    · simp only [Attempt.shown, Plain.publish, hluck, if_true, Cell.live, hdata, htomb]
  | retryLater hinv hadv href =>
    obtain ⟨pages, hlog⟩ := h.log_eq
    refine .kept ⟨hinv, h.edits, h.advanced.trans hadv, h.systemState, h.start, h.mask⟩
      (.refused rfl h.places (by rw [← hlog]; exact href)) ⟨false, fun luck hluck => ?_⟩
    simp only [Attempt.shown, Plain.publish, hluck, Bool.false_eq_true, if_false]
  | tooLarge _ => exact .aborted (by decide) rfl

variable {f : SessionFunctions I O} {input : I}

theorem Prepared.rmwInitial (h : Prepared g rest store₀ cells₀ state key store cells wrote)
    (hspace : store.log.HasSpace g) {entry : ℕ}
    (hload : store.index.load (keySlot store.index.mask key) = some entry) (out : O)
    (calls : List Call) :
    let a := Tsavorite.rmwInitial g f store state (keySlot store.index.mask key) entry key input out
      calls wrote
    AttemptSpec g rest store₀ cells₀ state key seen a (∃ room, ∀ luck : Luck, luck.room = room →
      a.shown = Plain.rmwInitial f luck key input out calls wrote) := by
  simp only [Tsavorite.rmwInitial, Plain.rmwInitial]
  by_cases hneed : (f.needInitialUpdate key input out).1 = true
  · simp only [hneed, if_true]
    exact h.publish hspace (f.initialSize_keyLen key input) hload (OldOk.none _ _ _)
  · simp only [hneed]
    exact .kept h.toReached (.done rfl) ⟨true, fun _ _ => rfl⟩

theorem Prepared.deleteRcu (h : Prepared g rest store₀ cells₀ state key store cells none)
    (hspace : store.log.HasSpace g) {entry : ℕ}
    (hload : store.index.load (keySlot store.index.mask key) = some entry) (out : O)
    (calls : List Call) {old : Option ℕ} (hold : OldOk store.log cells key old) :
    let a := Tsavorite.deleteRcu g store state (keySlot store.index.mask key) entry key old out calls
    AttemptSpec g rest store₀ cells₀ state key seen a (∃ room, ∀ luck : Luck, luck.room = room →
      a.shown = Plain.bury luck key out calls) :=
  h.publish hspace rfl hload hold

theorem Prepared.rmwCopy (h : Prepared g rest store₀ cells₀ state key store cells none)
    (hspace : store.log.HasSpace g) {entry : ℕ}
    (hload : store.index.load (keySlot store.index.mask key) = some entry) (out : O)
    (calls : List Call) {old : Option ℕ} (hold : OldOk store.log cells key old) (d : RecordData) :
    let a := Tsavorite.rmwCopy g f store state (keySlot store.index.mask key) entry key input out
      calls old d
    AttemptSpec g rest store₀ cells₀ state key seen a (∃ room, ∀ luck : Luck, luck.room = room →
      a.shown = Plain.rmwCopy f luck key input out calls d) := by
  simp only [Tsavorite.rmwCopy, Plain.rmwCopy]
  cases hneed : f.needCopyUpdate key input d out with
  | mk decision out' =>
    cases decision with
    | copy => exact h.publish hspace (f.copySize_keyLen key input d) hload hold
    | cancel => exact .kept h.toReached (.done rfl) ⟨true, fun _ _ => rfl⟩
    | delete => exact h.deleteRcu hspace hload _ _ hold

end Pieces

/-! ## Section 2: In place -/

/-- A callback has written `p` to the body. -/
def Cell.write (p : Payload) (c : Cell) : Cell := { c with data := c.data.write p }

/-- The record has been tombstoned. -/
def Cell.bury (c : Cell) : Cell := { c with tombstone := true }

theorem Cell.write_keeps (p : Payload) : Cell.Keeps (Cell.write p) :=
  ⟨fun _ => rfl, fun _ => rfl, fun _ => rfl, fun _ => rfl, fun _ => rfl⟩

theorem Cell.bury_keeps : Cell.Keeps Cell.bury :=
  ⟨fun _ => rfl, fun _ => rfl, fun _ => rfl, fun _ => rfl, fun _ => rfl⟩

section InPlace

variable {I O : Type} {g : Geometry} {rest : ℕ → Option Record} {store₀ store : Store} {cells₀ cells : List Cell}
  {state : SystemState} {key : Key} {seen : Option ℕ}

/-- The newest record of a key, as an operation finds it in memory. -/
theorem StoreOver.recordAt_newest (h : StoreOver g rest store cells) {c : Cell}
    (hc : newest cells key = some c) (hhead : store.log.head ≤ c.addr) :
    ∃ m, store.log.recordAt g c.addr =
      ⟨⟨c.prev, c.tombstone, true, c.newVersion, m, false⟩, c.data⟩ := by
  obtain ⟨hmem, hkey⟩ := newest_mem hc
  obtain ⟨hslot, hstrip⟩ := h.log.recordAt_cell hmem hhead
  have hs := h.unsealed c (by rw [hkey]; exact hc) hhead _ hslot
  generalize store.log.recordAt g c.addr = r at hstrip hs
  obtain ⟨⟨pa, tb, vl, nv, md, sl⟩, d⟩ := r
  simp only [Record.strip, Cell.image, Record.mk.injEq, RecordInfo.mk.injEq, and_true] at hstrip
  obtain ⟨⟨rfl, rfl, rfl, rfl⟩, rfl⟩ := hstrip
  simp only at hs
  exact ⟨md, by rw [hs]⟩

/-- An in-place change whose version allows it. -/
def MayEdit (state : SystemState) (start : ℕ) (c : Cell) : Prop :=
  ¬ (state.phase = .prepare ∧ c.InNewVersion start) ∧
    (state.inNewVersion = true → c.InNewVersion start)

theorem map_place_editAt (cells : List Cell) (a : ℕ) {f : Cell → Cell} (hf : Cell.Keeps f) :
    (editAt cells a f).map Cell.place = cells.map Cell.place := by
  unfold editAt
  rw [List.map_map]
  congr 1
  funext c
  simp only [Function.comp_apply, Cell.place]
  split
  · rw [hf.addr, hf.key]
  · rfl

theorem Prepared.edit (h : Prepared g rest store₀ cells₀ state key store cells none) {c : Cell}
    {f : Cell → Cell} {r : Record} (hc : newest cells key = some c)
    (hro : store.log.readOnly ≤ c.addr) (hf : Cell.Keeps f) (hr : r.strip = (f c).image)
    (hs : r.info.isSealed = false) (hmay : MayEdit state store₀.checkpointStartAddress c) :
    Prepared g rest store₀ cells₀ state key { store with log := store.log.setRecord g c.addr r }
      (editAt cells c.addr f) (some (f c).live) := by
  refine ⟨⟨h.inv.edit hc hro hf hr hs,
    .step h.edits (.edit hc (le_trans h.advanced.readOnly hro) hf hmay.1 hmay.2),
    h.advanced.setRecord _ _, h.systemState, h.start, h.mask⟩, ?_, ?_⟩
  · obtain ⟨pages, hlog⟩ := h.log_eq
    rw [hlog]
    exact ⟨_, rfl⟩
  · rw [← h.places, map_place_editAt _ _ hf]

theorem recordInNewVersion_iff (store : Store) (c : Cell) (info : RecordInfo)
    (h : info.inNewVersion = c.newVersion) :
    store.recordInNewVersion c.addr info = true ↔ c.InNewVersion store.checkpointStartAddress := by
  simp only [Store.recordInNewVersion, Cell.InNewVersion, h, Bool.and_eq_true, decide_eq_true_eq]

/-- What the version gate does with the newest record of a key. -/
theorem cprGate_newest (store : Store) (state : SystemState) (c : Cell) (prev : ℕ)
    (tomb m : Bool) :
    (cprGate store state c.addr ⟨prev, tomb, true, c.newVersion, m, false⟩ = some .cprShift ∧
      state.phase = .prepare ∧ c.InNewVersion store.checkpointStartAddress) ∨
    (cprGate store state c.addr ⟨prev, tomb, true, c.newVersion, m, false⟩ = none ∧
      ¬ (state.phase = .prepare ∧ c.InNewVersion store.checkpointStartAddress)) := by
  have hiff := recordInNewVersion_iff store c ⟨prev, tomb, true, c.newVersion, m, false⟩ rfl
  unfold cprGate
  by_cases hgate : state.phase = .prepare ∧ c.InNewVersion store.checkpointStartAddress
  · left
    rw [if_pos ⟨hgate.1, hiff.mpr hgate.2⟩]
    exact ⟨rfl, hgate⟩
  · right
    rw [if_neg (fun hne => hgate ⟨hne.1, hiff.mp hne.2⟩)]
    exact ⟨rfl, hgate⟩

theorem cprBlocksInPlace_iff (store : Store) (c : Cell) (info : RecordInfo)
    (h : info.inNewVersion = c.newVersion) :
    cprBlocksInPlace store state c.addr info = false ↔
      (state.inNewVersion = true → c.InNewVersion store.checkpointStartAddress) := by
  have hiff := recordInNewVersion_iff store c info h
  unfold cprBlocksInPlace
  cases hs : state.inNewVersion <;> cases hr : store.recordInNewVersion c.addr info <;>
    simp [hr] at hiff ⊢ <;> exact hiff

variable {f : SessionFunctions I O} {input : I}

theorem updateData_setModified (log : HybridLog) (a : ℕ) (p : Payload) :
    (log.updateData g a p).updateInfo g a RecordInfo.setModified =
      log.setRecord g a ⟨(log.recordAt g a).info.setModified, (log.recordAt g a).data.write p⟩ := by
  rw [HybridLog.updateData, updateInfo_setRecord]

theorem setTombstone_setModified (log : HybridLog) (a : ℕ) :
    (log.updateInfo g a RecordInfo.setTombstone).updateInfo g a RecordInfo.setModified =
      log.setRecord g a ⟨(log.recordAt g a).info.setTombstone.setModified,
        (log.recordAt g a).data⟩ := by
  have hset : log.updateInfo g a RecordInfo.setTombstone =
      log.setRecord g a ⟨(log.recordAt g a).info.setTombstone, (log.recordAt g a).data⟩ := rfl
  rw [hset, updateInfo_setRecord]

theorem Prepared.rmwMutable (f : SessionFunctions I O) (input : I) (seen : Option ℕ) (out : O)
    (h : Prepared g rest store₀ cells₀ state key store cells none)
    (hspace : store.log.HasSpace g) {entry : ℕ}
    (hload : store.index.load (keySlot store.index.mask key) = some entry) {c : Cell}
    {m : Bool} (hc : newest cells key = some c) (hro : store.log.readOnly ≤ c.addr)
    (hrec : store.log.recordAt g c.addr =
      ⟨⟨c.prev, c.tombstone, true, c.newVersion, m, false⟩, c.data⟩)
    (hlive : c.tombstone = false)
    (hgate : ¬ (state.phase = .prepare ∧ c.InNewVersion store.checkpointStartAddress)) :
    let a := Tsavorite.rmwMutable g f store state (keySlot store.index.mask key) entry key input out
      c.addr (store.log.recordAt g c.addr)
    AttemptSpec g rest store₀ cells₀ state key seen a
      (∃ luck : Luck, a.shown = Plain.rmw f luck (some c.data) key input out) := by
  have hhead : store.log.head ≤ c.addr := le_trans h.inv.log.head_le_readOnly hro
  have hold : OldOk store.log cells key (some c.addr) := by
    intro a ha
    cases ha
    exact ⟨c, hc, rfl, hhead⟩
  intro a
  simp only [a, Tsavorite.rmwMutable]
  split
  · -- A version `v` record under a version `v + 1` thread: copied.
    refine (h.rmwCopy hspace hload _ _ hold (store.log.recordAt g c.addr).data).imp ?_
    rintro ⟨room, hroom⟩
    refine ⟨⟨false, room⟩, ?_⟩
    rw [hroom ⟨false, room⟩ rfl, hrec]
    rfl
  · next hblock =>
    have hmay : MayEdit state store₀.checkpointStartAddress c := by
      rw [← h.start]
      refine ⟨hgate, (cprBlocksInPlace_iff store c (store.log.recordAt g c.addr).info ?_).mp ?_⟩
      · rw [hrec]
      · simpa using hblock
    have hdata : (store.log.recordAt g c.addr).data = c.data := by rw [hrec]
    rw [hdata]
    cases hres : f.inPlaceUpdater key input c.data out with
    | mk res out' =>
      have hplain : ∀ room, Plain.rmw f ⟨true, room⟩ (some c.data) key input out =
          Plain.rmwInPlace f ⟨true, room⟩ key input out c.data := fun _ => rfl
      cases res with
      | updated p =>
        simp only
        rw [updateData_setModified]
        have hedit := h.edit (f := Cell.write p)
          (r := ⟨(store.log.recordAt g c.addr).info.setModified,
            (store.log.recordAt g c.addr).data.write p⟩) hc hro (Cell.write_keeps p)
          (by rw [hrec]; rfl) (by rw [hrec]; rfl) hmay
        have hw : (Cell.write p c).live = some (c.data.write p) := by
          simp [Cell.live, Cell.write, hlive]
        rw [hw] at hedit
        refine .kept hedit.toReached (.done rfl) ⟨⟨true, true⟩, ?_⟩
        rw [hplain]
        simp only [Plain.rmwInPlace, hres]
        rfl
      | cancel =>
        refine .kept h.toReached (.done rfl) ⟨⟨true, true⟩, ?_⟩
        rw [hplain]
        simp only [Plain.rmwInPlace, hres]
        rfl
      | delete =>
        have hedit := h.edit (f := Cell.bury)
          (r := ⟨(store.log.recordAt g c.addr).info.setTombstone,
            (store.log.recordAt g c.addr).data⟩) hc hro Cell.bury_keeps
          (by rw [hrec]; rfl) (by rw [hrec]; rfl) hmay
        have hw : (Cell.bury c).live = none := rfl
        rw [hw] at hedit
        refine .kept hedit.toReached (.done rfl) ⟨⟨true, true⟩, ?_⟩
        rw [hplain]
        simp only [Plain.rmwInPlace, hres]
        rfl
      | expired =>
        have hedit := h.edit (f := Cell.bury)
          (r := ⟨(store.log.recordAt g c.addr).info.setTombstone,
            (store.log.recordAt g c.addr).data⟩) hc hro Cell.bury_keeps
          (by rw [hrec]; rfl) (by rw [hrec]; rfl) hmay
        have hw : (Cell.bury c).live = none := rfl
        rw [hw] at hedit
        refine (hedit.rmwInitial (f := f) hspace hload out' _).imp ?_
        rintro ⟨room, hroom⟩
        refine ⟨⟨true, room⟩, ?_⟩
        rw [hplain]
        simp only [Plain.rmwInPlace, hres]
        exact hroom ⟨true, room⟩ rfl
      | needCopy =>
        refine (h.rmwCopy (f := f) hspace hload out' _ hold c.data).imp ?_
        rintro ⟨room, hroom⟩
        refine ⟨⟨true, room⟩, ?_⟩
        rw [hplain]
        simp only [Plain.rmwInPlace, hres]
        exact hroom ⟨true, room⟩ rfl

end InPlace

/-! ## Section 3: The four operations -/

/-- An attempt shows nothing, or what a plain attempt with some luck shows. -/
def Attempt.Matches {O : Type} (a : Attempt O) (out : O) (p : Luck → Shown O) : Prop :=
  a.Silent out ∨ ∃ luck, a.shown = p luck

/-- A record image, or the absence of one, that is the newest record of the key. -/
def FreshSrc (cells : List Cell) (key : Key) (src : Option Record) : Prop :=
  src.map Record.strip = (newest cells key).map Cell.image

/-- A disk source is used only if the newest record of the key is not in memory. -/
def FreshIfUsed (store : Store) (cells : List Cell) (key : Key) (diskSrc : Option DiskSrc) : Prop :=
  ∀ src seen, diskSrc = some (src, seen) →
    (∀ c, newest cells key = some c → c.addr < store.log.head) → FreshSrc cells key src

theorem FreshSrc.none {cells : List Cell} {key : Key} (h : FreshSrc cells key none) :
    newest cells key = .none := by
  simpa [FreshSrc, eq_comm] using h

theorem FreshSrc.some {cells : List Cell} {key : Key} {r : Record}
    (h : FreshSrc cells key (some r)) :
    ∃ c, newest cells key = .some c ∧ r.info.isTombstone = c.tombstone ∧ r.data = c.data := by
  obtain ⟨c, hc, himg⟩ := Option.map_eq_some_iff.mp h.symm
  exact ⟨c, hc, (congrArg (fun r => r.info.isTombstone) himg).symm, (congrArg Record.data himg).symm⟩

section Operations

variable {I O : Type} {g : Geometry} {rest : ℕ → Option Record} {store : Store} {cells : List Cell}
  {state : SystemState} {key : Key} {f : SessionFunctions I O} {input : I} {out : O}

theorem HashIndex.findTag_spec (idx : HashIndex) (hash : ℕ) :
    (idx.findTag hash = none ∧ idx.load (idx.slotOf hash) = none) ∨
    ∃ a, idx.findTag hash = some (idx.slotOf hash) ∧ idx.load (idx.slotOf hash) = some a := by
  unfold HashIndex.findTag
  cases hload : idx.load (idx.slotOf hash) with
  | none => exact .inl ⟨rfl, rfl⟩
  | some a => exact .inr ⟨a, rfl, rfl⟩

theorem view_of_newest {c : Cell} (hc : newest cells key = some c) : view cells key = c.live := by
  simp [view, hc]

theorem view_of_newest_none (hc : newest cells key = none) : view cells key = none := by
  simp [view, hc]

theorem internalRead_spec (h : StoreOver g rest store cells) :
    let a := internalRead g f store state key input out
    AttemptSpec g rest store cells state key none a
      (a.Matches out fun _ => Plain.read f (view cells key) key input out) := by
  intro a
  have hr : Reached g rest store cells state key store cells none := (Prepared.refl h).toReached
  simp only [a, internalRead]
  rcases store.index.findTag_spec (hash64 key) with ⟨hfind, hload⟩ | ⟨latest, hfind, hload⟩
  · rw [hfind]
    refine .kept hr (.done rfl) (.inr ⟨⟨true, true⟩, ?_⟩)
    rw [view_of_newest_none (h.newest_of_unclaimed hload)]
    rfl
  · rw [hfind]
    simp only [HashIndex.slotOf_hash64] at hload ⊢
    rw [hload, h.load_eq hload]
    simp only [Option.getD_some]
    have hsearch := h.search key (le_refl store.log.head)
    generalize traceBack g store.log key store.log.head
      (headAddr (store.chainOf cells key) + 1) (headAddr (store.chainOf cells key)) = tr at hsearch
    cases hsearch with
    | @found c hc hhead =>
      obtain ⟨m, hrec⟩ := h.recordAt_newest hc hhead
      simp only [hrec]
      rcases cprGate_newest store state c c.prev c.tombstone m with ⟨hgate, hphase, -⟩ | ⟨hgate, -⟩
      · rw [hgate]
        exact .kept hr (.shift rfl rfl rfl hphase) (.inl rfl)
      · rw [hgate, view_of_newest hc]
        cases htomb : c.tombstone with
        | true =>
          refine .kept hr (.done rfl) (.inr ⟨⟨true, true⟩, ?_⟩)
          simp [Attempt.shown, Plain.read, Cell.live, htomb]
        | false =>
          refine .kept hr (.done rfl) (.inr ⟨⟨true, true⟩, ?_⟩)
          simp [Attempt.shown, Plain.read, Cell.live, htomb]
    | @stopped below hsuf hnew hlt =>
      simp only
      split
      · exact .kept hr (.onDisk rfl rfl rfl rfl ⟨rfl, below, hsuf, rfl, hnew, hlt⟩) (.inl rfl)
      · next hend =>
        have hnil : below = [] := by
          by_contra hne
          exact hend ((h.continuesOnDisk hsuf).mpr hne)
        refine .kept hr (.done rfl) (.inr ⟨⟨true, true⟩, ?_⟩)
        rw [view_of_newest_none (by rw [hnew, hnil]; rfl)]
        rfl

/-- What an operation that claims its slot loads from it. -/
theorem claimed_spec (h : StoreOver g rest store cells) {index : HashIndex} {slot : SlotRef}
    (hclaim : store.index.findOrCreateTag (hash64 key) = some (index, slot)) :
    slot = keySlot index.mask key ∧
      index.load (keySlot index.mask key) =
        some (headAddr (Store.chainOf { store with index := index } cells key)) := by
  obtain ⟨hslot, hmask, hload⟩ := HashIndex.findOrCreateTag_spec hclaim
  have heq : slot = keySlot index.mask key := by rw [hslot, hmask]; rfl
  have hl := hload slot
  rw [if_pos rfl] at hl
  rw [← heq]
  refine ⟨rfl, ?_⟩
  have hinv := h.claim hclaim
  rw [heq] at hl ⊢
  have := hinv.load_eq hl
  rw [hl, this]

theorem internalUpsert_spec (h : StoreOver g rest store cells) (hspace : store.log.HasSpace g) :
    let a := internalUpsert g f store state key input out
    AttemptSpec g rest store cells state key none a
      (a.Matches out fun luck => Plain.upsert f luck (view cells key) key input out) := by
  intro a
  simp only [a, internalUpsert]
  cases hclaim : store.index.findOrCreateTag (hash64 key) with
  | none => exact .aborted (by decide) rfl
  | some p =>
    obtain ⟨index, slot⟩ := p
    obtain ⟨rfl, hload⟩ := claimed_spec h hclaim
    have hr : Prepared g rest store cells state key { store with index := index } cells none :=
      Prepared.claim h hclaim
    have hcreate : ∀ {old : Option ℕ} {out' : O} {calls : List Call},
        OldOk store.log cells key old →
        let a := upsertCreate g f { store with index := index } state (keySlot index.mask key)
          (headAddr (Store.chainOf { store with index := index } cells key)) key input old out' calls
        AttemptSpec g rest store cells state key none a (∃ room, ∀ luck : Luck, luck.room = room →
          a.shown = Plain.upsertCreate f luck key input out' calls) := fun hold =>
      hr.publish hspace (f.upsertSize_keyLen key input) hload hold
    have hblind : ∀ {old : Option ℕ}, OldOk store.log cells key old →
        let a := upsertCreate g f { store with index := index } state (keySlot index.mask key)
          (headAddr (Store.chainOf { store with index := index } cells key)) key input old out []
        AttemptSpec g rest store cells state key none a
          (a.Matches out fun luck => Plain.upsert f luck (view cells key) key input out) := by
      intro old hold
      refine (hcreate hold).imp ?_
      rintro ⟨room, hroom⟩
      refine .inr ⟨⟨false, room⟩, ?_⟩
      rw [hroom ⟨false, room⟩ rfl]
      cases view cells key <;> rfl
    simp only [hload, Option.getD_some]
    have hsearch := hr.inv.search key h.log.head_le_readOnly
    generalize traceBack g store.log key store.log.readOnly
      (headAddr (Store.chainOf { store with index := index } cells key) + 1)
      (headAddr (Store.chainOf { store with index := index } cells key)) = tr at hsearch
    cases hsearch with
    | @found c hc hro =>
      have hhead : store.log.head ≤ c.addr := le_trans h.log.head_le_readOnly hro
      obtain ⟨m, hrec⟩ := h.recordAt_newest hc hhead
      have hold : OldOk store.log cells key (some c.addr) := by
        intro a ha
        cases ha
        exact ⟨c, hc, rfl, hhead⟩
      simp only [hrec]
      rcases cprGate_newest { store with index := index } state c c.prev c.tombstone m with ⟨hgate, hphase, -⟩ | ⟨hgate, hnot⟩
      · rw [hgate]
        exact .kept hr.toReached (.shift rfl rfl rfl hphase) (.inl rfl)
      · rw [hgate]
        simp only
        split
        · exact hblind (OldOk.none _ _ _)
        · next htomb =>
          have hlive : c.live = some c.data := by simp [Cell.live, htomb]
          split
          · exact hblind hold
          · next hblock =>
            have hmay : MayEdit state store.checkpointStartAddress c :=
              ⟨hnot, (cprBlocksInPlace_iff { store with index := index } c _
                rfl).mp (by simpa using hblock)⟩
            rw [view_of_newest hc, hlive]
            cases hres : f.inPlaceWriter key input c.data out with
            | mk res out' =>
              cases res with
              | some p =>
                simp only
                rw [updateData_setModified]
                have hedit := hr.edit (f := Cell.write p)
                  (r := ⟨(store.log.recordAt g c.addr).info.setModified,
                    (store.log.recordAt g c.addr).data.write p⟩) hc hro (Cell.write_keeps p)
                  (by rw [hrec]; rfl) (by rw [hrec]; rfl) hmay
                have hw : (Cell.write p c).live = some (c.data.write p) := by
                  simp [Cell.live, Cell.write, htomb]
                rw [hw] at hedit
                refine .kept hedit.toReached (.done rfl) (.inr ⟨⟨true, true⟩, ?_⟩)
                simp only [Plain.upsert, hres]
                rfl
              | none =>
                refine (hcreate hold).imp ?_
                rintro ⟨room, hroom⟩
                refine .inr ⟨⟨true, room⟩, ?_⟩
                simp only [Plain.upsert, hres]
                exact hroom ⟨true, room⟩ rfl
    | stopped _ _ _ => exact hblind (OldOk.none _ _ _)

theorem internalRmw_spec (h : StoreOver g rest store cells) (hspace : store.log.HasSpace g)
    (diskSrc : Option DiskSrc) :
    let a := internalRmw g f store state key input out diskSrc
    AttemptSpec g rest store cells state key (diskSrc.map Prod.snd) a
      (FreshIfUsed store cells key diskSrc →
        a.Matches out fun luck => Plain.rmw f luck (view cells key) key input out) := by
  intro a
  simp only [a, internalRmw]
  cases hclaim : store.index.findOrCreateTag (hash64 key) with
  | none => exact .aborted (by decide) rfl
  | some p =>
    obtain ⟨index, slot⟩ := p
    obtain ⟨rfl, hload⟩ := claimed_spec h hclaim
    have hr : Prepared g rest store cells state key { store with index := index } cells none :=
      Prepared.claim h hclaim
    have hchain : Store.chainOf { store with index := index } cells key =
        store.chainOf cells key := by
      simp only [Store.chainOf, (HashIndex.findOrCreateTag_spec hclaim).2.1]
    have hinitial : view cells key = none → ∀ fresh : Prop,
        let a := rmwInitial g f { store with index := index } state (keySlot index.mask key)
          (headAddr (Store.chainOf { store with index := index } cells key)) key input out [] none
        AttemptSpec g rest store cells state key (diskSrc.map Prod.snd) a (fresh →
          a.Matches out fun luck => Plain.rmw f luck (view cells key) key input out) := by
      intro hview fresh
      refine (hr.rmwInitial hspace hload out _).imp ?_
      rintro ⟨room, hroom⟩ -
      refine .inr ⟨⟨false, room⟩, ?_⟩
      rw [hroom ⟨false, room⟩ rfl, hview]
      rfl
    simp only [hload, Option.getD_some]
    have hsearch := hr.inv.search key (le_refl store.log.head)
    generalize traceBack g store.log key store.log.head
      (headAddr (Store.chainOf { store with index := index } cells key) + 1)
      (headAddr (Store.chainOf { store with index := index } cells key)) = tr at hsearch
    cases hsearch with
    | @found c hc hhead =>
      obtain ⟨m, hrec⟩ := h.recordAt_newest hc hhead
      simp only [hrec]
      rcases cprGate_newest { store with index := index } state c c.prev c.tombstone m with ⟨hgate, hphase, -⟩ | ⟨hgate, hnot⟩
      · rw [hgate]
        exact .kept hr.toReached (.shift rfl rfl rfl hphase) fun _ => .inl rfl
      · rw [hgate]
        simp only
        split
        · next htomb => exact hinitial (by rw [view_of_newest hc]; simp [Cell.live, htomb]) _
        · next htomb =>
          have hlive : c.live = some c.data := by simp [Cell.live, htomb]
          split
          · next hro =>
            have hmut := hr.rmwMutable f input (diskSrc.map Prod.snd) out hspace hload hc hro hrec
              (by simpa using htomb) hnot
            simp only [hrec] at hmut
            refine hmut.imp ?_
            rintro ⟨luck, hshown⟩ -
            refine .inr ⟨luck, ?_⟩
            rw [hshown, view_of_newest hc, hlive]
          · next hro =>
            split
            · next hsafe =>
              exact .kept hr.toReached (.fuzzy rfl rfl rfl hc hsafe (by omega)) fun _ => .inl rfl
            · refine (hr.rmwCopy (f := f) hspace hload out [] (OldOk.none _ _ _) c.data).imp ?_
              rintro ⟨room, hroom⟩ -
              refine .inr ⟨⟨false, room⟩, ?_⟩
              rw [hroom ⟨false, room⟩ rfl, view_of_newest hc, hlive]
              rfl
    | @stopped below hsuf hnew hlt =>
      have hcold : ∀ c, newest cells key = some c → c.addr < store.log.head := fun c hc =>
        hlt c (newest_mem (hnew.symm.trans hc)).1
      simp only
      split
      · cases diskSrc with
        | none =>
          exact .kept hr.toReached (.onDisk rfl rfl rfl rfl
            ⟨by rw [hchain], below, by rw [← hchain]; exact hsuf, rfl, hnew, hlt⟩) fun _ => .inl rfl
        | some src =>
          obtain ⟨src, seen⟩ := src
          simp only
          split
          · cases src with
            | none =>
              refine (hr.rmwInitial (f := f) hspace hload out []).imp ?_
              rintro ⟨room, hroom⟩ hfresh
              refine .inr ⟨⟨false, room⟩, ?_⟩
              rw [hroom ⟨false, room⟩ rfl, view_of_newest_none (hfresh _ _ rfl hcold).none]
              rfl
            | some old =>
              simp only
              split
              · next htomb =>
                refine (hr.rmwInitial (f := f) hspace hload out []).imp ?_
                rintro ⟨room, hroom⟩ hfresh
                obtain ⟨c, hc, ht, -⟩ := (hfresh _ _ rfl hcold).some
                refine .inr ⟨⟨false, room⟩, ?_⟩
                rw [hroom ⟨false, room⟩ rfl, view_of_newest hc, Cell.live, ← ht, if_pos htomb]
                rfl
              · next htomb =>
                refine (hr.rmwCopy (f := f) hspace hload out [] (OldOk.none _ _ _) old.data).imp ?_
                rintro ⟨room, hroom⟩ hfresh
                obtain ⟨c, hc, ht, hd⟩ := (hfresh _ _ rfl hcold).some
                refine .inr ⟨⟨false, room⟩, ?_⟩
                rw [hroom ⟨false, room⟩ rfl, view_of_newest hc, Cell.live, ← ht, if_neg htomb, hd]
                rfl
          · next hstale =>
            refine .kept hr.toReached (.stale rfl rfl rfl rfl ?_) fun _ => .inl rfl
            rw [← hchain]
            rintro rfl
            exact hstale (by simp [sourceStillLatest])
      · next hend =>
        have hnil : below = [] := by
          by_contra hne
          exact hend ((hr.inv.continuesOnDisk hsuf).mpr hne)
        exact hinitial (view_of_newest_none (by rw [hnew, hnil]; rfl)) _

theorem internalDelete_spec (h : StoreOver g rest store cells) (hspace : store.log.HasSpace g)
    (diskSrc : Option DiskSrc) :
    let a := internalDelete g store state key out (diskSrc.map fun s => (existsOnDisk s.1, s.2))
    AttemptSpec g rest store cells state key (diskSrc.map Prod.snd) a
      (FreshIfUsed store cells key diskSrc →
        a.Matches out fun luck => Plain.delete luck (view cells key) key out) := by
  intro a
  simp only [a, internalDelete]
  have hr : Prepared g rest store cells state key store cells none := Prepared.refl h
  have hmissing : view cells key = none → ∀ fresh : Prop, AttemptSpec g rest store cells state key
      (diskSrc.map Prod.snd) (⟨.done .notFound, store, out, [], none⟩ : Attempt O) (fresh → Attempt.Matches
        ⟨.done .notFound, store, out, [], none⟩ out
        fun luck => Plain.delete luck (view cells key) key out) := by
    intro hview fresh
    refine .kept hr.toReached (.done rfl) fun _ => .inr ⟨⟨false, true⟩, ?_⟩
    rw [hview]
    rfl
  rcases store.index.findTag_spec (hash64 key) with ⟨hfind, hload⟩ | ⟨latest, hfind, hload⟩
  · rw [hfind]
    exact hmissing (view_of_newest_none (h.newest_of_unclaimed hload)) _
  · rw [hfind]
    rw [HashIndex.slotOf_hash64] at hload
    have hlatest := h.load_eq hload
    rw [hlatest] at hload
    have hget : (store.index.load (store.index.slotOf (hash64 key))).getD 0 =
        headAddr (store.chainOf cells key) := by
      rw [HashIndex.slotOf_hash64, hload]
      rfl
    simp only
    rw [hget, HashIndex.slotOf_hash64]
    have hbury : ∀ {d : RecordData} {old : Option ℕ}, view cells key = some d →
        OldOk store.log cells key old → ∀ fresh : Prop,
        let a := deleteRcu g store state (keySlot store.index.mask key)
          (headAddr (store.chainOf cells key)) key old out []
        AttemptSpec g rest store cells state key (diskSrc.map Prod.snd) a (fresh →
          a.Matches out fun luck => Plain.delete luck (view cells key) key out) := by
      intro d old hview hold fresh
      refine (hr.deleteRcu hspace hload out _ hold).imp ?_
      rintro ⟨room, hroom⟩ -
      refine .inr ⟨⟨false, room⟩, ?_⟩
      rw [hroom ⟨false, room⟩ rfl, hview]
      rfl
    have hsearch := h.search key (le_refl store.log.head)
    generalize traceBack g store.log key store.log.head
      (headAddr (store.chainOf cells key) + 1) (headAddr (store.chainOf cells key)) = tr at hsearch
    cases hsearch with
    | @found c hc hhead =>
      obtain ⟨m, hrec⟩ := h.recordAt_newest hc hhead
      simp only [hrec]
      rcases cprGate_newest store state c c.prev c.tombstone m with ⟨hgate, hphase, -⟩ | ⟨hgate, hnot⟩
      · rw [hgate]
        exact .kept hr.toReached (.shift rfl rfl rfl hphase) fun _ => .inl rfl
      · rw [hgate]
        simp only
        split
        · next htomb => exact hmissing (by rw [view_of_newest hc]; simp [Cell.live, htomb]) _
        · next htomb =>
          have hview : view cells key = some c.data := by
            rw [view_of_newest hc]; simp [Cell.live, htomb]
          split
          · next hcond =>
            have hmay : MayEdit state store.checkpointStartAddress c :=
              ⟨hnot, (cprBlocksInPlace_iff _ c _ rfl).mp (by simpa using hcond.2)⟩
            rw [setTombstone_setModified]
            have hedit := hr.edit (f := Cell.bury)
              (r := ⟨(store.log.recordAt g c.addr).info.setTombstone.setModified,
                (store.log.recordAt g c.addr).data⟩) hc hcond.1 Cell.bury_keeps
              (by rw [hrec]; rfl) (by rw [hrec]; rfl) hmay
            refine .kept hedit.toReached (.done rfl) fun _ => .inr ⟨⟨true, true⟩, ?_⟩
            rw [hview]
            rfl
          · refine hbury hview ?_ _
            intro a ha
            cases ha
            exact ⟨c, hc, rfl, hhead⟩
    | @stopped below hsuf hnew hlt =>
      have hcold : ∀ c, newest cells key = some c → c.addr < store.log.head := fun c hc =>
        hlt c (newest_mem (hnew.symm.trans hc)).1
      simp only
      split
      · cases diskSrc with
        | none =>
          exact .kept hr.toReached (.onDisk rfl rfl rfl rfl ⟨rfl, below, hsuf, rfl, hnew, hlt⟩)
            fun _ => .inl rfl
        | some src =>
          obtain ⟨src, seen⟩ := src
          simp only [Option.map_some]
          split
          · split
            · next hexists =>
              refine (hr.deleteRcu hspace hload out [] (OldOk.none _ _ _)).imp ?_
              rintro ⟨room, hroom⟩ hfresh
              cases src with
              | none => exact absurd hexists (by simp [existsOnDisk])
              | some old =>
                obtain ⟨c, hc, ht, hd⟩ := (hfresh _ _ rfl hcold).some
                have hnt : c.tombstone = false := by simpa [existsOnDisk, ht] using hexists
                refine .inr ⟨⟨false, room⟩, ?_⟩
                rw [hroom ⟨false, room⟩ rfl, view_of_newest hc, Cell.live, hnt]
                rfl
            · next hexists =>
              refine .kept hr.toReached (.done rfl) fun hfresh => .inr ⟨⟨false, true⟩, ?_⟩
              have hview : view cells key = none := by
                cases src with
                | none => exact view_of_newest_none (hfresh _ _ rfl hcold).none
                | some old =>
                  obtain ⟨c, hc, ht, hd⟩ := (hfresh _ _ rfl hcold).some
                  have hnt : c.tombstone = true := by simpa [existsOnDisk, ht] using hexists
                  rw [view_of_newest hc, Cell.live, hnt]
                  rfl
              rw [hview]
              rfl
          · next hstale =>
            refine .kept hr.toReached (.stale rfl rfl rfl rfl ?_) fun _ => .inl rfl
            rintro rfl
            exact hstale (by simp [sourceStillLatest])
      · next hend =>
        have hnil : below = [] := by
          by_contra hne
          exact hend ((h.continuesOnDisk hsuf).mpr hne)
        exact hmissing (view_of_newest_none (by rw [hnew, hnil]; rfl)) _

end Operations

end Tsavorite
