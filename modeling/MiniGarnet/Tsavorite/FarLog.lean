import MiniGarnet.Tsavorite.SessionInv

/-! # Past the 48 bits of an address

    A header and an index entry have 48 bits for an address, and the log
    grows on.  One session that keeps replacing a record fills page after
    page; here all pages stay in memory and mutable, so that nothing else
    happens.  The record of page `2 ^ 18` is published under the address of
    the first record of all.
-/

namespace Tsavorite.FarLog

/-! ## Section 1: A long log -/

/-- Pages of a gibibyte, all of them in memory. -/
def vast : Geometry where
  pageBits := 30
  bufferSize := 2 ^ 19
  mutablePages := 2 ^ 19 - 1
  nine_le_pageBits := by norm_num
  pageBits_le_thirty := by norm_num
  two_le_bufferSize := by norm_num
  bufferSize_isPowerOfTwo := ⟨19, rfl⟩
  one_le_mutablePages := by norm_num
  mutablePages_lt := by norm_num

/-- The size of a record that fills a page. -/
def pageFill (key : Key) : RecordSizeInfo := ⟨key.length, 2 ^ 30 - 88 - key.length, false⟩

/-- Callbacks that never write in place: an upsert appends a record that fills a page. -/
def appends : SessionFunctions Unit Unit where
  reader _ _ _ _ := (true, ())
  upsertSize key _ := pageFill key
  initialWriter _ _ _ _ := (⟨[], 0⟩, ())
  inPlaceWriter _ _ _ _ := (none, ())
  needInitialUpdate _ _ _ := (false, ())
  initialSize key _ := pageFill key
  initialUpdater _ _ _ _ := (⟨[], 0⟩, ())
  inPlaceUpdater _ _ _ _ := (.needCopy, ())
  needCopyUpdate _ _ _ _ := (.cancel, ())
  copySize key _ _ := pageFill key
  copyUpdater _ _ _ _ _ := (⟨[], 0⟩, ())
  upsertSize_keyLen _ _ := rfl
  initialSize_keyLen _ _ := rfl
  copySize_keyLen _ _ _ := rfl

/-- The key of the first record. -/
def firstKey : Key := [107, 109]

/-- The key of all others, on the same chain. -/
def laterKey : Key := [109, 121]

theorem same_slot : keySlot 1 firstKey = keySlot 1 laterKey := by decide +kernel

theorem firstKey_ne : firstKey ≠ laterKey := by decide

/-- Where the record of a page is. -/
def place (page : ℕ) : ℕ := page * vast.pageSize + FIRST_VALID_ADDRESS

/-- What an upsert leaves as the body. -/
def body (key : Key) : RecordData := (blank key (pageFill key)).write ⟨[], 0⟩

/-- The record of a page, when the pages up to `n` are full; the chain of the later records ends
    at `bottom`. -/
def recordOf (bottom n page : ℕ) : Record :=
  if page = 0 then ⟨⟨1, false, true, false, false, false⟩, body firstKey⟩
  else ⟨⟨if page = 1 then bottom else place (page - 1), false, true, false, false,
    decide (page < n)⟩, body laterKey⟩

/-- An index whose only entry is the one of both keys. -/
def indexAt (address : ℕ) : HashIndex :=
  (HashIndex.new 1).setBucket (keySlot 1 laterKey).bucket
    [HashEntry.make (keySlot 1 laterKey).tag address]

/-- The pages up to `n` are full. -/
def filled (bottom n : ℕ) : Store where
  log := { HybridLog.new Device.empty with
    tail := pack n vast.pageSize
    pages := fun slot off =>
      if slot ≤ n ∧ off = FIRST_VALID_ADDRESS then some (recordOf bottom n slot) else none }
  index := indexAt (place n)
  systemState := ⟨.rest, 1⟩
  checkpointStartAddress := 2 ^ 64 - 1

theorem isFree_vast {page closed : ℕ} (hp : page < 2 ^ 19) : vast.pageIsFree closed page = true := by
  have hb : vast.bufferSize = 2 ^ 19 := rfl
  simp only [Geometry.pageIsFree, hb, hp, decide_true, Bool.true_or]

theorem issueShiftAddresses_vast {page : ℕ} (hp : page + 2 ≤ 2 ^ 19) (log : HybridLog) :
    log.issueShiftAddresses vast page = log := by
  have hb : vast.bufferSize = 2 ^ 19 := rfl
  have hm : vast.mutablePages = 2 ^ 19 - 1 := rfl
  have hhead : HybridLog.desiredHead vast page = 0 := by
    rw [HybridLog.desiredHead, hb, Nat.sub_eq_zero_of_le hp, Nat.zero_mul]
  have hro : HybridLog.desiredRo vast page = 0 := by
    rw [HybridLog.desiredRo, hhead, hm, Nat.sub_eq_zero_of_le (by omega), Nat.zero_mul]
    rfl
  simp only [HybridLog.issueShiftAddresses, hhead, hro, Nat.not_lt_zero, if_false]

theorem pageFill_totalSize {key : Key} (hkey : key.length = 2) :
    FIRST_VALID_ADDRESS + (pageFill key).totalSize = vast.pageSize := by
  have hps : vast.pageSize = 2 ^ 30 := rfl
  rw [hps]
  simp only [pageFill, RecordSizeInfo.totalSize, hkey, align8, FIXED_HEADER_SIZE,
    FIRST_VALID_ADDRESS, PAGE_HEADER_SIZE]
  norm_num

theorem slotOf_place {page : ℕ} (hp : page < 2 ^ 19) :
    vast.slotOf (vast.pageOf (place page)) = page ∧
      vast.pageOffset (place page) = FIRST_VALID_ADDRESS := by
  constructor
  · rw [place, vast.pageOf_join vast.header_lt_pageSize, vast.slotOf_eq]
    exact Nat.mod_eq_of_lt hp
  · rw [place, vast.pageOffset_join vast.header_lt_pageSize]

section Allocating

variable {g : Geometry} {log log' : HybridLog} {n size : ℕ}

/-- The next page is free, and the record fills it. -/
theorem tryAllocate_turn (htail : unpack log.tail = (n, g.pageSize))
    (hsize : FIRST_VALID_ADDRESS + size = g.pageSize) (hpos : 0 < size)
    (hfree : g.pageIsFree log.closedUntil (n + 1) = true)
    (hshift : ∀ log : HybridLog, log.issueShiftAddresses g (n + 1) = log) :
    log.tryAllocate g size = (.ok ((n + 1) * g.pageSize + FIRST_VALID_ADDRESS),
      { log with
        pages := HybridLog.zeroed g log.pages (n + 1)
        tail := pack (n + 1) g.pageSize }) := by
  have hfits : ¬ g.pageSize < size + PAGE_HEADER_SIZE := by
    have : PAGE_HEADER_SIZE = FIRST_VALID_ADDRESS := rfl
    omega
  simp only [HybridLog.tryAllocate, htail]
  rw [if_neg hfits, if_neg (by omega), if_neg (lt_irrefl _), if_pos hfree]
  simp only [hshift, hsize, g.join_eq g.header_lt_pageSize, HybridLog.zeroPage]

theorem tryAllocate_first (htail : unpack log.tail = (0, FIRST_VALID_ADDRESS))
    (hsize : FIRST_VALID_ADDRESS + size = g.pageSize) :
    log.tryAllocate g size =
      (.ok FIRST_VALID_ADDRESS, { log with tail := fetchAdd log.tail size }) := by
  have hfits : ¬ g.pageSize < size + PAGE_HEADER_SIZE := by
    have : PAGE_HEADER_SIZE = FIRST_VALID_ADDRESS := rfl
    omega
  simp only [HybridLog.tryAllocate, htail]
  rw [if_neg hfits, if_pos (by omega), Nat.zero_shiftLeft, Nat.zero_or]

/-- A record whose place is granted at once, above its chain. -/
theorem allocateRecord_of_tryAllocate {state : SystemState} {size : RecordSizeInfo} {key : Key}
    {prev addr fuel : ℕ} (halloc : log.tryAllocate g size.totalSize = (.ok addr, log'))
    (hlt : prev < addr) (hfuel : 0 < fuel) :
    allocateRecord g state size key prev fuel log =
      (.ok addr, log'.setRecord g addr (Record.init prev state.inNewVersion size key)) := by
  obtain ⟨m, rfl⟩ : ∃ m, fuel = m + 1 := ⟨fuel - 1, by omega⟩
  have hspin : log.tryAllocateRetryNow g (2 ^ 32) size.totalSize = (.ok addr, log') := by
    rw [show 2 ^ 32 = (2 ^ 32 - 1) + 1 from rfl, HybridLog.tryAllocateRetryNow, halloc]
  rw [allocateRecord, hspin]
  simp only
  rw [if_neg (by omega)]

end Allocating

/-! ## Section 2: One upsert -/

section Index

theorem mask_new : (HashIndex.new 1).mask = 1 := by decide +kernel

theorem slotOf_eq {idx : HashIndex} (hmask : idx.mask = 1) (key : Key) :
    idx.slotOf (hash64 key) = keySlot 1 key := by
  rw [HashIndex.slotOf_hash64, hmask]

theorem load_indexAt (a : ℕ) :
    (indexAt a).load (keySlot 1 laterKey) = some (maskAddress a) := by
  simp [indexAt, HashIndex.load, HashIndex.setBucket, HashEntry.make]

theorem findOrCreateTag_indexAt (a : ℕ) :
    (indexAt a).findOrCreateTag (hash64 laterKey) = some (indexAt a, keySlot 1 laterKey) := by
  unfold HashIndex.findOrCreateTag
  rw [slotOf_eq (show (indexAt a).mask = 1 from mask_new)]
  simp only [load_indexAt]
  rfl

theorem tryCas_indexAt (a b : ℕ) :
    (indexAt a).tryCas (keySlot 1 laterKey) (maskAddress a) b = some (indexAt b) := by
  unfold HashIndex.tryCas
  rw [if_pos (load_indexAt a)]
  refine congrArg some ?_
  simp only [indexAt, HashIndex.setBucket, HashEntry.make]
  congr 1
  funext i
  split
  · simp
  · rfl

/-- The first claim of an empty index. -/
theorem findOrCreateTag_new {key : Key} (hslot : keySlot 1 key = keySlot 1 laterKey) :
    (HashIndex.new 1).findOrCreateTag (hash64 key) = some (indexAt 1, keySlot 1 laterKey) := by
  unfold HashIndex.findOrCreateTag
  rw [slotOf_eq mask_new, hslot]
  rfl

end Index

/-- A store at another epoch. -/
def within (e : LightEpoch DrainAction) (store : Store) : Store :=
  { store with log := { store.log with epoch := e } }

section Upserts

variable {bottom n : ℕ} {e : LightEpoch DrainAction}

theorem slotAt_filled {page : ℕ} (hle : page ≤ n) (hp : page < 2 ^ 19) :
    (within e (filled bottom n)).log.slotAt vast (place page) = some (recordOf bottom n page) := by
  obtain ⟨hslot, hoff⟩ := slotOf_place hp
  unfold HybridLog.slotAt
  rw [hslot, hoff]
  simp [within, filled, hle]

theorem recordAt_filled {page : ℕ} (hle : page ≤ n) (hp : page < 2 ^ 19) :
    (within e (filled bottom n)).log.recordAt vast (place page) = recordOf bottom n page := by
  rw [HybridLog.recordAt, slotAt_filled hle hp, Option.getD_some]

/-- What comes to lie in memory when the next page is filled, and the record before it sealed. -/
theorem pages_succ (hn : n + 1 < 2 ^ 19) (hpos : 1 ≤ n) (slot off : ℕ) :
    (if slot = n ∧ off = FIRST_VALID_ADDRESS then
        some { recordOf bottom n n with info := (recordOf bottom n n).info.trySeal }
      else if slot = n + 1 ∧ off = FIRST_VALID_ADDRESS then
        some ⟨⟨place n, false, true, false, false, false⟩, body laterKey⟩
      else if slot = n + 1 then none
      else if slot ≤ n ∧ off = FIRST_VALID_ADDRESS then some (recordOf bottom n slot) else none) =
    if slot ≤ n + 1 ∧ off = FIRST_VALID_ADDRESS then some (recordOf bottom (n + 1) slot) else none := by
  by_cases hoff : off = FIRST_VALID_ADDRESS
  swap
  · simp [hoff]
  simp only [hoff, and_true]
  by_cases heq : slot = n
  · subst heq
    rw [if_pos rfl, if_pos (by omega)]
    have hne : slot ≠ 0 := by omega
    simp [recordOf, hne, RecordInfo.trySeal]
  rw [if_neg heq]
  by_cases hnew : slot = n + 1
  · subst hnew
    have hne : n ≠ 0 := by omega
    simp [recordOf, hne]
  rw [if_neg hnew, if_neg hnew]
  by_cases hle : slot ≤ n
  · rw [if_pos hle, if_pos (by omega)]
    have h1 : slot < n := by omega
    have h2 : slot < n + 1 := by omega
    simp [recordOf, h1, h2]
  · rw [if_neg hle, if_neg (by omega)]

theorem place_lt (hn : n < 2 ^ 18) : place n < 2 ^ 48 := by
  have hps : vast.pageSize = 2 ^ 30 := rfl
  have hfirst : FIRST_VALID_ADDRESS = 64 := rfl
  have hle : (n + 1) * vast.pageSize ≤ 2 ^ 18 * vast.pageSize := Nat.mul_le_mul_right _ hn
  have htop : 2 ^ 18 * vast.pageSize = 2 ^ 48 := by rw [hps]; norm_num
  rw [Nat.succ_mul, htop] at hle
  rw [place]
  omega

theorem place_succ (n : ℕ) : place n < place (n + 1) := by
  have := vast.pageSize_pos
  rw [place, place, Nat.succ_mul]
  omega

theorem newest_filled (hpos : 1 ≤ n) : recordOf bottom n n =
    ⟨⟨if n = 1 then bottom else place (n - 1), false, true, false, false, false⟩,
      body laterKey⟩ := by
  have hne : n ≠ 0 := by omega
  simp [recordOf, hne]

theorem traceBack_filled (hpos : 1 ≤ n) (hn : n < 2 ^ 18) :
    traceBack vast (within e (filled bottom n)).log laterKey FIRST_VALID_ADDRESS
      (place n + 1) (place n) = .found (place n) := by
  have hplace : FIRST_VALID_ADDRESS ≤ place n := Nat.le_add_left _ _
  rw [traceBack_step ⟨hplace, hplace⟩, recordAt_filled le_rfl (by omega), newest_filled hpos]
  exact if_pos rfl

end Upserts

/-- What is published on the page behind a full one. -/
theorem publish_turn {store : Store} {n entry : ℕ} {key : Key} (out : Unit) (calls : List Call)
    (wrote : Option (Option RecordData)) (old : Option ℕ)
    (htail : store.log.tail = pack n vast.pageSize) (hn : n < 2 ^ 18) (hkey : key.length = 2)
    {a : ℕ} (hindex : store.index = indexAt a) (hentry : maskAddress a = entry)
    (hmask : maskAddress entry = entry) (hlt : entry < place (n + 1)) :
    publish vast store ⟨.rest, 1⟩ (keySlot 1 laterKey) entry key (pageFill key) out calls wrote
        (appends.initialWriter key ()) false old .created [] =
      ⟨.done .created, sealOld vast old { store with
          log := HybridLog.setRecord vast { store.log with
              pages := HybridLog.zeroed vast store.log.pages (n + 1)
              tail := pack (n + 1) vast.pageSize }
            (place (n + 1)) ⟨⟨entry, false, true, false, false, false⟩, body key⟩
          index := indexAt (place (n + 1)) }, (), calls ++ [], some (some (body key))⟩ := by
  have hps : vast.pageSize < 2 ^ 32 := by decide +kernel
  have htail' : unpack store.log.tail = (n, vast.pageSize) := by
    rw [htail]
    exact unpack_pack (by omega) hps
  have halloc := tryAllocate_turn htail' (pageFill_totalSize hkey) (RecordSizeInfo.totalSize_pos _)
    (isFree_vast (by omega)) (issueShiftAddresses_vast (by omega))
  have hcas := tryCas_indexAt a (place (n + 1))
  rw [hentry, ← hindex] at hcas
  exact publish_granted out calls wrote (appends.initialWriter key ()) false old .created []
    (allocateRecord_of_tryAllocate halloc hlt (Nat.succ_pos _)) hcas hmask

/-- What is published on the first page of an empty log. -/
theorem publish_first {store : Store} {entry : ℕ} {key : Key} (out : Unit) (calls : List Call)
    (wrote : Option (Option RecordData))
    (htail : store.log.tail = pack 0 FIRST_VALID_ADDRESS) (hkey : key.length = 2)
    {a : ℕ} (hindex : store.index = indexAt a) (hentry : maskAddress a = entry)
    (hmask : maskAddress entry = entry) (hlt : entry < FIRST_VALID_ADDRESS) :
    publish vast store ⟨.rest, 1⟩ (keySlot 1 laterKey) entry key (pageFill key) out calls wrote
        (appends.initialWriter key ()) false none .created [] =
      ⟨.done .created, { store with
          log := HybridLog.setRecord vast { store.log with tail := pack 0 vast.pageSize }
            FIRST_VALID_ADDRESS ⟨⟨entry, false, true, false, false, false⟩, body key⟩
          index := indexAt FIRST_VALID_ADDRESS }, (), calls ++ [], some (some (body key))⟩ := by
  have hps : vast.pageSize < 2 ^ 32 := by decide +kernel
  have hfirst : FIRST_VALID_ADDRESS < 2 ^ 32 := by decide
  have htail' : unpack store.log.tail = (0, FIRST_VALID_ADDRESS) := by
    rw [htail]
    exact unpack_pack (by omega) hfirst
  have hadd : fetchAdd store.log.tail (pageFill key).totalSize = pack 0 vast.pageSize := by
    rw [fetchAdd, htail, pack_eq (by omega) hfirst, pack_eq (by omega) hps, Nat.add_assoc,
      pageFill_totalSize hkey]
    exact Nat.mod_eq_of_lt (by omega)
  have halloc := tryAllocate_first htail' (pageFill_totalSize hkey)
  rw [hadd] at halloc
  have hcas := tryCas_indexAt a FIRST_VALID_ADDRESS
  rw [hentry, ← hindex] at hcas
  exact publish_granted out calls wrote (appends.initialWriter key ()) false none .created []
    (allocateRecord_of_tryAllocate halloc hlt (Nat.succ_pos _)) hcas hmask

section Replacing

variable {I O : Type} {g : Geometry} {f : SessionFunctions I O} {store : Store} {state : SystemState}
  {key : Key} {input : I} {out out' : O} {index : HashIndex} {slot : SlotRef} {latest : ℕ}

/-- An upsert that finds its key in the mutable region and does not write in place. -/
theorem internalUpsert_replaces {addr : ℕ} {r : Record}
    (hfind : store.index.findOrCreateTag (hash64 key) = some (index, slot))
    (hload : (index.load slot).getD 0 = latest)
    (htrace : traceBack g store.log key store.log.readOnly (latest + 1) latest = .found addr)
    (hrecord : store.log.recordAt g addr = r)
    (hgate : cprGate { store with index := index } state addr r.info = none)
    (hlive : r.info.isTombstone = false)
    (hblock : cprBlocksInPlace { store with index := index } state addr r.info = false)
    (hwriter : f.inPlaceWriter key input r.data out = (none, out')) :
    internalUpsert g f store state key input out =
      upsertCreate g f { store with index := index } state slot latest key input (some addr) out'
        [.inPlaceWriter r.data] := by
  unfold internalUpsert
  rw [hfind]
  simp only [hload, htrace, hrecord, hgate, hlive, hblock, hwriter, Bool.false_eq_true, if_false]

/-- An upsert that does not find its key there. -/
theorem internalUpsert_appends {addr : ℕ}
    (hfind : store.index.findOrCreateTag (hash64 key) = some (index, slot))
    (hload : (index.load slot).getD 0 = latest)
    (htrace : traceBack g store.log key store.log.readOnly (latest + 1) latest = .stopped addr) :
    internalUpsert g f store state key input out =
      upsertCreate g f { store with index := index } state slot latest key input none out [] := by
  unfold internalUpsert
  rw [hfind]
  simp only [hload, htrace]

end Replacing

section Upserts

variable {bottom n : ℕ} {e : LightEpoch DrainAction}

theorem index_filled : (within e (filled bottom n)).index = indexAt (place n) := rfl

theorem tail_filled : (within e (filled bottom n)).log.tail = pack n vast.pageSize := rfl

theorem pages_filled : (within e (filled bottom n)).log.pages = fun slot off =>
    if slot ≤ n ∧ off = FIRST_VALID_ADDRESS then some (recordOf bottom n slot) else none := rfl

theorem with_index {store : Store} {index : HashIndex} (h : store.index = index) :
    { store with index := index } = store := by
  subst h
  rfl

/-- The page behind the last is filled, and the record of that page sealed. -/
theorem filled_succ (hpos : 1 ≤ n) (hn : n < 2 ^ 18) :
    sealOld vast (some (place n)) { within e (filled bottom n) with
        log := HybridLog.setRecord vast { (within e (filled bottom n)).log with
            pages := HybridLog.zeroed vast (within e (filled bottom n)).log.pages (n + 1)
            tail := pack (n + 1) vast.pageSize }
          (place (n + 1)) ⟨⟨place n, false, true, false, false, false⟩, body laterKey⟩
        index := indexAt (place (n + 1)) } = within e (filled bottom (n + 1)) := by
  obtain ⟨hslot, hoff⟩ := @slotOf_place n (by omega)
  obtain ⟨hslot', hoff'⟩ := @slotOf_place (n + 1) (by omega)
  have hnew : vast.slotOf (n + 1) = n + 1 := by
    rw [vast.slotOf_eq]
    exact Nat.mod_eq_of_lt (show n + 1 < 2 ^ 19 by omega)
  simp only [sealOld, sealAt, HybridLog.updateInfo, HybridLog.recordAt, HybridLog.slotAt,
    HybridLog.setRecord, HybridLog.zeroed, hslot, hoff, hslot', hoff', hnew]
  rw [if_neg (by omega), if_neg (by omega), pages_filled]
  simp only [le_refl, true_and, if_true, Option.getD_some, pages_succ (by omega) hpos]
  rfl

/-- The upsert of the next page. -/
theorem internalUpsert_filled (hpos : 1 ≤ n) (hn : n < 2 ^ 18) :
    internalUpsert vast appends (within e (filled bottom n)) ⟨.rest, 1⟩ laterKey () () =
      ⟨.done .created, within e (filled bottom (n + 1)), (), [.inPlaceWriter (body laterKey)],
        some (some (body laterKey))⟩ := by
  have hmask : maskAddress (place n) = place n := maskAddress_of_lt (place_lt hn)
  have hfind : (within e (filled bottom n)).index.findOrCreateTag (hash64 laterKey) =
      some (indexAt (place n), keySlot 1 laterKey) := by
    rw [index_filled]
    exact findOrCreateTag_indexAt (place n)
  have hload : ((indexAt (place n)).load (keySlot 1 laterKey)).getD 0 = place n := by
    rw [load_indexAt, hmask, Option.getD_some]
  have hrecord : (within e (filled bottom n)).log.recordAt vast (place n) = _ :=
    (recordAt_filled le_rfl (by omega)).trans (newest_filled hpos)
  rw [internalUpsert_replaces hfind hload (traceBack_filled hpos hn) hrecord rfl rfl rfl rfl,
    with_index index_filled, upsertCreate]
  have hpublish := @publish_turn (within e (filled bottom n)) n (place n) laterKey ()
    [.inPlaceWriter (body laterKey)] none (some (place n)) tail_filled hn rfl (place n) index_filled
    hmask hmask (place_succ n)
  refine hpublish.trans ?_
  rw [filled_succ hpos hn]
  rfl

/-! ## Section 3: The first two records -/

theorem place_zero : place 0 = FIRST_VALID_ADDRESS := by rw [place, Nat.zero_mul, Nat.zero_add]

theorem mask_one : maskAddress 1 = 1 := maskAddress_of_lt (by norm_num)

theorem load_indexAt_one : ((indexAt 1).load (keySlot 1 laterKey)).getD 0 = 1 := by
  rw [load_indexAt, mask_one, Option.getD_some]

/-- A chain that ends at once. -/
theorem traceBack_one {g : Geometry} {log : HybridLog} {key : Key} {min n : ℕ} :
    traceBack g log key min (n + 1) 1 = .stopped 1 := by
  rw [traceBack, if_neg]
  rintro ⟨-, h⟩
  exact absurd h (by decide)

/-- The first page is filled. -/
theorem filled_zero (bottom : ℕ) : { within e (Store.new 1 Device.empty) with
      log := HybridLog.setRecord vast { (within e (Store.new 1 Device.empty)).log with
          tail := pack 0 vast.pageSize }
        FIRST_VALID_ADDRESS ⟨⟨1, false, true, false, false, false⟩, body firstKey⟩
      index := indexAt FIRST_VALID_ADDRESS } = within e (filled bottom 0) := by
  obtain ⟨hslot, hoff⟩ := @slotOf_place 0 (by norm_num)
  rw [place_zero] at hslot hoff
  have hpages : ∀ slot off : ℕ,
      (if slot = 0 ∧ off = FIRST_VALID_ADDRESS then
          some (⟨⟨1, false, true, false, false, false⟩, body firstKey⟩ : Record) else none) =
        if slot ≤ 0 ∧ off = FIRST_VALID_ADDRESS then some (recordOf bottom 0 slot) else none := by
    intro slot off
    rcases Nat.eq_zero_or_pos slot with rfl | hpos
    · simp [recordOf]
    · rw [if_neg (by omega), if_neg (by omega)]
  have hindex : indexAt FIRST_VALID_ADDRESS = (filled bottom 0).index := by
    rw [← place_zero]
    rfl
  simp only [HybridLog.setRecord, hslot, hoff, hindex]
  rw [show (within e (Store.new 1 Device.empty)).log.pages = fun _ _ => none from rfl]
  simp only [hpages]
  rfl

/-- The first upsert of all. -/
theorem internalUpsert_first :
    internalUpsert vast appends (within e (Store.new 1 Device.empty)) ⟨.rest, 1⟩ firstKey () () =
      ⟨.done .created, within e (filled bottom 0), (), [], some (some (body firstKey))⟩ := by
  have hfind : (within e (Store.new 1 Device.empty)).index.findOrCreateTag (hash64 firstKey) =
      some (indexAt 1, keySlot 1 laterKey) := findOrCreateTag_new same_slot
  rw [internalUpsert_appends hfind load_indexAt_one traceBack_one, upsertCreate]
  refine (publish_first () [] none rfl rfl rfl mask_one mask_one (by decide)).trans ?_
  rw [← filled_zero bottom]
  rfl

/-- The second page is filled; the first record stays as it is. -/
theorem filled_one (bottom bottom' : ℕ) :
    { within e (filled bottom' 0) with
      log := HybridLog.setRecord vast { (within e (filled bottom' 0)).log with
          pages := HybridLog.zeroed vast (within e (filled bottom' 0)).log.pages (0 + 1)
          tail := pack (0 + 1) vast.pageSize }
        (place (0 + 1)) ⟨⟨bottom, false, true, false, false, false⟩, body laterKey⟩
      index := indexAt (place (0 + 1)) } = within e (filled bottom 1) := by
  obtain ⟨hslot, hoff⟩ := @slotOf_place (0 + 1) (by norm_num)
  have hnew : vast.slotOf (0 + 1) = 0 + 1 := by
    rw [vast.slotOf_eq]
    exact Nat.mod_eq_of_lt (show 0 + 1 < 2 ^ 19 by norm_num)
  have hpages : ∀ slot off : ℕ,
      (if slot = 0 + 1 ∧ off = FIRST_VALID_ADDRESS then
          some (⟨⟨bottom, false, true, false, false, false⟩, body laterKey⟩ : Record)
        else if slot = 0 + 1 then none
        else if slot ≤ 0 ∧ off = FIRST_VALID_ADDRESS then some (recordOf bottom' 0 slot) else none) =
        if slot ≤ 1 ∧ off = FIRST_VALID_ADDRESS then some (recordOf bottom 1 slot) else none := by
    intro slot off
    by_cases hnew : slot = 0 + 1
    · subst hnew
      simp [recordOf]
    · rw [if_neg (by tauto), if_neg hnew]
      rcases Nat.eq_zero_or_pos slot with rfl | hpos
      · simp [recordOf]
      · rw [if_neg (by omega), if_neg (by omega)]
  simp only [HybridLog.setRecord, HybridLog.zeroed, hslot, hoff, hnew]
  rw [pages_filled]
  simp only [hpages]
  rfl

/-- After `clear` the chain starts anew. -/
theorem internalUpsert_cleared :
    internalUpsert vast appends { within e (filled bottom 0) with index := HashIndex.new 1 }
        ⟨.rest, 1⟩ laterKey () () =
      ⟨.done .created, within e (filled 1 1), (), [], some (some (body laterKey))⟩ := by
  have hfind : (HashIndex.new 1).findOrCreateTag (hash64 laterKey) =
      some (indexAt 1, keySlot 1 laterKey) := findOrCreateTag_new rfl
  have hlt : 1 < place (0 + 1) := by
    have := place_succ 0
    rw [place_zero] at this
    exact lt_trans (by decide) this
  have hpublish := @publish_turn { within e (filled bottom 0) with index := indexAt 1 } 0 1 laterKey
    () [] none none tail_filled (by norm_num) rfl 1 rfl mask_one mask_one hlt
  rw [internalUpsert_appends hfind load_indexAt_one traceBack_one, upsertCreate]
  refine hpublish.trans ?_
  rw [← filled_one 1 bottom]
  rfl

end Upserts

/-! ## Section 4: The run -/

/-- No session is in an operation. -/
structure Resting (s : System Unit Unit) (store : Store) : Prop where
  store : s.store = within LightEpoch.new store
  sessions : ∀ t, s.sessions t = ⟨.idle, ()⟩

/-- The steps of an operation that one attempt completes. -/
def turn (req : Request Unit) : List (Label Unit Unit) := [.start 0 req (), .enter 0, .attempt 0]

theorem Resting.turn {s : System Unit Unit} {store store' : Store} (h : Resting s store)
    (req : Request Unit) {status : Status} {calls : List Call} {wrote : Option (Option RecordData)}
    (hattempt : ∀ e, attempt vast appends (within e store) store.systemState req none () =
      ⟨.done status, within e store', (), calls, wrote⟩) :
    ∃ s', Lts.Steps (next vast appends) (fun _ => Alone) s (turn req) s' ∧ Resting s' store' ∧
      s'.history = ⟨0, req, store.systemState.version, (), some status, (), calls, wrote⟩ ::
        s.history := by
  obtain ⟨s₁, hs₁⟩ : ∃ s₁, s₁ = s.setSession 0 ⟨.ready req none 0, ()⟩ := ⟨_, rfl⟩
  obtain ⟨s₂, hs₂⟩ : ∃ s₂, s₂ = { s₁ with store := s.store.protect 0 }.setSession 0
    ⟨.entered req none 0 store.systemState, ()⟩ := ⟨_, rfl⟩
  have hprotect : s.store.protect 0 = within (LightEpoch.new.protect 0) store := by
    rw [h.store]
    rfl
  have hunprotect : (within (LightEpoch.new.protect 0) store').unprotect 0 =
      within LightEpoch.new store' := rfl
  have hstart : next vast appends s (.start 0 req ()) = some s₁ := by
    simp only [next, h.sessions 0, hs₁]
  have henter : next vast appends s₁ (.enter 0) = some s₂ := by
    simp only [next, hs₂, hs₁, System.setSession, if_true, h.store]
    rfl
  have hdone : afterAttempt req none 0 (.done status) = some (.idle, some status) := rfl
  have hlast : next vast appends s₂ (.attempt 0) = some ({ s₂ with
      store := within LightEpoch.new store'
      published := applyWrote s₂.published req.key wrote
      history := ⟨0, req, store.systemState.version, (), some status, (), calls, wrote⟩ ::
        s.history }.setSession 0 ⟨.idle, ()⟩) := by
    have hstore : s₂.store = within (LightEpoch.new.protect 0) store := by rw [hs₂, ← hprotect]; rfl
    have hsession : s₂.sessions 0 = ⟨.entered req none 0 store.systemState, ()⟩ := by rw [hs₂]; rfl
    have hhistory : s₂.history = s.history := by rw [hs₂, hs₁]; rfl
    simp only [next, hsession, hstore, hattempt, hdone, hunprotect, hhistory, Option.map_some]
    rfl
  refine ⟨_, .cons rfl hstart (.cons rfl henter (.cons rfl hlast (.nil _))), ⟨rfl, ?_⟩, rfl⟩
  intro t
  simp only [hs₂, hs₁, System.setSession]
  split
  · rfl
  · exact h.sessions t

/-- An upsert that one attempt completes. -/
theorem Resting.upsert {s : System Unit Unit} {store store' : Store} (h : Resting s store)
    {key : Key} {status : Status} {calls : List Call} {wrote : Option (Option RecordData)}
    (hupsert : ∀ e, internalUpsert vast appends (within e store) store.systemState key () () =
      ⟨.done status, within e store', (), calls, wrote⟩) :
    ∃ s', Lts.Steps (next vast appends) (fun _ => Alone) s (FarLog.turn (.upsert key ())) s' ∧
      Resting s' store' ∧ s'.history =
        ⟨0, .upsert key (), store.systemState.version, (), some status, (), calls, wrote⟩ ::
          s.history := h.turn (.upsert key ()) hupsert

/-- The turns that fill all the pages but the first two. -/
theorem Resting.fill {bottom : ℕ} {s : System Unit Unit} (h : Resting s (filled bottom 1))
    (hlast : outcomeOf s.history laterKey = some (body laterKey)) (n : ℕ) (hpos : 1 ≤ n)
    (hn : n ≤ 2 ^ 18) :
    ∃ ls s', Lts.Steps (next vast appends) (fun _ => Alone) s ls s' ∧
      Resting s' (filled bottom n) ∧ outcomeOf s'.history laterKey = some (body laterKey) ∧
      ∀ e ∈ s'.history, e ∈ s.history ∨ e.req.key = laterKey := by
  induction n, hpos using Nat.le_induction with
  | base => exact ⟨[], s, .nil s, h, hlast, fun e he => .inl he⟩
  | succ n hpos ih =>
    obtain ⟨ls, s₁, hrun, hrest, -, hkeys⟩ := ih (by omega)
    obtain ⟨s₂, hturn, hrest', hhistory⟩ := hrest.upsert
      fun e => internalUpsert_filled hpos (by omega)
    refine ⟨ls ++ FarLog.turn (.upsert laterKey ()), s₂, hrun.append hturn, hrest', ?_, ?_⟩
    · rw [hhistory]
      exact Function.update_self laterKey (some (body laterKey)) (outcomeOf s₁.history)
    · intro e he
      rw [hhistory] at he
      rcases List.mem_cons.mp he with rfl | he
      · exact .inr rfl
      · exact hkeys e he

/-- The entry has come round to the first record. -/
theorem maskAddress_far : maskAddress (place (2 ^ 18)) = FIRST_VALID_ADDRESS := by
  have hps : vast.pageSize = 2 ^ 30 := rfl
  have hfirst : FIRST_VALID_ADDRESS = 64 := rfl
  rw [place, maskAddress, hps, hfirst]
  norm_num [ADDRESS_BITS]

theorem findTag_indexAt {key : Key} (hslot : keySlot 1 key = keySlot 1 laterKey) (a : ℕ) :
    (indexAt a).findTag (hash64 key) = some (keySlot 1 laterKey) := by
  unfold HashIndex.findTag
  rw [slotOf_eq (show (indexAt a).mask = 1 from mask_new), hslot, load_indexAt]
  rfl

theorem resting_new : Resting (System.new (Store.new 1 Device.empty) ()) (Store.new 1 Device.empty) :=
  ⟨rfl, fun _ => rfl⟩

/-- After `clear` has cut off the first record, later turns bring its address back into the index. -/
theorem far_clear : ∃ ls s₁ ls' s,
    Lts.Steps (next vast appends) (fun _ => Alone) (System.new (Store.new 1 Device.empty) ()) ls s₁ ∧
      Lts.Steps (next vast appends) (fun _ => Alone) { s₁ with
          store := { s₁.store with index := s₁.store.index.clear }
          published := fun _ => none
          history := [] } ls' s ∧
      Resting s (filled 1 (2 ^ 18)) ∧ ∀ e ∈ s.history, e.req.key = laterKey := by
  obtain ⟨s₁, hrun₁, hrest₁, -⟩ := resting_new.upsert fun e => @internalUpsert_first 1 e
  have hclear : Resting { s₁ with
      store := { s₁.store with index := s₁.store.index.clear }
      published := fun _ => none
      history := [] } { filled 1 0 with index := HashIndex.new 1 } := by
    refine ⟨?_, hrest₁.sessions⟩
    rw [hrest₁.store]
    rfl
  obtain ⟨s₂, hrun₂, hrest₂, hhistory₂⟩ := hclear.upsert fun e => internalUpsert_cleared
  have hlast₂ : outcomeOf s₂.history laterKey = some (body laterKey) := by
    rw [hhistory₂]
    exact Function.update_self laterKey (some (body laterKey)) fun _ => none
  obtain ⟨ls, s₃, hrun₃, hrest₃, -, hkeys⟩ := hrest₂.fill hlast₂ (2 ^ 18) (by norm_num) le_rfl
  refine ⟨_, s₁, _, s₃, hrun₁, hrun₂.append hrun₃, hrest₃, ?_⟩
  intro e he
  rcases hkeys e he with he | hkey
  · rw [hhistory₂, List.mem_singleton] at he
    rw [he]
    rfl
  · exact hkey

theorem tailPos_far {bottom : ℕ} {e : LightEpoch DrainAction} :
    FIRST_VALID_ADDRESS < (within e (filled bottom (2 ^ 18))).log.tailPos vast := by
  have hps : vast.pageSize < 2 ^ 32 := by decide +kernel
  have htail : unpack (within e (filled bottom (2 ^ 18))).log.tail = (2 ^ 18, vast.pageSize) :=
    unpack_pack (by norm_num) hps
  have hlt := vast.header_lt_pageSize
  have hfirst : FIRST_VALID_ADDRESS = PAGE_HEADER_SIZE := rfl
  rw [HybridLog.tailPos, HybridLog.tailOffset, HybridLog.tailPage, htail]
  omega

end Tsavorite.FarLog
