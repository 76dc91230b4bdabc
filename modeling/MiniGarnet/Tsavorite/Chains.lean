import Mathlib.Data.List.TakeWhile
import MiniGarnet.Tsavorite.Allocation
import MiniGarnet.Tsavorite.Store

/-! # Hash chains

    The records of one index slot form a chain through their previous
    addresses, across memory and the device.  `StoreInv` ties the index and
    the chains to the list of cells: the chain of a slot is the sublist of
    the cells whose keys belong to it.  A walk along the chain is then a
    search in a list.
-/

namespace Tsavorite

/-! ## Section 1: The index -/

/-- The slot a key belongs to. -/
def keySlot (mask : ℕ) (key : Key) : SlotRef :=
  ⟨hash64 key &&& mask, HashIndex.tagOf (hash64 key)⟩

theorem HashIndex.slotOf_hash64 (idx : HashIndex) (key : Key) :
    idx.slotOf (hash64 key) = keySlot idx.mask key := rfl

theorem maskAddress_of_lt {a : ℕ} (h : a < 2 ^ 48) : maskAddress a = a := Nat.mod_eq_of_lt h

theorem HashIndex.load_setBucket (idx : HashIndex) (b : ℕ) (es : List HashEntry) (s : SlotRef) :
    (idx.setBucket b es).load s =
      if s.bucket = b then (es.find? fun e => e.tag = s.tag).map (·.address) else idx.load s := by
  simp only [HashIndex.load, HashIndex.setBucket]
  split <;> rfl

/-- What claiming a slot does to the index. -/
theorem HashIndex.findOrCreateTag_spec {idx idx' : HashIndex} {hash : ℕ} {slot : SlotRef}
    (h : idx.findOrCreateTag hash = some (idx', slot)) :
    slot = idx.slotOf hash ∧ idx'.mask = idx.mask ∧
      ∀ s, idx'.load s =
        if s = slot then some ((idx.load slot).getD TEMP_INVALID_ADDRESS) else idx.load s := by
  unfold HashIndex.findOrCreateTag at h
  simp only at h
  split at h
  · next hsome =>
    simp only [Option.some.injEq, Prod.mk.injEq] at h
    obtain ⟨rfl, rfl⟩ := h
    refine ⟨rfl, rfl, fun s => ?_⟩
    split
    · next heq =>
      subst heq
      obtain ⟨a, ha⟩ := Option.isSome_iff_exists.mp hsome
      rw [ha]
      rfl
    · rfl
  · next hnone =>
    have hload : idx.load (idx.slotOf hash) = none := by simpa using hnone
    obtain ⟨idx₁, hidx₁, hret⟩ := Option.map_eq_some_iff.mp h
    have hsame : idx₁.buckets = idx.buckets ∧ idx₁.mask = idx.mask := by
      unfold HashIndex.reserve at hidx₁
      split at hidx₁
      · unfold HashIndex.allocOverflowBucket at hidx₁
        split at hidx₁
        · cases hidx₁; exact ⟨rfl, rfl⟩
        · cases hidx₁
      · cases hidx₁; exact ⟨rfl, rfl⟩
    simp only [Prod.mk.injEq] at hret
    obtain ⟨rfl, rfl⟩ := hret
    refine ⟨rfl, hsame.2, fun s => ?_⟩
    have hmake : HashEntry.make (idx.slotOf hash).tag TEMP_INVALID_ADDRESS =
        ⟨(idx.slotOf hash).tag, TEMP_INVALID_ADDRESS⟩ := by
      unfold HashEntry.make
      rw [maskAddress_of_lt (by decide)]
    have hold : idx₁.load s = idx.load s := by unfold HashIndex.load; rw [hsame.1]
    rw [HashIndex.load_setBucket, hmake, hload, hold]
    by_cases hs : s = idx.slotOf hash
    · subst hs
      have hfind : ((idx.buckets (idx.slotOf hash).bucket).find? fun e =>
          e.tag = (idx.slotOf hash).tag) = none := by
        simpa [HashIndex.load] using hload
      rw [if_pos rfl, if_pos rfl, List.find?_append, hfind]
      simp
    · rw [if_neg hs]
      split
      · next hb =>
        have htag : s.tag ≠ (idx.slotOf hash).tag := by
          intro ht
          exact hs (by cases s; cases h' : idx.slotOf hash; simp_all)
        rw [List.find?_append]
        simp [HashIndex.load, hb, Ne.symm htag]
      · rfl

/-- What publishing an address does to the index. -/
theorem HashIndex.tryCas_spec {idx idx' : HashIndex} {slot : SlotRef} {expected a : ℕ}
    (h : idx.tryCas slot expected a = some idx') :
    idx'.mask = idx.mask ∧
      ∀ s, idx'.load s = if s = slot then some (maskAddress a) else idx.load s := by
  unfold HashIndex.tryCas at h
  split at h
  swap
  · cases h
  · next hexp =>
    cases h
    refine ⟨rfl, fun s => ?_⟩
    rw [HashIndex.load_setBucket, List.find?_map]
    have htag : ((fun e : HashEntry => decide (e.tag = s.tag)) ∘ fun e : HashEntry =>
        if e.tag = slot.tag then HashEntry.make slot.tag a else e) =
        fun e => decide (e.tag = s.tag) := by
      funext e
      have hkeep : (if e.tag = slot.tag then HashEntry.make slot.tag a else e).tag = e.tag := by
        split
        · next he => exact he.symm
        · rfl
      simp only [Function.comp_apply, hkeep]
    rw [htag]
    by_cases hs : s = slot
    · subst hs
      rw [if_pos rfl, if_pos rfl]
      unfold HashIndex.load at hexp
      obtain ⟨e, he, -⟩ := Option.map_eq_some_iff.mp hexp
      have ht : e.tag = s.tag := by simpa using List.find?_some he
      rw [he]
      simp [ht, HashEntry.make]
    · rw [if_neg hs]
      split
      · next hb =>
        have hne : s.tag ≠ slot.tag := by
          intro ht
          exact hs (by cases s; cases slot; simp_all)
        unfold HashIndex.load
        rw [hb]
        cases hf : (idx.buckets slot.bucket).find? fun e => e.tag = s.tag with
        | none => rfl
        | some e =>
          have ht : e.tag = s.tag := by simpa using List.find?_some hf
          simp [ht, hne]
      · rfl

theorem HashIndex.tryCas_isSome {idx : HashIndex} {slot : SlotRef} {expected : ℕ} (a : ℕ)
    (h : idx.load slot = some expected) : ∃ idx', idx.tryCas slot expected a = some idx' := by
  unfold HashIndex.tryCas
  rw [if_pos h]
  exact ⟨_, rfl⟩

/-! ## Section 2: Chains -/

/-- The cells of one slot, newest first. -/
def chain (mask : ℕ) (s : SlotRef) (cells : List Cell) : List Cell :=
  cells.filter fun c => keySlot mask c.data.key = s

/-- Where a chain starts. -/
def headAddr : List Cell → ℕ
  | [] => TEMP_INVALID_ADDRESS
  | c :: _ => c.addr

theorem headAddr_nil : headAddr [] = TEMP_INVALID_ADDRESS := rfl

theorem headAddr_cons (c : Cell) (l : List Cell) : headAddr (c :: l) = c.addr := rfl

/-- Each cell points at the one behind it. -/
def Linked : List Cell → Prop
  | [] => True
  | c :: rest => c.prev = headAddr rest ∧ Linked rest

/-- The lower part of a chain is linked. -/
theorem Linked.suffix {l l' : List Cell} (h : Linked l) (hl : l' <:+ l) : Linked l' := by
  obtain ⟨pre, rfl⟩ := hl
  induction pre with
  | nil => exact h
  | cons c pre ih => exact ih h.2

/-- The newest cell of a key. -/
def newest (cells : List Cell) (key : Key) : Option Cell := cells.find? fun c => c.data.key = key

theorem newest_chain (mask : ℕ) (cells : List Cell) (key : Key) :
    newest (chain mask (keySlot mask key) cells) key = newest cells key := by
  unfold newest chain
  rw [List.find?_filter]
  congr 1
  funext c
  by_cases hk : c.data.key = key <;> simp [hk]

theorem chain_cons (mask : ℕ) (s : SlotRef) (c : Cell) (cells : List Cell) :
    chain mask s (c :: cells) =
      if keySlot mask c.data.key = s then c :: chain mask s cells else chain mask s cells := by
  unfold chain
  rw [List.filter_cons]
  simp

theorem chain_editAt (mask : ℕ) (s : SlotRef) (cells : List Cell) (a : ℕ) {f : Cell → Cell}
    (hf : Cell.Keeps f) : chain mask s (editAt cells a f) = editAt (chain mask s cells) a f := by
  unfold chain editAt
  rw [List.filter_map]
  congr 2
  funext c
  simp only [Function.comp_apply]
  split
  · rw [hf.key]
  · rfl

theorem headAddr_editAt (cells : List Cell) (a : ℕ) {f : Cell → Cell} (hf : Cell.Keeps f) :
    headAddr (editAt cells a f) = headAddr cells := by
  cases cells with
  | nil => rfl
  | cons c cells =>
    simp only [editAt, List.map_cons, headAddr]
    split
    · exact hf.addr c
    · rfl

theorem linked_editAt {cells : List Cell} {a : ℕ} {f : Cell → Cell} (hf : Cell.Keeps f)
    (h : Linked cells) : Linked (editAt cells a f) := by
  induction cells with
  | nil => trivial
  | cons c cells ih =>
    refine ⟨?_, ih h.2⟩
    have htail := headAddr_editAt cells a hf
    simp only [editAt] at htail
    rw [htail]
    beta_reduce
    split
    · rw [hf.prev]; exact h.1
    · exact h.1

/-! ## Section 3: Walks -/

section Walks

variable {g : Geometry} {log : HybridLog} {key : Key}

theorem traceBack_below {min n addr : ℕ} (h : ¬ (min ≤ addr ∧ FIRST_VALID_ADDRESS ≤ addr)) :
    traceBack g log key min (n + 1) addr = .stopped addr := by
  rw [traceBack, if_neg h]

theorem traceBack_step {min n addr : ℕ} (h : min ≤ addr ∧ FIRST_VALID_ADDRESS ≤ addr) :
    traceBack g log key min (n + 1) addr =
      if (log.recordAt g addr).data.key = key then .found addr
      else traceBack g log key min n (log.recordAt g addr).info.previousAddress := by
  rw [traceBack, if_pos h]

theorem findOnDisk_step {n addr : ℕ} {r : Record}
    (h : log.beginAddress ≤ addr ∧ FIRST_VALID_ADDRESS ≤ addr)
    (hr : log.readRecordFromDisk addr = some r) :
    findOnDisk log key (n + 1) addr =
      if r.data.key = key then some { r with info := r.info.clearSealed }
      else findOnDisk log key n r.info.previousAddress := by
  rw [findOnDisk, if_pos h, hr]
  rfl

/-- What is linked below an address starts below it. -/
theorem headAddr_lt {l : List Cell} {a : ℕ} (h : ∀ d ∈ l, d.addr < a) (ha : FIRST_VALID_ADDRESS ≤ a) :
    headAddr l < a := by
  cases l with
  | nil => exact lt_of_lt_of_le (by decide) ha
  | cons d l => exact h d List.mem_cons_self

/-- A walk in memory is a search among the cells at or above `min`. -/
theorem traceBack_spec (key : Key) (min : ℕ) {l : List Cell} (hlinked : Linked l)
    (hdesc : l.Pairwise fun newer older => older.addr < newer.addr)
    (hfirst : ∀ c ∈ l, FIRST_VALID_ADDRESS ≤ c.addr)
    (hread : ∀ c ∈ l, min ≤ c.addr → (log.recordAt g c.addr).data.key = c.data.key ∧
      (log.recordAt g c.addr).info.previousAddress = c.prev)
    {fuel : ℕ} (hfuel : headAddr l < fuel) :
    traceBack g log key min fuel (headAddr l) =
      match newest (l.takeWhile fun c => min ≤ c.addr) key with
      | some c => .found c.addr
      | none => .stopped (headAddr (l.dropWhile fun c => min ≤ c.addr)) := by
  induction l generalizing fuel with
  | nil =>
    obtain ⟨n, rfl⟩ : ∃ n, fuel = n + 1 := ⟨fuel - 1, by omega⟩
    rw [headAddr_nil, traceBack_below (by rintro ⟨-, h⟩; exact absurd h (by decide))]
    rfl
  | cons c l ih =>
    obtain ⟨n, rfl⟩ : ∃ n, fuel = n + 1 := ⟨fuel - 1, by omega⟩
    have hc := hfirst c (by simp)
    rw [List.pairwise_cons] at hdesc
    rw [headAddr_cons] at hfuel ⊢
    by_cases hmin : min ≤ c.addr
    · obtain ⟨hk, hp⟩ := hread c (by simp) hmin
      rw [traceBack_step ⟨hmin, hc⟩, hk, hp, List.takeWhile_cons_of_pos (by simpa using hmin),
        List.dropWhile_cons_of_pos (by simpa using hmin)]
      by_cases hkey : c.data.key = key
      · rw [if_pos hkey, newest, List.find?_cons_of_pos (by simpa using hkey)]
      · rw [if_neg hkey, newest, List.find?_cons_of_neg (by simpa using hkey), hlinked.1]
        refine ih hlinked.2 hdesc.2 (fun d hd => hfirst d (by simp [hd]))
          (fun d hd => hread d (by simp [hd])) ?_
        have hlt := headAddr_lt hdesc.1 hc
        omega
    · rw [traceBack_below (by rintro ⟨h, -⟩; exact hmin h),
        List.takeWhile_cons_of_neg (by simpa using hmin),
        List.dropWhile_cons_of_neg (by simpa using hmin)]
      rfl

/-- A walk on the device is a search among the cells it starts from. -/
theorem findOnDisk_spec {l : List Cell} (hbegin : log.beginAddress = FIRST_VALID_ADDRESS)
    (hlinked : Linked l) (hdesc : l.Pairwise fun newer older => older.addr < newer.addr)
    (hfirst : ∀ c ∈ l, FIRST_VALID_ADDRESS ≤ c.addr)
    (hread : ∀ c ∈ l, ∃ r, log.readRecordFromDisk c.addr = some r ∧ r.strip = c.image)
    {fuel : ℕ} (hfuel : headAddr l < fuel) :
    (findOnDisk log key fuel (headAddr l)).map Record.strip = (newest l key).map Cell.image := by
  induction l generalizing fuel with
  | nil =>
    obtain ⟨n, rfl⟩ : ∃ n, fuel = n + 1 := ⟨fuel - 1, by omega⟩
    rw [headAddr_nil, findOnDisk, if_neg (by rintro ⟨-, h⟩; exact absurd h (by decide))]
    rfl
  | cons c l ih =>
    obtain ⟨n, rfl⟩ : ∃ n, fuel = n + 1 := ⟨fuel - 1, by omega⟩
    have hc := hfirst c (by simp)
    rw [List.pairwise_cons] at hdesc
    obtain ⟨r, hr, hstrip⟩ := hread c (by simp)
    have hkeyr : r.data.key = c.data.key := congrArg (fun r => r.data.key) hstrip
    have hprev : r.info.previousAddress = c.prev :=
      congrArg (fun r => r.info.previousAddress) hstrip
    rw [headAddr_cons] at hfuel ⊢
    rw [findOnDisk_step ⟨by rw [hbegin]; exact hc, hc⟩ hr, hkeyr, hprev]
    by_cases hkey : c.data.key = key
    · rw [if_pos hkey, newest, List.find?_cons_of_pos (by simpa using hkey)]
      exact congrArg some hstrip
    · rw [if_neg hkey, newest, List.find?_cons_of_neg (by simpa using hkey), hlinked.1]
      refine ih hlinked.2 hdesc.2 (fun d hd => hfirst d (by simp [hd]))
        (fun d hd => hread d (by simp [hd])) ?_
      have hlt := headAddr_lt hdesc.1 hc
      omega

end Walks

/-! ## Section 4: The store invariant -/

structure StoreInv (g : Geometry) (store : Store) (cells : List Cell) : Prop where
  log : LogInv g store.log cells
  tiled : Tiled g store.log cells
  linked : ∀ s, Linked (chain store.index.mask s cells)
  /-- An index entry holds the head of its chain; an unclaimed slot has no cells. -/
  entries : ∀ s, store.index.load s = some (headAddr (chain store.index.mask s cells)) ∨
    store.index.load s = none ∧ chain store.index.mask s cells = []
  /-- The newest record of a key is not sealed. -/
  unsealed : ∀ c, newest cells c.data.key = some c → store.log.head ≤ c.addr →
    ∀ r, store.log.slotAt g c.addr = some r → r.info.isSealed = false

/-- The same, with records in the log that no chain leads to. -/
structure StoreOver (g : Geometry) (rest : ℕ → Option Record) (store : Store)
    (cells : List Cell) : Prop where
  log : LogOver g rest store.log cells
  linked : ∀ s, Linked (chain store.index.mask s cells)
  entries : ∀ s, store.index.load s = some (headAddr (chain store.index.mask s cells)) ∨
    store.index.load s = none ∧ chain store.index.mask s cells = []
  unsealed : ∀ c, newest cells c.data.key = some c → store.log.head ≤ c.addr →
    ∀ r, store.log.slotAt g c.addr = some r → r.info.isSealed = false

theorem StoreInv.over {g : Geometry} {store : Store} {cells : List Cell}
    (h : StoreInv g store cells) : StoreOver g (fun _ => none) store cells :=
  ⟨h.log.over h.tiled, h.linked, h.entries, h.unsealed⟩

theorem StoreOver.inv {g : Geometry} {store : Store} {cells : List Cell}
    (h : StoreOver g (fun _ => none) store cells) : StoreInv g store cells :=
  ⟨h.log.inv, h.log.tiled, h.linked, h.entries, h.unsealed⟩

theorem storeInv_new (g : Geometry) (buckets : ℕ) (device : Device) :
    StoreInv g (Store.new buckets device) [] where
  log := logInv_new g device
  tiled := tiled_new g device
  linked := fun _ => trivial
  entries := fun _ => .inr ⟨rfl, rfl⟩
  unsealed := by
    intro c hc
    cases hc

section Reading

variable {g : Geometry} {rest : ℕ → Option Record} {store : Store} {cells : List Cell}

theorem LogInv.first_le_addr {log : HybridLog} (h : LogInv g log cells) {c : Cell} (hc : c ∈ cells) :
    FIRST_VALID_ADDRESS ≤ c.addr := by
  have hle : g.pageOffset c.addr ≤ c.addr := by rw [g.pageOffset_eq]; exact Nat.mod_le _ _
  exact le_trans (h.inPage c hc).1 hle

theorem LogInv.addr_lt_top {log : HybridLog} (h : LogInv g log cells) {c : Cell} (hc : c ∈ cells) :
    c.addr < (log.tailPage + 1) * g.pageSize := by
  have hoff := h.offset_le
  have hstop := h.below c hc
  have hlt := c.addr_lt_stop
  rw [Nat.add_mul, one_mul]
  unfold HybridLog.tailPos at hstop
  omega

/-- A record in memory reads as its image. -/
theorem PagesInv.recordAt_image {f : Record → Record} {log : HybridLog} {image : ℕ → Option Record}
    {cut : ℕ → Prop} (h : PagesInv g f log image cut) {a : ℕ} {r : Record} (ha : image a = some r)
    (hhead : log.head ≤ a) (htop : a < (log.tailPage + 1) * g.pageSize) :
    log.slotAt g a = some (log.recordAt g a) ∧ f (log.recordAt g a) = r := by
  have hmem := h.memory a hhead htop
  rw [ha] at hmem
  obtain ⟨r', hr', hf⟩ := Option.map_eq_some_iff.mp hmem
  have hrec : log.recordAt g a = r' := by simp [HybridLog.recordAt, hr']
  rw [hrec]
  exact ⟨hr', hf⟩

/-- A flushed record reads as its image from the device. -/
theorem PagesInv.readRecordFromDisk_image {log : HybridLog} {image : ℕ → Option Record}
    {cut : ℕ → Prop} (h : PagesInv g Record.strip log image cut) {a : ℕ} {r : Record}
    (ha : image a = some r) (hfirst : FIRST_VALID_ADDRESS ≤ a) (hlt : a < log.flushedUntil)
    (hstop : a + r.totalSize ≤ log.flushedUntil) :
    ∃ r', log.readRecordFromDisk a = some r' ∧ r'.strip = r := by
  have hdisk := h.disk a hfirst hlt
  rw [ha] at hdisk
  obtain ⟨r', hr', hstrip⟩ := Option.map_eq_some_iff.mp hdisk
  have hlen : log.flushedUntil ≤ log.device.len := by
    rcases h.device_len with heq | hle
    · omega
    · exact hle
  have hsize : r'.totalSize = r.totalSize := by
    rw [← hstrip]
    exact congrArg RecordData.totalSize rfl
  have hmin : MIN_DISK_READ ≤ r.totalSize := r.totalSize_ge
  refine ⟨r', ?_, hstrip⟩
  simp only [HybridLog.readRecordFromDisk, hr', Option.getD_some, hsize, Device.canRead,
    decide_eq_true_eq]
  rw [if_pos (by omega), if_pos (by omega)]

/-- An in-memory cell reads as itself. -/
theorem LogOver.recordAt_cell {log : HybridLog} (h : LogOver g rest log cells) {c : Cell}
    (hc : c ∈ cells) (hhead : log.head ≤ c.addr) :
    log.slotAt g c.addr = some (log.recordAt g c.addr) ∧ (log.recordAt g c.addr).strip = c.image :=
  h.pages.recordAt_image (h.image_of_mem hc) hhead (h.addr_lt_top hc)

/-- A flushed cell reads as itself from the device. -/
theorem LogOver.readRecordFromDisk_cell {log : HybridLog} (h : LogOver g rest log cells) {c : Cell}
    (hc : c ∈ cells) (hflushed : c.addr < log.flushedUntil) :
    ∃ r, log.readRecordFromDisk c.addr = some r ∧ r.strip = c.image :=
  h.pages.readRecordFromDisk_image (h.image_of_mem hc) (h.first_le_addr hc) hflushed
    (h.pages.flushed_cut _ _ (h.image_of_mem hc) hflushed)

theorem LogInv.desc {log : HybridLog} (h : LogInv g log cells) :
    cells.Pairwise fun newer older => older.addr < newer.addr :=
  h.ordered.imp fun {_ b} hab => lt_of_lt_of_le b.addr_lt_stop hab

theorem chain_subset (mask : ℕ) (s : SlotRef) (cells : List Cell) :
    ∀ c ∈ chain mask s cells, c ∈ cells := fun _ hc => List.mem_of_mem_filter hc

theorem newest_mem {c : Cell} {key : Key} (h : newest cells key = some c) :
    c ∈ cells ∧ c.data.key = key := by
  refine ⟨List.mem_of_find?_eq_some h, ?_⟩
  simpa using List.find?_some h

/-- Nothing of the key is newer than its newest cell. -/
theorem newest_le (hdesc : cells.Pairwise fun newer older => older.addr < newer.addr) {c d : Cell}
    {key : Key} (hc : newest cells key = some c) (hd : d ∈ cells) (hkey : d.data.key = key) :
    d.addr ≤ c.addr := by
  unfold newest at hc
  induction cells with
  | nil => cases hd
  | cons e cells ih =>
    rw [List.pairwise_cons] at hdesc
    by_cases hek : e.data.key = key
    · rw [List.find?_cons_of_pos (by simpa using hek)] at hc
      cases hc
      rcases List.mem_cons.mp hd with rfl | hd
      · exact le_refl _
      · exact le_of_lt (hdesc.1 d hd)
    · rw [List.find?_cons_of_neg (by simpa using hek)] at hc
      rcases List.mem_cons.mp hd with rfl | hd
      · exact absurd hkey hek
      · exact ih hdesc.2 hc hd

/-- The chain of a key. -/
def Store.chainOf (store : Store) (cells : List Cell) (key : Key) : List Cell :=
  chain store.index.mask (keySlot store.index.mask key) cells

/-- The part of a descending list that a walk with floor `min` does not reach. -/
theorem dropWhile_lt {min : ℕ} {l : List Cell}
    (hdesc : l.Pairwise fun newer older => older.addr < newer.addr) :
    ∀ c ∈ l.dropWhile fun c => min ≤ c.addr, c.addr < min := by
  induction l with
  | nil => simp
  | cons d l ih =>
    rw [List.pairwise_cons] at hdesc
    intro c hc
    by_cases hd : min ≤ d.addr
    · rw [List.dropWhile_cons_of_pos (by simpa using hd)] at hc
      exact ih hdesc.2 c hc
    · rw [List.dropWhile_cons_of_neg (by simpa using hd)] at hc
      rcases List.mem_cons.mp hc with rfl | hc
      · omega
      · have := hdesc.1 c hc
        omega

/-- What the search of an operation comes to. -/
inductive SearchSpec (cells chain : List Cell) (key : Key) (min : ℕ) : Trace → Prop where
  | found {c : Cell} : newest cells key = some c → min ≤ c.addr →
      SearchSpec cells chain key min (.found c.addr)
  | stopped {below : List Cell} : below <:+ chain →
      newest cells key = newest below key → (∀ c ∈ below, c.addr < min) →
      SearchSpec cells chain key min (.stopped (headAddr below))

/-- The search of an operation that has loaded the head of its chain. -/
theorem StoreOver.search (h : StoreOver g rest store cells) (key : Key) {min : ℕ}
    (hmin : store.log.head ≤ min) :
    SearchSpec cells (store.chainOf cells key) key min
      (traceBack g store.log key min (headAddr (store.chainOf cells key) + 1)
        (headAddr (store.chainOf cells key))) := by
  have hsub := chain_subset store.index.mask (keySlot store.index.mask key) cells
  have hdesc : (store.chainOf cells key).Pairwise fun newer older => older.addr < newer.addr :=
    h.log.desc.filter _
  have hwalk := traceBack_spec key min (l := store.chainOf cells key) (h.linked _) hdesc
    (fun c hc => h.log.first_le_addr (hsub c hc))
    (fun c hc hle => by
      have hstrip := (h.log.recordAt_cell (hsub c hc) (le_trans hmin hle)).2
      exact ⟨congrArg (fun r => r.data.key) hstrip,
        congrArg (fun r => r.info.previousAddress) hstrip⟩)
    (Nat.lt_succ_self _)
  have hsplit : newest cells key =
      (newest ((store.chainOf cells key).takeWhile fun c => min ≤ c.addr) key).or
        (newest ((store.chainOf cells key).dropWhile fun c => min ≤ c.addr) key) := by
    rw [newest, newest, newest, ← List.find?_append, List.takeWhile_append_dropWhile]
    exact (newest_chain _ _ _).symm
  rw [hwalk]
  cases hfound : newest ((store.chainOf cells key).takeWhile fun c => min ≤ c.addr) key with
  | some c =>
    refine .found (by rw [hsplit, hfound]; rfl) ?_
    have := List.mem_takeWhile_imp (newest_mem hfound).1
    simpa using this
  | none =>
    exact .stopped (List.dropWhile_suffix _) (by rw [hsplit, hfound]; rfl) (dropWhile_lt hdesc)

/-- A slot that has been claimed holds the head of its chain. -/
theorem StoreOver.load_eq (h : StoreOver g rest store cells) {key : Key} {a : ℕ}
    (hload : store.index.load (keySlot store.index.mask key) = some a) :
    a = headAddr (store.chainOf cells key) := by
  rcases h.entries (keySlot store.index.mask key) with heq | ⟨hnone, -⟩
  · rw [hload] at heq
    exact Option.some.inj heq
  · rw [hload] at hnone
    cases hnone

theorem StoreOver.newest_of_unclaimed (h : StoreOver g rest store cells) {key : Key}
    (hload : store.index.load (keySlot store.index.mask key) = none) : newest cells key = none := by
  rcases h.entries (keySlot store.index.mask key) with heq | ⟨-, hnil⟩
  · rw [hload] at heq
    cases heq
  · rw [← newest_chain store.index.mask, hnil]
    rfl

theorem continuesOnDisk_iff (log : HybridLog) (a : ℕ) :
    continuesOnDisk log a = true ↔ log.beginAddress ≤ a ∧ FIRST_VALID_ADDRESS ≤ a := by
  simp only [continuesOnDisk, Bool.and_eq_true, decide_eq_true_eq]

theorem StoreOver.continuesOnDisk (h : StoreOver g rest store cells) {key : Key} {below : List Cell}
    (hsuf : below <:+ store.chainOf cells key) :
    Tsavorite.continuesOnDisk store.log (headAddr below) = true ↔ below ≠ [] := by
  rw [continuesOnDisk_iff, h.log.pages.begin_eq]
  cases below with
  | nil =>
    rw [headAddr_nil]
    exact ⟨fun hle => absurd hle.1 (by decide), fun hne => absurd rfl hne⟩
  | cons c l =>
    have hc := h.log.first_le_addr (chain_subset _ _ _ c (hsuf.subset (by simp)))
    rw [headAddr_cons]
    exact ⟨fun _ => by simp, fun _ => ⟨hc, hc⟩⟩

/-- A suffix of a chain, all of it on disk, is searched by `find_on_disk`. -/
theorem StoreOver.findOnDisk (h : StoreOver g rest store cells) {key : Key} {s : SlotRef} {l : List Cell}
    (hl : l <:+ chain store.index.mask s cells) (hdisk : ∀ c ∈ l, c.addr < store.log.flushedUntil) :
    (Tsavorite.findOnDisk store.log key (headAddr l + 1) (headAddr l)).map Record.strip =
      (newest l key).map Cell.image := by
  have hsub : ∀ c ∈ l, c ∈ cells := fun c hc => chain_subset _ _ _ c (hl.subset hc)
  have hlinked : Linked l := (h.linked s).suffix hl
  refine findOnDisk_spec h.log.pages.begin_eq hlinked ?_ (fun c hc => h.log.first_le_addr (hsub c hc))
    (fun c hc => h.log.readRecordFromDisk_cell (hsub c hc) (hdisk c hc)) (Nat.lt_succ_self _)
  exact (h.log.desc.filter _).sublist hl.sublist

end Reading

end Tsavorite
