import MiniGarnet.Tsavorite.FarLog
import MiniGarnet.Tsavorite.LostUpdates
import MiniGarnet.Tsavorite.Scan

/-! # Live records

    `scan_live` visits the log and reports the records that pass
    `is_latest`: the walk down the chain of the record's key from the index
    entry must meet the record before any other of that key.  This is the
    record a read of the key finds, although a read walks the chain with
    `trace_back` and then `find_on_disk`.
-/

namespace Tsavorite

/-! ## Section 1: The liveness test -/

section Code

variable (g : Geometry)

/-- The loop of `is_latest(addr, key)` from `cur`.  The first argument bounds the walk;
    addresses descend along a chain. -/
def isLatestLoop (log : HybridLog) (addr : ℕ) (key : Key) : ℕ → ℕ → Bool
  | 0, cur => cur = addr
  | n + 1, cur =>
    if addr < cur ∧ log.beginAddress ≤ cur then
      if log.head ≤ cur then
        let r := log.recordAt g cur
        if r.data.key = key ∧ r.info.isValid then false
        else isLatestLoop log addr key n r.info.previousAddress
      else
        match log.readRecordFromDisk cur with
        | none => false
        | some r =>
          if r.data.key = key then false
          else isLatestLoop log addr key n r.info.previousAddress
    else cur = addr

/-- Is the record at `addr` the newest record for `key`? -/
def Store.isLatest (store : Store) (addr : ℕ) (key : Key) : Bool :=
  match store.index.findTag (hash64 key) with
  | none => false
  | some slot =>
    let cur := (store.index.load slot).getD 0
    isLatestLoop g store.log addr key (cur + 1) cur

/-- Where `find_on_disk` finds `key`. -/
def findOnDiskAt (log : HybridLog) (key : Key) : ℕ → ℕ → Option ℕ
  | 0, _ => none
  | n + 1, addr =>
    if log.beginAddress ≤ addr ∧ FIRST_VALID_ADDRESS ≤ addr then do
      let r ← log.readRecordFromDisk addr
      if r.data.key = key then return addr
      else findOnDiskAt log key n r.info.previousAddress
    else none

/-- The record a read of `key` finds first: what `internal_read` does up to the first
    callback, and `find_on_disk` after it. -/
def Store.readAddr (store : Store) (key : Key) : Option ℕ :=
  match store.index.findTag (hash64 key) with
  | none => none
  | some slot =>
    let latest := (store.index.load slot).getD 0
    match traceBack g store.log key store.log.head (latest + 1) latest with
    | .found addr => some addr
    | .stopped addr =>
      if continuesOnDisk store.log addr then findOnDiskAt store.log key (addr + 1) addr else none

end Code

/-! ## Section 2: The two walks -/

section Walks

variable {g : Geometry} {rest : ℕ → Option Record} {store : Store} {log : HybridLog}
  {cells : List Cell} {key : Key}

/-- `find_on_disk` returns what is at the address. -/
theorem findOnDisk_eq (log : HybridLog) (key : Key) (n addr : ℕ) :
    findOnDisk log key n addr = (findOnDiskAt log key n addr).bind fun a =>
      (log.readRecordFromDisk a).map fun r => { r with info := r.info.clearSealed } := by
  induction n generalizing addr with
  | zero => rfl
  | succ n ih =>
    unfold findOnDisk findOnDiskAt
    split
    swap
    · rfl
    cases hread : log.readRecordFromDisk addr with
    | none => rfl
    | some r =>
      simp only [Option.bind_eq_bind, Option.bind_some]
      by_cases hkey : r.data.key = key
      · rw [if_pos hkey, if_pos hkey]
        simp only [Option.pure_def, Option.bind_some, hread, Option.map_some]
      · rw [if_neg hkey, if_neg hkey]
        exact ih _

/-- A walk on the device finds the newest cell of the key. -/
theorem findOnDiskAt_spec {l : List Cell} (hbegin : log.beginAddress = FIRST_VALID_ADDRESS)
    (hlinked : Linked l) (hdesc : l.Pairwise fun newer older => older.addr < newer.addr)
    (hfirst : ∀ c ∈ l, FIRST_VALID_ADDRESS ≤ c.addr)
    (hread : ∀ c ∈ l, ∃ r, log.readRecordFromDisk c.addr = some r ∧ r.strip = c.image)
    {fuel : ℕ} (hfuel : headAddr l < fuel) :
    findOnDiskAt log key fuel (headAddr l) = (newest l key).map Cell.addr := by
  induction l generalizing fuel with
  | nil =>
    obtain ⟨n, rfl⟩ : ∃ n, fuel = n + 1 := ⟨fuel - 1, by omega⟩
    rw [headAddr_nil, findOnDiskAt, if_neg (by rintro ⟨-, h⟩; exact absurd h (by decide))]
    rfl
  | cons c l ih =>
    obtain ⟨n, rfl⟩ : ∃ n, fuel = n + 1 := ⟨fuel - 1, by omega⟩
    have hc := hfirst c List.mem_cons_self
    rw [List.pairwise_cons] at hdesc
    obtain ⟨r, hr, hstrip⟩ := hread c List.mem_cons_self
    have hkeyr : r.data.key = c.data.key := congrArg (fun r => r.data.key) hstrip
    have hprev : r.info.previousAddress = c.prev :=
      congrArg (fun r => r.info.previousAddress) hstrip
    rw [headAddr_cons] at hfuel ⊢
    rw [findOnDiskAt, if_pos ⟨by rw [hbegin]; exact hc, hc⟩, hr]
    simp only [Option.bind_eq_bind, Option.bind_some, hkeyr, hprev]
    rw [newest_cons]
    by_cases hkey : c.data.key = key
    · rw [if_pos hkey, if_pos hkey]
      rfl
    · rw [if_neg hkey, if_neg hkey, hlinked.1]
      have hlt := headAddr_lt hdesc.1 hc
      exact ih hlinked.2 hdesc.2 (fun d hd => hfirst d (List.mem_cons_of_mem _ hd))
        (fun d hd => hread d (List.mem_cons_of_mem _ hd)) (by omega)

/-- The walk of the test comes to the address below no record of the key. -/
theorem isLatestLoop_spec {addr : ℕ} {l : List Cell} (hbegin : log.beginAddress = FIRST_VALID_ADDRESS)
    (haddr : FIRST_VALID_ADDRESS ≤ addr) (hlinked : Linked l)
    (hdesc : l.Pairwise fun newer older => older.addr < newer.addr)
    (hfirst : ∀ c ∈ l, FIRST_VALID_ADDRESS ≤ c.addr)
    (hmem : ∀ c ∈ l, log.head ≤ c.addr → (log.recordAt g c.addr).strip = c.image)
    (hdisk : ∀ c ∈ l, c.addr < log.head →
      ∃ r, log.readRecordFromDisk c.addr = some r ∧ r.strip = c.image)
    {fuel : ℕ} (hfuel : headAddr l < fuel) :
    isLatestLoop g log addr key fuel (headAddr l) = true ↔
      (∃ c ∈ l, c.addr = addr) ∧ ∀ d ∈ l, addr < d.addr → d.data.key ≠ key := by
  induction l generalizing fuel with
  | nil =>
    obtain ⟨n, rfl⟩ : ∃ n, fuel = n + 1 := ⟨fuel - 1, by omega⟩
    have hne : TEMP_INVALID_ADDRESS ≠ addr := fun heq => by
      rw [← heq] at haddr
      exact absurd haddr (by decide)
    rw [headAddr_nil, isLatestLoop, if_neg (by
      rintro ⟨hlt, -⟩
      exact absurd (lt_of_le_of_lt haddr hlt) (by decide)), decide_eq_true_eq]
    exact ⟨fun heq => absurd heq hne, fun h => by simp at h⟩
  | cons c l ih =>
    obtain ⟨n, rfl⟩ : ∃ n, fuel = n + 1 := ⟨fuel - 1, by omega⟩
    have hc := hfirst c List.mem_cons_self
    rw [List.pairwise_cons] at hdesc
    rw [headAddr_cons] at hfuel ⊢
    by_cases hlt : addr < c.addr
    · -- what is read at `c`, whether in memory or on disk
      have hhere : isLatestLoop g log addr key (n + 1) c.addr =
          if c.data.key = key then false else isLatestLoop g log addr key n c.prev := by
        rw [isLatestLoop, if_pos ⟨hlt, by rw [hbegin]; exact hc⟩]
        by_cases hhead : log.head ≤ c.addr
        · have hstrip := hmem c List.mem_cons_self hhead
          have hk : (log.recordAt g c.addr).data.key = c.data.key :=
            congrArg (fun r => r.data.key) hstrip
          have hv : (log.recordAt g c.addr).info.isValid = true :=
            congrArg (fun r => r.info.isValid) hstrip
          have hp : (log.recordAt g c.addr).info.previousAddress = c.prev :=
            congrArg (fun r => r.info.previousAddress) hstrip
          rw [if_pos hhead]
          simp only [hk, hv, hp, and_true]
        · obtain ⟨r, hr, hstrip⟩ := hdisk c List.mem_cons_self (by omega)
          have hk : r.data.key = c.data.key := congrArg (fun r => r.data.key) hstrip
          have hp : r.info.previousAddress = c.prev :=
            congrArg (fun r => r.info.previousAddress) hstrip
          rw [if_neg hhead, hr]
          simp only [hk, hp]
      rw [hhere]
      by_cases hkey : c.data.key = key
      · rw [if_pos hkey]
        exact ⟨nofun, fun h => absurd hkey (h.2 c List.mem_cons_self hlt)⟩
      · have hdown := headAddr_lt hdesc.1 hc
        rw [if_neg hkey, hlinked.1, ih hlinked.2 hdesc.2
          (fun d hd => hfirst d (List.mem_cons_of_mem _ hd))
          (fun d hd => hmem d (List.mem_cons_of_mem _ hd))
          (fun d hd => hdisk d (List.mem_cons_of_mem _ hd)) (by omega), List.forall_mem_cons]
        refine and_congr ?_ ⟨fun h => ⟨fun _ => hkey, h⟩, fun h => h.2⟩
        constructor
        · rintro ⟨d, hd, heq⟩
          exact ⟨d, List.mem_cons_of_mem _ hd, heq⟩
        · rintro ⟨d, hd, heq⟩
          rcases List.mem_cons.mp hd with rfl | hd
          · omega
          · exact ⟨d, hd, heq⟩
    · rw [isLatestLoop, if_neg fun h => hlt h.1, decide_eq_true_eq]
      constructor
      · intro heq
        refine ⟨⟨c, List.mem_cons_self, heq⟩, fun d hd hgt => ?_⟩
        rcases List.mem_cons.mp hd with rfl | hd
        · omega
        · have := hdesc.1 d hd
          omega
      · rintro ⟨⟨d, hd, heq⟩, -⟩
        rcases List.mem_cons.mp hd with rfl | hd
        · exact heq
        · have := hdesc.1 d hd
          omega

theorem StoreOver.isLatest_iff (h : StoreOver g rest store cells) {a : ℕ}
    (ha : FIRST_VALID_ADDRESS ≤ a) (key : Key) :
    store.isLatest g a key = true ↔
      (∃ c ∈ store.chainOf cells key, c.addr = a) ∧
        ∀ d ∈ store.chainOf cells key, a < d.addr → d.data.key ≠ key := by
  have hsub := chain_subset store.index.mask (keySlot store.index.mask key) cells
  unfold Store.isLatest
  rcases store.index.findTag_spec (hash64 key) with ⟨hfind, hload⟩ | ⟨latest, hfind, hload⟩
  · rw [hfind]
    rcases h.entries (keySlot store.index.mask key) with heq | ⟨-, hnil⟩
    · rw [HashIndex.slotOf_hash64] at hload
      rw [hload] at heq
      cases heq
    · rw [Store.chainOf, hnil]
      exact ⟨fun hfalse => by (cases hfalse), fun hex => by simp at hex⟩
  · rw [hfind]
    simp only [HashIndex.slotOf_hash64] at hload ⊢
    rw [hload, h.load_eq hload]
    simp only [Option.getD_some]
    exact isLatestLoop_spec h.log.pages.begin_eq ha (h.linked _) (h.log.desc.filter _)
      (fun c hc => h.log.first_le_addr (hsub c hc))
      (fun c hc hhead => (h.log.recordAt_cell (hsub c hc) hhead).2)
      (fun c hc hlt => h.log.readRecordFromDisk_cell (hsub c hc)
        (lt_of_lt_of_le hlt h.log.pages.head_le)) (Nat.lt_succ_self _)

/-- A read comes to the newest record of the key. -/
theorem StoreOver.readAddr_eq (h : StoreOver g rest store cells) (key : Key) :
    store.readAddr g key = (newest cells key).map Cell.addr := by
  unfold Store.readAddr
  rcases store.index.findTag_spec (hash64 key) with ⟨hfind, hload⟩ | ⟨latest, hfind, hload⟩
  · rw [hfind, h.newest_of_unclaimed (by rw [← HashIndex.slotOf_hash64]; exact hload)]
    rfl
  · rw [hfind]
    simp only [HashIndex.slotOf_hash64] at hload ⊢
    rw [hload, h.load_eq hload]
    simp only [Option.getD_some]
    have hsearch := h.search key (le_refl store.log.head)
    generalize traceBack g store.log key store.log.head
      (headAddr (store.chainOf cells key) + 1) (headAddr (store.chainOf cells key)) = tr at hsearch
    cases hsearch with
    | @found c hc hhead => rw [hc]; rfl
    | @stopped below hsuf hnew hlt =>
      have hsub : ∀ c ∈ below, c ∈ cells := fun c hc => chain_subset _ _ _ c (hsuf.subset hc)
      simp only
      rw [hnew]
      split
      · -- the rest of the chain is on disk
        refine findOnDiskAt_spec h.log.pages.begin_eq ?_ ?_
          (fun c hc => h.log.first_le_addr (hsub c hc))
          (fun c hc => h.log.readRecordFromDisk_cell (hsub c hc)
            (lt_of_lt_of_le (hlt c hc) h.log.pages.head_le)) (Nat.lt_succ_self _)
        · exact (h.linked _).suffix hsuf
        · exact (h.log.desc.filter _).sublist hsuf.sublist
      · next hend =>
        have hnil : below = [] := by
          by_contra hne
          exact hend ((h.continuesOnDisk hsuf).mpr hne)
        rw [hnil]
        rfl

/-- The test agrees with a read, for every record of the log. -/
theorem StoreOver.isLatest_eq (h : StoreOver g rest store cells) {a : ℕ} {r : Record}
    (ha : imageOver rest cells a = some r) :
    store.isLatest g a r.data.key = true ↔ store.readAddr g r.data.key = some a := by
  have hchain : ∀ {c}, newest cells r.data.key = some c → c ∈ store.chainOf cells r.data.key := by
    intro c hc
    rw [← newest_chain store.index.mask] at hc
    exact (newest_mem hc).1
  rw [h.isLatest_iff (h.log.laid.first_le ha), h.readAddr_eq, Option.map_eq_some_iff]
  constructor
  · rintro ⟨⟨c, hc, rfl⟩, hnewer⟩
    have hmem := chain_subset _ _ _ c hc
    have hkey : c.data.key = r.data.key := by
      rw [h.log.image_of_mem hmem] at ha
      exact congrArg (fun r => r.data.key) (Option.some.inj ha)
    cases hn : newest cells r.data.key with
    | none =>
      have hall := List.find?_eq_none.mp hn c hmem
      simp only [decide_eq_true_eq] at hall
      exact absurd hkey hall
    | some d =>
      have hle := newest_le h.log.desc hn hmem hkey
      refine ⟨d, rfl, ?_⟩
      by_contra hne
      exact hnewer d (hchain hn) (by omega) (newest_mem hn).2
  · rintro ⟨c, hc, rfl⟩
    refine ⟨⟨c, hchain hc, rfl⟩, fun d hd hlt hkey => ?_⟩
    have := newest_le h.log.desc hc (chain_subset _ _ _ d hd) hkey
    omega

end Walks

/-! ## Section 3: Runs with FLUSHALL -/

/-- A step of a session, or the `clear` of the index. -/
inductive FlushLabel (I O : Type) where
  | step (l : Label I O)
  | clear

section Flushing

variable {I O : Type} (g : Geometry) (f : SessionFunctions I O)

/-- The steps without checkpoints.  `clear` starts the bookkeeping anew, so that `history` holds
    the events since the last one. -/
def flushNext (s : System I O) : FlushLabel I O → Option (System I O)
  | .step (.checkpoint _) => none
  | .step l => next g f s l
  | .clear => some { s with
      store := { s.store with index := s.store.index.clear }
      published := fun _ => none
      history := [] }

/-- An attempt is made only while the log has address space for one more page. -/
def FlushRoomy (s : System I O) : FlushLabel I O → Prop
  | .step l => Roomy g s l
  | .clear => True

instance (s : System I O) : (l : FlushLabel I O) → Decidable (FlushRoomy g s l)
  | .step l => inferInstanceAs (Decidable (Roomy g s l))
  | .clear => isTrue trivial

/-- The key has been written since the last `clear`. -/
def WrittenSince (s : System I O) (key : Key) : Prop :=
  ∃ e ∈ s.history, e.req.key = key ∧ e.shown.wrote ≠ none

/-- The chains hold cells of keys written since the last `clear`; what was there before it is
    still in the log. -/
structure FlushInv (s : System I O) (rest : ℕ → Option Record) (cells : List Cell) : Prop where
  store : StoreOver g rest s.store cells
  written : ∀ c ∈ cells, WrittenSince s c.data.key

end Flushing

section FlushSteps

variable {I O : Type} {g : Geometry} {f : SessionFunctions I O} {s s' : System I O}
  {rest : ℕ → Option Record} {store : Store} {cells : List Cell}

/-- After a `clear` no chain leads to any record. -/
theorem StoreOver.clear (h : StoreOver g rest store cells) :
    StoreOver g (imageOver rest cells) { store with index := store.index.clear } [] where
  log := by
    have himage : imageOver (imageOver rest cells) [] = imageOver rest cells := rfl
    exact ⟨by rw [himage]; exact h.log.laid, h.log.space, .nil⟩
  linked := fun _ => trivial
  entries := fun _ => .inr ⟨rfl, rfl⟩
  unsealed := nofun

/-- The edits of an attempt bring cells of its key only, and only if it writes. -/
theorem Edits.keys {state : SystemState} {start ro tail : ℕ} {key : Key} {cells' : List Cell}
    {wrote : Option (Option RecordData)} (h : Edits state start ro tail key cells wrote cells') :
    ∀ c ∈ cells', (∃ d ∈ cells, d.data.key = c.data.key) ∨ c.data.key = key ∧ wrote ≠ none := by
  induction h with
  | refl => exact fun c hc => .inl ⟨c, hc, rfl⟩
  | @step cells' _ w x _ hone ih =>
    -- a cell that was there before the last edit
    have hold : ∀ c ∈ cells', (∃ d ∈ cells, d.data.key = c.data.key) ∨
        c.data.key = key ∧ some x ≠ none :=
      fun c hc => (ih c hc).imp_right fun h => ⟨h.1, nofun⟩
    cases hone with
    | push hkey _ _ =>
      intro c hc
      rcases List.mem_cons.mp hc with rfl | hc
      · exact .inr ⟨hkey, nofun⟩
      · exact hold c hc
    | edit _ _ hf _ _ =>
      intro c hc
      obtain ⟨d, hd, rfl⟩ := List.mem_map.mp hc
      split
      · rw [hf.key]
        exact hold d hd
      · exact hold d hd

theorem WrittenSince.cons {key : Key} (h : WrittenSince s key) {e : Event I O}
    (hhist : s'.history = e :: s.history) : WrittenSince s' key := by
  obtain ⟨e', he', hkey, hwrote⟩ := h
  exact ⟨e', hhist ▸ List.mem_cons_of_mem _ he', hkey, hwrote⟩

theorem FlushInv.attempt (h : FlushInv g s rest cells) {t : ℕ} (hspace : s.store.log.HasSpace g)
    (hnext : next g f s (.attempt t) = some s') : ∃ cells', FlushInv g s' rest cells' := by
  cases hpc : (s.sessions t).pc with
  | entered req src n state =>
    simp only [next, hpc] at hnext
    generalize ha : Tsavorite.attempt g f s.store state req src (s.sessions t).out = a at hnext
    obtain ⟨⟨pc, status⟩, hafter, rfl⟩ := Option.map_eq_some_iff.mp hnext
    have hspec := attempt_spec (f := f) h.store hspace state req src (s.sessions t).out
    simp only [ha] at hspec
    cases hspec with
    | aborted _ hx => rw [hx, afterAttempt_aborted] at hafter; cases hafter
    | @kept cells' hr ho hsim =>
      refine ⟨cells', hr.inv.unprotect t, fun c hc => ?_⟩
      rcases hr.edits.keys c hc with ⟨d, hd, hkey⟩ | ⟨hkey, hwrote⟩
      · rw [← hkey]
        exact (h.written d hd).cons rfl
      · exact ⟨_, List.mem_cons_self, hkey.symm, hwrote⟩
  | idle | ready | reading | backoff => simp [next, hpc] at hnext

/-- The other steps of a session move at most the boundaries of the log. -/
theorem FlushInv.quiet (h : FlushInv g s rest cells) {l : Label I O} (hl : l.isAttempt = false)
    (hnext : flushNext g f s (.step l) = some s') : FlushInv g s' rest cells := by
  cases l with
  | start t req out =>
    simp only [flushNext, next] at hnext
    split at hnext
    · cases hnext
      exact ⟨h.store, h.written⟩
    · cases hnext
  | enter t =>
    simp only [flushNext, next] at hnext
    split at hnext
    · cases hnext
      exact ⟨h.store.protect t, h.written⟩
    · cases hnext
  | attempt t => cases hl
  | diskRead t =>
    simp only [flushNext, next] at hnext
    split at hnext
    · split at hnext
      · cases hnext
        exact ⟨h.store, fun c hc => (h.written c hc).cons rfl⟩
      · cases hnext
        exact ⟨h.store, h.written⟩
    · cases hnext
  | backoff t =>
    simp only [flushNext, next] at hnext
    split at hnext
    · cases hnext
      exact ⟨h.store.bumpCurrentEpoch, h.written⟩
    · cases hnext
  | bump =>
    cases hnext
    exact ⟨h.store.bumpCurrentEpoch, h.written⟩
  | checkpoint u => cases hnext

theorem FlushInv.step (h : FlushInv g s rest cells) {l : FlushLabel I O} (hok : FlushRoomy g s l)
    (hnext : flushNext g f s l = some s') : ∃ rest' cells', FlushInv g s' rest' cells' := by
  cases l with
  | clear =>
    cases hnext
    exact ⟨_, _, h.store.clear, nofun⟩
  | step l =>
    by_cases hl : l.isAttempt = true
    · cases l with
      | attempt t =>
        obtain ⟨cells', hinv⟩ := h.attempt hok hnext
        exact ⟨rest, cells', hinv⟩
      | _ => cases hl
    · exact ⟨rest, cells, h.quiet (by simpa using hl) hnext⟩

theorem flushInv_run {buckets : ℕ} {device : Device} {out : O} {ls : List (FlushLabel I O)}
    (hrun : Lts.Steps (flushNext g f) (FlushRoomy g) (System.new (Store.new buckets device) out) ls s) :
    ∃ rest cells, FlushInv g s rest cells := by
  refine hrun.invariant (P := fun s => ∃ rest cells, FlushInv g s rest cells) ?_
    ⟨fun _ => none, [], (storeInv_new g buckets device).over, nofun⟩
  rintro s s' l ⟨rest, cells, h⟩ hok hnext
  exact h.step hok hnext

end FlushSteps

/-! ## Section 4: What the test accepts -/

/-- The record at an address of the log, in memory or on the device. -/
def HybridLog.recordIn (g : Geometry) (log : HybridLog) (addr : ℕ) : Option Record :=
  if log.head ≤ addr then log.slotAt g addr else log.device.data addr

section Accepted

variable {I O : Type} {g : Geometry} {f : SessionFunctions I O} {s : System I O}
  {rest : ℕ → Option Record} {store : Store} {cells : List Cell}

theorem LogOver.recordIn_image {log : HybridLog} (h : LogOver g rest log cells) {a : ℕ}
    (hfirst : FIRST_VALID_ADDRESS ≤ a) (htail : a < log.tailPos g) :
    (log.recordIn g a).map Record.strip = imageOver rest cells a := by
  unfold HybridLog.recordIn
  split
  · next hhead => exact h.pages.memory a hhead (lt_of_lt_of_le htail h.laid.tailPos_le)
  · next hhead => exact h.pages.disk a hfirst (lt_of_lt_of_le (by omega) h.pages.head_le)

/-- **The liveness test of the scan.**  For every record of the log, it is passed by the record
    that a read of its key finds; so by one record of a key at most, and by none of a key that has
    not been written since the last `clear`. -/
theorem isLatest_iff_read {buckets : ℕ} {device : Device} {out : O} {ls : List (FlushLabel I O)}
    (hrun : Lts.Steps (flushNext g f) (FlushRoomy g)
      (System.new (Store.new buckets device) out) ls s) :
    (∀ a r, FIRST_VALID_ADDRESS ≤ a → a < s.store.log.tailPos g →
      s.store.log.recordIn g a = some r →
        (s.store.isLatest g a r.data.key = true ↔ s.store.readAddr g r.data.key = some a)) ∧
    (∀ a a' r r', FIRST_VALID_ADDRESS ≤ a → a < s.store.log.tailPos g →
      FIRST_VALID_ADDRESS ≤ a' → a' < s.store.log.tailPos g →
      s.store.log.recordIn g a = some r → s.store.log.recordIn g a' = some r' →
      r.data.key = r'.data.key → s.store.isLatest g a r.data.key = true →
      s.store.isLatest g a' r'.data.key = true → a = a') ∧
    ∀ a r, FIRST_VALID_ADDRESS ≤ a → a < s.store.log.tailPos g →
      s.store.log.recordIn g a = some r → ¬ WrittenSince s r.data.key →
        s.store.isLatest g a r.data.key = false := by
  obtain ⟨rest, cells, h⟩ := flushInv_run hrun
  have htest : ∀ a r, FIRST_VALID_ADDRESS ≤ a → a < s.store.log.tailPos g →
      s.store.log.recordIn g a = some r →
        (s.store.isLatest g a r.data.key = true ↔ s.store.readAddr g r.data.key = some a) := by
    intro a r hfirst htail hr
    have himage := h.store.log.recordIn_image hfirst htail
    rw [hr] at himage
    exact h.store.isLatest_eq (r := r.strip) himage.symm
  refine ⟨htest, ?_, ?_⟩
  · intro a a' r r' ha hat ha' hat' hr hr' hkey hlatest hlatest'
    have hread := (htest a r ha hat hr).mp hlatest
    have hread' := (htest a' r' ha' hat' hr').mp hlatest'
    rw [hkey, hread'] at hread
    exact (Option.some.inj hread).symm
  · intro a r hfirst htail hr hnot
    by_contra hne
    have hread := (htest a r hfirst htail hr).mp (by simpa using hne)
    rw [h.store.readAddr_eq] at hread
    obtain ⟨c, hc, -⟩ := Option.map_eq_some_iff.mp hread
    have hwritten := h.written c (newest_mem hc).1
    rw [(newest_mem hc).2] at hwritten
    exact hnot hwritten

end Accepted

namespace LostUpdate

/-- The counter is created and evicted, the index cleared, and the counter created anew. -/
def createAnew : List (FlushLabel ℕ Unit) :=
  evict.map .step ++ [.clear] ++ (firstTry 0 (.rmw counterKey 0) ++ retry 0).map .step

/-- The new counter is what a read finds; a key in front of it has not been written since. -/
def createdAnew (s : System ℕ Unit) : Bool :=
  decide (1600 < s.store.log.tailPos geometry) &&
    (s.store.log.recordIn geometry 1600).any (fun r => decide (r.data.key = counterKey ∧
      s.store.readAddr geometry r.data.key = some 1600)) &&
    (s.store.log.recordIn geometry 576).any fun r =>
      decide (∀ e ∈ s.history, e.req.key ≠ r.data.key)

end LostUpdate

open LostUpdate (geometry start createAnew createdAnew counterKey) in
theorem isLatest_iff_read_anew : ∃ (s : System ℕ Unit) (old new : Record),
    Lts.Steps (flushNext geometry unaryCounter) (FlushRoomy geometry) start createAnew s ∧
    s.store.log.recordIn geometry 1600 = some new ∧ new.data.key = counterKey ∧
    s.store.isLatest geometry 1600 new.data.key = true ∧
    s.store.log.recordIn geometry 576 = some old ∧
    s.store.isLatest geometry 576 old.data.key = false := by
  obtain ⟨s, hrun, hp⟩ := Lts.exists_steps (flushNext geometry unaryCounter) (FlushRoomy geometry)
    start createAnew createdAnew (by decide +kernel)
  simp only [createdAnew, Bool.and_eq_true, decide_eq_true_eq, Option.any_eq_true] at hp
  obtain ⟨⟨htail, new, hnew, hkey, hread⟩, old, hold, hnot⟩ := hp
  obtain ⟨htest, -, hcleared⟩ := isLatest_iff_read hrun
  refine ⟨s, old, new, hrun, hnew, hkey, (htest 1600 new (by decide) htail hnew).mpr hread, hold, ?_⟩
  exact hcleared 576 old (by decide) (by omega) hold fun ⟨e, he, heq, _⟩ => hnot e he heq

/-- The steps of one session are steps of the store that is cleared now and then. -/
theorem flushSteps {I O : Type} {g : Geometry} {f : SessionFunctions I O} {s s' : System I O}
    {ls : List (Label I O)}
    (h : Lts.Steps (next g f) (fun _ => Alone) s ls s') :
    Lts.Runs (flushNext g f) s (ls.map .step) s' := by
  apply h.relabel
  intro s s' l hok hnext
  refine ⟨trivial, ?_⟩
  cases l with
  | checkpoint u => exact absurd hok id
  | _ => exact hnext

open FarLog (vast appends firstKey laterKey) in
/-- Past `2 ^ 48` the entry holds the address of a record from before the `clear`. -/
theorem isLatest_not_written_since : ∃ (g : Geometry) (f : SessionFunctions Unit Unit)
    (ls : List (FlushLabel Unit Unit)) (s : System Unit Unit) (r : Record),
    Lts.Runs (flushNext g f) (System.new (Store.new 1 Device.empty) ()) ls s ∧
      (∀ t, s.sessions t = ⟨.idle, ()⟩) ∧ FIRST_VALID_ADDRESS < s.store.log.tailPos g ∧
      s.store.log.recordIn g FIRST_VALID_ADDRESS = some r ∧ ¬ WrittenSince s r.data.key ∧
      s.store.isLatest g FIRST_VALID_ADDRESS r.data.key = true := by
  obtain ⟨ls, s₁, ls', s, hrun, hrun', hrest, hkeys⟩ := FarLog.far_clear
  have hslot : s.store.log.slotAt FarLog.vast FIRST_VALID_ADDRESS =
      some (FarLog.recordOf 1 (2 ^ 18) 0) := by
    rw [hrest.store, ← FarLog.place_zero]
    exact FarLog.slotAt_filled (Nat.zero_le _) (by norm_num)
  have hfind : s.store.index.findTag (hash64 firstKey) = some (keySlot 1 laterKey) := by
    rw [hrest.store, FarLog.index_filled]
    exact FarLog.findTag_indexAt FarLog.same_slot _
  have hload : (s.store.index.load (keySlot 1 laterKey)).getD 0 = FIRST_VALID_ADDRESS := by
    rw [hrest.store, FarLog.index_filled, FarLog.load_indexAt, FarLog.maskAddress_far,
      Option.getD_some]
  refine ⟨vast, appends, _, s, FarLog.recordOf 1 (2 ^ 18) 0,
    (flushSteps hrun).append (.cons (l := .clear) trivial rfl (flushSteps hrun')), hrest.sessions, ?_,
    ?_, ?_, ?_⟩
  · rw [hrest.store]
    exact FarLog.tailPos_far
  · rw [HybridLog.recordIn, if_pos, hslot]
    rw [hrest.store]
    exact le_rfl
  · rintro ⟨e, he, hkey, -⟩
    rw [hkeys e he] at hkey
    exact FarLog.firstKey_ne hkey.symm
  · show s.store.isLatest vast FIRST_VALID_ADDRESS firstKey = true
    rw [Store.isLatest, hfind]
    simp only [hload]
    rw [isLatestLoop, if_neg (fun h => lt_irrefl _ h.1)]
    exact decide_eq_true rfl

end Tsavorite
