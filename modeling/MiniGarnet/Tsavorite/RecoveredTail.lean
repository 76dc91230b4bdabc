import MiniGarnet.Tsavorite.Recovery

/-! # The tail after recovery

    `recover_addresses` puts the tail word at the final address of the
    checkpoint.  If that is the first byte of a page, the next record lies
    in the page header, where no walk over the log begins: neither a scan
    nor the recovery from a later checkpoint ever comes across it.
-/

namespace Tsavorite

/-! ## Section 1: What the walks come across -/

section Walks

variable {g : Geometry}

theorem forEachRecord_offset {buf : ℕ → Option Record} {limit : ℕ} (n : ℕ) {off : ℕ} :
    ∀ x ∈ forEachRecord buf limit n off, off ≤ x.1 ∧ x.1 < limit := by
  induction n generalizing off with
  | zero => nofun
  | succ n ih =>
    intro x hx
    unfold forEachRecord at hx
    have hmin : MIN_DISK_READ = 24 := rfl
    by_cases hroom : off + MIN_DISK_READ ≤ limit
    swap
    · rw [if_neg hroom] at hx
      cases hx
    rw [if_pos hroom] at hx
    simp only at hx
    split at hx
    · cases hx
    · split at hx
      · cases hx
      · rcases List.mem_cons.mp hx with rfl | hx
        · exact ⟨le_rfl, by simp only; omega⟩
        · have := ih x hx
          omega

theorem forEachRecordInBuf_offset {buf : ℕ → Option Record} {fromOff limit : ℕ} :
    ∀ x ∈ forEachRecordInBuf buf fromOff limit, FIRST_VALID_ADDRESS ≤ x.1 ∧ x.1 < limit := by
  intro x hx
  obtain ⟨hlo, hhi⟩ := forEachRecord_offset _ x hx
  exact ⟨le_trans (le_max_right _ _) hlo, hhi⟩

/-- `scan` visits no page header, whatever memory and the device hold. -/
theorem scanPage_offset {log : HybridLog} {addr to_ : ℕ} {visits : List (ℕ × Record)}
    (h : scanPage g log addr to_ = some visits) :
    ∀ x ∈ visits, FIRST_VALID_ADDRESS ≤ g.pageOffset x.1 := by
  unfold scanPage at h
  simp only at h
  obtain ⟨buf, -, rfl⟩ := Option.map_eq_some_iff.mp h
  intro x hx
  obtain ⟨y, hy, rfl⟩ := List.mem_map.mp hx
  -- either walk, if it is made, stays inside the page
  have hwalk : ∀ (c : Prop) [Decidable c] (buf : ℕ → Option Record) (fromOff limit : ℕ),
      limit ≤ g.pageSize → y ∈ (if c then forEachRecordInBuf buf fromOff limit else []) →
      FIRST_VALID_ADDRESS ≤ y.1 ∧ y.1 < g.pageSize := by
    intro c _ buf fromOff limit hlimit hy
    by_cases hc : c
    · rw [if_pos hc] at hy
      obtain ⟨hlo, hhi⟩ := forEachRecordInBuf_offset y hy
      exact ⟨hlo, lt_of_lt_of_le hhi hlimit⟩
    · rw [if_neg hc] at hy
      cases hy
  have hy' : FIRST_VALID_ADDRESS ≤ y.1 ∧ y.1 < g.pageSize := by
    rcases List.mem_append.mp hy with hy | hy
    · refine hwalk _ _ _ _ ?_ hy
      split <;> omega
    · exact hwalk _ _ _ _ (by omega) hy
  simp only [pageStart_eq, g.pageOffset_join hy'.2]
  exact hy'.1

theorem scan_offset {log : HybridLog} {from_ to_ : ℕ} :
    ∀ x ∈ (log.scan g from_ to_).1, FIRST_VALID_ADDRESS ≤ g.pageOffset x.1 := by
  have hloop : ∀ n addr, ∀ x ∈ (scanLoop g log to_ n addr).1,
      FIRST_VALID_ADDRESS ≤ g.pageOffset x.1 := by
    intro n
    induction n with
    | zero => nofun
    | succ n ih =>
      intro addr x hx
      unfold scanLoop at hx
      split at hx
      · split at hx
        · cases hx
        · next visits hpage =>
          rcases List.mem_append.mp hx with hx | hx
          · exact scanPage_offset hpage x hx
          · exact ih _ x hx
      · cases hx
  exact hloop _ _

end Walks

/-! ## Section 2: What recovery puts into the index -/

/-- No entry leads to a page header. -/
def BehindHeaders (g : Geometry) (idx : HashIndex) : Prop :=
  ∀ s a, idx.load s = some a → a = TEMP_INVALID_ADDRESS ∨ FIRST_VALID_ADDRESS ≤ g.pageOffset a

section Entries

variable {g : Geometry} {info : CheckpointInfo} {idx idx' : HashIndex}

theorem BehindHeaders.clear (idx : HashIndex) : BehindHeaders g idx.clear := nofun

theorem BehindHeaders.findOrCreateTag (h : BehindHeaders g idx) {hash : ℕ} {slot : SlotRef}
    (hclaim : idx.findOrCreateTag hash = some (idx', slot)) : BehindHeaders g idx' := by
  obtain ⟨-, -, hload⟩ := HashIndex.findOrCreateTag_spec hclaim
  intro s a ha
  rw [hload s] at ha
  split at ha
  · cases hold : idx.load slot with
    | none =>
      rw [hold] at ha
      cases ha
      exact .inl rfl
    | some b =>
      rw [hold] at ha
      cases ha
      exact h slot b hold
  · exact h s a ha

/-- An address keeps its page offset when it is cut to 48 bits. -/
theorem pageOffset_maskAddress (g : Geometry) (a : ℕ) :
    g.pageOffset (maskAddress a) = g.pageOffset a := by
  have hdvd : g.pageSize ∣ 2 ^ ADDRESS_BITS := by
    apply Nat.pow_dvd_pow
    have := g.pageBits_le_thirty
    have : ADDRESS_BITS = 48 := rfl
    omega
  rw [g.pageOffset_eq, g.pageOffset_eq, maskAddress]
  exact Nat.mod_mod_of_dvd a hdvd

theorem BehindHeaders.tryCas (h : BehindHeaders g idx) {slot : SlotRef} {expected a : ℕ}
    (ha : FIRST_VALID_ADDRESS ≤ g.pageOffset a)
    (hcas : idx.tryCas slot expected a = some idx') : BehindHeaders g idx' := by
  obtain ⟨-, hload⟩ := HashIndex.tryCas_spec hcas
  intro s b hb
  rw [hload s] at hb
  split at hb
  · cases hb
    right
    rw [pageOffset_maskAddress]
    exact ha
  · exact h s b hb

theorem recoverRecord_behindHeaders {pageStart off : ℕ} {rc rc' : Recovery} {r : Record}
    (h : BehindHeaders g rc.index) (hoff : FIRST_VALID_ADDRESS ≤ g.pageOffset (pageStart + off))
    (hrec : recoverRecord info pageStart rc off r = some rc') : BehindHeaders g rc'.index := by
  unfold recoverRecord at hrec
  simp only at hrec
  split at hrec
  · cases hrec
    exact h
  · split at hrec
    · cases hrec
      exact h
    · obtain ⟨⟨idx, slot⟩, hclaim, hrest⟩ := Option.bind_eq_some_iff.mp hrec
      have hclaimed : BehindHeaders g idx := by
        split at hclaim <;> exact h.findOrCreateTag hclaim
      simp only at hrest
      split at hrest
      · obtain ⟨idx'', hcas, rfl⟩ := Option.map_eq_some_iff.mp hrest
        exact hclaimed.tryCas hoff hcas
      · cases hrest
        exact hclaimed

theorem recoverPage_behindHeaders {p limit : ℕ} (hlimit : limit ≤ g.pageSize) (n : ℕ) {off : ℕ}
    {rc rc' : Recovery} (hoff : FIRST_VALID_ADDRESS ≤ off) (h : BehindHeaders g rc.index)
    (hrec : recoverPage info (p * g.pageSize) limit n off rc = some rc') :
    BehindHeaders g rc'.index := by
  induction n generalizing off rc with
  | zero =>
    cases hrec
    exact h
  | succ n ih =>
    have hmin : MIN_DISK_READ = 24 := rfl
    unfold recoverPage at hrec
    by_cases hroom : off + MIN_DISK_READ ≤ limit
    swap
    · rw [if_neg hroom] at hrec
      cases hrec
      exact h
    rw [if_pos hroom] at hrec
    simp only at hrec
    split at hrec
    · cases hrec
      exact h
    · split at hrec
      · cases hrec
        exact h
      · obtain ⟨rc₁, hone, hrest⟩ := Option.bind_eq_some_iff.mp hrec
        refine ih (by omega) (recoverRecord_behindHeaders h ?_ hone) hrest
        rw [g.pageOffset_join (by omega)]
        exact hoff

theorem recoverPages_behindHeaders (n : ℕ) {p : ℕ} {store store' : Store}
    (h : BehindHeaders g store.index)
    (hrec : recoverPages g info n (p * g.pageSize) store = .ok store') :
    BehindHeaders g store'.index := by
  induction n generalizing p store with
  | zero =>
    cases hrec
    exact h
  | succ n ih =>
    unfold recoverPages at hrec
    split at hrec
    swap
    · cases hrec
      exact h
    simp only at hrec
    split at hrec
    · cases hrec
    · split at hrec
      · cases hrec
      · next rc hpage =>
        rw [← Nat.succ_mul] at hrec
        refine @ih (p + 1) _ ?_ hrec
        exact recoverPage_behindHeaders (by omega) _ (le_max_right _ _) h hpage

/-- What recovery leaves of the store it began with, apart from the index and the device. -/
theorem recoverPages_log (n : ℕ) {pageStart : ℕ} {store store' : Store}
    (hrec : recoverPages g info n pageStart store = .ok store') :
    store'.log.tail = store.log.tail ∧ store'.log.closedUntil = store.log.closedUntil := by
  induction n generalizing pageStart store with
  | zero =>
    cases hrec
    exact ⟨rfl, rfl⟩
  | succ n ih =>
    unfold recoverPages at hrec
    split at hrec
    swap
    · cases hrec
      exact ⟨rfl, rfl⟩
    simp only at hrec
    split at hrec
    · cases hrec
    · split at hrec
      · cases hrec
      · have hrest := ih hrec
        exact hrest

end Entries

/-! ## Section 3: The first record after recovery -/

section FirstRecord

variable {g : Geometry} {info : CheckpointInfo} {store store' : Store}

theorem recover_tail (hrec : store.recover g info = .ok store') :
    store'.log.tail = pack (g.pageOf info.finalAddress) (g.pageOffset info.finalAddress) ∧
      store'.log.closedUntil = g.pageOf info.finalAddress * g.pageSize := by
  obtain ⟨htail, hclosed⟩ := recoverPages_log _ hrec
  refine ⟨htail, hclosed.trans ?_⟩
  exact pageStart_eq g _

/-- Where the first record after recovery goes. -/
theorem recover_tryAllocate (hrec : store.recover g info = .ok store')
    (hpage : g.pageOf info.finalAddress + 1 < 2 ^ 32) {size : ℕ}
    (hsize : size + PAGE_HEADER_SIZE ≤ g.pageSize) :
    (store'.log.tryAllocate g size).1 = .ok
      (if g.pageOffset info.finalAddress + size ≤ g.pageSize then info.finalAddress
        else (g.pageOf info.finalAddress + 1) * g.pageSize + FIRST_VALID_ADDRESS) := by
  obtain ⟨htail, hclosed⟩ := recover_tail hrec
  have hps := g.pageSize_le
  have hlt := g.pageOffset_lt info.finalAddress
  have hword : unpack store'.log.tail =
      (g.pageOf info.finalAddress, g.pageOffset info.finalAddress) := by
    rw [htail]
    exact unpack_pack (by omega) (by omega)
  -- the page of the final address is the only one that has not been closed
  have hfree : g.pageIsFree store'.log.closedUntil (g.pageOf info.finalAddress + 1) = true := by
    simp only [Geometry.pageIsFree, Bool.or_eq_true, decide_eq_true_eq, hclosed, Nat.shiftLeft_eq]
    have hbs := g.two_le_bufferSize
    by_cases hbuf : g.pageOf info.finalAddress + 1 < g.bufferSize
    · exact .inl hbuf
    · right
      apply Nat.mul_le_mul_right
      omega
  simp only [HybridLog.tryAllocate, hword]
  rw [if_neg (by omega)]
  by_cases hfits : g.pageOffset info.finalAddress + size ≤ g.pageSize
  · rw [if_pos hfits, if_pos hfits, g.join_eq hlt, g.join_split]
  · rw [if_neg hfits, if_neg hfits, if_neg (by omega), if_pos hfree,
      g.join_eq g.header_lt_pageSize]

/-- The first record after recovery lies behind its page header exactly when the final
    address does or the record goes to the next page.  A record in a page header is not
    visited by any later scan, and no later recovery leads to it. -/
theorem recover_first_record (hrec : store.recover g info = .ok store')
    (hpage : g.pageOf info.finalAddress + 1 < 2 ^ 32) {size : ℕ}
    (hsize : size + PAGE_HEADER_SIZE ≤ g.pageSize) :
    ∃ addr, (store'.log.tryAllocate g size).1 = .ok addr ∧
      (FIRST_VALID_ADDRESS ≤ g.pageOffset addr ↔
        FIRST_VALID_ADDRESS ≤ g.pageOffset info.finalAddress ∨
          g.pageSize < g.pageOffset info.finalAddress + size) ∧
      (g.pageOffset addr < FIRST_VALID_ADDRESS → addr ≠ TEMP_INVALID_ADDRESS →
        (∀ log : HybridLog, ∀ from_ to_, ∀ x ∈ (log.scan g from_ to_).1, x.1 ≠ addr) ∧
        ∀ store₁ info₁ store₂, Store.recover g store₁ info₁ = .ok store₂ →
          ∀ s, store₂.index.load s ≠ some addr) := by
  refine ⟨_, recover_tryAllocate hrec hpage hsize, ?_, ?_⟩
  · have hfv : FIRST_VALID_ADDRESS = PAGE_HEADER_SIZE := rfl
    split
    · omega
    · rw [g.pageOffset_join g.header_lt_pageSize]
      omega
  · intro hlow hne
    refine ⟨?_, ?_⟩
    · rintro log from_ to_ x hx heq
      have := scan_offset x hx
      rw [heq] at this
      omega
    · intro store₁ info₁ store₂ hrec₂ s hs
      rcases recoverPages_behindHeaders _ (BehindHeaders.clear _) hrec₂ s _ hs with heq | hle
      · exact hne heq
      · omega

/-- A checkpoint whose newest record fills its page. -/
theorem recover_first_record_full_page :
    ∃ store', (Store.new 2 ⟨fun a => if a = 64 then
          some ⟨⟨1, false, true, false, false, false⟩, ⟨[1], 423, false, ⟨[7], 0⟩⟩⟩ else none,
        512⟩).recover OneRecord.geometry ⟨1, 64, 512, 512, 0⟩ = .ok store' ∧
      (store'.log.tryAllocate OneRecord.geometry 40).1 = .ok 512 ∧
      ∀ log : HybridLog, ∀ from_ to_, ∀ x ∈ (log.scan OneRecord.geometry from_ to_).1,
        x.1 ≠ 512 := by
  have hok : (match (Store.new 2 ⟨fun a => if a = 64 then
          some ⟨⟨1, false, true, false, false, false⟩, ⟨[1], 423, false, ⟨[7], 0⟩⟩⟩ else none,
        512⟩).recover OneRecord.geometry ⟨1, 64, 512, 512, 0⟩ with
      | .ok _ => true
      | _ => false) = true := by decide +kernel
  split at hok
  · next store' hrec =>
    obtain ⟨addr, halloc, -, hunseen⟩ := recover_first_record hrec (by decide)
      (show 40 + PAGE_HEADER_SIZE ≤ OneRecord.geometry.pageSize by decide)
    have haddr := recover_tryAllocate hrec (by decide)
      (show 40 + PAGE_HEADER_SIZE ≤ OneRecord.geometry.pageSize by decide)
    rw [if_pos (by decide)] at haddr
    rw [haddr] at halloc
    cases halloc
    exact ⟨store', hrec, haddr, (hunseen (by decide) (by decide)).1⟩
  · cases hok

end FirstRecord

end Tsavorite
