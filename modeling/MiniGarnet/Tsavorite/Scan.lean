import MiniGarnet.Tsavorite.Checkpoint
import MiniGarnet.Tsavorite.Layout

/-! # Walking the log

    `scan` visits the records of `[from, to)` page by page.  The flushed
    prefix of a page is walked in a copy read from the device and the rest
    in memory, both by `for_each_record_in_buf`, which goes from one record
    to the next and stops at the first all-zero header.

    A log whose records are packed is visited exactly: every record once and
    in order, wherever the boundaries between device and memory stand.
-/

namespace Tsavorite

/-! ## Section 1: The walker and the scan -/

/-- The loop of `for_each_record_in_buf`: the offsets and images `f` is called with.  The
    first argument bounds the number of records. -/
def forEachRecord (buf : ℕ → Option Record) (limit : ℕ) : ℕ → ℕ → List (ℕ × Record)
  | 0, _ => []
  | n + 1, off =>
    if off + MIN_DISK_READ ≤ limit then
      let r := (buf off).getD Record.zero
      if r.isZeroHeader then []
      else if limit < off + r.totalSize then []
      else (off, r) :: forEachRecord buf limit n (off + r.totalSize)
    else []

/-- `for_each_record_in_buf(base, from_off, limit, f)` -/
def forEachRecordInBuf (buf : ℕ → Option Record) (fromOff limit : ℕ) : List (ℕ × Record) :=
  forEachRecord buf limit limit (max fromOff PAGE_HEADER_SIZE)

/-- Where the walk over the flushed prefix of a page has got to. -/
def nextOff (startOff : ℕ) (visits : List (ℕ × Record)) : ℕ :=
  match visits.getLast? with
  | some (off, r) => off + r.totalSize
  | none => startOff

section Scan

variable (g : Geometry)

/-- One turn of the loop of `scan`: the calls of `f` for the page of `addr`, or `none` if
    the device read fails. -/
def scanPage (log : HybridLog) (addr to_ : ℕ) : Option (List (ℕ × Record)) :=
  let page := g.pageOf addr
  let pageStart := page <<< g.pageBits
  let pageEnd := min (pageStart + g.pageSize) to_
  let diskLimit := if addr < log.head then min pageEnd log.flushedUntil - pageStart else 0
  (log.readPagePrefixFromDisk g page diskLimit).map fun diskBuf =>
    let memBase := log.pages (g.slotOf page)
    let startOff := max (addr - pageStart) PAGE_HEADER_SIZE
    let limit := pageEnd - pageStart
    let onDisk := if startOff < diskLimit then forEachRecordInBuf diskBuf startOff diskLimit else []
    let nextOff := nextOff startOff onDisk
    let inMemory :=
      if nextOff < limit then forEachRecordInBuf memBase (max nextOff diskLimit) limit else []
    (onDisk ++ inMemory).map fun x => (pageStart + x.1, x.2)

/-- The loop of `scan`: the calls of `f`, and whether all device reads succeed.  The first
    argument bounds the number of pages. -/
def scanLoop (log : HybridLog) (to_ : ℕ) : ℕ → ℕ → List (ℕ × Record) × Bool
  | 0, _ => ([], true)
  | n + 1, addr =>
    if addr < to_ then
      match scanPage g log addr to_ with
      | none => ([], false)
      | some visits =>
        let rest := scanLoop log to_ n (g.pageOf addr <<< g.pageBits + g.pageSize)
        (visits ++ rest.1, rest.2)
    else ([], true)

/-- `scan(from, to, f)` -/
def HybridLog.scan (log : HybridLog) (from_ to_ : ℕ) : List (ℕ × Record) × Bool :=
  scanLoop g log to_ (to_ / g.pageSize + 1) (max from_ FIRST_VALID_ADDRESS)

end Scan

/-! ## Section 2: One walk -/

/-- Comparing records through `f` loses neither their size nor an all-zero header. -/
structure SameShape (f : Record → Record) : Prop where
  size : ∀ r, (f r).totalSize = r.totalSize
  zero : ∀ r, r.isZeroHeader = true → (f r).isZeroHeader = true

theorem sameShape_id : SameShape id := ⟨fun _ => rfl, fun _ h => h⟩

theorem sameShape_strip : SameShape Record.strip := by
  refine ⟨fun _ => rfl, fun r h => ?_⟩
  simp only [Record.isZeroHeader, Bool.and_eq_true, decide_eq_true_eq] at h ⊢
  obtain ⟨⟨hinfo, hkey⟩, hcap⟩ := h
  exact ⟨⟨by rw [Record.strip, hinfo]; rfl, hkey⟩, hcap⟩

/-- Up to `f`, the offsets `[lo, hi)` of `buf` read as the addresses behind `base`. -/
def ReadsAs (f : Record → Record) (image : ℕ → Option Record) (base : ℕ)
    (buf : ℕ → Option Record) (lo hi : ℕ) : Prop :=
  ∀ off, lo ≤ off → off < hi → (buf off).map f = image (base + off)

theorem ReadsAs.mono {f : Record → Record} {image : ℕ → Option Record} {base : ℕ}
    {buf : ℕ → Option Record} {lo lo' hi : ℕ} (h : ReadsAs f image base buf lo hi) (hle : lo ≤ lo') :
    ReadsAs f image base buf lo' hi := fun off hlo hhi => h off (le_trans hle hlo) hhi

/-- `L` lists the records of `[base + lo, base + hi)`, each once and in order. -/
structure Visits (f : Record → Record) (image : ℕ → Option Record) (base lo hi : ℕ)
    (L : List (ℕ × Record)) : Prop where
  sound : ∀ x ∈ L, lo ≤ x.1 ∧ x.1 + x.2.totalSize ≤ hi ∧ image (base + x.1) = some (f x.2)
  complete : ∀ a r, image a = some r → base + lo ≤ a → a + r.totalSize ≤ base + hi →
    ∃ x ∈ L, base + x.1 = a
  sorted : L.Pairwise fun x y => x.1 + x.2.totalSize ≤ y.1

section Walk

variable {g : Geometry} {f : Record → Record} {image : ℕ → Option Record}

theorem visits_nil {base lo hi : ℕ}
    (h : ∀ a r, image a = some r → base + lo ≤ a → base + hi < a + r.totalSize) :
    Visits f image base lo hi [] :=
  ⟨nofun, fun a r ha hlo hhi => absurd (h a r ha hlo) (by omega), .nil⟩

theorem forEachRecord_visits (hf : SameShape f) (h : Packed g image) {p hi : ℕ}
    {buf : ℕ → Option Record} (hhi : hi ≤ g.pageSize) (n : ℕ) {off : ℕ} (hfuel : hi ≤ off + n)
    (hoff : FIRST_VALID_ADDRESS ≤ off) (hb : Boundary g image p off)
    (hread : ReadsAs f image (p * g.pageSize) buf off hi) :
    Visits f image (p * g.pageSize) off hi (forEachRecord buf hi n off) := by
  have hmin : MIN_DISK_READ = 24 := rfl
  induction n generalizing off with
  | zero =>
    apply visits_nil
    intro a r ha hlo
    have := r.totalSize_ge
    omega
  | succ n ih =>
    unfold forEachRecord
    by_cases hroom : off + MIN_DISK_READ ≤ hi
    swap
    · rw [if_neg hroom]
      apply visits_nil
      intro a r ha hlo
      have := r.totalSize_ge
      omega
    rw [if_pos hroom]
    have hhere := hread off (le_refl _) (by omega)
    cases hbuf : buf off with
    | none =>
      -- No record begins here, so none follows.
      rw [hbuf] at hhere
      have hnone : image (p * g.pageSize + off) = none := hhere.symm
      apply visits_nil
      intro a r ha hlo
      have := h.nothing_after hoff hb hnone a r ha hlo
      have := r.totalSize_ge
      omega
    | some r =>
      rw [hbuf] at hhere
      have himage : image (p * g.pageSize + off) = some (f r) := hhere.symm
      have hzero : r.isZeroHeader = false := by
        by_contra hz
        have := h.header _ _ himage
        rw [hf.zero r (by simpa using hz)] at this
        cases this
      have hsize := r.totalSize_ge
      have hfsize := hf.size r
      simp only [Option.getD_some, hzero, Bool.false_eq_true, if_false]
      by_cases hbig : hi < off + r.totalSize
      · rw [if_pos hbig]
        apply visits_nil
        intro a r' ha hlo
        rcases Nat.lt_or_eq_of_le hlo with hlt | heq
        · have := h.apart _ _ _ _ himage ha hlt
          have := r'.totalSize_ge
          omega
        · rw [← heq, himage] at ha
          cases ha
          omega
      · rw [if_neg hbig]
        have hb' : Boundary g image p (off + r.totalSize) :=
          .inr ⟨_, _, himage, by rw [hfsize]; omega⟩
        have hrest := @ih (off + r.totalSize) (by omega) (by omega) hb'
          (hread.mono (by omega))
        refine ⟨?_, ?_, ?_⟩
        · intro x hx
          rcases List.mem_cons.mp hx with rfl | hx
          · exact ⟨le_refl _, by simp only; omega, himage⟩
          · obtain ⟨h₁, h₂, h₃⟩ := hrest.sound x hx
            exact ⟨by omega, h₂, h₃⟩
        · intro a r' ha hlo hstop
          rcases Nat.lt_or_eq_of_le hlo with hlt | heq
          · have hafter := h.apart _ _ _ _ himage ha hlt
            obtain ⟨x, hx, hxa⟩ := hrest.complete a r' ha (by omega) hstop
            exact ⟨x, List.mem_cons_of_mem _ hx, hxa⟩
          · exact ⟨_, List.mem_cons_self, heq⟩
        · refine List.pairwise_cons.mpr ⟨fun x hx => ?_, hrest.sorted⟩
          exact (hrest.sound x hx).1

/-- The walk of a buffer from a boundary. -/
theorem forEachRecordInBuf_visits (hf : SameShape f) (h : Packed g image) {p hi off : ℕ}
    {buf : ℕ → Option Record} (hhi : hi ≤ g.pageSize) (hoff : FIRST_VALID_ADDRESS ≤ off)
    (hb : Boundary g image p off) (hread : ReadsAs f image (p * g.pageSize) buf off hi) :
    Visits f image (p * g.pageSize) off hi (forEachRecordInBuf buf off hi) := by
  have hmax : max off PAGE_HEADER_SIZE = off := max_eq_left hoff
  unfold forEachRecordInBuf
  rw [hmax]
  exact forEachRecord_visits hf h hhi hi (by omega) hoff hb hread

/-- How far a walk has got: at a boundary, with everything it visited behind it. -/
theorem Visits.nextOff (hf : SameShape f) {p lo hi : ℕ} {L : List (ℕ × Record)}
    (h : Visits f image (p * g.pageSize) lo hi L) (hb : Boundary g image p lo) (hle : lo ≤ hi) :
    lo ≤ nextOff lo L ∧ nextOff lo L ≤ hi ∧ Boundary g image p (nextOff lo L) ∧
      ∀ x ∈ L, x.1 + x.2.totalSize ≤ nextOff lo L := by
  unfold Tsavorite.nextOff
  rcases List.eq_nil_or_concat L with rfl | ⟨init, ⟨off, r⟩, rfl⟩
  · exact ⟨le_refl _, hle, hb, nofun⟩
  · rw [List.concat_eq_append, List.getLast?_concat]
    rw [List.concat_eq_append] at h
    obtain ⟨h₁, h₂, h₃⟩ := h.sound (off, r) (by simp)
    simp only at h₁ h₂ h₃ ⊢
    refine ⟨by omega, h₂, .inr ⟨_, _, h₃, by rw [hf.size]; omega⟩, ?_⟩
    intro x hx
    rcases List.mem_append.mp hx with hx | hx
    · have hlast := (List.pairwise_append.mp h.sorted).2.2 x hx (off, r) (by simp)
      simp only at hlast
      omega
    · rw [List.mem_singleton.mp hx]

end Walk

/-! ## Section 3: One page -/

section Page

variable {g : Geometry} {f : Record → Record} {image : ℕ → Option Record} {cut : ℕ → Prop}
  {log : HybridLog}

theorem forEachRecordInBuf_nil {buf : ℕ → Option Record} {off limit : ℕ}
    (hoff : FIRST_VALID_ADDRESS ≤ off) (h : off + MIN_DISK_READ ≤ limit → buf off = none) :
    forEachRecordInBuf buf off limit = [] := by
  have hmax : max off PAGE_HEADER_SIZE = off := max_eq_left hoff
  unfold forEachRecordInBuf
  rw [hmax]
  cases limit with
  | zero => rfl
  | succ n =>
    unfold forEachRecord
    split
    · next hroom =>
      rw [h hroom, Option.getD_none]
      rfl
    · rfl

/-- A record that ends behind a boundary begins behind it. -/
theorem Packed.le_of_boundary (h : Packed g image) {p off a : ℕ} {r : Record}
    (hb : Boundary g image p off) (ha : image a = some r)
    (hfirst : p * g.pageSize + FIRST_VALID_ADDRESS ≤ a)
    (hstop : p * g.pageSize + off < a + r.totalSize) : p * g.pageSize + off ≤ a := by
  rcases hb with rfl | ⟨e, re, he, hestop⟩
  · exact hfirst
  · rcases Nat.lt_trichotomy a e with hlt | rfl | hlt
    · have := h.apart a e r re ha he hlt
      have := re.totalSize_ge
      have : MIN_DISK_READ = 24 := rfl
      omega
    · rw [ha] at he
      cases he
      omega
    · have := h.apart e a re r he ha hlt
      omega

theorem PagesInv.readsAs_memory (h : PagesInv g f log image cut) {p lo hi : ℕ}
    (hlo : log.head ≤ p * g.pageSize + lo) (hhi : hi ≤ g.pageSize) (hp : p ≤ log.tailPage) :
    ReadsAs f image (p * g.pageSize) (log.pages (g.slotOf p)) lo hi := by
  intro off hoff hlt
  have htop : (p + 1) * g.pageSize ≤ (log.tailPage + 1) * g.pageSize :=
    Nat.mul_le_mul_right _ (by omega)
  rw [Nat.succ_mul] at htop
  have hmem := h.memory (p * g.pageSize + off) (by omega) (by omega)
  rwa [HybridLog.slotAt, g.pageOf_join (by omega), g.pageOffset_join (by omega)] at hmem

theorem PagesInv.readPagePrefixFromDisk (h : PagesInv g f log image cut) {p limit : ℕ}
    (hle : p * g.pageSize + limit ≤ log.flushedUntil)
    (hlen : log.flushedUntil ≤ log.device.len) :
    ∃ buf, log.readPagePrefixFromDisk g p limit = some buf ∧
      ReadsAs f image (p * g.pageSize) buf FIRST_VALID_ADDRESS limit := by
  unfold HybridLog.readPagePrefixFromDisk
  by_cases hzero : limit = 0
  · rw [if_pos hzero]
    refine ⟨_, rfl, fun off _ hlt => ?_⟩
    omega
  · rw [if_neg hzero, pageStart_eq, if_pos (by simp only [Device.canRead, decide_eq_true_eq]; omega)]
    refine ⟨_, rfl, fun off hoff hlt => ?_⟩
    rw [if_pos hlt]
    exact h.disk _ (by omega) (by omega)

/-- What `scan` visits on one page: the records that end before `to_`. -/
theorem PagesInv.scanPage_visits (h : PagesInv g f log image (CutOf image))
    (hf : SameShape f) (hp : Packed g image) {p addr to_ : ℕ}
    (hpage : p * g.pageSize ≤ addr) (hstart : addr ≤ p * g.pageSize + FIRST_VALID_ADDRESS)
    (hfirst : FIRST_VALID_ADDRESS ≤ addr) (hlt : addr < to_) (htail : p ≤ log.tailPage) :
    ∃ L, scanPage g log addr to_ = some (L.map fun x => (p * g.pageSize + x.1, x.2)) ∧
      Visits f image (p * g.pageSize) FIRST_VALID_ADDRESS
        (min (p * g.pageSize + g.pageSize) to_ - p * g.pageSize) L := by
  have hps := g.header_lt_pageSize
  have hpageOf : g.pageOf addr = p := pageOf_of_mem hpage (by omega)
  have hoff : max (addr - p * g.pageSize) PAGE_HEADER_SIZE = FIRST_VALID_ADDRESS :=
    max_eq_right (by rw [← show FIRST_VALID_ADDRESS = PAGE_HEADER_SIZE from rfl]; omega)
  unfold scanPage
  rw [hpageOf]
  simp only [pageStart_eq, hoff]
  generalize hlimit : min (p * g.pageSize + g.pageSize) to_ - p * g.pageSize = limit
  have hlimit' : limit ≤ g.pageSize := by omega
  -- The flushed prefix ends with the walk, at `flushedUntil`, or is not looked at.
  obtain ⟨d, hd, hdlimit, hdisk, hdcut, hhead⟩ : ∃ d, (if addr < log.head then
        min (min (p * g.pageSize + g.pageSize) to_) log.flushedUntil - p * g.pageSize else 0) = d ∧
      d ≤ limit ∧ (d = 0 ∨ p * g.pageSize + d ≤ log.flushedUntil ∧
        log.flushedUntil ≤ log.device.len) ∧
      (d = limit ∨ d = 0 ∨ p * g.pageSize + d = log.flushedUntil) ∧
      (d = limit ∨ log.head ≤ p * g.pageSize + max d FIRST_VALID_ADDRESS) := by
    refine ⟨_, rfl, ?_⟩
    have hhf := h.head_le
    split
    · next hbelow =>
      have hlen : log.flushedUntil ≤ log.device.len := by
        rcases h.device_len with heq | hle
        · omega
        · exact hle
      refine ⟨by omega, .inr ⟨by omega, hlen⟩, ?_, ?_⟩ <;> omega
    · exact ⟨by omega, .inl rfl, .inr (.inl rfl), .inr (by omega)⟩
  rw [hd]
  obtain ⟨buf, hbuf, hreads⟩ : ∃ buf, log.readPagePrefixFromDisk g p d = some buf ∧
      ReadsAs f image (p * g.pageSize) buf FIRST_VALID_ADDRESS d := by
    rcases hdisk with rfl | ⟨hle, hlen⟩
    · exact ⟨_, if_pos rfl, fun off _ hlt => by omega⟩
    · exact h.readPagePrefixFromDisk hle hlen
  rw [hbuf, Option.map_some]
  have hb : Boundary g image p FIRST_VALID_ADDRESS := .inl rfl
  -- The walk over the copy.
  obtain ⟨L₁, hL₁, hvis₁, hnext⟩ : ∃ L₁, (if FIRST_VALID_ADDRESS < d then
        forEachRecordInBuf buf FIRST_VALID_ADDRESS d else []) = L₁ ∧
      Visits f image (p * g.pageSize) FIRST_VALID_ADDRESS d L₁ ∧
      (FIRST_VALID_ADDRESS ≤ nextOff FIRST_VALID_ADDRESS L₁ ∧
        nextOff FIRST_VALID_ADDRESS L₁ ≤ max d FIRST_VALID_ADDRESS ∧
        Boundary g image p (nextOff FIRST_VALID_ADDRESS L₁) ∧
        ∀ x ∈ L₁, x.1 + x.2.totalSize ≤ nextOff FIRST_VALID_ADDRESS L₁) := by
    refine ⟨_, rfl, ?_⟩
    split
    · next hlt =>
      have hvis := forEachRecordInBuf_visits hf hp (by omega) (le_refl _) hb hreads
      obtain ⟨h₁, h₂, h₃, h₄⟩ := hvis.nextOff hf hb (by omega)
      exact ⟨hvis, h₁, by omega, h₃, h₄⟩
    · refine ⟨visits_nil fun a r _ hlo => ?_, le_refl _, le_max_right _ _, hb, nofun⟩
      have := r.totalSize_ge
      have : MIN_DISK_READ = 24 := rfl
      omega
  obtain ⟨hnlo, hnhi, hnb, hnstop⟩ := hnext
  rw [hL₁]
  generalize nextOff FIRST_VALID_ADDRESS L₁ = n at *
  -- The walk in memory starts where the other one has ended, or behind the last record.
  have hvis₂ : Visits f image (p * g.pageSize) (max n d) limit (if n < limit then
      forEachRecordInBuf (log.pages (g.slotOf p)) (max n d) limit else []) := by
    split
    swap
    · refine visits_nil fun a r _ hlo => ?_
      have := r.totalSize_ge
      have : MIN_DISK_READ = 24 := rfl
      omega
    by_cases hend : d = limit
    · rw [forEachRecordInBuf_nil (by omega) (by
        intro hroom
        have : MIN_DISK_READ = 24 := rfl
        omega)]
      refine visits_nil fun a r _ hlo => ?_
      have := r.totalSize_ge
      have : MIN_DISK_READ = 24 := rfl
      omega
    have hmem : ReadsAs f image (p * g.pageSize) (log.pages (g.slotOf p)) (max n d) limit :=
      h.readsAs_memory (by rcases hhead with heq | hle <;> omega) hlimit' htail
    by_cases hgap : n < d
    swap
    · have hmax : max n d = n := by omega
      rw [hmax] at hmem ⊢
      exact forEachRecordInBuf_visits hf hp hlimit' hnlo hnb hmem
    · have hnone : image (p * g.pageSize + n) = none := by
        cases himg : image (p * g.pageSize + n) with
        | none => rfl
        | some r =>
          exfalso
          have hflushed : p * g.pageSize + d = log.flushedUntil := by
            rcases hdcut with heq | heq | heq <;> omega
          have hstop := h.flushed_cut _ _ himg (by omega)
          obtain ⟨x, hx, hxa⟩ := hvis₁.complete _ _ himg (by omega) (by omega)
          have := hnstop x hx
          have := x.2.totalSize_ge
          have : MIN_DISK_READ = 24 := rfl
          omega
      have hafter := hp.nothing_after hnlo hnb hnone
      have hmax : max n d = d := by omega
      rw [hmax] at hmem ⊢
      rw [forEachRecordInBuf_nil (by omega) (by
        intro hroom
        have hat := hmem d (le_refl _) (by have : MIN_DISK_READ = 24 := rfl; omega)
        cases himg : image (p * g.pageSize + d) with
        | none =>
          rw [himg] at hat
          exact Option.map_eq_none_iff.mp hat
        | some r =>
          have := hafter _ _ himg (by omega)
          have : MIN_DISK_READ = 24 := rfl
          omega)]
      refine visits_nil fun a r ha hlo => ?_
      have := hafter a r ha (by omega)
      have := r.totalSize_ge
      have : MIN_DISK_READ = 24 := rfl
      omega
  generalize (if n < limit then
    forEachRecordInBuf (log.pages (g.slotOf p)) (max n d) limit else []) = L₂ at hvis₂
  refine ⟨L₁ ++ L₂, rfl, ?_, ?_, ?_⟩
  · intro x hx
    rcases List.mem_append.mp hx with hx | hx
    · obtain ⟨h₁, h₂, h₃⟩ := hvis₁.sound x hx
      exact ⟨h₁, by omega, h₃⟩
    · obtain ⟨h₁, h₂, h₃⟩ := hvis₂.sound x hx
      exact ⟨by omega, h₂, h₃⟩
  · intro a r ha hlo hstop
    by_cases hbelow : a + r.totalSize ≤ p * g.pageSize + d
    · obtain ⟨x, hx, hxa⟩ := hvis₁.complete a r ha hlo hbelow
      exact ⟨x, List.mem_append_left _ hx, hxa⟩
    · have hsize := r.totalSize_ge
      have hmin : MIN_DISK_READ = 24 := rfl
      have hd' : p * g.pageSize + d ≤ a := by
        rcases hdcut with heq | heq | heq
        · omega
        · omega
        · by_contra hlt'
          have := h.flushed_cut a r ha (by omega)
          omega
      have hn' := hp.le_of_boundary hnb ha hlo (by omega)
      obtain ⟨x, hx, hxa⟩ := hvis₂.complete a r ha (by omega) hstop
      exact ⟨x, List.mem_append_right _ hx, hxa⟩
  · refine List.pairwise_append.mpr ⟨hvis₁.sorted, hvis₂.sorted, fun x hx y hy => ?_⟩
    have := hnstop x hx
    have := (hvis₂.sound y hy).1
    omega

/-! ## Section 4: The whole log -/

/-- What is visited on a page, by address. -/
theorem Visits.addresses {base lo hi : ℕ} {L : List (ℕ × Record)}
    (h : Visits f image base lo hi L) :
    Visits f image 0 (base + lo) (base + hi) (L.map fun x => (base + x.1, x.2)) := by
  refine ⟨?_, ?_, ?_⟩
  · intro y hy
    obtain ⟨x, hx, rfl⟩ := List.mem_map.mp hy
    obtain ⟨h₁, h₂, h₃⟩ := h.sound x hx
    exact ⟨by simp only; omega, by simp only; omega, by rw [Nat.zero_add]; exact h₃⟩
  · intro a r ha hlo hstop
    obtain ⟨x, hx, hxa⟩ := h.complete a r ha (by omega) (by omega)
    exact ⟨_, List.mem_map_of_mem hx, by simp only; omega⟩
  · refine List.pairwise_map.mpr (h.sorted.imp fun {x y} hxy => ?_)
    simp only
    omega

/-- Two stretches of the log that no record lies across. -/
theorem Visits.append {lo mid mid' hi : ℕ} {L L' : List (ℕ × Record)}
    (h : Visits f image 0 lo mid L) (h' : Visits f image 0 mid' hi L') (hmid : mid ≤ mid')
    (hlo : lo ≤ mid') (hhi : mid ≤ hi)
    (hsplit : ∀ a r, image a = some r → lo ≤ a → a + r.totalSize ≤ hi →
      a + r.totalSize ≤ mid ∨ mid' ≤ a) : Visits f image 0 lo hi (L ++ L') := by
  refine ⟨?_, ?_, ?_⟩
  · intro x hx
    rcases List.mem_append.mp hx with hx | hx
    · obtain ⟨h₁, h₂, h₃⟩ := h.sound x hx
      exact ⟨h₁, by omega, h₃⟩
    · obtain ⟨h₁, h₂, h₃⟩ := h'.sound x hx
      exact ⟨by omega, h₂, h₃⟩
  · intro a r ha hle hstop
    rcases hsplit a r ha (by omega) (by omega) with hmid | hmid
    · obtain ⟨x, hx, hxa⟩ := h.complete a r ha (by omega) (by omega)
      exact ⟨x, List.mem_append_left _ hx, hxa⟩
    · obtain ⟨x, hx, hxa⟩ := h'.complete a r ha (by omega) (by omega)
      exact ⟨x, List.mem_append_right _ hx, hxa⟩
  · refine List.pairwise_append.mpr ⟨h.sorted, h'.sorted, fun x hx y hy => ?_⟩
    have := (h.sound x hx).2.1
    have := (h'.sound y hy).1
    omega

/-- A stretch without room for a record in front. -/
theorem Visits.widen {lo lo' hi : ℕ} {L : List (ℕ × Record)} (h : Visits f image 0 lo hi L)
    (hle : lo' ≤ lo) (hnone : ∀ a r, image a = some r → lo' ≤ a → lo ≤ a) :
    Visits f image 0 lo' hi L := by
  refine ⟨fun x hx => ?_, fun a r ha hlo hstop => ?_, h.sorted⟩
  · obtain ⟨h₁, h₂, h₃⟩ := h.sound x hx
    exact ⟨by omega, h₂, h₃⟩
  · have := hnone a r ha (by omega)
    exact h.complete a r ha (by omega) hstop

theorem PagesInv.scanLoop_visits (h : PagesInv g f log image (CutOf image))
    (hf : SameShape f) (hp : Packed g image) {to_ : ℕ}
    (hto : to_ ≤ (log.tailPage + 1) * g.pageSize) (n : ℕ) {p addr : ℕ}
    (hpage : p * g.pageSize ≤ addr) (hstart : addr ≤ p * g.pageSize + FIRST_VALID_ADDRESS)
    (hfirst : FIRST_VALID_ADDRESS ≤ addr) (hfuel : to_ < (p + n) * g.pageSize) :
    ∃ L, scanLoop g log to_ n addr = (L, true) ∧ Visits f image 0 addr to_ L := by
  have hps := g.header_lt_pageSize
  induction n generalizing p addr with
  | zero =>
    refine ⟨[], rfl, visits_nil fun a r _ hlo => ?_⟩
    have := r.totalSize_ge
    have : MIN_DISK_READ = 24 := rfl
    rw [Nat.add_zero] at hfuel
    omega
  | succ n ih =>
    unfold scanLoop
    by_cases hlt : addr < to_
    swap
    · rw [if_neg hlt]
      refine ⟨[], rfl, visits_nil fun a r _ hlo => ?_⟩
      have := r.totalSize_ge
      have : MIN_DISK_READ = 24 := rfl
      omega
    rw [if_pos hlt]
    have htail : p ≤ log.tailPage := by
      have : p * g.pageSize < (log.tailPage + 1) * g.pageSize := by omega
      exact Nat.lt_succ_iff.mp (Nat.lt_of_mul_lt_mul_right this)
    have hpageOf : g.pageOf addr = p := pageOf_of_mem hpage (by omega)
    have hsucc : (p + 1) * g.pageSize = p * g.pageSize + g.pageSize := Nat.succ_mul _ _
    obtain ⟨L, hL, hvis⟩ := h.scanPage_visits hf hp hpage hstart hfirst hlt htail
    obtain ⟨L', hL', hvis'⟩ := @ih (p + 1) ((p + 1) * g.pageSize) (le_refl _) (by omega)
      (by omega) (by rw [show p + 1 + n = p + (n + 1) by omega]; exact hfuel)
    rw [hL]
    simp only [hpageOf, pageStart_eq]
    rw [← hsucc, hL']
    refine ⟨_, rfl, ?_⟩
    have hhere : Visits f image 0 addr _ _ := hvis.addresses.widen hstart fun a r ha hle => by
      -- The page header holds no record.
      by_contra hlt'
      have := (hp.inPage a r ha).1
      rw [pageOffset_of_mem (p := p) (by omega) (by omega)] at this
      omega
    refine hhere.append hvis' (by omega) (by omega) (by omega) fun a r ha hle hstop => ?_
    by_cases hin : a < (p + 1) * g.pageSize
    · left
      have := (hp.inPage a r ha).2
      rw [pageOffset_of_mem (p := p) (by omega) (by omega)] at this
      omega
    · exact .inr (by omega)

/-- `scan` visits every record that ends before `to_`, once and in order. -/
theorem Laid.scan_visits (h : Laid g f log image) (hf : SameShape f) {to_ : ℕ}
    (hto : to_ ≤ (log.tailPage + 1) * g.pageSize) :
    ∃ L, log.scan g log.beginAddress to_ = (L, true) ∧
      Visits f image 0 FIRST_VALID_ADDRESS to_ L := by
  have hdiv : to_ < (0 + (to_ / g.pageSize + 1)) * g.pageSize := by
    rw [Nat.zero_add, Nat.succ_mul]
    exact Nat.lt_div_mul_add g.pageSize_pos
  have hps := g.header_lt_pageSize
  unfold HybridLog.scan
  rw [h.pages.begin_eq, max_self]
  exact h.pages.scanLoop_visits hf h.packed hto _ (p := 0) (by omega) (by omega) (le_refl _) hdiv

end Page

end Tsavorite
