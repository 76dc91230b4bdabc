import Mathlib.Data.Set.Card
import MiniGarnet.Tsavorite.Live

/-! # The scan for live records

    `scan_live` walks the log up to the tail it finds and reports the valid
    records that are no tombstones and pass `is_latest`; KEYS, SCAN and
    DBSIZE are built on it.  At the first record of a page it refreshes its
    epoch, and a refresh runs the drain actions that have become safe: the
    log is flushed and pages are closed while the walk goes on.

    Whatever they do, the scan reports every key that a read would find, once
    and with the content a read would see.  The one exception is a full last
    page with an odd number: `tail_address` then gives the page's own begin,
    and the scan ends in front of it.
-/

namespace Tsavorite

/-! ## Section 1: The code -/

section Code

variable (g : Geometry)

/-- `refresh` by thread `t`.  An empty queue drains to itself. -/
def HybridLog.refresh (log : HybridLog) (t : ℕ) : HybridLog :=
  ({ log with epoch := log.epoch.protect t }).drain g

/-- What `scan_live` does on one page: the records it reports, and the store after the
    refresh at the first record of the page. -/
def Store.scanLivePage (store : Store) (t addr to_ : ℕ) : Option (List (ℕ × Record) × Store) :=
  (scanPage g store.log addr to_).map fun visits =>
    let store := if visits.isEmpty then store else { store with log := store.log.refresh g t }
    (visits.filter fun x =>
      x.2.info.isValid && !x.2.info.isTombstone && store.isLatest g x.1 x.2.data.key, store)

/-- The loop of the scan.  A failed read of the device ends it early; the first argument bounds
    the number of pages. -/
def Store.scanLiveLoop (t to_ : ℕ) : ℕ → ℕ → Store → List (ℕ × Record) × Store
  | 0, _, store => ([], store)
  | n + 1, addr, store =>
    if addr < to_ then
      match store.scanLivePage g t addr to_ with
      | none => ([], store)
      | some (reported, store) =>
        let rest := scanLiveLoop t to_ n (g.pageOf addr <<< g.pageBits + g.pageSize) store
        (reported ++ rest.1, rest.2)
    else ([], store)

/-- `scan_live` on thread `t`: the calls of `f`.  `none` while `tail_address` spins. -/
def Store.scanLive (store : Store) (t : ℕ) : Option (List (ℕ × Record) × Store) :=
  let store := store.protect t
  (tailAddress g store.log.tail).map fun tail =>
    let x := store.scanLiveLoop g t tail (tail / g.pageSize + 1)
      (max store.log.beginAddress FIRST_VALID_ADDRESS)
    (x.1, x.2.unprotect t)

/-- `count_live` -/
def Store.countLive (store : Store) (t : ℕ) : Option ℕ :=
  (store.scanLive g t).map fun x => x.1.length

end Code

/-! ## Section 2: One page -/

section Page

variable {g : Geometry} {rest : ℕ → Option Record} {store : Store} {cells : List Cell}

/-- The records the scan is to report: the newest of their keys, and no tombstones. -/
def isLive (cells : List Cell) (x : ℕ × Record) : Bool :=
  x.2.info.isValid && !x.2.info.isTombstone &&
    decide ((newest cells x.2.data.key).map Cell.addr = some x.1)

theorem StoreOver.refresh (h : StoreOver g rest store cells) (t : ℕ) :
    StoreOver g rest { store with log := store.log.refresh g t } cells := by
  have hprotect := h.protect t
  exact hprotect.shifted hprotect.log.pages.drain (drain_drained g _).shifted

/-- The test gives the same answer whenever it is made. -/
theorem StoreOver.filter_isLatest (h : StoreOver g rest store cells) {lo hi : ℕ}
    {L : List (ℕ × Record)} (hL : Visits Record.strip (imageOver rest cells) 0 lo hi L) :
    (L.filter fun x =>
      x.2.info.isValid && !x.2.info.isTombstone && store.isLatest g x.1 x.2.data.key) =
        L.filter (isLive cells) := by
  apply List.filter_congr
  intro x hx
  have himage := (hL.sound x hx).2.2
  rw [Nat.zero_add] at himage
  have htest := h.isLatest_eq (r := x.2.strip) himage
  rw [h.readAddr_eq] at htest
  unfold isLive
  congr 1
  rw [Bool.eq_iff_iff, decide_eq_true_eq]
  exact htest

end Page

/-! ## Section 3: The whole log -/

section Loop

variable {g : Geometry} {rest : ℕ → Option Record} {store : Store} {cells : List Cell}

/-- The walk of one page and what the walk visits behind it. -/
theorem Visits.append_page {image : ℕ → Option Record} (hp : Packed g image) {p addr to_ : ℕ}
    {L L' : List (ℕ × Record)}
    (hstart : addr ≤ p * g.pageSize + FIRST_VALID_ADDRESS) (hpage : p * g.pageSize ≤ addr)
    (hlt : addr < to_)
    (h : Visits Record.strip image (p * g.pageSize) FIRST_VALID_ADDRESS
      (min (p * g.pageSize + g.pageSize) to_ - p * g.pageSize) L)
    (h' : Visits Record.strip image 0 ((p + 1) * g.pageSize) to_ L') :
    Visits Record.strip image 0 addr to_ ((L.map fun x => (p * g.pageSize + x.1, x.2)) ++ L') := by
  have hps := g.header_lt_pageSize
  have hsucc : (p + 1) * g.pageSize = p * g.pageSize + g.pageSize := Nat.succ_mul _ _
  have hhere := h.addresses.widen hstart fun a r ha hle => by
    -- the page header holds no record
    by_contra hbelow
    have := (hp.inPage a r ha).1
    rw [pageOffset_of_mem (p := p) (by omega) (by omega)] at this
    omega
  refine hhere.append h' (by omega) (by omega) (by omega) fun a r ha hle hstop => ?_
  by_cases hin : a < (p + 1) * g.pageSize
  · left
    have := (hp.inPage a r ha).2
    rw [pageOffset_of_mem (p := p) (by omega) (by omega)] at this
    omega
  · exact .inr (by omega)

theorem StoreOver.scanLiveLoop_spec (h : StoreOver g rest store cells) {t to_ : ℕ}
    (hto : to_ ≤ (store.log.tailPage + 1) * g.pageSize) (n : ℕ) {p addr : ℕ}
    (hpage : p * g.pageSize ≤ addr) (hstart : addr ≤ p * g.pageSize + FIRST_VALID_ADDRESS)
    (hfirst : FIRST_VALID_ADDRESS ≤ addr) (hfuel : to_ < (p + n) * g.pageSize) :
    ∃ L store', store.scanLiveLoop g t to_ n addr = (L.filter (isLive cells), store') ∧
      Visits Record.strip (imageOver rest cells) 0 addr to_ L ∧ StoreOver g rest store' cells := by
  have hmin : MIN_DISK_READ = 24 := rfl
  have hps := g.header_lt_pageSize
  induction n generalizing p addr store with
  | zero =>
    refine ⟨[], store, rfl, visits_nil fun a r _ hlo => ?_, h⟩
    have := r.totalSize_ge
    rw [Nat.add_zero] at hfuel
    omega
  | succ n ih =>
    unfold Store.scanLiveLoop
    by_cases hlt : addr < to_
    swap
    · rw [if_neg hlt]
      refine ⟨[], store, rfl, visits_nil fun a r _ hlo => ?_, h⟩
      have := r.totalSize_ge
      omega
    rw [if_pos hlt]
    have htail : p ≤ store.log.tailPage := by
      have : p * g.pageSize < (store.log.tailPage + 1) * g.pageSize := by omega
      exact Nat.lt_succ_iff.mp (Nat.lt_of_mul_lt_mul_right this)
    have hpageOf : g.pageOf addr = p := pageOf_of_mem hpage (by omega)
    obtain ⟨L, hL, hvis⟩ := h.log.pages.scanPage_visits sameShape_strip h.log.laid.packed hpage
      hstart hfirst hlt htail
    -- the store behind the page, with the same cells
    generalize hstore : (if (L.map fun x => (p * g.pageSize + x.1, x.2)).isEmpty then store
      else { store with log := store.log.refresh g t }) = store₁
    have h₁ : StoreOver g rest store₁ cells ∧ store₁.log.tail = store.log.tail := by
      rw [← hstore]
      split
      · exact ⟨h, rfl⟩
      · exact ⟨h.refresh t, (drain_drained g _).tail⟩
    have hto₁ : to_ ≤ (store₁.log.tailPage + 1) * g.pageSize := by
      rw [tailPage_of_tail_eq h₁.2]
      exact hto
    obtain ⟨L', store', hL', hvis', h'⟩ := @ih store₁ h₁.1 hto₁ (p + 1) ((p + 1) * g.pageSize)
      (le_refl _) (by omega) (by rw [Nat.succ_mul]; omega)
      (by rw [show p + 1 + n = p + (n + 1) by omega]; exact hfuel)
    have hsucc : p * g.pageSize + g.pageSize = (p + 1) * g.pageSize := (Nat.succ_mul _ _).symm
    refine ⟨(L.map fun x => (p * g.pageSize + x.1, x.2)) ++ L', store', ?_,
      hvis.append_page h.log.laid.packed hstart hpage hlt hvis', h'⟩
    unfold Store.scanLivePage
    rw [hL]
    simp only [Option.map_some, hstore, hpageOf, pageStart_eq, hsucc, hL', List.filter_append]
    rw [h₁.1.filter_isLatest hvis.addresses]

theorem StoreOver.tailAddress (h : StoreOver g rest store cells) :
    ∃ T, Tsavorite.tailAddress g store.log.tail = some T := by
  have hoff := h.log.pages.offset_le
  exact ⟨_, if_pos hoff⟩

/-- What the scan reports: the live records among those it visits. -/
theorem StoreOver.scanLive_spec (h : StoreOver g rest store cells) (t : ℕ) {T : ℕ}
    (hT : Tsavorite.tailAddress g store.log.tail = some T) :
    ∃ L store', store.scanLive g t = some (L.filter (isLive cells), store') ∧
      Visits Record.strip (imageOver rest cells) 0 FIRST_VALID_ADDRESS T L ∧
      StoreOver g rest store' cells := by
  have hps := g.header_lt_pageSize
  have hprotect := h.protect t
  have hT' : Tsavorite.tailAddress g (store.protect t).log.tail = some T := hT
  have hle := (hprotect.log.tailAddress_cut hT').1
  obtain ⟨L, store', hL, hvis, h'⟩ := hprotect.scanLiveLoop_spec (t := t)
    (le_trans hle hprotect.log.laid.tailPos_le) (T / g.pageSize + 1) (p := 0)
    (show 0 * g.pageSize ≤ FIRST_VALID_ADDRESS by omega) (by omega) (le_refl _)
    (by rw [Nat.zero_add, Nat.succ_mul]; exact Nat.lt_div_mul_add g.pageSize_pos)
  refine ⟨L, store'.unprotect t, ?_, hvis, h'.unprotect t⟩
  unfold Store.scanLive
  simp only [hT', Option.map_some, hprotect.log.pages.begin_eq, max_self, hL]

end Loop

/-! ## Section 4: What is reported -/

/-- `L` lists the keys a read would find, each once and with the record a read finds.  Only the
    records of a full last page with an odd number are missing. -/
structure Reports (g : Geometry) (store : Store) (L : List (ℕ × Record)) : Prop where
  once : (L.map fun x => x.2.data.key).Nodup
  found : ∀ x ∈ L, store.readAddr g x.2.data.key = some x.1 ∧
    store.lookup g x.2.data.key = some x.2.data
  listed : ∀ key, (∃ x ∈ L, x.2.data.key = key) ↔ store.lookup g key ≠ none ∧
    ∃ a, store.readAddr g key = some a ∧
      (OddPageFull g store.log.tail → g.pageOf a < store.log.tailPage)

section Reported

variable {g : Geometry} {rest : ℕ → Option Record} {store : Store} {cells : List Cell}

/-- The records in front of the result of `tail_address`. -/
theorem StoreOver.below_tailAddress (h : StoreOver g rest store cells) {T : ℕ}
    (hT : Tsavorite.tailAddress g store.log.tail = some T) {c : Cell} (hc : c ∈ cells) :
    c.stop ≤ T ↔ (OddPageFull g store.log.tail → g.pageOf c.addr < store.log.tailPage) := by
  have hcut := (h.log.tailAddress_cut hT).2 c.addr c.image (h.log.image_of_mem hc)
  rw [c.stop_eq] at hcut
  have hge := c.image.totalSize_ge
  have hmin : MIN_DISK_READ = 24 := rfl
  have hstop := c.stop_eq
  by_cases hodd : OddPageFull g store.log.tail
  · have hbegin : T = store.log.tailPage * g.pageSize := by
      simp only [Tsavorite.tailAddress, Option.ite_none_right_eq_some, Option.some.injEq] at hT
      obtain ⟨-, rfl⟩ := hT
      rw [hodd.2, Geometry.pageSize, Bits.shiftLeft_or_two_pow, if_pos hodd.1]
      rfl
    rw [g.pageOf_eq, Nat.div_lt_iff_lt_mul g.pageSize_pos, ← hbegin]
    exact ⟨fun hle _ => by omega, fun hlt => hcut (hlt hodd)⟩
  · obtain ⟨-, htail⟩ := tailAddress_eq hT hodd
    refine iff_of_true ?_ fun h => absurd h hodd
    rw [htail]
    exact h.log.below hc

/-- What the scan reports of a record of the log. -/
theorem StoreOver.isLive_iff (h : StoreOver g rest store cells) {x : ℕ × Record}
    (hx : imageOver rest cells x.1 = some x.2.strip) :
    isLive cells x = true ↔
      ∃ c, newest cells x.2.data.key = some c ∧ c.addr = x.1 ∧ c.tombstone = false ∧
        x.2.strip = c.image := by
  unfold isLive
  rw [Bool.and_eq_true, Bool.and_eq_true, decide_eq_true_eq, Option.map_eq_some_iff]
  constructor
  · rintro ⟨⟨hvalid, htomb⟩, c, hc, haddr⟩
    have himage := h.log.image_of_mem (newest_mem hc).1
    rw [haddr, hx] at himage
    have heq := Option.some.inj himage
    have hflag : x.2.info.isTombstone = c.tombstone := congrArg (fun r => r.info.isTombstone) heq
    refine ⟨c, hc, haddr, ?_, heq⟩
    rw [hflag] at htomb
    simpa using htomb
  · rintro ⟨c, hc, haddr, htomb, heq⟩
    have hvalid : x.2.info.isValid = true := congrArg (fun r => r.info.isValid) heq
    have hflag : x.2.info.isTombstone = c.tombstone := congrArg (fun r => r.info.isTombstone) heq
    refine ⟨⟨hvalid, ?_⟩, c, hc, haddr⟩
    rw [hflag, htomb]
    rfl

theorem StoreOver.reports (h : StoreOver g rest store cells) {T : ℕ} {L : List (ℕ × Record)}
    (hT : Tsavorite.tailAddress g store.log.tail = some T)
    (hL : Visits Record.strip (imageOver rest cells) 0 FIRST_VALID_ADDRESS T L) :
    Reports g store (L.filter (isLive cells)) := by
  -- a reported record is the newest cell of its key
  have hcell : ∀ x ∈ L.filter (isLive cells), ∃ c, newest cells x.2.data.key = some c ∧
      c.addr = x.1 ∧ c.tombstone = false ∧ x.2.strip = c.image := by
    intro x hx
    obtain ⟨hmem, hlive⟩ := List.mem_filter.mp hx
    have himage := (hL.sound x hmem).2.2
    rw [Nat.zero_add] at himage
    exact (h.isLive_iff himage).mp hlive
  refine ⟨?_, ?_, ?_⟩
  · refine List.pairwise_map.mpr ((hL.sorted.filter _).imp_of_mem fun {x y} hx hy hle hkey => ?_)
    obtain ⟨c, hc, haddr, -⟩ := hcell x hx
    obtain ⟨d, hd, haddr', -⟩ := hcell y hy
    rw [hkey, hd] at hc
    cases hc
    have := x.2.totalSize_ge
    have : MIN_DISK_READ = 24 := rfl
    omega
  · intro x hx
    obtain ⟨c, hc, haddr, htomb, heq⟩ := hcell x hx
    rw [h.readAddr_eq, h.lookup_eq, view_of_newest hc, hc]
    have hdata : x.2.data = c.data := congrArg Record.data heq
    simp [Cell.live, htomb, haddr, hdata]
  · intro key
    rw [h.readAddr_eq, h.lookup_eq]
    constructor
    · rintro ⟨x, hx, rfl⟩
      obtain ⟨c, hc, haddr, htomb, heq⟩ := hcell x hx
      rw [view_of_newest hc, hc]
      refine ⟨by simp [Cell.live, htomb], c.addr, rfl, ?_⟩
      rw [← h.below_tailAddress hT (newest_mem hc).1]
      have hstop := (hL.sound x (List.mem_filter.mp hx).1).2.1
      have hsize : x.2.strip.totalSize = c.image.totalSize := by rw [heq]
      rw [sameShape_strip.size] at hsize
      rw [← c.stop_eq]
      omega
    · rintro ⟨hlive, a, ha, hodd⟩
      obtain ⟨c, hc, rfl⟩ := Option.map_eq_some_iff.mp ha
      have htomb : c.tombstone = false := by
        by_contra hne
        rw [view_of_newest hc] at hlive
        exact hlive (by simp [Cell.live, hne])
      have hmem := (newest_mem hc).1
      have himage := h.log.image_of_mem hmem
      obtain ⟨x, hx, haddr⟩ := hL.complete c.addr c.image himage
        (by rw [Nat.zero_add]; exact h.log.first_le_addr hmem)
        (by rw [Nat.zero_add, c.stop_eq]; exact (h.below_tailAddress hT hmem).mpr hodd)
      have hximage := (hL.sound x hx).2.2
      rw [haddr, himage] at hximage
      have heq := (Option.some.inj hximage).symm
      rw [Nat.zero_add] at haddr
      have hkey : x.2.data.key = key := by
        rw [← (newest_mem hc).2]
        exact congrArg (fun r => r.data.key) heq
      refine ⟨x, List.mem_filter.mpr ⟨hx, ?_⟩, hkey⟩
      rw [h.isLive_iff (by rw [haddr, himage, heq])]
      exact ⟨c, by rw [hkey]; exact hc, haddr.symm, htomb, heq⟩

end Reported

/-! ## Section 5: Every run -/

section Runs

variable {I O : Type} {g : Geometry} {f : SessionFunctions I O} {s : System I O}
  {rest : ℕ → Option Record} {store : Store} {cells : List Cell}

theorem StoreOver.scanLive_reports (h : StoreOver g rest store cells) (t : ℕ) :
    ∃ L store', store.scanLive g t = some (L, store') ∧ Reports g store L ∧
      StoreOver g rest store' cells := by
  obtain ⟨T, hT⟩ := h.tailAddress
  obtain ⟨L, store', hL, hvisits, h'⟩ := h.scanLive_spec t hT
  exact ⟨_, store', hL, h.reports hT hvisits, h'⟩

theorem Reports.length_eq {L : List (ℕ × Record)} (h : Reports g store L)
    (hread : ∀ key, store.lookup g key ≠ none → ∃ a, store.readAddr g key = some a)
    (hodd : ¬ OddPageFull g store.log.tail) :
    L.length = {key | store.lookup g key ≠ none}.ncard := by
  have hkeys : {key | store.lookup g key ≠ none} =
      ((L.map fun x => x.2.data.key).toFinset : Set Key) := by
    ext key
    rw [Set.mem_ofPred_eq, List.coe_toFinset, Set.mem_ofPred_eq, List.mem_map, h.listed]
    constructor
    · intro hlive
      obtain ⟨a, ha⟩ := hread key hlive
      exact ⟨hlive, a, ha, fun hfull => absurd hfull hodd⟩
    · exact fun hlive => hlive.1
  rw [hkeys, Set.ncard_coe_finset, List.toFinset_card_of_nodup h.once, List.length_map]

/-- **The scan is exact.**  In every run of sessions and FLUSHALLs, between any two steps: the scan
    reports the keys a read would find, each once and as a read would find it, all of them unless
    the last page is odd and full; the count is their number; and although the refreshes of the
    scan may flush and close pages, the store shows the same map afterwards. -/
theorem scanLive_exact {buckets : ℕ} {device : Device} {out : O} {ls : List (FlushLabel I O)}
    (hrun : Lts.Steps (flushNext g f) (FlushRoomy g)
      (System.new (Store.new buckets device) out) ls s) (t : ℕ) :
    ∃ L store', s.store.scanLive g t = some (L, store') ∧ Reports g s.store L ∧
      (∀ key, store'.lookup g key = s.store.lookup g key) ∧
      (¬ OddPageFull g s.store.log.tail →
        s.store.countLive g t = some {key | s.store.lookup g key ≠ none}.ncard) := by
  obtain ⟨rest, cells, h⟩ := flushInv_run hrun
  obtain ⟨L, store', hscan, hreports, h'⟩ := h.store.scanLive_reports t
  refine ⟨L, store', hscan, hreports, fun key => ?_, fun hodd => ?_⟩
  · rw [h'.lookup_eq, h.store.lookup_eq]
  · unfold Store.countLive
    rw [hscan, Option.map_some, hreports.length_eq ?_ hodd]
    intro key hlive
    rw [h.store.lookup_eq] at hlive
    rw [h.store.readAddr_eq]
    cases hn : newest cells key with
    | none => exact absurd (view_of_newest_none hn) hlive
    | some c => exact ⟨c.addr, rfl⟩

end Runs

namespace LostUpdate

/-- The counter is live, and not in a full odd page. -/
def showsCounter (s : System ℕ Unit) : Bool :=
  (s.store.lookup geometry counterKey).isSome &&
    (s.store.readAddr geometry counterKey).any fun a => decide
      (OddPageFull geometry s.store.log.tail → geometry.pageOf a < s.store.log.tailPage)

end LostUpdate

open LostUpdate (geometry start createAnew showsCounter counterKey) in
theorem scanLive_exact_anew : ∃ (s : System ℕ Unit) (L : List (ℕ × Record)) (store' : Store),
    Lts.Steps (flushNext geometry unaryCounter) (FlushRoomy geometry) start createAnew s ∧
      s.store.scanLive geometry 0 = some (L, store') ∧
      (∃ x ∈ L, x.2.data.key = counterKey ∧
        s.store.lookup geometry counterKey = some x.2.data) ∧
      (L.map fun x => x.2.data.key).Nodup := by
  obtain ⟨s, hrun, hp⟩ := Lts.exists_steps (flushNext geometry unaryCounter) (FlushRoomy geometry)
    start createAnew showsCounter (by decide +kernel)
  simp only [showsCounter, Bool.and_eq_true, decide_eq_true_eq, Option.any_eq_true] at hp
  obtain ⟨hlive, a, ha, hodd⟩ := hp
  obtain ⟨L, store', hscan, hreports, -, -⟩ := scanLive_exact hrun 0
  obtain ⟨x, hx, hkey⟩ := (hreports.listed counterKey).mpr
    ⟨by rw [← Option.isSome_iff_ne_none]; exact hlive, a, ha, hodd⟩
  refine ⟨s, L, store', hrun, hscan, ⟨x, hx, hkey, ?_⟩, hreports.once⟩
  rw [← hkey]
  exact (hreports.found x hx).2

end Tsavorite
