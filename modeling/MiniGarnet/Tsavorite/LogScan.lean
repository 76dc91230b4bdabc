import Mathlib.Data.List.Pairwise
import Mathlib.Data.List.Sort
import MiniGarnet.Tsavorite.Scan
import MiniGarnet.Tsavorite.Watermarks

/-! # A log by itself

    A log is filled by allocations whose records are initialised, while its
    boundaries are shifted and its epoch bumped, so that pages are flushed,
    evicted and closed.  However the boundaries stand at the end, a scan up
    to the end of a record reports what has been placed before it.

    The one thing that can go wrong is the page field of the tail word: with
    page `2 ^ 32` the log starts over at page 0.
-/

namespace Tsavorite.LogScan

/-! ## Section 1: Runs -/

/-- A log, and the records placed in it, newest first. -/
structure State where
  log : HybridLog
  placed : List (ℕ × Record)

/-- `HybridLog::new` -/
def State.new (device : Device) : State := ⟨HybridLog.new device, []⟩

inductive Label where
  /-- `try_allocate(r.total_size())`; a granted record is initialised to `r`. -/
  | allocate (r : Record)
  /-- `shift_read_only_address(new_ro)`, to a page or to the end of a record, and never
      beyond the tail. -/
  | shiftReadOnly (newRo : ℕ)
  | shiftHead (desired : ℕ)
  /-- A thread enters the epoch, and holds back the actions registered from now on. -/
  | protect (thread : ℕ)
  | unprotect (thread : ℕ)
  /-- `bump_current_epoch`: the flushes and page closes that have become safe are run. -/
  | bump
  deriving DecidableEq, Repr

/-- `b` is the start of a page or the end of a record. -/
def Aligned (g : Geometry) (placed : List (ℕ × Record)) (b : ℕ) : Prop :=
  b % g.pageSize = 0 ∨ ∃ x ∈ placed, x.1 + x.2.totalSize = b

instance (g : Geometry) (placed : List (ℕ × Record)) (b : ℕ) : Decidable (Aligned g placed b) :=
  inferInstanceAs (Decidable (_ ∨ _))

def next (g : Geometry) (s : State) : Label → Option State
  | .allocate r =>
    if r.isZeroHeader then none
    else
      match s.log.tryAllocate g r.totalSize with
      | (.ok addr, log) => some ⟨log.setRecord g addr r, (addr, r) :: s.placed⟩
      | (.retryNow, log) | (.retryLater, log) => some { s with log := log }
      | (.tooLarge, _) => none
  | .shiftReadOnly newRo =>
    if newRo ≤ s.log.tailPos g ∧ Aligned g s.placed newRo then
      some { s with log := s.log.shiftReadOnlyAddress g newRo }
    else none
  | .shiftHead desired => some { s with log := s.log.shiftHeadAddress g desired }
  | .protect thread =>
    some { s with log := { s.log with epoch := s.log.epoch.protect thread } }
  | .unprotect thread =>
    some { s with log := { s.log with epoch := s.log.epoch.unprotect thread } }
  | .bump => some { s with log := s.log.bumpCurrentEpoch g }

/-- No page turn goes past page `2 ^ 32 - 1`. -/
def InRange (g : Geometry) (s : State) : Label → Prop
  | .allocate r => s.log.TurnsInRange g r.totalSize
  | _ => True

instance (g : Geometry) (s : State) : (l : Label) → Decidable (InRange g s l)
  | .allocate r => inferInstanceAs (Decidable (s.log.TurnsInRange g r.totalSize))
  | .shiftReadOnly _ | .shiftHead _ | .protect _ | .unprotect _ | .bump => isTrue trivial

/-- What a scan up to `to_` should report. -/
def State.before (s : State) (to_ : ℕ) : List (ℕ × Record) :=
  (s.placed.filter fun x => x.1 + x.2.totalSize ≤ to_).reverse

/-! ## Section 2: The invariant -/

/-- What an address should read as. -/
def contentAt (placed : List (ℕ × Record)) (a : ℕ) : Option Record :=
  (placed.find? fun x => x.1 = a).map (·.2)

structure Inv (g : Geometry) (s : State) : Prop where
  laid : Laid g id s.log (contentAt s.placed)
  ordered : s.placed.Pairwise fun newer older => older.1 + older.2.totalSize ≤ newer.1

section Invariant

variable {g : Geometry} {s s' : State} {log' : HybridLog}

theorem inv_new (g : Geometry) (device : Device) : Inv g (State.new device) :=
  ⟨laid_new g id device, .nil⟩

theorem contentAt_cons (placed : List (ℕ × Record)) (a : ℕ) (r : Record) :
    contentAt ((a, r) :: placed) = Function.update (contentAt placed) a (some r) := by
  funext b
  unfold contentAt
  by_cases hba : a = b
  · rw [List.find?_cons_of_pos (by simpa using hba), hba, Function.update_self]
    rfl
  · rw [List.find?_cons_of_neg (by simpa using hba), Function.update_of_ne (Ne.symm hba)]

/-- No two placed records share an address. -/
theorem Inv.eq_of_addr_eq (h : Inv g s) {x y : ℕ × Record} (hx : x ∈ s.placed)
    (hy : y ∈ s.placed) (haddr : x.1 = y.1) : x = y := by
  have hlt : ∀ {x y : ℕ × Record}, x.1 + x.2.totalSize ≤ y.1 → x.1 < y.1 := by
    intro x y hle
    have := x.2.totalSize_ge
    have : MIN_DISK_READ = 24 := rfl
    omega
  have hne : s.placed.Pairwise fun newer older => newer.1 ≠ older.1 :=
    h.ordered.imp fun hle => (hlt hle).ne'
  by_contra hxy
  have : Std.Symm fun x y : ℕ × Record => x.1 ≠ y.1 := ⟨fun _ _ hne => hne.symm⟩
  exact hne.forall hx hy hxy haddr

theorem Inv.contentAt_iff (h : Inv g s) {a : ℕ} {r : Record} :
    contentAt s.placed a = some r ↔ (a, r) ∈ s.placed := by
  constructor
  · intro hfind
    obtain ⟨x, hx, rfl⟩ := Option.map_eq_some_iff.mp hfind
    have haddr : x.1 = a := by simpa using List.find?_some hx
    rw [← haddr]
    exact List.mem_of_find?_eq_some hx
  · intro hmem
    cases hfind : s.placed.find? fun x => x.1 = a with
    | none =>
      have hne := List.find?_eq_none.mp hfind _ hmem
      simp at hne
    | some x =>
      have haddr : x.1 = a := by simpa using List.find?_some hfind
      rw [contentAt, hfind, h.eq_of_addr_eq (List.mem_of_find?_eq_some hfind) hmem haddr]
      rfl

theorem Inv.cut (h : Inv g s) {b : ℕ} (hb : Aligned g s.placed b) :
    CutOf (contentAt s.placed) b := by
  rcases hb with hzero | ⟨⟨a, r⟩, hx, rfl⟩
  · rw [← Nat.div_mul_cancel (Nat.dvd_of_mod_eq_zero hzero)]
    exact h.laid.packed.cut_page _
  · exact h.laid.packed.cut_stop (h.contentAt_iff.mpr hx)

/-! ## Section 3: Steps -/

theorem Inv.allocate (h : Inv g s) {r : Record} (hok : InRange g s (.allocate r))
    (hnext : next g s (.allocate r) = some s') : Inv g s' := by
  unfold next at hnext
  simp only at hnext
  split at hnext
  · cases hnext
  · next hr =>
    have hr' : r.isZeroHeader = false := by simpa using hr
    have hsize := r.totalSize_ge
    have hmin : MIN_DISK_READ = 24 := rfl
    have hpos : 0 < r.totalSize := by omega
    have hspec := h.laid.pages.tryAllocate hok hpos
    generalize s.log.tryAllocate g r.totalSize = res at hspec hnext
    cases hspec with
    | @ok addr log' hpages hkept hgr _ =>
      cases hnext
      refine ⟨?_, List.pairwise_cons.mpr ⟨fun x hx => ?_, h.ordered⟩⟩
      · rw [contentAt_cons]
        exact h.laid.push hr' rfl hpages hgr
      · exact le_trans (h.laid.stops _ _ (h.contentAt_iff.mpr hx)) hgr.from_tail
    | @retryLater log' hpages hkept hpage hoff _ =>
      cases hnext
      exact ⟨h.laid.refuse hpages hkept.tailPos hoff, h.ordered⟩
    | tooLarge _ => cases hnext

theorem Inv.step (h : Inv g s) {l : Label} (hok : InRange g s l) (hnext : next g s l = some s') :
    Inv g s' := by
  have hpages := h.laid.pages
  cases l with
  | allocate r => exact h.allocate hok hnext
  | shiftReadOnly newRo =>
    unfold next at hnext
    simp only [Option.ite_none_right_eq_some, Option.some.injEq] at hnext
    obtain ⟨⟨hle, haligned⟩, rfl⟩ := hnext
    exact ⟨h.laid.move (hpages.shiftReadOnlyAddress hle (h.cut haligned))
      (shiftReadOnlyAddress_shifted g s.log newRo).1.tail, h.ordered⟩
  | shiftHead desired =>
    cases hnext
    exact ⟨h.laid.move (hpages.shiftHeadAddress desired)
      (shiftHeadAddress_shifted g s.log desired).1.tail, h.ordered⟩
  | protect thread | unprotect thread =>
    cases hnext
    exact ⟨h.laid.move (hpages.setEpoch hpages.pending) rfl, h.ordered⟩
  | bump =>
    cases hnext
    exact ⟨h.laid.move hpages.bumpCurrentEpoch (bumpCurrentEpoch_drained g s.log).tail, h.ordered⟩

theorem inv_run {device : Device} {ls : List Label}
    (hrun : Lts.Steps (next g) (InRange g) (State.new device) ls s) : Inv g s :=
  hrun.invariant (fun h hok hnext => h.step hok hnext) (inv_new g device)

end Invariant

/-! ## Section 4: The scan -/

/-- Visiting every record once, in order, leaves only one list. -/
theorem Visits.eq {image : ℕ → Option Record} {lo hi : ℕ} {L M : List (ℕ × Record)}
    (h : Visits id image 0 lo hi L)
    (hM : M.Pairwise fun x y => x.1 + x.2.totalSize ≤ y.1)
    (hmem : ∀ a r, (a, r) ∈ M ↔ image a = some r ∧ lo ≤ a ∧ a + r.totalSize ≤ hi) : L = M := by
  have hasymm : ∀ {x y : ℕ × Record}, x.1 + x.2.totalSize ≤ y.1 → y.1 + y.2.totalSize ≤ x.1 →
      False := by
    intro x y hxy hyx
    have := x.2.totalSize_ge
    have := y.2.totalSize_ge
    have : MIN_DISK_READ = 24 := rfl
    omega
  have hnodup : ∀ {N : List (ℕ × Record)},
      (N.Pairwise fun x y => x.1 + x.2.totalSize ≤ y.1) → N.Nodup := by
    intro N hN
    refine hN.imp fun {x y} hxy heq => ?_
    subst heq
    exact hasymm hxy hxy
  have hperm : L.Perm M := by
    refine (List.perm_ext_iff_of_nodup (hnodup h.sorted) (hnodup hM)).mpr ?_
    rintro ⟨a, r⟩
    rw [hmem]
    constructor
    · intro hx
      obtain ⟨h₁, h₂, h₃⟩ := h.sound _ hx
      rw [Nat.zero_add] at h₃
      exact ⟨h₃, h₁, h₂⟩
    · rintro ⟨ha, hlo, hstop⟩
      obtain ⟨⟨b, r'⟩, hx, hb⟩ := h.complete a r ha (by omega) (by omega)
      obtain ⟨-, -, hr'⟩ := h.sound _ hx
      simp only [Nat.zero_add] at hb hr'
      subst hb
      rw [ha] at hr'
      cases hr'
      exact hx
  exact hperm.eq_of_pairwise (fun x y _ _ hxy hyx => absurd hyx fun hyx => hasymm hxy hyx) h.sorted hM

/-- What a scan up to the end of a record reports, wherever the boundaries stand. -/
theorem scan_exact {g : Geometry} {device : Device} {ls : List Label} {s : State}
    (hrun : Lts.Steps (next g) (InRange g) (State.new device) ls s) {x : ℕ × Record}
    (hx : x ∈ s.placed) :
    s.log.scan g s.log.beginAddress (x.1 + x.2.totalSize) =
      (s.before (x.1 + x.2.totalSize), true) := by
  have h := inv_run hrun
  have hto : x.1 + x.2.totalSize ≤ (s.log.tailPage + 1) * g.pageSize :=
    le_trans (h.laid.stops _ _ (h.contentAt_iff.mpr hx)) h.laid.tailPos_le
  obtain ⟨L, hscan, hvis⟩ := h.laid.scan_visits sameShape_id hto
  rw [hscan, Visits.eq hvis ?_ ?_]
  · rw [State.before, List.pairwise_reverse]
    exact h.ordered.filter _
  · intro a r
    rw [State.before, List.mem_reverse, List.mem_filter, h.contentAt_iff, decide_eq_true_eq]
    refine and_congr_right fun hmem => ⟨fun hle => ⟨?_, hle⟩, fun hle => hle.2⟩
    exact h.laid.first_le (h.contentAt_iff.mpr hmem)

/-- A record of `size` bytes for the runs below. -/
def recordOf (key : Key) (size : ℕ) : Record :=
  ⟨⟨1, false, true, false, false, false⟩, ⟨key, size - 32, true, ⟨[], 0⟩⟩⟩

/-- Four records on two pages; the second page is flushed up to the end of its first record and
    evicted up to the middle of it. -/
def evictHalf : List Label :=
  [.allocate (recordOf [] 200), .allocate (recordOf [] 200), .protect 0,
   .allocate (recordOf [] 200), .shiftReadOnly 776, .unprotect 0, .bump,
   .allocate (recordOf [] 200), .shiftHead 700, .bump]

theorem scan_exact_evictHalf : ∃ s,
    Lts.Steps (next (Geometry.twoPages 9 (by decide))) (InRange (Geometry.twoPages 9 (by decide)))
      (State.new Device.empty) evictHalf s ∧
    s.log.head = 700 ∧ s.log.flushedUntil = 776 ∧
    s.log.scan (Geometry.twoPages 9 (by decide)) s.log.beginAddress 976 = (s.before 976, true) := by
  obtain ⟨s, hs, hp⟩ := Lts.exists_steps (next (Geometry.twoPages 9 (by decide)))
    (InRange (Geometry.twoPages 9 (by decide))) (State.new Device.empty) evictHalf
    (fun s => s.log.head = 700 ∧ s.log.flushedUntil = 776 ∧ (776, recordOf [] 200) ∈ s.placed)
    (by decide +kernel)
  simp only [decide_eq_true_eq] at hp
  exact ⟨s, hs, hp.1, hp.2.1, scan_exact hs hp.2.2⟩

/-! ## Section 5: Behind the last page

    With more pages in memory than the page field can number, one thread that fills page
    after page comes round to page 1 again. -/

section PageField

open LogProtocol.PageField

/-- Pages `0` to `n` hold one record each. -/
def filled (r : Record) (n : ℕ) : State where
  log := { HybridLog.new Device.empty with
    tail := pack n 512
    pages := fun slot off => if slot ≤ n ∧ off = 64 then some r else none }
  placed := (List.range (n + 1)).reverse.map fun p => (p * 512 + 64, r)

theorem filled_first {r : Record} (hr : r.isZeroHeader = false) (hsize : r.totalSize = 448) :
    next wide (State.new Device.empty) (.allocate r) = some (filled r 0) := by
  have hfirst : unpack (State.new Device.empty).log.tail = (0, 64) := by decide +kernel
  have hadd : fetchAdd (State.new Device.empty).log.tail 448 = pack 0 512 := by decide +kernel
  have haddr : (0 <<< wide.pageBits ||| 64 : ℕ) = 64 := by decide
  have hslot : wide.slotOf (wide.pageOf 64) = 0 := by decide
  have hoff : wide.pageOffset 64 = 64 := by decide
  have hps : wide.pageSize = 512 := rfl
  have hhdr : PAGE_HEADER_SIZE = 64 := rfl
  have hpages : (fun slot off => if slot = 0 ∧ off = 64 then some r else
      (State.new Device.empty).log.pages slot off) = (filled r 0).log.pages := by
    funext slot off
    simp only [filled, Nat.le_zero]
    rfl
  simp only [next, hr, hsize, HybridLog.tryAllocate, hfirst, hadd, hps, hhdr]
  rw [if_neg (by norm_num), if_neg (by norm_num), if_pos (by norm_num)]
  simp only [haddr, HybridLog.setRecord, hslot, hoff, hpages]
  rfl

/-- Filling the page behind the last one. -/
theorem filled_next {r r' : Record} {n page : ℕ} (hr : r'.isZeroHeader = false)
    (hsize : r'.totalSize = 448) (htail : unpack (pack n 512) = (page, 512)) (hpage : page < 2 ^ 32) :
    next wide (filled r n) (.allocate r') =
      some ⟨{ (filled r n).log with
          tail := pack (page + 1) 512
          pages := fun slot off => if slot = page + 1 ∧ off = 64 then some r' else
            if slot = page + 1 then none else (filled r n).log.pages slot off },
        ((page + 1) * 512 + 64, r') :: (filled r n).placed⟩ := by
  have haddr : (page + 1) <<< wide.pageBits ||| FIRST_VALID_ADDRESS = (page + 1) * 512 + 64 :=
    wide.join_eq wide.header_lt_pageSize
  have hpageOf : wide.pageOf ((page + 1) * 512 + 64) = page + 1 :=
    wide.pageOf_join wide.header_lt_pageSize
  have hoff : wide.pageOffset ((page + 1) * 512 + 64) = 64 :=
    wide.pageOffset_join wide.header_lt_pageSize
  have hslot : wide.slotOf (page + 1) = page + 1 := by
    rw [wide.slotOf_eq]
    exact Nat.mod_eq_of_lt (show page + 1 < 2 ^ 33 by omega)
  have hfree : wide.pageIsFree (filled r n).log.closedUntil (page + 1) = true :=
    isFree_wide (by omega)
  have hro : HybridLog.desiredRo wide (page + 1) = 0 := desiredRo_wide (by omega)
  have hhead : HybridLog.desiredHead wide (page + 1) = 0 := desiredHead_wide (by omega)
  have hps : wide.pageSize = 512 := rfl
  have hhdr : PAGE_HEADER_SIZE = 64 := rfl
  have htail' : unpack (filled r n).log.tail = (page, 512) := htail
  have hissue : ∀ log : HybridLog, log.issueShiftAddresses wide (page + 1) = log := by
    intro log
    simp only [HybridLog.issueShiftAddresses, hro, hhead, Nat.not_lt_zero, if_false]
  simp only [next, hr, Bool.false_eq_true, if_false, hsize, HybridLog.tryAllocate, htail', hps, hhdr]
  rw [if_neg (by norm_num), if_neg (by norm_num), if_neg (by norm_num), if_pos (by exact hfree)]
  simp only [hissue, haddr, HybridLog.setRecord, hpageOf, hoff, hslot, HybridLog.zeroPage,
    HybridLog.zeroed]
  rfl

theorem filled_succ {r : Record} (hr : r.isZeroHeader = false) (hsize : r.totalSize = 448) {n : ℕ}
    (hn : n < 2 ^ 32) : next wide (filled r n) (.allocate r) = some (filled r (n + 1)) := by
  rw [filled_next hr hsize (unpack_pack hn (by norm_num)) hn]
  have hplaced : (filled r (n + 1)).placed = ((n + 1) * 512 + 64, r) :: (filled r n).placed := by
    simp only [filled, List.range_succ, List.reverse_append, List.reverse_singleton,
      List.singleton_append, List.map_cons]
  have hpages : (fun slot off => if slot = n + 1 ∧ off = 64 then some r else
      if slot = n + 1 then none else (filled r n).log.pages slot off) =
      (filled r (n + 1)).log.pages := by
    funext slot off
    simp only [filled]
    split_ifs <;> first | rfl | omega
  rw [hpages, ← hplaced]
  rfl

/-- One record on each of the pages up to `n`. -/
theorem filled_run {r : Record} (hr : r.isZeroHeader = false) (hsize : r.totalSize = 448) {n : ℕ}
    (hn : n ≤ 2 ^ 32) :
    Lts.Runs (next wide) (State.new Device.empty) (List.replicate (n + 1) (.allocate r))
      (filled r n) := by
  induction n with
  | zero => exact .cons trivial (filled_first hr hsize) (.nil _)
  | succ n ih =>
    rw [List.replicate_succ']
    exact (ih (by omega)).append (.cons trivial (filled_succ hr hsize (by omega)) (.nil _))

/-- The record of page 1 has been overwritten by one with another key. -/
def wrapped : State where
  log := { (filled (recordOf [] 448) (2 ^ 32)).log with
    tail := pack 1 512
    pages := fun slot off => if slot = 1 ∧ off = 64 then some (recordOf [1] 440) else
      if slot = 1 then none else (filled (recordOf [] 448) (2 ^ 32)).log.pages slot off }
  placed := (576, recordOf [1] 440) :: (filled (recordOf [] 448) (2 ^ 32)).placed

theorem wrapped_run : ∃ ls, Lts.Runs (next wide) (State.new Device.empty) ls wrapped := by
  have hwrap : unpack (pack (2 ^ 32) 512) = (0, 512) := by decide +kernel
  have hlast : next wide (filled (recordOf [] 448) (2 ^ 32)) (.allocate (recordOf [1] 440)) =
      some wrapped := filled_next rfl (by decide) hwrap (by norm_num)
  have hrun := filled_run (r := recordOf [] 448) rfl (by decide) (le_refl (2 ^ 32))
  exact ⟨_, hrun.append (.cons trivial hlast (.nil _))⟩

theorem wrapped_scan : (wrapped.log.scan wide wrapped.log.beginAddress 1024).1 =
    [(64, recordOf [] 448), (576, recordOf [1] 440)] := by decide +kernel

end PageField

open LogProtocol.PageField in
/-- The record that is placed on page 1 the second time takes the place of the first one. -/
theorem record_lost_after_last_page :
    ¬ ∀ (g : Geometry) (device : Device) (ls : List Label) (s : State),
      Lts.Runs (next g) (State.new device) ls s → ∀ x ∈ s.placed,
        s.log.scan g s.log.beginAddress (x.1 + x.2.totalSize) =
          (s.before (x.1 + x.2.totalSize), true) := by
  intro hexact
  obtain ⟨ls, hrun⟩ := wrapped_run
  have hscan := congrArg Prod.fst (hexact _ _ _ _ hrun (576, recordOf [1] 440) List.mem_cons_self)
  have hstop : 576 + (recordOf [1] 440).totalSize = 1024 := by decide
  simp only [hstop, wrapped_scan] at hscan
  have hold : (576, recordOf [] 448) ∈ (filled (recordOf [] 448) (2 ^ 32)).placed := by
    simp only [filled, List.mem_map, List.mem_reverse, List.mem_range]
    exact ⟨1, by norm_num, rfl⟩
  have hmem : (576, recordOf [] 448) ∈ wrapped.before 1024 := by
    simp only [State.before, List.mem_reverse, List.mem_filter]
    exact ⟨List.mem_cons_of_mem _ hold, by decide⟩
  rw [← hscan] at hmem
  exact absurd hmem (by decide)

end Tsavorite.LogScan
