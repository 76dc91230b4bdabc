import Mathlib.Data.Fintype.Basic
import MiniGarnet.Tsavorite.Watermarks

/-! # No session touches a recycled page

    A page slot is reused by zeroing it for the page one buffer length ahead,
    once ClosedUntil has passed the old page.  A session dereferences
    addresses at or above a Head or ReadOnly value it has loaded in its
    protected section, and addresses it has allocated there.

    Two facts meet.  ClosedUntil follows closing actions, and an action that
    would close a page at or above one of the session's bounds was registered
    while the session was in its section (`Shield`), so the epoch does not let
    it start.  And every page at or above ClosedUntil still has its slot
    (`Placed`).
-/

namespace Tsavorite.LogProtocol

/-! ## Section 1: Statement -/

/-- The slot of the page of `addr` was last zeroed for the page `addr` was
    granted in. -/
def Resident {Thread : Type*} (g : Geometry) (s : State Thread) (addr : ℕ) : Prop :=
  s.slots (g.slotOf (g.pageOf addr)) = (g.pageOf addr, s.born addr)

instance {Thread : Type*} (g : Geometry) (s : State Thread) (addr : ℕ) :
    Decidable (Resident g s addr) := inferInstanceAs (Decidable (_ = _))

/-- Neither field of the tail word overflows, and the epoch is respected. -/
def SafeStep {Thread : Type*} (s : State Thread) (l : Label Thread) : Prop :=
  TailFits s l ∧ EpochSafe s l

instance {Thread : Type*} [Fintype Thread] (s : State Thread) (l : Label Thread) :
    Decidable (SafeStep s l) := inferInstanceAs (Decidable (_ ∧ _))

/-! ## Section 2: Where pages are -/

/-- The page of the tail word. -/
def tailPage {Thread : Type*} (a : TailProtocol.State Thread) : ℕ := (unpack a.tail).1

/-- Some thread has zeroed the next page and not yet published it. -/
def Opening {Thread : Type*} (a : TailProtocol.State Thread) (page : ℕ) : Prop :=
  ∃ u size, a.pc u = .publishing page size

/-- Page `p` is opened by the `p`-th turn, and keeps its slot until ClosedUntil
    has passed it. -/
structure Placed {Thread : Type*} (g : Geometry) (s : State Thread) : Prop where
  aligned : g.pageSize ∣ s.alloc.closedUntil
  alignedNext : ∀ u new pageEnd, s.pc u = .storingClosed new pageEnd → g.pageSize ∣ pageEnd
  free : ∀ u page size, s.alloc.pc u = .zeroing page size →
    g.pageIsFree s.alloc.closedUntil (page + 1) = true
  zeroed : ∀ page, Opening s.alloc page →
    s.slots (g.slotOf (page + 1)) = (page + 1, page + 1) ∧ s.turns = page + 1
  settled : (∀ page, ¬ Opening s.alloc page) → s.turns = tailPage s.alloc
  held : ∀ p, s.alloc.closedUntil ≤ p * g.pageSize → p ≤ tailPage s.alloc →
    s.slots (g.slotOf p) = (p, p)
  born : ∀ x ∈ s.alloc.granted, s.born x.1 = g.pageOf x.1 ∧ g.pageOf x.1 ≤ tailPage s.alloc

theorem placed_new {Thread : Type*} (g : Geometry) : Placed g (initial : State Thread) where
  aligned := Nat.dvd_zero _
  alignedNext := by
    intro u new pageEnd h
    cases h
  free := by
    intro u page size h
    cases h
  zeroed := by
    rintro page ⟨u, size, h⟩
    cases h
  settled := by
    intro _
    have hw : unpack (pack 0 FIRST_VALID_ADDRESS) = (0, 64) := by decide +kernel
    simp [tailPage, initial, TailProtocol.initial, hw]
  held := by
    intro p _ hp
    have hw : unpack (pack 0 FIRST_VALID_ADDRESS) = (0, 64) := by decide +kernel
    have hzero : p = 0 := by simpa [tailPage, initial, TailProtocol.initial, hw] using hp
    subst hzero
    simp [initial, Geometry.slotOf]
  born := by
    intro x hx
    cases hx

section Placed

variable {Thread : Type*} {g : Geometry} {s s' : State Thread}

/-- A page that is not closed yet has its slot. -/
theorem Placed.resident (h : Placed g s) {x : ℕ × ℕ} (hx : x ∈ s.alloc.granted)
    (hclosed : s.alloc.closedUntil ≤ x.1) : Resident g s x.1 := by
  obtain ⟨hborn, hpage⟩ := h.born x hx
  obtain ⟨k, hk⟩ := h.aligned
  have hps := g.pageSize_pos
  have hstart : s.alloc.closedUntil ≤ g.pageOf x.1 * g.pageSize := by
    rw [g.pageOf_eq]
    rw [hk] at hclosed ⊢
    have hle : k ≤ x.1 / g.pageSize := (Nat.le_div_iff_mul_le hps).mpr (by rwa [mul_comm])
    rw [mul_comm]
    exact Nat.mul_le_mul_right _ hle
  unfold Resident
  rw [h.held _ hstart hpage, hborn]

/-- Steps outside the allocator: ClosedUntil may rise by a page. -/
theorem Placed.outside (h : Placed g s) (htail : s'.alloc.tail = s.alloc.tail)
    (hpc : s'.alloc.pc = s.alloc.pc) (hgranted : s'.alloc.granted = s.alloc.granted)
    (hclosed : s.alloc.closedUntil ≤ s'.alloc.closedUntil)
    (haligned : g.pageSize ∣ s'.alloc.closedUntil)
    (hnext : ∀ u new pageEnd, s'.pc u = .storingClosed new pageEnd → g.pageSize ∣ pageEnd)
    (hslots : s'.slots = s.slots) (hborn : s'.born = s.born) (hturns : s'.turns = s.turns) :
    Placed g s' := by
  have hpage : tailPage s'.alloc = tailPage s.alloc := by
    unfold tailPage
    rw [htail]
  have hopening : ∀ page, Opening s'.alloc page ↔ Opening s.alloc page := by
    intro page
    unfold Opening
    rw [hpc]
  refine ⟨haligned, hnext, ?_, ?_, ?_, ?_, ?_⟩
  · intro u page size hz
    rw [hpc] at hz
    exact Geometry.pageIsFree_mono hclosed (h.free u page size hz)
  · intro page hop
    rw [hslots, hturns]
    exact h.zeroed page ((hopening page).mp hop)
  · intro hnone
    rw [hturns, hpage]
    exact h.settled fun page hop => hnone page ((hopening page).mpr hop)
  · intro p hp hle
    rw [hslots]
    exact h.held p (Nat.le_trans hclosed hp) (hpage ▸ hle)
  · intro x hx
    rw [hborn, hpage]
    exact h.born x (hgranted ▸ hx)

/-- A step of the allocator that neither zeroes nor publishes a page. -/
theorem Placed.samePage (h : Placed g s) (hpage : tailPage s'.alloc = tailPage s.alloc)
    (hclosed : s'.alloc.closedUntil = s.alloc.closedUntil)
    (hopening : ∀ page, Opening s'.alloc page ↔ Opening s.alloc page)
    (hfree : ∀ u page size, s'.alloc.pc u = .zeroing page size →
      g.pageIsFree s.alloc.closedUntil (page + 1) = true)
    (hnext : ∀ u new pageEnd, s'.pc u = .storingClosed new pageEnd → g.pageSize ∣ pageEnd)
    (hslots : s'.slots = s.slots) (hturns : s'.turns = s.turns)
    (hborn : ∀ x ∈ s'.alloc.granted, s'.born x.1 = g.pageOf x.1 ∧ g.pageOf x.1 ≤ tailPage s.alloc) :
    Placed g s' := by
  refine ⟨hclosed ▸ h.aligned, hnext, ?_, ?_, ?_, ?_, ?_⟩
  · rw [hclosed]
    exact hfree
  · intro page hop
    rw [hslots, hturns]
    exact h.zeroed page ((hopening page).mp hop)
  · intro hnone
    rw [hturns, hpage]
    exact h.settled fun page hop => hnone page ((hopening page).mpr hop)
  · intro p hp hle
    rw [hslots]
    exact h.held p (hclosed ▸ hp) (hpage ▸ hle)
  · rw [hpage]
    exact hborn

theorem not_opening {a : TailProtocol.State Thread} (h : ∀ u, (a.pc u).owned = none) (page : ℕ) :
    ¬ Opening a page := by
  rintro ⟨u, size, hu⟩
  have hnone := h u
  rw [hu] at hnone
  cases hnone

/-- An owner that is not publishing excludes a page being opened. -/
theorem not_opening_of_owner {a : TailProtocol.State Thread} {t : Thread} {page : ℕ}
    (hinv : TailProtocol.Inv g a) (hown : (a.pc t).owned = some page)
    (hnot : ∀ p size, a.pc t ≠ .publishing p size) (p : ℕ) : ¬ Opening a p := by
  rintro ⟨u, size, hu⟩
  have hut : u = t := hinv.unique u t (by rw [hu]; simp [TailProtocol.Pc.owned]) (by rw [hown]; simp)
  rw [hut] at hu
  exact hnot p size hu

variable [DecidableEq Thread]

/-- Moving one thread between states in which it opens no page. -/
theorem opening_setPc {a a' : TailProtocol.State Thread} {t : Thread} {q : TailProtocol.Pc}
    (hpc : a'.pc = TailProtocol.setPc a.pc t q) (hq : ∀ p size, q ≠ .publishing p size)
    (hold : ∀ p size, a.pc t ≠ .publishing p size) (page : ℕ) :
    Opening a' page ↔ Opening a page := by
  unfold Opening
  rw [hpc]
  constructor
  · rintro ⟨u, size, hu⟩
    by_cases hut : u = t
    · rw [hut, TailProtocol.setPc_self] at hu
      exact absurd hu (hq page size)
    · rw [TailProtocol.setPc_ne _ _ hut] at hu
      exact ⟨u, size, hu⟩
  · rintro ⟨u, size, hu⟩
    by_cases hut : u = t
    · rw [hut] at hu
      exact absurd hu (hold page size)
    · exact ⟨u, size, by rw [TailProtocol.setPc_ne _ _ hut]; exact hu⟩

theorem zeroing_setPc {pc : Thread → TailProtocol.Pc} {t u : Thread} {q : TailProtocol.Pc}
    {page size : ℕ} (h : TailProtocol.setPc pc t q u = .zeroing page size)
    (hq : ∀ p n, q ≠ .zeroing p n) : pc u = .zeroing page size := by
  by_cases hut : u = t
  · rw [hut, TailProtocol.setPc_self] at h
    exact absurd h (hq page size)
  · rwa [TailProtocol.setPc_ne _ _ hut] at h

end Placed

/-! ## Section 3: Steps of the allocator -/

section Alloc

variable {Thread : Type*} {g : Geometry} {s s' : State Thread} {t : Thread}
  {l : TailProtocol.Label Thread} {a : TailProtocol.State Thread}

theorem afterTurn_ne_storing (s : State Thread) (l : TailProtocol.Label Thread) :
    ∀ new pageEnd, s.afterTurn l = .storingClosed new pageEnd → g.pageSize ∣ pageEnd := by
  intro new pageEnd hq
  have hcloses := afterTurn_closes l (s := s)
  rw [hq] at hcloses
  cases hcloses

/-- The record of births after a grant in the page of the last turn. -/
theorem Placed.born_grant {addr size page : ℕ} (h : Placed g s)
    (hgranted : a.granted = (addr, size) :: s.alloc.granted) (hturns : s.turns = page)
    (haddr : g.pageOf addr = page) (hle : tailPage s.alloc ≤ page) :
    ∀ x ∈ a.granted, Function.update s.born addr s.turns x.1 = g.pageOf x.1 ∧
      g.pageOf x.1 ≤ page := by
  intro x hx
  by_cases hxa : x.1 = addr
  · rw [hxa, Function.update_self, haddr, hturns]
    exact ⟨rfl, Nat.le_refl _⟩
  · rw [Function.update_of_ne hxa]
    rw [hgranted] at hx
    rcases List.mem_cons.mp hx with rfl | hx
    · exact absurd rfl hxa
    · obtain ⟨hborn, hpage⟩ := h.born x hx
      exact ⟨hborn, Nat.le_trans hpage hle⟩

variable [DecidableEq Thread]

theorem recordGrant_same {old : List (ℕ × ℕ)} (h : s.alloc.granted = old) : s.recordGrant t old = s := by
  unfold State.recordGrant
  rw [h]
  split
  · rename_i hlen
    simp at hlen
  · rfl

theorem recordGrant_cons {addr size : ℕ} {old : List (ℕ × ℕ)}
    (h : s.alloc.granted = (addr, size) :: old) :
    s.recordGrant t old = { s with
      born := Function.update s.born addr s.turns
      allocated := Function.update s.allocated t (addr :: s.allocated t) } := by
  unfold State.recordGrant
  rw [h]
  simp

/-- Only a thread inside `on_pages_closed` is about to store ClosedUntil. -/
theorem Placed.alignedNext_goto {s₁ : State Thread} {q : Pc} (h : Placed g s) (hpc : s₁.pc = s.pc)
    (hq : ∀ new pageEnd, q = .storingClosed new pageEnd → g.pageSize ∣ pageEnd) :
    ∀ u new pageEnd, (s₁.goto t q).pc u = .storingClosed new pageEnd → g.pageSize ∣ pageEnd := by
  intro u new pageEnd hu
  by_cases hut : u = t
  · rw [hut, goto_pc] at hu
    exact hq new pageEnd hu
  · rw [goto_pc_of_ne s₁ q hut, hpc] at hu
    exact h.alignedNext u new pageEnd hu

/-- An allocation step that grants nothing and zeroes nothing. -/
theorem afterAlloc_quiet (hzero : s.recordZero g l = s) (hgranted : a.granted = s.alloc.granted) :
    s.afterAlloc g t l a = { s with alloc := a }.goto t (s.afterTurn l) := by
  unfold State.afterAlloc
  rw [hzero, recordGrant_same hgranted]

/-- An allocation step that grants a range. -/
theorem afterAlloc_grant {addr size : ℕ} (hzero : s.recordZero g l = s)
    (hgranted : a.granted = (addr, size) :: s.alloc.granted) :
    s.afterAlloc g t l a = { s with
      alloc := a
      born := Function.update s.born addr s.turns
      allocated := Function.update s.allocated t (addr :: s.allocated t) }.goto t
        (s.afterTurn l) := by
  unfold State.afterAlloc
  rw [hzero, recordGrant_cons hgranted]

theorem Placed.alloc_fetchAdd {size : ℕ} (h : Placed g s) (hinv : TailProtocol.Inv g s.alloc)
    (hrange : TailProtocol.InRange g s.alloc (.fetchAdd t size)) (hpos : 0 < size)
    (hmay : TailProtocol.MayAdd (s.alloc.pc t) size) :
    Placed g (s.afterAlloc g t (.fetchAdd t size) (TailProtocol.afterFetchAdd g s.alloc t size)) := by
  obtain ⟨hun, -⟩ := TailProtocol.tail_after_fetchAdd hinv hrange
  have hpage : (unpack (fetchAdd s.alloc.tail size)).1 = tailPage s.alloc := by
    rw [hun]
    rfl
  have hold : ∀ p n, s.alloc.pc t ≠ .publishing p n := by
    intro p n hp
    rcases hmay with hm | hm <;> rw [hm] at hp <;> cases hp
  unfold TailProtocol.afterFetchAdd
  simp only
  split
  · -- granted in the current page
    rename_i hfit
    have hle : (unpack s.alloc.tail).2 ≤ g.pageSize := by omega
    have hlt : (unpack s.alloc.tail).2 < g.pageSize := by omega
    have hsettled : s.turns = tailPage s.alloc := h.settled (not_opening (hinv.no_owner hle))
    have haddr : g.pageOf ((unpack s.alloc.tail).1 <<< g.pageBits ||| (unpack s.alloc.tail).2) =
        tailPage s.alloc := by
      rw [g.join_eq hlt, g.pageOf_join hlt]
      rfl
    rw [afterAlloc_grant (by rfl) (by rfl)]
    refine h.samePage hpage rfl (opening_setPc rfl (by simp) hold) ?_
      (h.alignedNext_goto rfl (afterTurn_ne_storing s _)) rfl rfl
      (h.born_grant rfl hsettled haddr (Nat.le_refl _))
    intro u page n hu
    exact h.free u page n (zeroing_setPc hu (by simp))
  · split
    · -- somebody else turns the page
      rw [afterAlloc_quiet (by rfl) (by rfl)]
      refine h.samePage hpage rfl (opening_setPc rfl (by simp) hold) ?_
        (h.alignedNext_goto rfl (afterTurn_ne_storing s _)) rfl rfl h.born
      intro u page n hu
      exact h.free u page n (zeroing_setPc hu (by simp))
    · -- this thread turns the page
      rw [afterAlloc_quiet (by rfl) (by rfl)]
      refine h.samePage hpage rfl (opening_setPc rfl (by simp) hold) ?_
        (h.alignedNext_goto rfl (afterTurn_ne_storing s _)) rfl rfl h.born
      intro u page n hu
      exact h.free u page n (zeroing_setPc hu (by simp))

theorem Placed.alloc_checkFree {page size : ℕ} (h : Placed g s)
    (hpc : s.alloc.pc t = .turning page size)
    (hnext : TailProtocol.next g s.alloc (.checkFree t) = some a) :
    Placed g (s.afterAlloc g t (.checkFree t) a) := by
  have hold : ∀ p n, s.alloc.pc t ≠ .publishing p n := by
    intro p n hp
    rw [hpc] at hp
    cases hp
  simp only [TailProtocol.next, hpc] at hnext
  split at hnext
  · rename_i hfree
    cases hnext
    rw [afterAlloc_quiet (by rfl) (by rfl)]
    refine h.samePage rfl rfl (opening_setPc rfl (by simp) hold) ?_
      (h.alignedNext_goto rfl (afterTurn_ne_storing s _)) rfl rfl h.born
    intro u q n hu
    by_cases hut : u = t
    · -- the page-free check has just succeeded
      have hself : TailProtocol.Pc.zeroing page size = .zeroing q n := by
        rw [← hu, hut]
        exact (TailProtocol.setPc_self _ _ _).symm
      cases hself
      exact hfree
    · exact h.free u q n ((TailProtocol.setPc_ne _ _ hut).symm.trans hu)
  · cases hnext
    rw [afterAlloc_quiet (by rfl) (by rfl)]
    refine h.samePage rfl rfl (opening_setPc rfl (by simp) hold) ?_
      (h.alignedNext_goto rfl (afterTurn_ne_storing s _)) rfl rfl h.born
    intro u q n hu
    exact h.free u q n (zeroing_setPc hu (by simp))

theorem Placed.alloc_refuse {page : ℕ} (h : Placed g s) (hinv : TailProtocol.Inv g s.alloc)
    (hpc : s.alloc.pc t = .refusing page) :
    Placed g (s.afterAlloc g t (.refuse t) { s.alloc with
      tail := pack page g.pageSize, pc := TailProtocol.setPc s.alloc.pc t .idle }) := by
  have hown : (s.alloc.pc t).owned = some page := by rw [hpc]; rfl
  have hps := g.pageSize_le
  have hold : ∀ p n, s.alloc.pc t ≠ .publishing p n := by
    intro p n hp
    rw [hpc] at hp
    cases hp
  have hpage : (unpack (pack page g.pageSize)).1 = tailPage s.alloc := by
    rw [unpack_pack (hinv.owned_page_lt hown) (by omega)]
    exact (hinv.owner t page hown).1
  rw [afterAlloc_quiet (by rfl) (by rfl)]
  refine h.samePage hpage rfl (opening_setPc rfl (by simp) hold) ?_
    (h.alignedNext_goto rfl (afterTurn_ne_storing s _)) rfl rfl h.born
  intro u q n hu
  exact h.free u q n (zeroing_setPc hu (by simp))

/-- Zeroing: the slot taken over belonged to a closed page. -/
theorem Placed.alloc_zero {page size : ℕ} (h : Placed g s) (hinv : TailProtocol.Inv g s.alloc)
    (hpc : s.alloc.pc t = .zeroing page size) :
    Placed g (s.afterAlloc g t (.zero t) { s.alloc with
      pc := TailProtocol.setPc s.alloc.pc t (.publishing page size) }) := by
  have hown : (s.alloc.pc t).owned = some page := by rw [hpc]; rfl
  have htail : page = tailPage s.alloc := (hinv.owner t page hown).1
  have hnone := not_opening_of_owner hinv hown (by rw [hpc]; simp)
  have hturns : s.turns = page := (h.settled hnone).trans htail.symm
  have hwindow := Geometry.window_of_free (h.free t page size hpc)
  have hzero : s.recordZero g (.zero t) = { s with
      turns := s.turns + 1
      slots := Function.update s.slots (g.slotOf (page + 1)) (page + 1, s.turns + 1) } := by
    simp [State.recordZero, hpc]
  unfold State.afterAlloc
  rw [hzero, recordGrant_same (by rfl)]
  have hself : TailProtocol.setPc s.alloc.pc t (.publishing page size) t = .publishing page size :=
    TailProtocol.setPc_self _ _ _
  refine ⟨h.aligned, h.alignedNext_goto rfl (afterTurn_ne_storing s _), ?_, ?_, ?_, ?_, h.born⟩
  · intro u q n hu
    exact h.free u q n (zeroing_setPc hu (by simp))
  · rintro q ⟨u, n, hu⟩
    by_cases hut : u = t
    · have hq : TailProtocol.Pc.publishing page size = .publishing q n := by
        rw [← hu, hut]
        exact hself.symm
      cases hq
      refine ⟨?_, by show s.turns + 1 = page + 1; rw [hturns]⟩
      show Function.update s.slots _ _ _ = _
      rw [Function.update_self, hturns]
    · exact absurd ⟨u, n, (TailProtocol.setPc_ne _ _ hut).symm.trans hu⟩ (hnone q)
  · intro hnot
    exact absurd ⟨t, size, hself⟩ (hnot page)
  · intro p hp hle
    have hps := g.pageSize_pos
    have hmul : (page + 1) * g.pageSize < (p + g.bufferSize) * g.pageSize := by
      calc (page + 1) * g.pageSize < s.alloc.closedUntil + g.bufferSize * g.pageSize := hwindow
        _ ≤ p * g.pageSize + g.bufferSize * g.pageSize := Nat.add_le_add_right hp _
        _ = (p + g.bufferSize) * g.pageSize := by ring
    have hnear : page + 1 < p + g.bufferSize := Nat.lt_of_mul_lt_mul_right hmul
    have hlt : p < page + 1 := by
      rw [htail]
      exact Nat.lt_succ_of_le hle
    show Function.update s.slots (g.slotOf (page + 1)) _ (g.slotOf p) = (p, p)
    rw [Function.update_of_ne (g.slotOf_ne hlt hnear)]
    exact h.held p hp hle

/-- Publishing the zeroed page makes it the tail's page. -/
theorem Placed.alloc_publish {page size tail addr : ℕ} (h : Placed g s)
    (hinv : TailProtocol.Inv g s.alloc) (hpc : s.alloc.pc t = .publishing page size)
    (hword : (unpack tail).1 = page + 1) (haddr : g.pageOf addr = page + 1) :
    Placed g (s.afterAlloc g t (.publish t) { s.alloc with
      tail := tail
      pc := TailProtocol.setPc s.alloc.pc t .idle
      granted := (addr, size) :: s.alloc.granted }) := by
  have hown : (s.alloc.pc t).owned = some page := by rw [hpc]; rfl
  have htail : page = tailPage s.alloc := (hinv.owner t page hown).1
  obtain ⟨hslot, hturns⟩ := h.zeroed page ⟨t, size, hpc⟩
  have hnone := hinv.no_owner_after (t := t) (by rw [hown]; simp)
  have hle : tailPage s.alloc ≤ page + 1 := by omega
  rw [afterAlloc_grant (by rfl) (by rfl)]
  refine ⟨h.aligned, h.alignedNext_goto rfl (afterTurn_ne_storing s _), ?_, ?_, ?_, ?_, ?_⟩
  · intro u q n hu
    exact h.free u q n (zeroing_setPc hu (by simp))
  · intro q hq
    exact absurd hq (not_opening hnone q)
  · intro _
    show s.turns = (unpack tail).1
    rw [hword, hturns]
  · intro p hp hpage
    have hpage' : p ≤ page + 1 := Nat.le_trans hpage (Nat.le_of_eq hword)
    rcases Nat.lt_or_eq_of_le hpage' with hlt | heq
    · exact h.held p hp (by omega)
    · rw [heq]
      exact hslot
  · intro x hx
    show _ ∧ g.pageOf x.1 ≤ (unpack tail).1
    rw [hword]
    exact h.born_grant (a := { s.alloc with granted := (addr, size) :: s.alloc.granted })
      rfl hturns haddr hle x hx

theorem Placed.allocStep {u : Thread} (h : Placed g s) (inv : Inv g s) (hfits : TailFits s (.alloc l))
    (hpos : positiveSize l = true) (ht : allocThread l = some u)
    (hstep : LogProtocol.allocStep g s u l = some s') : Placed g s' := by
  have hrange := hfits.inRange (g := g) hpos
  simp only [LogProtocol.allocStep, Option.map_eq_some_iff] at hstep
  obtain ⟨a, hnext, rfl⟩ := hstep
  cases l with
  | fetchAdd v size =>
    cases ht
    simp only [TailProtocol.next, Option.ite_none_right_eq_some, Option.some.injEq] at hnext
    obtain ⟨⟨-, hmay⟩, rfl⟩ := hnext
    exact h.alloc_fetchAdd inv.tail hrange (by simpa [positiveSize] using hpos) hmay
  | checkFree v =>
    cases ht
    have hnext' := hnext
    simp only [TailProtocol.next] at hnext'
    split at hnext'
    · exact h.alloc_checkFree ‹_› hnext
    · cases hnext'
  | refuse v =>
    cases ht
    simp only [TailProtocol.next] at hnext
    split at hnext
    · cases hnext
      exact h.alloc_refuse inv.tail ‹_›
    · cases hnext
  | zero v =>
    cases ht
    simp only [TailProtocol.next] at hnext
    split at hnext
    · cases hnext
      exact h.alloc_zero inv.tail ‹_›
    · cases hnext
  | publish v =>
    cases ht
    simp only [TailProtocol.next] at hnext
    split at hnext
    · rename_i page size hpc
      cases hnext
      have hpage : page + 1 < 2 ^ 32 := by
        have hin : (s.alloc.pc u).PageInRange := hrange
        rwa [hpc] at hin
      have hsize := inv.tail.sizes u page size (.inr (.inr hpc))
      have hps := g.pageSize_le
      have hhdr : FIRST_VALID_ADDRESS = PAGE_HEADER_SIZE := rfl
      refine h.alloc_publish inv.tail hpc ?_ ?_
      · rw [unpack_pack hpage (by omega)]
      · rw [g.join_eq g.header_lt_pageSize, g.pageOf_join g.header_lt_pageSize]
    · cases hnext
  | close v => cases ht

end Alloc

/-! ## Section 4: What a step outside the allocator can do -/

/-- The step of `t` at `p`, as far as page slots and sections are concerned. -/
structure Frame {Thread : Type*} (g : Geometry) (t : Thread) (p : Pc) (s s' : State Thread) :
    Prop where
  tail : s'.alloc.tail = s.alloc.tail
  allocPc : s'.alloc.pc = s.alloc.pc
  granted : s'.alloc.granted = s.alloc.granted
  slots : s'.slots = s.slots
  born : s'.born = s.born
  turns : s'.turns = s.turns
  sections : s'.sections = s.sections
  loaded : s'.loaded = s.loaded
  allocated : s'.allocated = s.allocated
  others : ∀ u, u ≠ t → s'.pc u = s.pc u
  closed : s'.alloc.closedUntil = s.alloc.closedUntil ∨
    ∃ new, p = .storingClosed new s'.alloc.closedUntil
  storing : ∀ new pageEnd, s'.pc t = .storingClosed new pageEnd →
    pageEnd = s.alloc.closedUntil + g.pageSize
  safeHead : s'.safeHead = s.safeHead ∨ ∃ new, p = .raising new ∧ s'.safeHead = max s.safeHead new
  raising : ∀ new, s'.pc t ≠ .raising new
  actions : s'.actions = s.actions ∨ ∃ a, s'.actions = s.actions ++ [⟨a, s.sections⟩]

section Frame

variable {Thread : Type*} [DecidableEq Thread] {g : Geometry} {s s' : State Thread} {t : Thread}
  {p q : Pc}

/-- One step of `t`, which goes to `q`. -/
theorem Frame.move {sh h f sr r c : ℕ} {fl cl : Bool} {actions : List (Registered Thread)}
    (hq : ∀ new pageEnd, q = .storingClosed new pageEnd → pageEnd = s.alloc.closedUntil + g.pageSize)
    (hr : ∀ new, q ≠ .raising new)
    (hactions : actions = s.actions ∨ ∃ a, actions = s.actions ++ [⟨a, s.sections⟩])
    (hclosed : c = s.alloc.closedUntil ∨ ∃ new, p = .storingClosed new c)
    (hsafe : sh = s.safeHead ∨ ∃ new, p = .raising new ∧ sh = max s.safeHead new) :
    Frame g t p s ({ s with
      alloc := { s.alloc with closedUntil := c }
      safeHead := sh, head := h, flushedUntil := f, safeReadOnly := sr, readOnly := r
      flushLock := fl, closeLock := cl, actions := actions }.goto t q) where
  tail := rfl
  allocPc := rfl
  granted := rfl
  slots := rfl
  born := rfl
  turns := rfl
  sections := rfl
  loaded := rfl
  allocated := rfl
  others := fun u hu => goto_pc_of_ne _ q hu
  closed := hclosed
  storing := by
    rw [goto_pc]
    exact hq
  safeHead := hsafe
  raising := by
    rw [goto_pc]
    exact hr
  actions := hactions

/-- A step that neither closes a page nor raises SafeHead. -/
theorem Frame.goto {h f sr r : ℕ} {fl cl : Bool} {actions : List (Registered Thread)}
    (hq : ∀ new pageEnd, q = .storingClosed new pageEnd → pageEnd = s.alloc.closedUntil + g.pageSize)
    (hr : ∀ new, q ≠ .raising new)
    (hactions : actions = s.actions ∨ ∃ a, actions = s.actions ++ [⟨a, s.sections⟩]) :
    Frame g t p s ({ s with
      head := h, flushedUntil := f, safeReadOnly := sr, readOnly := r
      flushLock := fl, closeLock := cl, actions := actions }.goto t q) :=
  .move hq hr hactions (.inl rfl) (.inl rfl)

theorem Frame.resume {k : After} {actions : List (Registered Thread)}
    (hactions : actions = s.actions ∨ ∃ a, actions = s.actions ++ [⟨a, s.sections⟩]) :
    Frame g t p s ({ s with actions := actions }.resume t k) := by
  cases k with
  | issueHead next => exact .goto (by simp) (by simp) hactions
  | waitFlushed final => exact .goto (by simp) (by simp) hactions

theorem stepPc_frame (h : stepPc g s t p = some s') : Frame g t p s s' := by
  cases p with
  | idle => cases h
  | issuing next =>
    cases h
    split
    · exact .goto (by simp) (by simp) (.inl rfl)
    · exact .goto (by simp) (by simp) (.inl rfl)
  | loadingRo new k =>
    cases h
    exact .goto (by simp) (by simp) (.inl rfl)
  | casingRo cur new k =>
    simp only [stepPc] at h
    split at h
    · cases h
      exact .resume (.inl rfl)
    split at h
    · cases h
      exact .goto (by simp) (by simp) (.inl rfl)
    · cases h
      exact .goto (by simp) (by simp) (.inl rfl)
  | registeringRo new k =>
    cases h
    exact .resume (.inr ⟨_, rfl⟩)
  | issuingHead next =>
    cases h
    split
    · exact .goto (by simp) (by simp) (.inl rfl)
    · exact .goto (by simp) (by simp) (.inl rfl)
  | clamping desired =>
    cases h
    exact .goto (by simp) (by simp) (.inl rfl)
  | loadingHead new =>
    cases h
    exact .goto (by simp) (by simp) (.inl rfl)
  | casingHead cur new =>
    simp only [stepPc] at h
    split at h
    · cases h
      exact .goto (by simp) (by simp) (.inl rfl)
    split at h
    · cases h
      exact .goto (by simp) (by simp) (.inl rfl)
    · cases h
      exact .goto (by simp) (by simp) (.inl rfl)
  | registeringHead new =>
    cases h
    exact .goto (by simp) (by simp) (.inr ⟨_, rfl⟩)
  | loadingTail =>
    simp only [stepPc, Option.map_eq_some_iff] at h
    obtain ⟨final, -, rfl⟩ := h
    exact .goto (by simp) (by simp) (.inl rfl)
  | waiting final =>
    simp only [stepPc, Option.ite_none_right_eq_some, Option.some.injEq] at h
    obtain ⟨-, rfl⟩ := h
    exact .goto (by simp) (by simp) (.inl rfl)
  | marking new =>
    cases h
    exact .goto (by simp) (by simp) (.inl rfl)
  | lockingFlush u =>
    simp only [stepPc] at h
    split at h
    · cases h
    · cases h
      exact .goto (by simp) (by simp) (.inl rfl)
  | loadingFlushed u =>
    cases h
    split
    · exact .goto (by simp) (by simp) (.inl rfl)
    · exact .goto (by simp) (by simp) (.inl rfl)
  | flushing u addr =>
    cases h
    split
    · exact .goto (by simp) (by simp) (.inl rfl)
    · exact .goto (by simp) (by simp) (.inl rfl)
  | unlockingFlush =>
    cases h
    exact .goto (by simp) (by simp) (.inl rfl)
  | raising new =>
    cases h
    exact .move (by simp) (by simp) (.inl rfl) (.inl rfl) (.inr ⟨new, rfl, rfl⟩)
  | lockingClose new =>
    simp only [stepPc] at h
    split at h
    · cases h
    · cases h
      exact .goto (by simp) (by simp) (.inl rfl)
  | closing new =>
    cases h
    split
    · exact .goto (by simp) (by simp) (.inl rfl)
    · refine .goto ?_ (by simp) (.inl rfl)
      intro new' pageEnd hq
      cases hq
      rfl
  | storingClosed new pageEnd =>
    cases h
    exact .move (by simp) (by simp) (.inl rfl) (.inr ⟨new, rfl⟩) (.inl rfl)
  | unlockingClose =>
    cases h
    exact .goto (by simp) (by simp) (.inl rfl)

theorem Placed.frame (h : Placed g s) (inv : Inv g s) (hf : Frame g t (s.pc t) s s') :
    Placed g s' := by
  have hclosed : s.alloc.closedUntil ≤ s'.alloc.closedUntil ∧ g.pageSize ∣ s'.alloc.closedUntil := by
    rcases hf.closed with heq | ⟨new, hpc⟩
    · rw [heq]
      exact ⟨Nat.le_refl _, h.aligned⟩
    · have hok := inv.pcs t
      rw [hpc] at hok
      exact ⟨hok.2.2, h.alignedNext t new _ hpc⟩
  refine h.outside hf.tail hf.allocPc hf.granted hclosed.1 hclosed.2 ?_ hf.slots hf.born hf.turns
  intro u new pageEnd hu
  by_cases hut : u = t
  · rw [hut] at hu
    rw [hf.storing new pageEnd hu]
    exact Nat.dvd_add h.aligned (Nat.dvd_refl _)
  · rw [hf.others u hut] at hu
    exact h.alignedNext u new pageEnd hu

theorem Placed.step {l : Label Thread} (h : Placed g s) (inv : Inv g s) (hfits : TailFits s l)
    (hnext : next g s l = some s') : Placed g s' := by
  have hsame : ∀ s₁ : State Thread, s₁.alloc = s.alloc → s₁.pc = s.pc → s₁.slots = s.slots →
      s₁.born = s.born → s₁.turns = s.turns → Placed g s₁ := by
    intro s₁ halloc hpc hslots hborn hturns
    refine h.outside (by rw [halloc]) (by rw [halloc]) (by rw [halloc]) (by rw [halloc])
      (by rw [halloc]; exact h.aligned) ?_ hslots hborn hturns
    rw [hpc]
    exact h.alignedNext
  cases l with
  | alloc l =>
    simp only [next] at hnext
    split at hnext
    · rename_i t ht
      simp only [Option.ite_none_right_eq_some] at hnext
      obtain ⟨⟨-, hpos⟩, hnext⟩ := hnext
      exact h.allocStep inv hfits hpos ht hnext
    · cases hnext
  | protect t =>
    simp only [next, Option.ite_none_right_eq_some, Option.some.injEq] at hnext
    obtain ⟨-, rfl⟩ := hnext
    exact hsame _ rfl rfl rfl rfl rfl
  | unprotect t =>
    simp only [next, Option.ite_none_right_eq_some, Option.some.injEq] at hnext
    obtain ⟨-, rfl⟩ := hnext
    exact hsame _ rfl rfl rfl rfl rfl
  | loadHead t =>
    simp only [next, Option.ite_none_right_eq_some, Option.some.injEq] at hnext
    obtain ⟨-, rfl⟩ := hnext
    exact hsame _ rfl rfl rfl rfl rfl
  | loadRo t =>
    simp only [next, Option.ite_none_right_eq_some, Option.some.injEq] at hnext
    obtain ⟨-, rfl⟩ := hnext
    exact hsame _ rfl rfl rfl rfl rfl
  | checkpoint t =>
    simp only [next, Option.ite_none_right_eq_some, Option.some.injEq] at hnext
    obtain ⟨-, rfl⟩ := hnext
    exact h.frame inv (t := t) (.goto (by simp) (by simp) (.inl rfl))
  | startAction t i =>
    simp only [next] at hnext
    split at hnext
    · rename_i a ha
      simp only [Option.ite_none_right_eq_some, Option.some.injEq] at hnext
      obtain ⟨-, rfl⟩ := hnext
      refine h.outside rfl rfl rfl (Nat.le_refl _) h.aligned ?_ rfl rfl rfl
      refine h.alignedNext_goto (t := t) rfl ?_
      intro new pageEnd hq
      cases haction : a.action <;> rw [haction] at hq <;> cases hq
    · cases hnext
  | step t => exact h.frame inv (stepPc_frame hnext)
  | failWrite t =>
    simp only [next] at hnext
    split at hnext
    · cases hnext
      exact h.frame inv (t := t) (.goto (by simp) (by simp) (.inl rfl))
    · cases hnext

end Frame

/-! ## Section 5: What protects a session's addresses -/

section Shield

variable {Thread : Type*} {g : Geometry} {s s' : State Thread}

/-- `t` is in a section in which it has loaded the bound or allocated the
    address `b`. -/
def Holding (s : State Thread) (t : Thread) (b : ℕ) : Prop :=
  s.sections t ≠ none ∧ (b ∈ s.loaded t ∨ b ∈ s.allocated t)

/-- No page at or above `b` is closed while `t` holds `b`: whoever might close
    one was registered in the section `t` is still in. -/
structure Shield (s : State Thread) : Prop where
  safeHead : ∀ t b, Holding s t b → s.safeHead ≤ b
  raising : ∀ t b, Holding s t b → ∀ u n, s.pc u = .raising n → n ≤ b
  actions : ∀ t b, Holding s t b → ∀ a ∈ s.actions, ∀ n, a.action = .closePages n →
    n ≤ b ∨ a.published t = s.sections t

theorem shield_new : Shield (initial : State Thread) := by
  have hnone : ∀ t b, ¬ Holding (initial : State Thread) t b := fun t b h => h.1 rfl
  exact ⟨fun t b h => absurd h (hnone t b), fun t b h => absurd h (hnone t b),
    fun t b h => absurd h (hnone t b)⟩

/-- What a step may do to held bounds, to SafeHead and to the closing actions. -/
theorem Shield.of_step (h : Shield s) (inv : Inv g s')
    (hheld : ∀ t b, Holding s' t b →
      s'.head ≤ b ∨ (Holding s t b ∧ s'.sections t = s.sections t))
    (hsafe : s'.safeHead = s.safeHead ∨
      ∃ u n, s.pc u = .raising n ∧ s'.safeHead = max s.safeHead n)
    (hraising : ∀ u n, s'.pc u = .raising n → s.pc u = .raising n ∨
      ∃ a ∈ s.actions, a.action = .closePages n ∧ a.SectionsOver s)
    (hactions : ∀ a ∈ s'.actions, a ∈ s.actions ∨ a.published = s.sections) : Shield s' := by
  refine ⟨?_, ?_, ?_⟩
  · intro t b hb
    rcases hheld t b hb with hhead | ⟨hold, -⟩
    · exact Nat.le_trans inv.ordered.safeHead_le hhead
    · rcases hsafe with heq | ⟨u, n, hu, heq⟩
      · rw [heq]
        exact h.safeHead t b hold
      · rw [heq]
        exact Nat.max_le.mpr ⟨h.safeHead t b hold, h.raising t b hold u n hu⟩
  · intro t b hb u n hu
    rcases hheld t b hb with hhead | ⟨hold, -⟩
    · have hok := inv.pcs u
      rw [hu] at hok
      exact Nat.le_trans hok hhead
    · rcases hraising u n hu with hu | ⟨a, ha, hclose, hover⟩
      · exact h.raising t b hold u n hu
      · rcases h.actions t b hold a ha n hclose with hle | hpub
        · exact hle
        · -- the action could not start while the section it was registered in lasts
          rcases hover t with hnone | hne
          · exact absurd (hpub.symm.trans hnone) hold.1
          · exact absurd hpub.symm hne
  · intro t b hb a ha n hclose
    rcases hheld t b hb with hhead | ⟨hold, hsec⟩
    · have hok := inv.actions a ha
      rw [hclose] at hok
      exact .inl (Nat.le_trans hok hhead)
    · rw [hsec]
      rcases hactions a ha with hold' | hpub
      · exact h.actions t b hold a hold' n hclose
      · exact .inr (congrFun hpub t)

/-- A bound at or above Head is loaded. -/
theorem Shield.load [DecidableEq Thread] {t : Thread} {bound : ℕ} (h : Shield s) (inv : Inv g s')
    (hbound : s'.head ≤ bound) (hloaded : s'.loaded = Function.update s.loaded t (bound :: s.loaded t))
    (hsections : s'.sections = s.sections) (hallocated : s'.allocated = s.allocated)
    (hsafe : s'.safeHead = s.safeHead) (hpc : s'.pc = s.pc) (hactions : s'.actions = s.actions) :
    Shield s' := by
  refine h.of_step inv ?_ (.inl hsafe) (fun u n hu => .inl (hpc ▸ hu))
    (fun a ha => .inl (hactions ▸ ha))
  rintro u b ⟨hsec, hb⟩
  rw [hsections] at hsec
  rw [hloaded, hallocated] at hb
  by_cases hut : u = t
  · rw [hut, Function.update_self] at hb
    rw [hut] at hsec ⊢
    rcases hb with hb | hb
    · rcases List.mem_cons.mp hb with rfl | hb
      · exact .inl hbound
      · exact .inr ⟨⟨hsec, .inl hb⟩, congrFun hsections t⟩
    · exact .inr ⟨⟨hsec, .inr hb⟩, congrFun hsections t⟩
  · rw [Function.update_of_ne hut] at hb
    exact .inr ⟨⟨hsec, hb⟩, congrFun hsections u⟩

variable [DecidableEq Thread] {t : Thread}

theorem Shield.frame (h : Shield s) (inv : Inv g s') (hf : Frame g t (s.pc t) s s') :
    Shield s' := by
  refine h.of_step inv ?_ ?_ ?_ ?_
  · intro u b hb
    refine .inr ⟨?_, congrFun hf.sections u⟩
    unfold Holding at hb ⊢
    rwa [hf.sections, hf.loaded, hf.allocated] at hb
  · rcases hf.safeHead with heq | ⟨new, hpc, heq⟩
    · exact .inl heq
    · exact .inr ⟨t, new, hpc, heq⟩
  · intro u n hu
    by_cases hut : u = t
    · rw [hut] at hu
      exact absurd hu (hf.raising n)
    · rw [hf.others u hut] at hu
      exact .inl hu
  · intro a ha
    rcases hf.actions with heq | ⟨b, heq⟩
    · rw [heq] at ha
      exact .inl ha
    · rw [heq] at ha
      rcases List.mem_append.mp ha with ha | ha
      · exact .inl ha
      · rw [List.mem_singleton.mp ha]
        exact .inr rfl

/-- An address a step allocates is granted, above everything granted before. -/
theorem allocStep_allocated {l : TailProtocol.Label Thread} (inv : Inv g s)
    (hrange : TailProtocol.InRange g s.alloc l) (h : allocStep g s t l = some s') (u : Thread)
    {b : ℕ} (hb : b ∈ s'.allocated u) :
    b ∈ s.allocated u ∨
      TailProtocol.frontier g s.alloc ≤ b ∧ ∃ size, (b, size) ∈ s'.alloc.granted := by
  simp only [allocStep, Option.map_eq_some_iff] at h
  obtain ⟨a, hnext, rfl⟩ := h
  obtain ⟨-, hadv⟩ := TailProtocol.step_spec inv.tail hrange hnext
  obtain ⟨new, hnew, habove⟩ := hadv.granted
  have hzero : (s.recordZero g l).allocated = s.allocated := by
    unfold State.recordZero
    split
    · split <;> rfl
    · rfl
  simp only [State.afterAlloc, State.goto, State.recordGrant] at hb ⊢
  split at hb
  · rename_i addr size rest hgranted hlen
    -- the newest range is one of the new ones
    have hmem : (addr, size) ∈ new := by
      cases new with
      | nil =>
        rw [hnew] at hlen
        simp at hlen
      | cons x xs =>
        rw [hnew] at hgranted
        cases hgranted
        exact List.mem_cons_self
    simp only [hzero] at hb
    by_cases hut : u = t
    · rw [hut, Function.update_self] at hb
      rcases List.mem_cons.mp hb with rfl | hb
      · refine .inr ⟨habove _ hmem, size, ?_⟩
        rw [hgranted]
        exact List.mem_cons_self
      · rw [hut]
        exact .inl hb
    · rw [Function.update_of_ne hut] at hb
      exact .inl hb
  · simp only [hzero] at hb
    exact .inl hb

theorem Shield.allocStep {l : TailProtocol.Label Thread} (h : Shield s) (inv : Inv g s)
    (inv' : Inv g s') (hrange : TailProtocol.InRange g s.alloc l)
    (hstep : LogProtocol.allocStep g s t l = some s') : Shield s' := by
  have hnew := allocStep_allocated inv hrange hstep
  obtain ⟨alloc, turns, slots, born, allocated, hnext, rfl⟩ := allocStep_eq hstep
  refine h.of_step inv' ?_ (.inl rfl) ?_ (fun a ha => .inl ha)
  · rintro u b ⟨hsec, hb⟩
    rcases hb with hb | hb
    · exact .inr ⟨⟨hsec, .inl hb⟩, rfl⟩
    · rcases hnew u hb with hb | ⟨hle, -⟩
      · exact .inr ⟨⟨hsec, .inr hb⟩, rfl⟩
      · have hord := inv.ordered
        have hhead := hord.head_le
        have hflushed := hord.flushed_le
        have hsafeRo := hord.safeReadOnly_le
        have hro := hord.readOnly_le
        simp only [State.bounds] at hhead hflushed hsafeRo hro
        refine .inl ?_
        show s.head ≤ b
        omega
  · intro u n hu
    by_cases hut : u = t
    · rw [hut, goto_pc] at hu
      have : (s.afterTurn l) ≠ .raising n := by
        unfold State.afterTurn
        split
        · split <;> simp
        · split <;> simp
        · simp
      exact absurd hu this
    · rw [goto_pc_of_ne _ _ hut] at hu
      exact .inl hu

theorem Shield.step {l : Label Thread} (h : Shield s) (inv : Inv g s) (hsafe : SafeStep s l)
    (hnext : next g s l = some s') : Shield s' := by
  have inv' : Inv g s' := (inv.step hsafe.1 hnext).1
  cases l with
  | alloc l =>
    simp only [next] at hnext
    split at hnext
    · simp only [Option.ite_none_right_eq_some] at hnext
      obtain ⟨⟨-, hpos⟩, hnext⟩ := hnext
      exact h.allocStep inv inv' (hsafe.1.inRange hpos) hnext
    · cases hnext
  | protect t =>
    simp only [next, Option.ite_none_right_eq_some, Option.some.injEq] at hnext
    obtain ⟨-, rfl⟩ := hnext
    refine h.of_step inv' ?_ (.inl rfl) (fun u n hu => .inl hu) (fun a ha => .inl ha)
    rintro u b ⟨hsec, hb⟩
    by_cases hut : u = t
    · -- the section begins with nothing loaded
      rw [hut] at hb
      simp at hb
    · simp only [Function.update_of_ne hut] at hsec hb
      exact .inr ⟨⟨hsec, hb⟩, Function.update_of_ne hut _ _⟩
  | unprotect t =>
    simp only [next, Option.ite_none_right_eq_some, Option.some.injEq] at hnext
    obtain ⟨-, rfl⟩ := hnext
    refine h.of_step inv' ?_ (.inl rfl) (fun u n hu => .inl hu) (fun a ha => .inl ha)
    rintro u b ⟨hsec, hb⟩
    by_cases hut : u = t
    · rw [hut] at hsec
      simp at hsec
    · simp only [Function.update_of_ne hut] at hsec
      exact .inr ⟨⟨hsec, hb⟩, Function.update_of_ne hut _ _⟩
  | loadHead t =>
    simp only [next, Option.ite_none_right_eq_some, Option.some.injEq] at hnext
    obtain ⟨-, rfl⟩ := hnext
    exact h.load inv' (Nat.le_refl _) rfl rfl rfl rfl rfl rfl
  | loadRo t =>
    simp only [next, Option.ite_none_right_eq_some, Option.some.injEq] at hnext
    obtain ⟨-, rfl⟩ := hnext
    have hord := inv.ordered
    have hle : s.head ≤ s.readOnly :=
      Nat.le_trans hord.head_le (Nat.le_trans hord.flushed_le hord.safeReadOnly_le)
    exact h.load inv' hle rfl rfl rfl rfl rfl rfl
  | checkpoint t =>
    simp only [next, Option.ite_none_right_eq_some, Option.some.injEq] at hnext
    obtain ⟨-, rfl⟩ := hnext
    exact h.frame inv' (t := t) (.goto (by simp) (by simp) (.inl rfl))
  | startAction t i =>
    simp only [next] at hnext
    split at hnext
    · rename_i a ha
      simp only [Option.ite_none_right_eq_some, Option.some.injEq] at hnext
      obtain ⟨-, rfl⟩ := hnext
      have hover : a.SectionsOver s := by
        have hep := hsafe.2
        simpa only [EpochSafe, ha] using hep
      refine h.of_step inv' (fun u b hb => .inr ⟨hb, rfl⟩) (.inl rfl) ?_
        (fun b hb => .inl (List.mem_of_mem_eraseIdx hb))
      intro u n hu
      by_cases hut : u = t
      · rw [hut, goto_pc] at hu
        refine .inr ⟨a, List.mem_of_getElem? ha, ?_, hover⟩
        cases haction : a.action with
        | markReadOnly new =>
          rw [haction] at hu
          cases hu
        | closePages new =>
          rw [haction] at hu
          cases hu
          rfl
        | observe =>
          rw [haction] at hu
          cases hu
      · rw [goto_pc_of_ne _ _ hut] at hu
        exact .inl hu
    · cases hnext
  | step t => exact h.frame inv' (stepPc_frame hnext)
  | failWrite t =>
    simp only [next] at hnext
    split at hnext
    · cases hnext
      exact h.frame inv' (t := t) (.goto (by simp) (by simp) (.inl rfl))
    · cases hnext

end Shield

/-! ## Section 6: Main result -/

section Main

variable {Thread : Type*} {g : Geometry} {s s' : State Thread}

/-- Everything a step needs and keeps. -/
structure ReuseInv (g : Geometry) (s : State Thread) : Prop where
  inv : Inv g s
  placed : Placed g s
  shield : Shield s
  granted : ∀ t, ∀ b ∈ s.allocated t, ∃ size, (b, size) ∈ s.alloc.granted

/-- What a session holds has not been recycled. -/
theorem ReuseInv.resident (h : ReuseInv g s) {t : Thread} {b : ℕ} {x : ℕ × ℕ}
    (hb : Holding s t b) (hx : x ∈ s.alloc.granted) (hle : b ≤ x.1) : Resident g s x.1 := by
  have hclosed : s.alloc.closedUntil ≤ s.safeHead := h.inv.ordered.closed_le
  have hsafe : s.safeHead ≤ b := h.shield.safeHead t b hb
  exact h.placed.resident hx (Nat.le_trans hclosed (Nat.le_trans hsafe hle))

variable [DecidableEq Thread]

/-- Grants are never taken back, and what a thread allocates is granted. -/
theorem next_granted {l : Label Thread} (inv : Inv g s) (hfits : TailFits s l)
    (hnext : next g s l = some s') :
    (∀ x ∈ s.alloc.granted, x ∈ s'.alloc.granted) ∧
      ∀ t, ∀ b ∈ s'.allocated t, b ∈ s.allocated t ∨ ∃ size, (b, size) ∈ s'.alloc.granted := by
  have hsame : s'.alloc.granted = s.alloc.granted → s'.allocated = s.allocated →
      (∀ x ∈ s.alloc.granted, x ∈ s'.alloc.granted) ∧
        ∀ t, ∀ b ∈ s'.allocated t, b ∈ s.allocated t ∨ ∃ size, (b, size) ∈ s'.alloc.granted := by
    intro hgranted hallocated
    rw [hgranted, hallocated]
    exact ⟨fun x hx => hx, fun t b hb => .inl hb⟩
  cases l with
  | alloc l =>
    simp only [next] at hnext
    split at hnext
    · simp only [Option.ite_none_right_eq_some] at hnext
      obtain ⟨⟨-, hpos⟩, hnext⟩ := hnext
      have hrange := hfits.inRange (g := g) hpos
      have hnew := allocStep_allocated inv hrange hnext
      refine ⟨?_, fun u b hb => (hnew u hb).imp_right And.right⟩
      obtain ⟨alloc, turns, slots, born, allocated, halloc, rfl⟩ := allocStep_eq hnext
      obtain ⟨new, hgranted, -⟩ := (TailProtocol.step_spec inv.tail hrange halloc).2.granted
      intro x hx
      show x ∈ alloc.granted
      rw [hgranted]
      exact List.mem_append_right _ hx
    · cases hnext
  | protect t =>
    simp only [next, Option.ite_none_right_eq_some, Option.some.injEq] at hnext
    obtain ⟨-, rfl⟩ := hnext
    refine ⟨fun x hx => hx, fun u b hb => ?_⟩
    by_cases hut : u = t
    · rw [hut] at hb
      simp at hb
    · simp only [Function.update_of_ne hut] at hb
      exact .inl hb
  | unprotect t =>
    simp only [next, Option.ite_none_right_eq_some, Option.some.injEq] at hnext
    obtain ⟨-, rfl⟩ := hnext
    exact hsame rfl rfl
  | loadHead t =>
    simp only [next, Option.ite_none_right_eq_some, Option.some.injEq] at hnext
    obtain ⟨-, rfl⟩ := hnext
    exact hsame rfl rfl
  | loadRo t =>
    simp only [next, Option.ite_none_right_eq_some, Option.some.injEq] at hnext
    obtain ⟨-, rfl⟩ := hnext
    exact hsame rfl rfl
  | checkpoint t =>
    simp only [next, Option.ite_none_right_eq_some, Option.some.injEq] at hnext
    obtain ⟨-, rfl⟩ := hnext
    exact hsame rfl rfl
  | startAction t i =>
    simp only [next] at hnext
    split at hnext
    · simp only [Option.ite_none_right_eq_some, Option.some.injEq] at hnext
      obtain ⟨-, rfl⟩ := hnext
      exact hsame rfl rfl
    · cases hnext
  | step t =>
    have hf := stepPc_frame hnext
    exact hsame hf.granted hf.allocated
  | failWrite t =>
    simp only [next] at hnext
    split at hnext
    · cases hnext
      exact hsame rfl rfl
    · cases hnext

theorem ReuseInv.step {l : Label Thread} (h : ReuseInv g s) (hsafe : SafeStep s l)
    (hnext : next g s l = some s') : ReuseInv g s' := by
  obtain ⟨hgrow, hnew⟩ := next_granted h.inv hsafe.1 hnext
  refine ⟨(h.inv.step hsafe.1 hnext).1, h.placed.step h.inv hsafe.1 hnext,
    h.shield.step h.inv hsafe hnext, ?_⟩
  intro t b hb
  rcases hnew t b hb with hb | hgranted
  · obtain ⟨size, hsize⟩ := h.granted t b hb
    exact ⟨size, hgrow _ hsize⟩
  · exact hgranted

theorem reuseInv_run {ls : List (Label Thread)} (h : Lts.Steps (next g) SafeStep initial ls s) :
    ReuseInv g s := by
  refine h.invariant (fun inv hok hnext => inv.step hok hnext) ?_
  refine ⟨inv_new g, placed_new g, shield_new, ?_⟩
  intro t b hb
  cases hb

/-- **No recycled page is touched.**  In every run in which neither field of the
    tail word overflows, a thread in a protected section finds in place every
    record at or above a Head or ReadOnly value it has loaded there, and every
    address it has allocated there. -/
theorem section_addresses_resident {ls : List (Label Thread)} {t : Thread}
    (hrun : Lts.Steps (next g) SafeStep initial ls s) (hsec : s.sections t ≠ none) :
    (∀ b ∈ s.loaded t, ∀ x ∈ s.alloc.granted, b ≤ x.1 → Resident g s x.1) ∧
      ∀ addr ∈ s.allocated t, Resident g s addr := by
  have h : ReuseInv g s := reuseInv_run hrun
  constructor
  · intro b hb x hx hle
    exact h.resident ⟨hsec, .inl hb⟩ hx hle
  · intro addr haddr
    obtain ⟨size, hgranted⟩ := h.granted t addr haddr
    exact h.resident ⟨hsec, .inr haddr⟩ hgranted (Nat.le_refl addr)

end Main

/-- A session that loads Head in page 0, fills the page and turns to page 1. -/
def turnInSection : List (Label (Fin 2)) :=
  [.protect 0, .loadHead 0, .alloc (.fetchAdd 0 448), .alloc (.fetchAdd 0 448),
   .alloc (.checkFree 0), .alloc (.zero 0), .alloc (.publish 0)]

theorem section_addresses_resident_turnInSection :
    ∃ s : State (Fin 2), 64 ∈ s.loaded 0 ∧ (64, 448) ∈ s.alloc.granted ∧ 576 ∈ s.allocated 0 ∧
      Resident (Geometry.twoPages 9 (by decide)) s 64 ∧
      Resident (Geometry.twoPages 9 (by decide)) s 576 := by
  obtain ⟨s, hs, hp⟩ := Lts.exists_steps (next (Geometry.twoPages 9 (by decide))) SafeStep
    initial turnInSection
    (fun s => s.sections 0 = some 0 ∧ 64 ∈ s.loaded 0 ∧ (64, 448) ∈ s.alloc.granted ∧
      576 ∈ s.allocated 0) (by decide +kernel)
  simp only [decide_eq_true_eq] at hp
  obtain ⟨hsec, hloaded, hgranted, hallocated⟩ := hp
  have hres := section_addresses_resident hs (t := 0) (by rw [hsec]; simp)
  exact ⟨s, hloaded, hgranted, hallocated, hres.1 64 hloaded (64, 448) hgranted (Nat.le_refl _),
    hres.2 576 hallocated⟩

/-! ## Section 7: The page field

    When the page field overflows, the tail goes back to page 0 and pages that
    nobody has closed are turned a second time.
-/

namespace PageField

/-- Page 1 gets two records, and thread 1 enters a section and loads Head. -/
def fillAndLoad : List (Label ℕ) :=
  [.alloc (.fetchAdd 0 448), .alloc (.fetchAdd 0 64), .alloc (.checkFree 0), .alloc (.zero 0),
   .alloc (.publish 0), .step 0, .step 0, .alloc (.fetchAdd 0 384), .protect 1, .loadHead 1]

theorem fillAndLoad_run :
    ∃ s, Lts.Steps (next wide) OffsetFits initial fillAndLoad s ∧ AtEnd 1 s ∧
      s.sections 1 = some 0 ∧ 64 ∈ s.loaded 1 ∧ (640, 384) ∈ s.alloc.granted ∧
      s.born 640 = 1 ∧ s.turns = 1 := by
  obtain ⟨s, hs, hp⟩ := Lts.exists_steps (next wide) OffsetFits initial fillAndLoad
    (fun s => (unpack s.alloc.tail = (1, 512) ∧ s.alloc.pc 0 = .idle ∧ s.pc 0 = .idle) ∧
      s.sections 1 = some 0 ∧ 64 ∈ s.loaded 1 ∧ (640, 384) ∈ s.alloc.granted ∧
      s.born 640 = 1 ∧ s.turns = 1) (by decide +kernel)
  simp only [decide_eq_true_eq] at hp
  obtain ⟨⟨htail, halloc, hidle⟩, hrest⟩ := hp
  exact ⟨s, hs, ⟨htail, halloc, hidle⟩, hrest⟩

/-- No step of these runs starts an action. -/
theorem epochSafe_of_mem {l : Label ℕ} (h : l ∈ fillAndLoad ∨ l ∈ turn) (s : State ℕ) :
    EpochSafe s l := by
  simp only [fillAndLoad, turn, List.mem_cons, List.not_mem_nil, or_false] at h
  rcases h with h | h <;> casesm* _ ∨ _ <;> subst_vars <;> trivial

end PageField

open PageField in
/-- The record at 640 is above the Head value thread 1 has loaded in its
    section; `2 ^ 32` pages later its page is zeroed for page 1 again. -/
theorem page_recycled_in_section :
    ∃ (ls : List (Label ℕ)) (s : State ℕ),
      Lts.Steps (next wide) (fun s l => OffsetFits s l ∧ EpochSafe s l) initial ls s ∧
      s.sections 1 ≠ none ∧ 64 ∈ s.loaded 1 ∧ (640, 384) ∈ s.alloc.granted ∧
      ¬ Resident wide s 640 := by
  obtain ⟨s₀, hfill, hend₀, hsec, hloaded, hgranted, hborn, hturns⟩ := fillAndLoad_run
  obtain ⟨ls, s₁, hrun, hls, hend₁, hkeep₁⟩ := turn_pages (2 ^ 32 - 2) hend₀ (by norm_num)
  -- out of the last page of the field
  obtain ⟨s₂, hlast, hturned₂⟩ := turn_wide hend₁ (by norm_num)
  have hwrap : unpack (pack (1 + (2 ^ 32 - 2) + 1) 512) = (0, 512) := by decide +kernel
  have hend₂ : AtEnd 0 s₂ := ⟨by rw [hturned₂.tail, hwrap], hturned₂.allocIdle, hturned₂.idle⟩
  have hkeep₂ : Keeps 1 s₀ s₂ := hkeep₁.trans (hturned₂.keeps (by norm_num))
  -- and once more into page 1
  obtain ⟨s₃, hagain, hturned₃⟩ := turn_wide hend₂ (by norm_num)
  refine ⟨_, s₃, (((hfill.append hrun).append hlast).append hagain).imp ?_, ?_, ?_, ?_, ?_⟩
  · intro l hl s hok
    refine ⟨hok, epochSafe_of_mem ?_ s⟩
    simp only [List.mem_append] at hl
    rcases hl with ((hl | hl) | hl) | hl
    · exact .inl hl
    · exact .inr (hls l hl)
    · exact .inr hl
    · exact .inr hl
  · rw [hturned₃.sections, hkeep₂.sections, hsec]
    simp
  · rw [hturned₃.loaded, hkeep₂.loaded]
    exact hloaded
  · rw [hturned₃.granted]
    exact List.mem_cons_of_mem _ (hkeep₂.granted _ hgranted)
  · intro hres
    have hpage : wide.pageOf 640 = 1 := by decide +kernel
    have haddr : (0 + 1) <<< wide.pageBits ||| FIRST_VALID_ADDRESS = 576 := by decide +kernel
    have hborn₃ : s₃.born 640 = 1 := by
      rw [hturned₃.born, haddr, Function.update_of_ne (by norm_num), hkeep₂.born 640 (by norm_num),
        hborn]
    unfold Resident at hres
    rw [hpage, hborn₃, hturned₃.slots, Function.update_self] at hres
    have hlate : s₀.turns ≤ s₂.turns := hkeep₂.turns
    simp only [Prod.mk.injEq] at hres
    omega

end Tsavorite.LogProtocol
