import MiniGarnet.Tsavorite.Pages

/-! # Page turns

    A boundary that has been published is followed up by a registered
    action, and an allocation that does not fit opens the next page once its
    slot is free.  Neither looks at the records.
-/

namespace Tsavorite

/-! ## Section 1: Outstanding consequences

    A published boundary is followed up by a registered action.  `Due` says that no
    follow-up is ever lost; once no thread is protected, one bump runs them all. -/

structure Due (g : Geometry) (log : HybridLog) : Prop where
  readOnly : log.flushedUntil = log.readOnly ∨
    ∃ e, (e, DrainAction.markReadOnly log.readOnly) ∈ log.epoch.drain
  head : log.head < log.closedUntil + g.pageSize ∨
    ∃ e, (e, DrainAction.closePages log.head) ∈ log.epoch.drain
  past : ∀ x ∈ log.epoch.drain, x.1 < log.epoch.current

/-- Nothing is outstanding. -/
structure Settled (g : Geometry) (log : HybridLog) : Prop where
  readOnly : log.flushedUntil = log.readOnly
  head : log.head < log.closedUntil + g.pageSize

theorem due_new (g : Geometry) (device : Device) : Due g (HybridLog.new device) := by
  have hps := g.pageSize_ge
  refine ⟨.inl rfl, .inl ?_, by simp [HybridLog.new, LightEpoch.new]⟩
  have hfv : FIRST_VALID_ADDRESS = 64 := rfl
  simp only [HybridLog.new]
  omega

section Outstanding

variable {g : Geometry} {log : HybridLog} {f : Record → Record}
  {image : ℕ → Option Record} {cut : ℕ → Prop}

/-- What the actions of a drain have seen to. -/
theorem PagesInv.runActions_done (h : PagesInv g f log image cut) {as : List DrainAction}
    (has : ∀ a ∈ as, a.Within log cut) :
    let log' := as.foldl (fun l a => l.runAction g a) log
    (∀ r, .markReadOnly r ∈ as → r ≤ log'.flushedUntil) ∧
      (∀ hd, .closePages hd ∈ as → hd < log'.closedUntil + g.pageSize) ∧
      log'.epoch = log.epoch := by
  induction as generalizing log with
  | nil => simp
  | cons a as ih =>
    have hinv := h.runAction (has a (by simp))
    have hdr := runAction_drained g log a
    have has' : ∀ b ∈ as, b.Within (log.runAction g a) cut := fun b hb =>
      (has b (by simp [hb])).mono (le_of_eq hdr.readOnly.symm) (le_of_eq hdr.head.symm)
    obtain ⟨hro, hcl, hep⟩ := ih hinv has'
    have hdr' := runActions_drained g (log.runAction g a) as
    have hflush := hdr'.flushed
    have hclose := hdr'.closed
    refine ⟨fun r hr => ?_, fun hd hhd => ?_, hep.trans ?_⟩
    · rcases List.mem_cons.mp hr with rfl | hr
      · refine le_trans ?_ hflush
        simp only [HybridLog.runAction, HybridLog.onPagesMarkedReadOnly, HybridLog.flushUntil]
        split
        · assumption
        · exact le_max_right _ _
      · exact hro r hr
    · rcases List.mem_cons.mp hhd with rfl | hhd
      · have hspec := (closeLoop_spec g hd (hd + 1) log.closedUntil (by omega)).2.2.2
        have hle : HybridLog.closeLoop g hd (hd + 1) log.closedUntil ≤ _ := hclose
        simp only [List.foldl_cons]
        omega
      · exact hcl hd hhd
    · cases a with
      | markReadOnly r =>
        simp only [HybridLog.runAction, HybridLog.onPagesMarkedReadOnly, HybridLog.flushUntil]
        split <;> rfl
      | closePages hd => rfl
      | observe => rfl

/-- A drain leaves exactly the actions that are not safe yet, and has run the others. -/
theorem PagesInv.drain_done (h : PagesInv g f log image cut) :
    (∀ x ∈ log.epoch.drain, x.1 ≤ log.epoch.computeSafeEpoch →
      (∀ r, x.2 = .markReadOnly r → r ≤ (log.drain g).flushedUntil) ∧
      (∀ hd, x.2 = .closePages hd → hd < (log.drain g).closedUntil + g.pageSize)) ∧
      (log.drain g).epoch = log.epoch.takeReady.2 := by
  have hrest : PagesInv g f { log with epoch := log.epoch.takeReady.2 } image cut := by
    refine h.setEpoch fun x hx => h.pending x ?_
    simp only [LightEpoch.takeReady] at hx
    exact List.mem_of_mem_filter hx
  have hready : ∀ a ∈ log.epoch.takeReady.1,
      a.Within { log with epoch := log.epoch.takeReady.2 } cut := by
    intro a ha
    simp only [LightEpoch.takeReady, List.mem_map] at ha
    obtain ⟨x, hx, rfl⟩ := ha
    exact (h.pending x (List.mem_of_mem_filter hx)).mono (le_refl _) (le_refl _)
  obtain ⟨hro, hcl, hep⟩ := hrest.runActions_done hready
  refine ⟨fun x hx hsafe => ?_, hep⟩
  have hmem : x.2 ∈ log.epoch.takeReady.1 := by
    simp only [LightEpoch.takeReady, List.mem_map]
    exact ⟨x, List.mem_filter.mpr ⟨hx, by simpa using hsafe⟩, rfl⟩
  exact ⟨fun r hr => hro r (hr ▸ hmem), fun hd hhd => hcl hd (hhd ▸ hmem)⟩

theorem Due.drain (hd : Due g log) (h : PagesInv g f log image cut) : Due g (log.drain g) := by
  obtain ⟨hrun, hep⟩ := h.drain_done
  have hinv := h.drain
  have hdr := drain_drained g log
  have hcap : (log.drain g).flushedUntil ≤ log.readOnly := by
    rw [← hdr.readOnly]
    exact le_trans hinv.flushed_le hinv.safeReadOnly_le
  have hstay : ∀ x ∈ log.epoch.drain, ¬ x.1 ≤ log.epoch.computeSafeEpoch →
      x ∈ (log.drain g).epoch.drain := by
    intro x hx hnot
    rw [hep]
    simp only [LightEpoch.takeReady]
    exact List.mem_filter.mpr ⟨hx, by simpa using hnot⟩
  refine ⟨?_, ?_, ?_⟩
  · rw [hdr.readOnly]
    rcases hd.readOnly with heq | ⟨e, he⟩
    · exact .inl (Nat.le_antisymm hcap (by rw [← heq]; exact hdr.flushed))
    · by_cases hsafe : e ≤ log.epoch.computeSafeEpoch
      · exact .inl (Nat.le_antisymm hcap ((hrun _ he hsafe).1 _ rfl))
      · exact .inr ⟨e, hstay _ he hsafe⟩
  · rw [hdr.head]
    rcases hd.head with hlt | ⟨e, he⟩
    · left
      have := hdr.closed
      omega
    · by_cases hsafe : e ≤ log.epoch.computeSafeEpoch
      · exact .inl ((hrun _ he hsafe).2 _ rfl)
      · exact .inr ⟨e, hstay _ he hsafe⟩
  · intro x hx
    rw [hep] at hx ⊢
    exact hd.past x (List.mem_of_mem_filter hx)

theorem Due.bumpCurrentEpoch (hd : Due g log) (h : PagesInv g f log image cut) :
    Due g (log.bumpCurrentEpoch g) := by
  have hbumped : Due g { log with epoch := log.epoch.bump } :=
    ⟨hd.readOnly, hd.head, fun x hx => Nat.lt_succ_of_lt (hd.past x hx)⟩
  exact hbumped.drain (h.setEpoch (e := log.epoch.bump) h.pending)

/-- One bump with nobody protected settles everything. -/
theorem Due.settled_bump (hd : Due g log) (h : PagesInv g f log image cut)
    (htable : log.epoch.table = []) : Settled g (log.bumpCurrentEpoch g) := by
  have hinv : PagesInv g f { log with epoch := log.epoch.bump } image cut :=
    h.setEpoch (e := log.epoch.bump) h.pending
  obtain ⟨hrun, -⟩ := hinv.drain_done
  have hinv' := hinv.drain
  have hdr := drain_drained g { log with epoch := log.epoch.bump }
  have hsafe : ∀ x ∈ log.epoch.drain, x.1 ≤ log.epoch.bump.computeSafeEpoch := by
    intro x hx
    have := hd.past x hx
    simp only [LightEpoch.computeSafeEpoch, LightEpoch.bump, htable, List.foldl_nil]
    omega
  constructor
  · refine Nat.le_antisymm (le_trans hinv'.flushed_le hinv'.safeReadOnly_le) ?_
    refine le_trans (le_of_eq hdr.readOnly) ?_
    rcases hd.readOnly with heq | ⟨e, he⟩
    · exact le_trans (le_of_eq heq.symm) hdr.flushed
    · exact (hrun _ he (hsafe _ he)).1 _ rfl
  · refine lt_of_le_of_lt (le_of_eq hdr.head) ?_
    rcases hd.head with hlt | ⟨e, he⟩
    · exact lt_of_lt_of_le hlt (Nat.add_le_add_right hdr.closed _)
    · exact (hrun _ he (hsafe _ he)).2 _ rfl

theorem Settled.bump (hs : Settled g log) (h : PagesInv g f log image cut) :
    Settled g (log.bumpCurrentEpoch g) := by
  have hinv := h.bumpCurrentEpoch
  have hdr := bumpCurrentEpoch_drained g log
  constructor
  · refine Nat.le_antisymm (le_trans hinv.flushed_le hinv.safeReadOnly_le) ?_
    rw [hdr.readOnly, ← hs.readOnly]
    exact hdr.flushed
  · rw [hdr.head]
    exact lt_of_lt_of_le hs.head (Nat.add_le_add_right hdr.closed _)

/-- A registered action does not outrun the bump that registers it. -/
theorem Due.bumpWithAction {a : DrainAction}
    (hd : Due g { log with epoch := log.epoch.register a }) (h : PagesInv g f log image cut)
    (ha : a.Within log cut) : Due g (log.bumpWithAction g a) := by
  refine hd.drain (h.setEpoch ?_)
  intro x hx
  simp only [LightEpoch.register, List.mem_append, List.mem_singleton] at hx
  rcases hx with hx | rfl
  · exact h.pending x hx
  · exact ha

theorem register_past {e : LightEpoch DrainAction} {a : DrainAction}
    (h : ∀ x ∈ e.drain, x.1 < e.current) : ∀ x ∈ (e.register a).drain, x.1 < (e.register a).current := by
  intro x hx
  simp only [LightEpoch.register, List.mem_append, List.mem_singleton] at hx ⊢
  rcases hx with hx | rfl
  · exact Nat.lt_succ_of_lt (h x hx)
  · exact Nat.lt_succ_self _

theorem Due.shiftReadOnlyAddress (hd : Due g log) (h : PagesInv g f log image cut) {u : ℕ}
    (hu : u ≤ log.tailPos g) (hcut : cut u) : Due g (log.shiftReadOnlyAddress g u) := by
  unfold HybridLog.shiftReadOnlyAddress
  split
  · exact hd
  · next hgt =>
    have hlt : log.readOnly < u := by omega
    have hpub : PagesInv g f { log with readOnly := u } image cut := { h with
      safeReadOnly_le := le_trans h.safeReadOnly_le (le_of_lt hlt)
      readOnly_le := hu
      readOnly_cut := hcut
      pending := fun x hx => (h.pending x hx).mono (le_of_lt hlt) (le_refl _) }
    refine Due.bumpWithAction ⟨.inr ⟨log.epoch.current, ?_⟩, ?_, register_past hd.past⟩ hpub
      ⟨le_refl _, hcut⟩
    · simp [LightEpoch.register]
    · refine hd.head.imp id fun hpend => ?_
      obtain ⟨e, he⟩ := hpend
      refine ⟨e, ?_⟩
      simp only [LightEpoch.register]
      exact List.mem_append_left _ he

theorem Due.shiftHeadAddress (hd : Due g log) (h : PagesInv g f log image cut) (desired : ℕ) :
    Due g (log.shiftHeadAddress g desired) := by
  unfold HybridLog.shiftHeadAddress
  simp only
  split
  · exact hd
  · next hgt =>
    have hlt : log.head < min desired log.flushedUntil := by omega
    have hpub : PagesInv g f { log with head := min desired log.flushedUntil } image cut := { h with
      closed_le := le_trans h.closed_le (le_of_lt hlt)
      first_le := le_trans h.first_le (le_of_lt hlt)
      head_le := min_le_right _ _
      memory := fun a ha ha' => h.memory a (le_trans (le_of_lt hlt) ha) ha'
      pending := fun x hx => (h.pending x hx).mono (le_refl _) (le_of_lt hlt) }
    refine Due.bumpWithAction ⟨?_, .inr ⟨log.epoch.current, ?_⟩, register_past hd.past⟩ hpub
      (le_refl _)
    · refine hd.readOnly.imp id fun ⟨e, he⟩ => ⟨e, ?_⟩
      simp only [LightEpoch.register]
      exact List.mem_append_left _ he
    · simp [LightEpoch.register]

theorem PagesInv.issueShiftAddresses_due (h : PagesInv g f log image cut) (hd : Due g log) {next : ℕ}
    (hnext : next * g.pageSize ≤ log.tailPos g) : Due g (log.issueShiftAddresses g next) := by
  have hle := desiredRo_le g next
  have hstep : ∃ log₁, (if log.readOnly < HybridLog.desiredRo g next then
        log.shiftReadOnlyAddress g (HybridLog.desiredRo g next) else log) = log₁ ∧
      PagesInv g f log₁ image cut ∧ Due g log₁ := by
    split
    · exact ⟨_, rfl, h.shiftReadOnlyAddress (by omega) (h.desiredRo_cut next),
        hd.shiftReadOnlyAddress h (by omega) (h.desiredRo_cut next)⟩
    · exact ⟨_, rfl, h, hd⟩
  obtain ⟨log₁, heq, hinv₁, hd₁⟩ := hstep
  unfold HybridLog.issueShiftAddresses
  simp only [heq]
  split
  · exact hd₁.shiftHeadAddress hinv₁ _
  · exact hd₁

end Outstanding

/-! ## Section 2: Allocation -/

/-- What every allocation attempt leaves alone. -/
structure Kept (g : Geometry) (log log' : HybridLog) : Prop where
  head : log.head ≤ log'.head
  readOnly : log.readOnly ≤ log'.readOnly
  flushed : log.flushedUntil ≤ log'.flushedUntil
  tailPos : log.tailPos g ≤ log'.tailPos g
  tailPage : log.tailPage ≤ log'.tailPage
  /-- No page that was in memory before has lost its slot. -/
  window : log'.tailPage * g.pageSize < log.closedUntil + g.bufferSize * g.pageSize
  memory : ∀ a, log'.head ≤ a → a < (log.tailPage + 1) * g.pageSize →
    log'.slotAt g a = log.slotAt g a
  table : log'.epoch.table = log.epoch.table
  due : Due g log → Due g log'

/-- `[addr, addr + size)` has been granted. -/
structure Granted (g : Geometry) (log log' : HybridLog) (addr size : ℕ) : Prop where
  from_tail : log.tailPos g ≤ addr
  stop : addr + size = log'.tailPos g
  header : FIRST_VALID_ADDRESS ≤ g.pageOffset addr
  fits : g.pageOffset addr + size ≤ g.pageSize
  isMutable : log'.readOnly ≤ addr
  placed : g.pageOffset addr = FIRST_VALID_ADDRESS ∨ addr = log.tailPos g

section Allocation

variable {g : Geometry} {log : HybridLog} {f : Record → Record}
  {image : ℕ → Option Record} {cut : ℕ → Prop}

theorem PagesInv.tailPage_lt (h : PagesInv g f log image cut) : log.tailPage < 2 ^ 32 := by
  have := h.word
  simp only [HybridLog.tailPage, unpack_eq]
  omega

/-- Setting the tail word to a position inside the same page. -/
theorem PagesInv.setTail (h : PagesInv g f log image cut) {w off : ℕ} (hw : w < 2 ^ 64)
    (hun : unpack w = (log.tailPage, off)) (hge : log.tailOffset ≤ off) (hle : off ≤ g.pageSize) :
    PagesInv g f { log with tail := w } image cut ∧
      HybridLog.tailPos g { log with tail := w } = log.tailPage * g.pageSize + off := by
  have hpage : HybridLog.tailPage { log with tail := w } = log.tailPage := by
    simp only [HybridLog.tailPage, hun]
  have hoff : HybridLog.tailOffset { log with tail := w } = off := by
    simp only [HybridLog.tailOffset, hun]
  have hpos : HybridLog.tailPos g { log with tail := w } = log.tailPage * g.pageSize + off := by
    rw [HybridLog.tailPos, hpage, hoff]
  have hmono : log.tailPos g ≤ log.tailPage * g.pageSize + off := by
    unfold HybridLog.tailPos; omega
  refine ⟨{ h with
    word := hw
    offset_ge := by rw [hoff]; exact le_trans h.offset_ge hge
    offset_le := by rw [hoff]; exact hle
    window := by rw [hpage]; exact h.window
    readOnly_le := by rw [hpos]; exact le_trans h.readOnly_le hmono
    above := fun a ha => h.above a (by rw [hpos] at ha; exact le_trans hmono ha)
    memory := by rw [hpage]; exact h.memory
    pending := fun x hx => (h.pending x hx).mono (le_refl _) (le_refl _) }, hpos⟩

/-- The slot of the page that is opened belongs to a closed page or to none. -/
theorem PagesInv.openPage (h : PagesInv g f log image cut) (hnext : log.tailPage + 1 < 2 ^ 32) {size : ℕ}
    (hfit : size + PAGE_HEADER_SIZE ≤ g.pageSize)
    (hfree : g.pageIsFree log.closedUntil (log.tailPage + 1) = true) :
    let log' := { log with
      tail := pack (log.tailPage + 1) (FIRST_VALID_ADDRESS + size)
      pages := HybridLog.zeroed g log.pages (log.tailPage + 1) }
    PagesInv g f log' image cut ∧
      log'.tailPos g = (log.tailPage + 1) * g.pageSize + (FIRST_VALID_ADDRESS + size) ∧
      ∀ a, log.head ≤ a → a < (log.tailPage + 1) * g.pageSize →
        log'.slotAt g a = log.slotAt g a := by
  intro log'
  have hps := g.pageSize_le
  have hhdr : FIRST_VALID_ADDRESS = PAGE_HEADER_SIZE := rfl
  have hoff : FIRST_VALID_ADDRESS + size < 2 ^ 32 := by omega
  have htail : log'.tail = pack (log.tailPage + 1) (FIRST_VALID_ADDRESS + size) := rfl
  have hun : unpack log'.tail = (log.tailPage + 1, FIRST_VALID_ADDRESS + size) := by
    rw [htail]
    exact unpack_pack hnext hoff
  have hpage : log'.tailPage = log.tailPage + 1 := by simp only [HybridLog.tailPage, hun]
  have hoff' : log'.tailOffset = FIRST_VALID_ADDRESS + size := by
    simp only [HybridLog.tailOffset, hun]
  have hpos : log'.tailPos g =
      (log.tailPage + 1) * g.pageSize + (FIRST_VALID_ADDRESS + size) := by
    rw [HybridLog.tailPos, hpage, hoff']
  have hend : log.tailPos g ≤ (log.tailPage + 1) * g.pageSize := by
    have := h.offset_le
    rw [Nat.add_mul, one_mul]
    unfold HybridLog.tailPos
    omega
  have hwin := Geometry.window_of_free hfree
  have hslot : ∀ a, log.head ≤ a → a < (log.tailPage + 1) * g.pageSize →
      log'.slotAt g a = log.slotAt g a := by
    intro a ha ha'
    have hne : g.slotOf (g.pageOf a) ≠ g.slotOf (log.tailPage + 1) := by
      refine g.slotOf_ne (Nat.lt_succ_of_le (PagesInv.page_le_tailPage ha')) ?_
      have hcl := h.closed_le_page ha
      have : (log.tailPage + 1) * g.pageSize < (g.pageOf a + g.bufferSize) * g.pageSize := by
        rw [Nat.add_mul (g.pageOf a)]; omega
      exact Nat.lt_of_mul_lt_mul_right this
    simp only [HybridLog.slotAt, HybridLog.zeroed, log']
    rw [if_neg hne]
  refine ⟨{ h with
    word := by
      have := hnext
      rw [htail, pack_eq hnext hoff]
      omega
    offset_ge := by rw [hoff']; omega
    offset_le := by rw [hoff']; omega
    window := by rw [hpage]; exact hwin
    readOnly_le := by
      rw [hpos]
      exact le_trans h.readOnly_le (by omega)
    above := fun a ha => h.above a (by rw [hpos] at ha; omega)
    memory := by
      intro a ha ha'
      by_cases hold : a < (log.tailPage + 1) * g.pageSize
      · rw [hslot a ha hold]
        exact h.memory a ha hold
      · have hpa : g.pageOf a = log.tailPage + 1 := by
          rw [hpage] at ha'
          refine Nat.le_antisymm (by rw [← hpage]; exact PagesInv.page_le_tailPage (by
            rw [hpage]; exact ha')) ?_
          rw [g.pageOf_eq]
          exact (Nat.le_div_iff_mul_le g.pageSize_pos).mpr (Nat.not_lt.mp hold)
        rw [h.above a (by omega)]
        simp [HybridLog.slotAt, HybridLog.zeroed, hpa, log']
    pending := fun x hx => (h.pending x hx).mono (le_refl _) (le_refl _) }, hpos, hslot⟩

theorem Shifted.tailPos {log log' : HybridLog} (h : Shifted log log') :
    log'.tailPos g = log.tailPos g := by
  simp only [HybridLog.tailPos, HybridLog.tailPage, HybridLog.tailOffset, h.tail]

/-- The page of the tail word, from its position off the page end. -/
theorem PagesInv.tailPage_eq_of_pos (h : PagesInv g f log image cut) {page off : ℕ}
    (hpos : log.tailPos g = page * g.pageSize + off) (hge : FIRST_VALID_ADDRESS ≤ off)
    (hle : off ≤ g.pageSize) : log.tailPage = page := by
  have h₁ := h.offset_ge
  have h₂ := h.offset_le
  have hfv : FIRST_VALID_ADDRESS = 64 := rfl
  have hps := g.pageSize_ge
  unfold HybridLog.tailPos at hpos
  rcases Nat.lt_trichotomy log.tailPage page with hlt | heq | hgt
  · have := Nat.mul_le_mul_right g.pageSize hlt
    rw [Nat.succ_mul] at this
    omega
  · exact heq
  · have := Nat.mul_le_mul_right g.pageSize hgt
    rw [Nat.succ_mul] at this
    omega

/-- The page behind the tail was not free: the tail stands at the end of its page and the
    boundary shifts of the page turn have been issued. -/
def Refused (g : Geometry) (log log' : HybridLog) : Prop :=
  g.pageIsFree log.closedUntil (log.tailPage + 1) = false ∧
    log' = ({ log with tail := pack log.tailPage g.pageSize }).issueShiftAddresses g
      (log.tailPage + 1)

/-- A page turn that this allocation makes stays inside the page field of the tail word. -/
def HybridLog.TurnsInRange (g : Geometry) (log : HybridLog) (size : ℕ) : Prop :=
  g.pageSize < log.tailOffset + size → g.pageIsFree log.closedUntil (log.tailPage + 1) = true →
    log.tailPage + 1 < 2 ^ 32

instance (g : Geometry) (log : HybridLog) (size : ℕ) : Decidable (log.TurnsInRange g size) :=
  inferInstanceAs (Decidable (_ → _ → _))

/-- What a call of `try_allocate` comes to, if `P` is what it preserves. -/
inductive Allocated (g : Geometry) (log : HybridLog) (P : HybridLog → Prop) (size : ℕ) :
    AllocResult × HybridLog → Prop where
  | ok {addr : ℕ} {log' : HybridLog} : P log' → Kept g log log' →
      Granted g log log' addr size → log'.tailPage ≤ log.tailPage + 1 →
      Allocated g log P size (.ok addr, log')
  | retryLater {log' : HybridLog} : P log' → Kept g log log' → log'.tailPage = log.tailPage →
      log'.tailOffset = g.pageSize → Refused g log log' → Allocated g log P size (.retryLater, log')
  | tooLarge : g.pageSize < size + PAGE_HEADER_SIZE → Allocated g log P size (.tooLarge, log)

theorem PagesInv.tryAllocate (h : PagesInv g f log image cut) {size : ℕ}
    (hnext : log.TurnsInRange g size) (hsize : 0 < size) : Allocated g log (PagesInv g f · image cut) size (log.tryAllocate g size) := by
  have hps := g.pageSize_le
  have hge := h.offset_ge
  have hle := h.offset_le
  have hpage := h.tailPage_lt
  have hnextpage : (log.tailPage + 1) * g.pageSize = log.tailPage * g.pageSize + g.pageSize := by
    rw [Nat.add_mul, one_mul]
  have hun : unpack log.tail = (log.tailPage, log.tailOffset) := rfl
  have hhdr : FIRST_VALID_ADDRESS = PAGE_HEADER_SIZE := rfl
  unfold HybridLog.tryAllocate
  split
  · next hbig => exact .tooLarge hbig
  · next hsmall =>
    have hfit : size + PAGE_HEADER_SIZE ≤ g.pageSize := by omega
    simp only [hun]
    split
    · -- The record fits behind the tail.
      next hroom =>
      have hlt : log.tailOffset < g.pageSize := by omega
      have hadd : unpack (fetchAdd log.tail size) = (log.tailPage, log.tailOffset + size) := by
        rw [unpack_fetchAdd h.word (by rw [hun]; simp only; omega), hun]
      obtain ⟨hinv, hpos⟩ := h.setTail (w := fetchAdd log.tail size)
        (fetchAdd_lt _ _) hadd (by omega) hroom
      have haddr : log.tailPage <<< g.pageBits ||| log.tailOffset = log.tailPos g := g.join_eq hlt
      have hoff : g.pageOffset (log.tailPos g) = log.tailOffset := g.pageOffset_join hlt
      rw [haddr]
      have hsame : HybridLog.tailPage { log with tail := fetchAdd log.tail size } = log.tailPage := by
        simp only [HybridLog.tailPage, hadd]
      apply Allocated.ok
      · exact hinv
      · refine ⟨le_refl _, le_refl _, le_refl _, ?_, le_of_eq hsame.symm,
          by rw [hsame]; exact h.window, fun a _ _ => rfl, rfl,
          fun hd => ⟨hd.readOnly, hd.head, hd.past⟩⟩
        rw [hpos]
        unfold HybridLog.tailPos
        omega
      · refine ⟨le_refl _, ?_, by rw [hoff]; exact hge, by rw [hoff]; exact hroom, h.readOnly_le,
          .inr rfl⟩
        rw [hpos]
        unfold HybridLog.tailPos
        omega
      · omega
    · next hnoroom =>
      rw [if_neg (by omega)]
      split
      · -- The page is turned.
        next hfree =>
        simp only [HybridLog.zeroPage]
        obtain ⟨hinv, hpos, hmem⟩ := h.openPage (hnext (by omega) hfree) hfit hfree
        have hinv' := hinv.issueShiftAddresses (log.tailPage + 1) (by rw [hpos]; omega)
        obtain ⟨hsh, hro, -⟩ := issueShiftAddresses_shifted g _ (log.tailPage + 1)
        have hdes := desiredRo_le g (log.tailPage + 1)
        have haddr : (log.tailPage + 1) <<< g.pageBits ||| FIRST_VALID_ADDRESS =
            (log.tailPage + 1) * g.pageSize + FIRST_VALID_ADDRESS := g.join_eq g.header_lt_pageSize
        have hoff : g.pageOffset ((log.tailPage + 1) * g.pageSize + FIRST_VALID_ADDRESS) =
            FIRST_VALID_ADDRESS := g.pageOffset_join g.header_lt_pageSize
        have hrt := h.readOnly_le
        have htp : log.tailPos g ≤ (log.tailPage + 1) * g.pageSize := by
          unfold HybridLog.tailPos; omega
        rw [haddr]
        have hturned := hinv'.tailPage_eq_of_pos (by rw [hsh.tailPos, hpos]) (by omega) (by omega)
        apply Allocated.ok
        · exact hinv'
        · refine ⟨hsh.head, hsh.readOnly, hsh.flushed, by rw [hsh.tailPos, hpos]; omega, by omega,
            by rw [hturned]; exact Geometry.window_of_free hfree, ?_, hsh.table, fun hd =>
            hinv.issueShiftAddresses_due ⟨hd.readOnly, hd.head, hd.past⟩ (by rw [hpos]; omega)⟩
          intro a ha ha'
          rw [← hmem a (le_trans hsh.head ha) ha']
          simp only [HybridLog.slotAt, hsh.pages]
        · refine ⟨by omega, by rw [hsh.tailPos, hpos]; omega, by rw [hoff], by rw [hoff]; omega, ?_,
            .inl hoff⟩
          rw [hro]
          exact max_le (le_trans hrt (by omega)) (by omega)
        · omega
      · -- The next page is not free: the tail goes back to the page end.
        next hfree =>
        have hunp : unpack (pack log.tailPage g.pageSize) = (log.tailPage, g.pageSize) :=
          unpack_pack hpage (by omega)
        obtain ⟨hinv, hpos⟩ := h.setTail (w := pack log.tailPage g.pageSize)
          (by rw [pack_eq hpage (by omega)]; omega) hunp hle (le_refl _)
        have hinv' := hinv.issueShiftAddresses (log.tailPage + 1) (by rw [hpos]; omega)
        obtain ⟨hsh, -, -⟩ := issueShiftAddresses_shifted g
          { log with tail := pack log.tailPage g.pageSize } (log.tailPage + 1)
        have hsame : (HybridLog.issueShiftAddresses g { log with tail := pack log.tailPage g.pageSize }
            (log.tailPage + 1)).tailPage = log.tailPage := by
          rw [HybridLog.tailPage, hsh.tail, hunp]
        apply Allocated.retryLater
        · exact hinv'
        · refine ⟨hsh.head, hsh.readOnly, hsh.flushed, ?_, le_of_eq hsame.symm,
            by rw [hsame]; exact h.window, ?_, hsh.table, fun hd =>
            hinv.issueShiftAddresses_due ⟨hd.readOnly, hd.head, hd.past⟩ (by rw [hpos]; omega)⟩
          · rw [hsh.tailPos, hpos]
            unfold HybridLog.tailPos
            omega
          · intro a _ _
            simp only [HybridLog.slotAt, hsh.pages]
        · exact hsame
        · rw [HybridLog.tailOffset, hsh.tail, hunp]
        · exact ⟨by simpa using hfree, rfl⟩

theorem PagesInv.tryAllocateRetryNow (h : PagesInv g f log image cut)
    {size n : ℕ} (hnext : log.TurnsInRange g size) (hsize : 0 < size) : Allocated g log (PagesInv g f · image cut) size
      (log.tryAllocateRetryNow g (n + 1) size) := by
  have hspec := h.tryAllocate hnext hsize
  unfold HybridLog.tryAllocateRetryNow
  generalize log.tryAllocate g size = r at hspec
  cases hspec with
  | ok hinv hkept hgr hpage => exact .ok hinv hkept hgr hpage
  | retryLater hinv hkept hpage hoff href => exact .retryLater hinv hkept hpage hoff href
  | tooLarge hbig => exact .tooLarge hbig

end Allocation

end Tsavorite
