import MiniGarnet.Tsavorite.Log

/-! # The page machinery

    Flushes, page turns and boundary shifts move record images between
    memory and the device without looking at them.  So what they preserve
    is stated for any assignment `image` of contents to addresses, compared
    up to a function `f` of the record images, and for any set `cut` of
    addresses at which a flush may stop.
-/

namespace Tsavorite

/-! ## Section 1: The invariant -/

namespace HybridLog

def tailPage (log : HybridLog) : ℕ := (unpack log.tail).1

def tailOffset (log : HybridLog) : ℕ := (unpack log.tail).2

/-- The position of the tail word. -/
def tailPos (g : Geometry) (log : HybridLog) : ℕ := log.tailPage * g.pageSize + log.tailOffset

end HybridLog

/-- What a registered action may do when it runs. -/
def DrainAction.Within (log : HybridLog) (cut : ℕ → Prop) : DrainAction → Prop
  | .markReadOnly newRo => newRo ≤ log.readOnly ∧ cut newRo
  | .closePages newHead => newHead ≤ log.head
  | .observe => True

/-- Every address in memory, and every flushed one on the device, reads as its image. -/
structure PagesInv (g : Geometry) (f : Record → Record) (log : HybridLog)
    (image : ℕ → Option Record) (cut : ℕ → Prop) : Prop where
  word : log.tail < 2 ^ 64
  offset_ge : FIRST_VALID_ADDRESS ≤ log.tailOffset
  offset_le : log.tailOffset ≤ g.pageSize
  begin_eq : log.beginAddress = FIRST_VALID_ADDRESS
  closed_page : log.closedUntil % g.pageSize = 0
  window : log.tailPage * g.pageSize < log.closedUntil + g.bufferSize * g.pageSize
  closed_le : log.closedUntil ≤ log.head
  first_le : FIRST_VALID_ADDRESS ≤ log.head
  head_le : log.head ≤ log.flushedUntil
  flushed_le : log.flushedUntil ≤ log.safeReadOnly
  safeReadOnly_le : log.safeReadOnly ≤ log.readOnly
  readOnly_le : log.readOnly ≤ log.tailPos g
  above : ∀ a, log.tailPos g ≤ a → image a = none
  page_cut : ∀ p, cut (p * g.pageSize)
  flushed_cut : cut log.flushedUntil
  readOnly_cut : cut log.readOnly
  memory : ∀ a, log.head ≤ a → a < (log.tailPage + 1) * g.pageSize →
    (log.slotAt g a).map f = image a
  disk : ∀ a, FIRST_VALID_ADDRESS ≤ a → a < log.flushedUntil →
    (log.device.data a).map f = image a
  device_len : log.flushedUntil = FIRST_VALID_ADDRESS ∨ log.flushedUntil ≤ log.device.len
  pending : ∀ x ∈ log.epoch.drain, x.2.Within log cut

theorem pagesInv_new (g : Geometry) (f : Record → Record) (device : Device) {cut : ℕ → Prop}
    (hcut : ∀ b, cut b) : PagesInv g f (HybridLog.new device) (fun _ => none) cut := by
  have hw : unpack (pack 0 FIRST_VALID_ADDRESS) = (0, FIRST_VALID_ADDRESS) := by decide +kernel
  have hps := g.pageSize_ge
  have hps' := g.pageSize_le
  have hbs := g.two_le_bufferSize
  have hpos : 0 < g.bufferSize * g.pageSize := Nat.mul_pos (by omega) g.pageSize_pos
  have hfv : FIRST_VALID_ADDRESS = 64 := rfl
  constructor
  case word => exact (by decide +kernel : pack 0 FIRST_VALID_ADDRESS < 2 ^ 64)
  case page_cut => exact fun p => hcut _
  case flushed_cut => exact hcut _
  case readOnly_cut => exact hcut _
  case above => intro a _; rfl
  case memory => intro a _ _; rfl
  case disk =>
    intro a h h'
    simp only [HybridLog.new] at h'
    omega
  all_goals
    simp [HybridLog.new, HybridLog.tailOffset, HybridLog.tailPage, HybridLog.tailPos, hw,
      LightEpoch.new]
  all_goals omega

/-! ## Section 2: Memory pages -/

section Memory

variable {g : Geometry} {log : HybridLog} {f : Record → Record}
  {image : ℕ → Option Record} {cut : ℕ → Prop}

/-- The pages from `closedUntil` up to the tail page have slots of their own. -/
theorem PagesInv.slot_ne (h : PagesInv g f log image cut) {p q : ℕ}
    (hp : log.closedUntil ≤ p * g.pageSize) (hq : q ≤ log.tailPage) (hlt : p < q) :
    g.slotOf p ≠ g.slotOf q := by
  refine g.slotOf_ne hlt ?_
  have hq' : q * g.pageSize ≤ log.tailPage * g.pageSize := Nat.mul_le_mul_right _ hq
  have hw := h.window
  have : q * g.pageSize < (p + g.bufferSize) * g.pageSize := by rw [Nat.add_mul]; omega
  exact Nat.lt_of_mul_lt_mul_right this

/-- The page of an in-memory address is not closed. -/
theorem PagesInv.closed_le_page (h : PagesInv g f log image cut) {a : ℕ} (ha : log.head ≤ a) :
    log.closedUntil ≤ g.pageOf a * g.pageSize := by
  have hle : log.closedUntil ≤ a := le_trans h.closed_le ha
  have hdvd : log.closedUntil / g.pageSize * g.pageSize = log.closedUntil :=
    Nat.div_mul_cancel (Nat.dvd_of_mod_eq_zero h.closed_page)
  rw [g.pageOf_eq, ← hdvd]
  exact Nat.mul_le_mul_right _ (Nat.div_le_div_right hle)

theorem PagesInv.page_le_tailPage {a : ℕ} (ha : a < (log.tailPage + 1) * g.pageSize) :
    g.pageOf a ≤ log.tailPage := by
  rw [g.pageOf_eq]
  exact Nat.lt_succ_iff.mp (Nat.div_lt_of_lt_mul (by rwa [mul_comm] at ha))

/-- Distinct in-memory addresses have distinct places in the page buffer. -/
theorem PagesInv.place_ne (h : PagesInv g f log image cut) {a b : ℕ}
    (ha : log.head ≤ a) (ha' : a < (log.tailPage + 1) * g.pageSize)
    (hb : log.head ≤ b) (hb' : b < (log.tailPage + 1) * g.pageSize) (hne : a ≠ b) :
    ¬ (g.slotOf (g.pageOf a) = g.slotOf (g.pageOf b) ∧ g.pageOffset a = g.pageOffset b) := by
  rintro ⟨hslot, hoff⟩
  rcases Nat.lt_trichotomy (g.pageOf a) (g.pageOf b) with hlt | heq | hgt
  · exact h.slot_ne (h.closed_le_page ha) (PagesInv.page_le_tailPage hb') hlt hslot
  · apply hne
    rw [← g.join_split a, ← g.join_split b, heq, hoff]
  · exact h.slot_ne (h.closed_le_page hb) (PagesInv.page_le_tailPage ha') hgt hslot.symm

theorem slotAt_setRecord_self (a : ℕ) (r : Record) :
    (log.setRecord g a r).slotAt g a = some r := by
  simp [HybridLog.slotAt, HybridLog.setRecord]

theorem PagesInv.slotAt_setRecord (h : PagesInv g f log image cut) {a b : ℕ} (r : Record)
    (ha : log.head ≤ a) (ha' : a < (log.tailPage + 1) * g.pageSize)
    (hb : log.head ≤ b) (hb' : b < (log.tailPage + 1) * g.pageSize) :
    (log.setRecord g a r).slotAt g b = if b = a then some r else log.slotAt g b := by
  by_cases hba : b = a
  · subst hba; simp [slotAt_setRecord_self]
  · rw [if_neg hba]
    simp only [HybridLog.slotAt, HybridLog.setRecord]
    rw [if_neg (h.place_ne hb hb' ha ha' hba)]

/-- A record written above the read-only region. -/
theorem PagesInv.setRecord (h : PagesInv g f log image cut) {a : ℕ} {r : Record}
    {image' : ℕ → Option Record} {cut' : ℕ → Prop} (hro : log.readOnly ≤ a)
    (hlt : a < log.tailPos g) (himage : ∀ b, image' b = if b = a then some (f r) else image b)
    (hcut : ∀ b, b ≤ a → cut b → cut' b) (hpage : ∀ p, cut' (p * g.pageSize)) :
    PagesInv g f (log.setRecord g a r) image' cut' := by
  have hflushed : log.flushedUntil ≤ a :=
    le_trans h.flushed_le (le_trans h.safeReadOnly_le hro)
  have hhead : log.head ≤ a := le_trans h.head_le hflushed
  have htop : a < (log.tailPage + 1) * g.pageSize := by
    have := h.offset_le
    rw [Nat.add_mul, one_mul]
    unfold HybridLog.tailPos at hlt
    omega
  exact { h with
    above := by
      intro b hb
      have hb' : log.tailPos g ≤ b := hb
      rw [himage, if_neg (by omega)]
      exact h.above b hb'
    page_cut := hpage
    flushed_cut := hcut _ hflushed h.flushed_cut
    readOnly_cut := hcut _ hro h.readOnly_cut
    memory := by
      intro b hb hb'
      rw [h.slotAt_setRecord r hhead htop hb hb', himage]
      split
      · rfl
      · exact h.memory b hb hb'
    disk := by
      intro b hb hb'
      have hlt' : b < log.flushedUntil := hb'
      rw [himage, if_neg (by omega)]
      exact h.disk b hb hb'
    pending := by
      intro x hx
      have hwithin := h.pending x hx
      cases hx2 : x.2 with
      | markReadOnly u =>
        rw [hx2] at hwithin
        exact ⟨hwithin.1, hcut _ (le_trans hwithin.1 hro) hwithin.2⟩
      | closePages u =>
        rw [hx2] at hwithin
        exact hwithin
      | observe => trivial }

end Memory

/-! ## Section 3: Flushing -/

/-- What the flush loop writes: every byte of `[addr, until)` from its page. -/
theorem flushLoop_spec (g : Geometry) (pages : ℕ → ℕ → Option Record) (until_ : ℕ) :
    ∀ (n addr : ℕ) (d : Device), until_ ≤ addr + n →
      (∀ a, (HybridLog.flushLoop g pages until_ n addr d).data a =
        if addr ≤ a ∧ a < until_ then pages (g.slotOf (g.pageOf a)) (g.pageOffset a)
        else d.data a) ∧
      d.len ≤ (HybridLog.flushLoop g pages until_ n addr d).len ∧
      (addr < until_ → until_ ≤ (HybridLog.flushLoop g pages until_ n addr d).len) := by
  intro n
  induction n with
  | zero =>
    intro addr d hn
    refine ⟨fun a => ?_, le_refl _, by omega⟩
    rw [if_neg (by omega)]
    rfl
  | succ n ih =>
    intro addr d hn
    unfold HybridLog.flushLoop
    by_cases hlt : addr < until_
    swap
    · refine ⟨fun a => ?_, ?_, by omega⟩
      · rw [if_neg hlt, if_neg (by omega)]
      · rw [if_neg hlt]
    · have hstart : g.pageOf addr <<< g.pageBits = g.pageOf addr * g.pageSize :=
        Nat.shiftLeft_eq _ _
      have hsplit := g.join_split addr
      have hoff := g.pageOffset_lt addr
      simp only [if_pos hlt, hstart]
      generalize hend : min until_ (g.pageOf addr * g.pageSize + g.pageSize) = e
      have hea : addr < e := by omega
      have heu : e ≤ until_ := by omega
      have hep : e ≤ g.pageOf addr * g.pageSize + g.pageSize := by omega
      have hsum : g.pageOf addr * g.pageSize + (e - g.pageOf addr * g.pageSize) = e := by omega
      have hlen : e - g.pageOf addr * g.pageSize - (addr - g.pageOf addr * g.pageSize) = e - addr := by
        omega
      rw [hsum, hlen]
      obtain ⟨hdata, hle, hreach⟩ := ih e (d.writeAt addr (e - addr) fun i =>
        pages (g.slotOf (g.pageOf addr)) (addr - g.pageOf addr * g.pageSize + i)) (by omega)
      refine ⟨fun a => ?_, ?_, fun _ => ?_⟩
      · rw [hdata a]
        by_cases hin : e ≤ a ∧ a < until_
        · rw [if_pos hin, if_pos (by omega)]
        · rw [if_neg hin]
          simp only [Device.writeAt]
          by_cases hchunk : addr ≤ a ∧ a < until_
          · -- Inside the chunk of this page: page and offset of `a` are those of the copy.
            rw [if_pos (by omega), if_pos hchunk]
            have hoffa : a - g.pageOf addr * g.pageSize < g.pageSize := by omega
            have hjoin : a = g.pageOf addr * g.pageSize + (a - g.pageOf addr * g.pageSize) := by
              omega
            have hpa : g.pageOf a = g.pageOf addr := by
              rw [hjoin]; exact g.pageOf_join hoffa
            have hoa : g.pageOffset a = a - g.pageOf addr * g.pageSize := by
              conv_lhs => rw [hjoin]
              exact g.pageOffset_join hoffa
            rw [hpa, hoa]
            congr 1
            omega
          · rw [if_neg (by omega), if_neg hchunk]
      · refine le_trans ?_ hle
        exact le_max_left _ _
      · by_cases hmore : e < until_
        · exact hreach hmore
        · refine le_trans ?_ hle
          have : addr + (e - addr) = e := by omega
          simp only [Device.writeAt, this]
          omega

/-! ## Section 4: Drain actions -/

theorem DrainAction.Within.mono {log log' : HybridLog} {cut : ℕ → Prop} {a : DrainAction}
    (h : a.Within log cut) (hro : log.readOnly ≤ log'.readOnly) (hhead : log.head ≤ log'.head) :
    a.Within log' cut := by
  cases a with
  | markReadOnly newRo => exact ⟨le_trans h.1 hro, h.2⟩
  | closePages newHead => exact le_trans (show newHead ≤ log.head from h) hhead
  | observe => trivial

/-- What running registered actions leaves alone. -/
structure Drained (log log' : HybridLog) : Prop where
  tail : log'.tail = log.tail
  pages : log'.pages = log.pages
  head : log'.head = log.head
  readOnly : log'.readOnly = log.readOnly
  flushed : log.flushedUntil ≤ log'.flushedUntil
  closed : log.closedUntil ≤ log'.closedUntil
  safeReadOnly : log.safeReadOnly ≤ log'.safeReadOnly
  table : log'.epoch.table = log.epoch.table

theorem Drained.refl (log : HybridLog) : Drained log log :=
  ⟨rfl, rfl, rfl, rfl, le_refl _, le_refl _, le_refl _, rfl⟩

theorem Drained.trans {a b c : HybridLog} (h : Drained a b) (h' : Drained b c) : Drained a c :=
  ⟨h'.tail.trans h.tail, h'.pages.trans h.pages, h'.head.trans h.head,
    h'.readOnly.trans h.readOnly, le_trans h.flushed h'.flushed, le_trans h.closed h'.closed,
    le_trans h.safeReadOnly h'.safeReadOnly, h'.table.trans h.table⟩

theorem flushUntil_drained (g : Geometry) (log : HybridLog) (u : ℕ) :
    Drained log (log.flushUntil g u) := by
  unfold HybridLog.flushUntil
  split
  · exact Drained.refl log
  · exact ⟨rfl, rfl, rfl, rfl, le_max_left _ _, le_refl _, le_refl _, rfl⟩

/-- `on_pages_closed` moves `closedUntil` by whole pages, as far as `newHead` allows. -/
theorem closeLoop_spec (g : Geometry) (newHead : ℕ) :
    ∀ (n closed : ℕ), newHead < closed + n →
      closed ≤ HybridLog.closeLoop g newHead n closed ∧
      (HybridLog.closeLoop g newHead n closed) % g.pageSize = closed % g.pageSize ∧
      HybridLog.closeLoop g newHead n closed ≤ max closed newHead ∧
      newHead < HybridLog.closeLoop g newHead n closed + g.pageSize := by
  intro n
  induction n with
  | zero => intro closed hn; exact ⟨le_refl _, rfl, le_max_left _ _, by
      have := g.pageSize_pos; simp only [HybridLog.closeLoop]; omega⟩
  | succ n ih =>
    intro closed hn
    have hps := g.pageSize_pos
    simp only [HybridLog.closeLoop]
    split
    · next hlt => exact ⟨le_refl _, rfl, le_max_left _ _, hlt⟩
    · next hge =>
      obtain ⟨h₁, h₂, h₃, h₄⟩ := ih (closed + g.pageSize) (by omega)
      exact ⟨by omega, by rw [h₂, Nat.add_mod_right], by omega, h₄⟩

theorem runAction_drained (g : Geometry) (log : HybridLog) (a : DrainAction) :
    Drained log (log.runAction g a) := by
  cases a with
  | markReadOnly r =>
    have hmark : Drained log { log with safeReadOnly := max log.safeReadOnly r } :=
      ⟨rfl, rfl, rfl, rfl, le_refl _, le_refl _, le_max_left _ _, rfl⟩
    exact hmark.trans (flushUntil_drained g _ r)
  | closePages hd =>
    exact ⟨rfl, rfl, rfl, rfl, le_refl _,
      (closeLoop_spec g hd (hd + 1) log.closedUntil (by omega)).1, le_refl _, rfl⟩
  | observe => exact ⟨rfl, rfl, rfl, rfl, le_refl _, le_refl _, le_refl _, rfl⟩

theorem runActions_drained (g : Geometry) (log : HybridLog) (as : List DrainAction) :
    Drained log (as.foldl (fun l a => l.runAction g a) log) := by
  induction as generalizing log with
  | nil => exact Drained.refl log
  | cons a as ih => exact (runAction_drained g log a).trans (ih _)

theorem drain_drained (g : Geometry) (log : HybridLog) : Drained log (log.drain g) := by
  have hdr := runActions_drained g { log with epoch := log.epoch.takeReady.2 } log.epoch.takeReady.1
  exact ⟨hdr.tail, hdr.pages, hdr.head, hdr.readOnly, hdr.flushed, hdr.closed, hdr.safeReadOnly,
    hdr.table⟩

theorem bumpCurrentEpoch_drained (g : Geometry) (log : HybridLog) :
    Drained log (log.bumpCurrentEpoch g) := by
  have hdr := drain_drained g { log with epoch := log.epoch.bump }
  exact ⟨hdr.tail, hdr.pages, hdr.head, hdr.readOnly, hdr.flushed, hdr.closed, hdr.safeReadOnly,
    hdr.table⟩

theorem bumpWithAction_drained (g : Geometry) (log : HybridLog) (a : DrainAction) :
    Drained log (log.bumpWithAction g a) := by
  have hdr := drain_drained g { log with epoch := log.epoch.register a }
  exact ⟨hdr.tail, hdr.pages, hdr.head, hdr.readOnly, hdr.flushed, hdr.closed, hdr.safeReadOnly,
    hdr.table⟩

section Actions

variable {g : Geometry} {log : HybridLog} {f : Record → Record}
  {image : ℕ → Option Record} {cut : ℕ → Prop}

theorem PagesInv.flushUntil (h : PagesInv g f log image cut) {u : ℕ} (hu : u ≤ log.safeReadOnly)
    (hcut : cut u) : PagesInv g f (log.flushUntil g u) image cut := by
  unfold HybridLog.flushUntil
  split
  · exact h
  · next hgt =>
    have hlt : log.flushedUntil < u := by omega
    have hmax : max log.flushedUntil u = u := by omega
    obtain ⟨hdata, hle, hreach⟩ := flushLoop_spec g log.pages u
      (u - log.flushedUntil) log.flushedUntil log.device (by omega)
    have hro := h.safeReadOnly_le
    have hrt := h.readOnly_le
    have hoff := h.offset_le
    have htp : log.tailPos g ≤ (log.tailPage + 1) * g.pageSize := by
      rw [Nat.add_mul, one_mul]
      unfold HybridLog.tailPos
      omega
    exact { h with
      head_le := le_trans h.head_le (by simp only [hmax]; omega)
      flushed_le := by simp only [hmax]; exact hu
      flushed_cut := by simp only [hmax]; exact hcut
      disk := by
        intro a ha ha'
        simp only [hmax] at ha'
        simp only [hdata a]
        split
        · next hin =>
          exact h.memory a (le_trans h.head_le hin.1) (by omega)
        · exact h.disk a ha (by omega)
      device_len := .inr (by simp only [hmax]; exact hreach hlt)
      pending := fun x hx => (h.pending x hx).mono (le_refl _) (le_refl _) }

theorem PagesInv.onPagesClosed (h : PagesInv g f log image cut) {newHead : ℕ} (hle : newHead ≤ log.head) :
    PagesInv g f (log.onPagesClosed g newHead) image cut := by
  obtain ⟨hge, hmod, hmax, -⟩ := closeLoop_spec g newHead (newHead + 1) log.closedUntil (by omega)
  have hw := h.window
  have hcl := h.closed_le
  exact { h with
    closed_page := hmod.trans h.closed_page
    window := lt_of_lt_of_le hw (Nat.add_le_add_right hge _)
    closed_le := le_trans hmax (max_le hcl hle)
    pending := fun x hx => (h.pending x hx).mono (le_refl _) (le_refl _) }

theorem PagesInv.runAction (h : PagesInv g f log image cut) {a : DrainAction} (ha : a.Within log cut) :
    PagesInv g f (log.runAction g a) image cut := by
  cases a with
  | markReadOnly r =>
    have hmark : PagesInv g f { log with safeReadOnly := max log.safeReadOnly r } image cut := { h with
      flushed_le := le_trans h.flushed_le (le_max_left _ _)
      safeReadOnly_le := max_le h.safeReadOnly_le ha.1
      pending := fun x hx => (h.pending x hx).mono (le_refl _) (le_refl _) }
    exact hmark.flushUntil (le_max_right _ _) ha.2
  | closePages hd => exact h.onPagesClosed ha
  | observe =>
    exact { h with pending := fun x hx => (h.pending x hx).mono (le_refl _) (le_refl _) }

theorem PagesInv.runActions (h : PagesInv g f log image cut) {as : List DrainAction}
    (has : ∀ a ∈ as, a.Within log cut) :
    PagesInv g f (as.foldl (fun l a => l.runAction g a) log) image cut := by
  induction as generalizing log with
  | nil => exact h
  | cons a as ih =>
    have hdr := runAction_drained g log a
    exact ih (h.runAction (has a (by simp))) fun b hb =>
      (has b (by simp [hb])).mono (le_of_eq hdr.readOnly.symm) (le_of_eq hdr.head.symm)

theorem PagesInv.setEpoch (h : PagesInv g f log image cut) {e : LightEpoch DrainAction}
    (he : ∀ x ∈ e.drain, x.2.Within log cut) : PagesInv g f { log with epoch := e } image cut :=
  { h with pending := fun x hx => (he x hx).mono (le_refl _) (le_refl _) }

theorem PagesInv.drain (h : PagesInv g f log image cut) : PagesInv g f (log.drain g) image cut := by
  have hrest : PagesInv g f { log with epoch := log.epoch.takeReady.2 } image cut := by
    refine h.setEpoch fun x hx => h.pending x ?_
    simp only [LightEpoch.takeReady] at hx
    exact List.mem_of_mem_filter hx
  have hready : ∀ a ∈ log.epoch.takeReady.1,
      a.Within { log with epoch := log.epoch.takeReady.2 } cut := by
    intro a ha
    simp only [LightEpoch.takeReady, List.mem_map] at ha
    obtain ⟨x, hx, rfl⟩ := ha
    exact (h.pending x (List.mem_of_mem_filter hx)).mono (le_refl _) (le_refl _)
  exact hrest.runActions hready

theorem PagesInv.bumpCurrentEpoch (h : PagesInv g f log image cut) :
    PagesInv g f (log.bumpCurrentEpoch g) image cut :=
  (h.setEpoch (e := log.epoch.bump) h.pending).drain

theorem PagesInv.bumpWithAction (h : PagesInv g f log image cut) {a : DrainAction} (ha : a.Within log cut) :
    PagesInv g f (log.bumpWithAction g a) image cut := by
  have hreg : ∀ x ∈ (log.epoch.register a).drain, x.2.Within log cut := by
    intro x hx
    simp only [LightEpoch.register, List.mem_append, List.mem_singleton] at hx
    rcases hx with hx | rfl
    · exact h.pending x hx
    · exact ha
  exact (h.setEpoch hreg).drain

end Actions

/-! ## Section 5: Boundary shifts -/

/-- What boundary shifts leave alone. -/
structure Shifted (log log' : HybridLog) : Prop where
  tail : log'.tail = log.tail
  pages : log'.pages = log.pages
  head : log.head ≤ log'.head
  readOnly : log.readOnly ≤ log'.readOnly
  flushed : log.flushedUntil ≤ log'.flushedUntil
  closed : log.closedUntil ≤ log'.closedUntil
  safeReadOnly : log.safeReadOnly ≤ log'.safeReadOnly
  table : log'.epoch.table = log.epoch.table

theorem Shifted.refl (log : HybridLog) : Shifted log log :=
  ⟨rfl, rfl, le_refl _, le_refl _, le_refl _, le_refl _, le_refl _, rfl⟩

theorem Shifted.trans {a b c : HybridLog} (h : Shifted a b) (h' : Shifted b c) : Shifted a c :=
  ⟨h'.tail.trans h.tail, h'.pages.trans h.pages, le_trans h.head h'.head,
    le_trans h.readOnly h'.readOnly, le_trans h.flushed h'.flushed, le_trans h.closed h'.closed,
    le_trans h.safeReadOnly h'.safeReadOnly, h'.table.trans h.table⟩

theorem Drained.shifted {log log' : HybridLog} (h : Drained log log') : Shifted log log' :=
  ⟨h.tail, h.pages, le_of_eq h.head.symm, le_of_eq h.readOnly.symm, h.flushed, h.closed,
    h.safeReadOnly, h.table⟩

theorem desiredHead_eq (g : Geometry) (next : ℕ) :
    ∃ k ≤ next, HybridLog.desiredHead g next = k * g.pageSize := by
  have := g.two_le_bufferSize
  exact ⟨next + 2 - g.bufferSize, by omega, rfl⟩

theorem desiredRo_eq (g : Geometry) (next : ℕ) :
    ∃ k ≤ next, HybridLog.desiredRo g next = k * g.pageSize := by
  have := g.two_le_bufferSize
  have := g.one_le_mutablePages
  refine ⟨max (next + 1 - g.mutablePages) (next + 2 - g.bufferSize), by omega, ?_⟩
  exact Nat.mul_max_mul_right _ _ _

theorem shiftReadOnlyAddress_shifted (g : Geometry) (log : HybridLog) (u : ℕ) :
    Shifted log (log.shiftReadOnlyAddress g u) ∧
      (log.shiftReadOnlyAddress g u).readOnly = max log.readOnly u := by
  unfold HybridLog.shiftReadOnlyAddress
  split
  · next hle => exact ⟨Shifted.refl log, (max_eq_left hle).symm⟩
  · next hgt =>
    have hlt : log.readOnly < u := by omega
    have hsh : Shifted log { log with readOnly := u } :=
      ⟨rfl, rfl, le_refl _, le_of_lt hlt, le_refl _, le_refl _, le_refl _, rfl⟩
    have hdr := bumpWithAction_drained g { log with readOnly := u } (.markReadOnly u)
    exact ⟨hsh.trans hdr.shifted, hdr.readOnly.trans (max_eq_right (le_of_lt hlt)).symm⟩

theorem shiftHeadAddress_shifted (g : Geometry) (log : HybridLog) (desired : ℕ) :
    Shifted log (log.shiftHeadAddress g desired) ∧
      (log.shiftHeadAddress g desired).readOnly = log.readOnly ∧
      min desired log.flushedUntil ≤ (log.shiftHeadAddress g desired).head := by
  unfold HybridLog.shiftHeadAddress
  simp only
  split
  · next hle => exact ⟨Shifted.refl log, rfl, hle⟩
  · next hgt =>
    have hlt : log.head < min desired log.flushedUntil := by omega
    have hsh : Shifted log { log with head := min desired log.flushedUntil } :=
      ⟨rfl, rfl, le_of_lt hlt, le_refl _, le_refl _, le_refl _, le_refl _, rfl⟩
    have hdr := bumpWithAction_drained g { log with head := min desired log.flushedUntil }
      (.closePages (min desired log.flushedUntil))
    exact ⟨hsh.trans hdr.shifted, hdr.readOnly, le_of_eq hdr.head.symm⟩

/-- How far a page turn moves the boundaries. -/
theorem issueShiftAddresses_shifted (g : Geometry) (log : HybridLog) (next : ℕ) :
    Shifted log (log.issueShiftAddresses g next) ∧
      (log.issueShiftAddresses g next).readOnly = max log.readOnly (HybridLog.desiredRo g next) ∧
      min (HybridLog.desiredHead g next) log.flushedUntil ≤
        (log.issueShiftAddresses g next).head := by
  have hstep : ∃ log₁, (if log.readOnly < HybridLog.desiredRo g next then
        log.shiftReadOnlyAddress g (HybridLog.desiredRo g next) else log) = log₁ ∧
      Shifted log log₁ ∧ log₁.readOnly = max log.readOnly (HybridLog.desiredRo g next) := by
    split
    · exact ⟨_, rfl, shiftReadOnlyAddress_shifted g log _⟩
    · next hge => exact ⟨_, rfl, Shifted.refl log, (max_eq_left (by omega)).symm⟩
  obtain ⟨log₁, heq, hsh₁, hro₁⟩ := hstep
  unfold HybridLog.issueShiftAddresses
  simp only [heq]
  split
  · obtain ⟨hsh₂, hro₂, hhead⟩ := shiftHeadAddress_shifted g log₁ (HybridLog.desiredHead g next)
    refine ⟨hsh₁.trans hsh₂, hro₂.trans hro₁, le_trans ?_ hhead⟩
    have := hsh₁.flushed
    omega
  · exact ⟨hsh₁, hro₁, by omega⟩

section Shifts

variable {g : Geometry} {log : HybridLog} {f : Record → Record}
  {image : ℕ → Option Record} {cut : ℕ → Prop}

theorem PagesInv.shiftReadOnlyAddress (h : PagesInv g f log image cut) {u : ℕ} (hu : u ≤ log.tailPos g)
    (hcut : cut u) : PagesInv g f (log.shiftReadOnlyAddress g u) image cut := by
  unfold HybridLog.shiftReadOnlyAddress
  split
  · exact h
  · next hgt =>
    have hlt : log.readOnly < u := by omega
    have hpub : PagesInv g f { log with readOnly := u } image cut := { h with
      safeReadOnly_le := le_trans h.safeReadOnly_le (le_of_lt hlt)
      readOnly_le := hu
      readOnly_cut := hcut
      pending := fun x hx => (h.pending x hx).mono (le_of_lt hlt) (le_refl _) }
    exact hpub.bumpWithAction (a := .markReadOnly u) ⟨le_refl _, hcut⟩

theorem PagesInv.shiftHeadAddress (h : PagesInv g f log image cut) (desired : ℕ) :
    PagesInv g f (log.shiftHeadAddress g desired) image cut := by
  unfold HybridLog.shiftHeadAddress
  simp only
  split
  · exact h
  · next hgt =>
    have hlt : log.head < min desired log.flushedUntil := by omega
    have hpub : PagesInv g f { log with head := min desired log.flushedUntil } image cut := { h with
      closed_le := le_trans h.closed_le (le_of_lt hlt)
      first_le := le_trans h.first_le (le_of_lt hlt)
      head_le := min_le_right _ _
      memory := fun a ha ha' => h.memory a (le_trans (le_of_lt hlt) ha) ha'
      pending := fun x hx => (h.pending x hx).mono (le_refl _) (le_of_lt hlt) }
    exact hpub.bumpWithAction (a := .closePages (min desired log.flushedUntil)) (le_refl _)

/-- A page turn moves the boundaries up to the start of the next page at most. -/
theorem desiredRo_le (g : Geometry) (next : ℕ) : HybridLog.desiredRo g next ≤ next * g.pageSize := by
  obtain ⟨k, hk, hro⟩ := desiredRo_eq g next
  rw [hro]
  exact Nat.mul_le_mul_right _ hk

theorem PagesInv.desiredRo_cut (h : PagesInv g f log image cut) (next : ℕ) :
    cut (HybridLog.desiredRo g next) := by
  obtain ⟨k, -, hro⟩ := desiredRo_eq g next
  rw [hro]
  exact h.page_cut k

theorem PagesInv.issueShiftAddresses (h : PagesInv g f log image cut) (next : ℕ)
    (hnext : next * g.pageSize ≤ log.tailPos g) :
    PagesInv g f (log.issueShiftAddresses g next) image cut := by
  have hle := desiredRo_le g next
  have hstep : PagesInv g f (if log.readOnly < HybridLog.desiredRo g next then
      log.shiftReadOnlyAddress g (HybridLog.desiredRo g next) else log) image cut := by
    split
    · exact h.shiftReadOnlyAddress (by omega) (h.desiredRo_cut next)
    · exact h
  unfold HybridLog.issueShiftAddresses
  generalize (if log.readOnly < HybridLog.desiredRo g next then
    log.shiftReadOnlyAddress g (HybridLog.desiredRo g next) else log) = log₁ at hstep
  simp only
  split
  · exact hstep.shiftHeadAddress _
  · exact hstep

end Shifts

end Tsavorite
