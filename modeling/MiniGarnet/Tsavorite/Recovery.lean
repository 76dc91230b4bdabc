import MiniGarnet.Tsavorite.OverflowArena
import MiniGarnet.Tsavorite.Scan

/-! # Recovery

    `recover` has nothing but the device: it walks the log up to the final
    address of the checkpoint and puts every valid record into an empty
    index, oldest first.  The links of the chains are the ones the sessions
    wrote before, so the index is right as soon as each entry holds the
    newest record of its slot.

    The walk may clear Sealed bits on the way and writes such pages back.
    That changes nothing a later recovery looks at, so `recover` can be cut
    off after any page and started anew.
-/

namespace Tsavorite

/-! ## Section 1: The cells below an address -/

/-- The cells that begin below `b`. -/
def below (b : ℕ) (cells : List Cell) : List Cell := cells.filter fun c => c.addr < b

section Below

variable {cells : List Cell} {c : Cell}

theorem mem_below {b : ℕ} : c ∈ below b cells ↔ c ∈ cells ∧ c.addr < b := by
  simp [below]

/-- Behind a cell there is one more. -/
theorem below_stop (hord : cells.Pairwise fun newer older => older.stop ≤ newer.addr)
    (hc : c ∈ cells) : below c.stop cells = c :: below c.addr cells := by
  induction cells with
  | nil => cases hc
  | cons d l ih =>
    obtain ⟨hd, hl⟩ := List.pairwise_cons.mp hord
    have hlt := c.addr_lt_stop
    by_cases hcl : c ∈ l
    · -- `d` begins behind `c`
      have hcd := hd c hcl
      have hleft : below c.stop (d :: l) = below c.stop l := by
        unfold below
        rw [List.filter_cons_of_neg (by simpa using hcd)]
      have hright : below c.addr (d :: l) = below c.addr l := by
        unfold below
        rw [List.filter_cons_of_neg (by simp only [decide_eq_true_eq]; omega)]
      rw [hleft, hright]
      exact ih hl hcl
    · obtain rfl : c = d := by
        rcases List.mem_cons.mp hc with heq | hmem
        · exact heq
        · exact absurd hmem hcl
      -- all the others end in front of `c`
      have hall : ∀ b, c.addr ≤ b → below b l = l := by
        intro b hb
        unfold below
        rw [List.filter_eq_self]
        intro e he
        have := hd e he
        have := e.addr_lt_stop
        simp only [decide_eq_true_eq]
        omega
      have hleft : below c.stop (c :: l) = c :: below c.stop l := by
        unfold below
        rw [List.filter_cons_of_pos (by simpa using hlt)]
      have hright : below c.addr (c :: l) = below c.addr l := by
        unfold below
        rw [List.filter_cons_of_neg (by simp)]
      rw [hleft, hright, hall c.stop hlt.le, hall c.addr le_rfl]

/-- No cell begins in between. -/
theorem below_congr {a b : ℕ} (hle : a ≤ b) (h : ∀ c ∈ cells, a ≤ c.addr → b ≤ c.addr) :
    below b cells = below a cells := by
  unfold below
  apply List.filter_congr
  intro c hc
  have := h c hc
  rw [decide_eq_decide]
  omega

theorem below_eq_nil {b : ℕ} (h : ∀ c ∈ cells, b ≤ c.addr) : below b cells = [] := by
  unfold below
  rw [List.filter_eq_nil_iff]
  intro c hc
  have := h c hc
  simp only [decide_eq_true_eq]
  omega

theorem below_eq_self {b : ℕ} (h : ∀ c ∈ cells, c.addr < b) : below b cells = cells := by
  unfold below
  rw [List.filter_eq_self]
  intro c hc
  simpa using h c hc

end Below

/-! ## Section 2: One record -/

/-- The slots that records belong to. -/
def cellSlots (mask : ℕ) (cells : List Cell) : Finset SlotRef :=
  (cells.map fun c => keySlot mask c.data.key).toFinset

/-- The index leads to the cells below `b`, and its arena of `len` buckets has room for all
    of them. -/
structure Indexed (mask len : ℕ) (cells : List Cell) (b : ℕ) (idx : HashIndex) : Prop where
  mask_eq : idx.mask = mask
  entries : ∀ s, idx.load s = some (headAddr (chain mask s (below b cells))) ∨
    idx.load s = none ∧ chain mask s (below b cells) = []
  arena : idx.ArenaInv
  within : idx.Within (cellSlots mask cells)
  len_eq : idx.overflowLen = len
  room : HashIndex.overflowNeed mask (cellSlots mask cells) ≤ len

section OneRecord

variable {mask len : ℕ} {cells : List Cell} {c : Cell} {b : ℕ} {idx : HashIndex}

theorem Indexed.clear (hmask : idx.mask = mask) (hb : ∀ c ∈ cells, b ≤ c.addr)
    (hlen : idx.overflowLen = len)
    (hroom : HashIndex.overflowNeed mask (cellSlots mask cells) ≤ len) :
    Indexed mask len cells b idx.clear where
  mask_eq := hmask
  entries := by
    intro s
    rw [below_eq_nil hb]
    exact .inr ⟨rfl, rfl⟩
  arena := HashIndex.ArenaInv.clear idx
  within := HashIndex.Within.clear idx _
  len_eq := hlen
  room := hroom

/-- The next cell is put in front of its chain. -/
theorem Indexed.insert (h : Indexed mask len cells c.addr idx)
    (hord : cells.Pairwise fun newer older => older.stop ≤ newer.addr) (hc : c ∈ cells)
    (hfirst : FIRST_VALID_ADDRESS ≤ c.addr) (htop : c.addr < 2 ^ 48) :
    ∃ idx' slot idx'', idx.findOrCreateTag (hash64 c.data.key) = some (idx', slot) ∧
      (idx'.load slot).getD 0 < c.addr ∧
      idx'.tryCas slot ((idx'.load slot).getD 0) c.addr = some idx'' ∧
      Indexed mask len cells c.stop idx'' := by
  have hkey : idx.slotOf (hash64 c.data.key) = keySlot mask c.data.key := by
    rw [HashIndex.slotOf_hash64, h.mask_eq]
  have hmem : idx.slotOf (hash64 c.data.key) ∈ cellSlots mask cells := by
    rw [hkey]
    exact List.mem_toFinset.mpr (List.mem_map_of_mem hc)
  obtain ⟨idx', hclaim⟩ := h.arena.findOrCreateTag_isSome h.within hmem (by
    rw [h.mask_eq, h.len_eq]
    exact h.room)
  obtain ⟨-, hmask, hload⟩ := HashIndex.findOrCreateTag_spec hclaim
  rw [hkey] at hclaim hload
  -- a claimed entry without records holds the address of an empty chain
  have hentry : idx'.load (keySlot mask c.data.key) =
      some (headAddr (chain mask (keySlot mask c.data.key) (below c.addr cells))) := by
    rw [hload _, if_pos rfl]
    rcases h.entries (keySlot mask c.data.key) with hsome | ⟨hnone, hnil⟩
    · rw [hsome]
      rfl
    · rw [hnone, hnil]
      rfl
  have hlt : headAddr (chain mask (keySlot mask c.data.key) (below c.addr cells)) < c.addr := by
    apply headAddr_lt
    · intro d hd
      exact (mem_below.mp (chain_subset mask _ _ d hd)).2
    · exact hfirst
  obtain ⟨idx'', hcas⟩ := HashIndex.tryCas_isSome c.addr hentry
  obtain ⟨hmask', hload'⟩ := HashIndex.tryCas_spec hcas
  have harena := h.arena.findOrCreateTag hclaim
  have harena' := harena.1.tryCas hcas
  have hwithin := (h.within.findOrCreateTag hmem hclaim).tryCas hcas
  refine ⟨idx', keySlot mask c.data.key, idx'', hclaim, ?_, ?_, ?_⟩
  · rw [hentry]
    exact hlt
  · rw [hentry]
    exact hcas
  · refine ⟨hmask'.trans (hmask.trans h.mask_eq), ?_, harena'.1, hwithin,
      harena'.2.trans (harena.2.trans h.len_eq), h.room⟩
    · intro s
      rw [below_stop hord hc, chain_cons, hload' s]
      by_cases hs : s = keySlot mask c.data.key
      · rw [if_pos hs, if_pos hs.symm, maskAddress_of_lt htop]
        exact .inl rfl
      · rw [if_neg hs, if_neg (Ne.symm hs), hload s, if_neg hs]
        exact h.entries s

/-- Two page buffers that recovery cannot tell apart. -/
def SameBytes (page page' : ℕ → Option Record) : Prop :=
  ∀ o, (page' o).map Record.strip = (page o).map Record.strip

theorem SameBytes.refl (page : ℕ → Option Record) : SameBytes page page := fun _ => rfl

theorem SameBytes.trans {page page' page'' : ℕ → Option Record} (h : SameBytes page page')
    (h' : SameBytes page' page'') : SameBytes page page'' := fun o => (h' o).trans (h o)

/-- Clearing a Sealed bit in the buffer. -/
theorem SameBytes.clearSealed {page : ℕ → Option Record} {off : ℕ} {r : Record}
    (hr : page off = some r) :
    SameBytes page fun o =>
      if o = off then some { r with info := r.info.clearSealed } else page o := by
  intro o
  by_cases ho : o = off
  · simp only [ho, if_true, hr]
    rfl
  · simp only [if_neg ho]

/-- What recovery makes of one record of a checkpoint that nobody overtook. -/
theorem recoverRecord_spec {info : CheckpointInfo} {rc : Recovery} {pageStart off : ℕ} {r : Record}
    (h : Indexed mask len cells c.addr rc.index)
    (hord : cells.Pairwise fun newer older => older.stop ≤ newer.addr) (hc : c ∈ cells)
    (hfirst : FIRST_VALID_ADDRESS ≤ c.addr) (htop : c.addr < 2 ^ 48)
    (hold : c.newVersion = true → c.addr < info.startAddress)
    (hat : pageStart + off = c.addr) (hbuf : rc.page off = some r) (hr : r.strip = c.image) :
    ∃ rc', recoverRecord info pageStart rc off r = some rc' ∧
      Indexed mask len cells c.stop rc'.index ∧ SameBytes rc.page rc'.page ∧
      (rc'.dirty = false → rc'.page = rc.page ∧ rc.dirty = false) := by
  have hvalid : r.info.isValid = true := congrArg (fun r => r.info.isValid) hr
  have hnew : r.info.inNewVersion = c.newVersion := congrArg (fun r => r.info.inNewVersion) hr
  have hkey : r.data.key = c.data.key := congrArg (fun r => r.data.key) hr
  have hkept : (r.info.inNewVersion && decide (info.startAddress ≤ c.addr)) = false := by
    rw [hnew, Bool.and_eq_false_iff, decide_eq_false_iff_not]
    cases hc : c.newVersion with
    | false => exact .inl rfl
    | true => exact .inr (Nat.not_le.mpr (hold hc))
  obtain ⟨idx', slot, idx'', hclaim, hlt, hcas, hindexed⟩ := h.insert hord hc hfirst htop
  unfold recoverRecord
  simp only [hat, hvalid, hkept, Bool.not_true, Bool.false_eq_true, if_false, hkey]
  by_cases hsealed : r.info.isSealed = true
  · simp only [hsealed, if_true, hclaim, Option.bind_some, if_pos hlt, hcas, Option.map_some]
    exact ⟨_, rfl, hindexed, SameBytes.clearSealed hbuf, nofun⟩
  · simp only [hsealed, Bool.false_eq_true, if_false, hclaim, Option.bind_some, if_pos hlt, hcas,
      Option.map_some]
    exact ⟨_, rfl, hindexed, SameBytes.refl _, fun hclean => ⟨rfl, hclean⟩⟩

end OneRecord

/-! ## Section 3: One page -/

/-- The cells are what a checkpoint with this metadata is about. -/
structure Folded (g : Geometry) (mask : ℕ) (info : CheckpointInfo) (cells : List Cell) : Prop where
  ordered : cells.Pairwise fun newer older => older.stop ≤ newer.addr
  packed : Packed g (imageAt cells)
  linked : ∀ s, Linked (chain mask s cells)
  begin_eq : info.beginAddress = FIRST_VALID_ADDRESS
  /-- Nobody was ahead of the checkpoint. -/
  old : ∀ c ∈ cells, c.newVersion = true → c.addr < info.startAddress
  /-- The final address is the end of the newest record, inside its page. -/
  final_le : ∀ c ∈ cells, c.stop ≤ info.finalAddress
  final_at : ∃ c ∈ cells, c.stop = info.finalAddress
  inside : info.finalAddress % g.pageSize ≠ 0
  page_lt : info.finalAddress / g.pageSize < 2 ^ 32
  space : (info.finalAddress / g.pageSize + 1) * g.pageSize ≤ 2 ^ 48

section OnePage

variable {g : Geometry} {mask len : ℕ} {info : CheckpointInfo} {cells : List Cell}

theorem Folded.inPage (h : Folded g mask info cells) {c : Cell} (hc : c ∈ cells) : c.InPage g := by
  have hin := h.packed.inPage _ _ (imageAt_of_mem h.ordered hc)
  rw [c.image_totalSize] at hin
  exact hin

theorem Folded.final_lt (h : Folded g mask info cells) : info.finalAddress < 2 ^ 48 := by
  have hspace := h.space
  rw [Nat.succ_mul] at hspace
  have hdiv := Nat.div_add_mod' info.finalAddress g.pageSize
  have hmod := Nat.mod_lt info.finalAddress g.pageSize_pos
  omega

/-- Nothing begins between two addresses. -/
theorem Indexed.advance {a b : ℕ} {idx : HashIndex} (h : Indexed mask len cells a idx) (hle : a ≤ b)
    (hnone : ∀ c ∈ cells, a ≤ c.addr → b ≤ c.addr) : Indexed mask len cells b idx := by
  refine ⟨h.mask_eq, ?_, h.arena, h.within, h.len_eq, h.room⟩
  intro s
  rw [below_congr hle hnone]
  exact h.entries s

/-- The walk over a page, from where it has got to. -/
theorem Folded.recoverPage (h : Folded g mask info cells) (p hi : ℕ) (hhi : hi ≤ g.pageSize)
    (hcut : ∀ c ∈ cells, c.addr < p * g.pageSize + hi → c.stop ≤ p * g.pageSize + hi) (n : ℕ)
    {off : ℕ} (hfuel : hi ≤ off + n) (rc : Recovery) (hoff : FIRST_VALID_ADDRESS ≤ off)
    (hb : Boundary g (imageAt cells) p off)
    (hread : ReadsAs Record.strip (imageAt cells) (p * g.pageSize) rc.page off hi)
    (hidx : Indexed mask len cells (p * g.pageSize + off) rc.index) :
    ∃ rc', Tsavorite.recoverPage info (p * g.pageSize) hi n off rc = some rc' ∧
      Indexed mask len cells (p * g.pageSize + max off hi) rc'.index ∧ SameBytes rc.page rc'.page ∧
      (rc'.dirty = false → rc'.page = rc.page ∧ rc.dirty = false) := by
  have hmin : MIN_DISK_READ = 24 := rfl
  have hsize : ∀ c ∈ cells, c.addr + MIN_DISK_READ ≤ c.stop := by
    intro c _
    have := c.data.totalSize_ge
    unfold Cell.stop
    exact Nat.add_le_add_left this _
  -- the walk ends where no other record begins
  have hstop : (∀ c ∈ cells, p * g.pageSize + off ≤ c.addr → p * g.pageSize + hi ≤ c.addr) →
      Indexed mask len cells (p * g.pageSize + max off hi) rc.index ∧ SameBytes rc.page rc.page ∧
        (rc.dirty = false → rc.page = rc.page ∧ rc.dirty = false) := by
    intro hnone
    refine ⟨hidx.advance (by omega) ?_, SameBytes.refl _, fun hclean => ⟨rfl, hclean⟩⟩
    intro c hc hle
    have := hnone c hc hle
    omega
  induction n generalizing off rc with
  | zero =>
    refine ⟨rc, rfl, hstop ?_⟩
    intro c _ hle
    omega
  | succ n ih =>
    unfold Tsavorite.recoverPage
    by_cases hroom : off + MIN_DISK_READ ≤ hi
    swap
    · rw [if_neg hroom]
      refine ⟨rc, rfl, hstop ?_⟩
      intro c hc hle
      by_contra hlt
      have := hcut c hc (by omega)
      have := hsize c hc
      omega
    rw [if_pos hroom]
    have hhere := hread off le_rfl (by omega)
    cases hbuf : rc.page off with
    | none =>
      rw [hbuf] at hhere
      have hnone : imageAt cells (p * g.pageSize + off) = none := hhere.symm
      refine ⟨rc, rfl, hstop ?_⟩
      intro c hc hle
      have := h.packed.nothing_after hoff hb hnone _ _ (imageAt_of_mem h.ordered hc) hle
      omega
    | some r =>
      rw [hbuf] at hhere
      obtain ⟨c, hc, haddr, himage⟩ := mem_of_imageAt hhere.symm
      have hzero : r.isZeroHeader = false := by
        by_contra hz
        have := c.image_header
        rw [himage, sameShape_strip.zero r (by simpa using hz)] at this
        cases this
      have hrsize : r.totalSize = c.data.totalSize := by
        rw [← c.image_totalSize, himage]
        rfl
      have hcstop : c.stop = p * g.pageSize + (off + r.totalSize) := by
        rw [Cell.stop, haddr, hrsize]
        omega
      have hfits := hcut c hc (by omega)
      have hctop : c.addr < 2 ^ 48 := by
        have := h.final_le c hc
        have := h.final_lt
        have := c.addr_lt_stop
        omega
      rw [← haddr] at hidx
      have hcfirst : FIRST_VALID_ADDRESS ≤ c.addr := by omega
      obtain ⟨rc₁, hrec, hidx₁, hsame₁, hclean₁⟩ := recoverRecord_spec hidx h.ordered hc hcfirst
        hctop (h.old c hc) haddr.symm hbuf himage.symm
      have hread₁ : ReadsAs Record.strip (imageAt cells) (p * g.pageSize) rc₁.page
          (off + r.totalSize) hi := by
        intro o hlo hlt
        rw [hsame₁ o]
        exact hread o (by omega) hlt
      have hb₁ : Boundary g (imageAt cells) p (off + r.totalSize) :=
        .inr ⟨_, _, imageAt_of_mem h.ordered hc, by rw [c.stop_eq, hcstop]⟩
      rw [hcstop] at hidx₁ hfits
      have hrge := r.totalSize_ge
      obtain ⟨rc', hrest, hidx', hsame', hclean'⟩ := ih (by omega) rc₁ (by omega) hb₁ hread₁ hidx₁ (by
        intro hnone
        refine ⟨hidx₁.advance (by omega) ?_, SameBytes.refl _, fun hclean => ⟨rfl, hclean⟩⟩
        intro d hd hle
        have := hnone d hd hle
        omega)
      refine ⟨rc', ?_, ?_, hsame₁.trans hsame', ?_⟩
      · simp only [Option.getD_some, hzero, Bool.false_eq_true, if_false]
        rw [if_neg (by omega), hrec]
        exact hrest
      · rw [show max off hi = max (off + r.totalSize) hi by omega]
        exact hidx'
      · intro hclean
        obtain ⟨hpage, hclean₂⟩ := hclean' hclean
        obtain ⟨hpage₁, hclean₃⟩ := hclean₁ hclean₂
        exact ⟨hpage.trans hpage₁, hclean₃⟩

end OnePage

/-! ## Section 4: All pages -/

/-- Up to the final address the device holds the cells. -/
structure OnDevice (info : CheckpointInfo) (cells : List Cell) (device : Device) : Prop where
  data : ∀ a, FIRST_VALID_ADDRESS ≤ a → a < info.finalAddress →
    (device.data a).map Record.strip = imageAt cells a
  len : info.finalAddress ≤ device.len

section AllPages

variable {g : Geometry} {mask len : ℕ} {info : CheckpointInfo} {cells : List Cell}

/-- A page written back is the same page. -/
theorem OnDevice.writeAt {device : Device} (h : OnDevice info cells device) {pageStart limit : ℕ}
    {page : ℕ → Option Record}
    (hsame : SameBytes (fun off => if off < limit then device.data (pageStart + off) else none)
      page) : OnDevice info cells (device.writeAt pageStart limit page) := by
  have hlen := h.len
  refine ⟨?_, ?_⟩
  · intro a hfirst hlt
    simp only [Device.writeAt]
    split
    · next hin =>
      have hpage := hsame (a - pageStart)
      simp only at hpage
      rw [if_pos (by omega), show pageStart + (a - pageStart) = a by omega] at hpage
      rw [hpage]
      exact h.data a hfirst hlt
    · exact h.data a hfirst hlt
  · simp only [Device.writeAt]
    omega

/-- The loop over the pages.  It can be left after any number of them. -/
theorem Folded.recoverPages (h : Folded g mask info cells) (n : ℕ) {p : ℕ} {store : Store}
    (hdev : OnDevice info cells store.log.device)
    (hidx : Indexed mask len cells (p * g.pageSize) store.index) :
    ∃ index device, Tsavorite.recoverPages g info n (p * g.pageSize) store =
        .ok { store with index := index, log := { store.log with device := device } } ∧
      OnDevice info cells device ∧ Indexed mask len cells ((p + n) * g.pageSize) index := by
  have hps := g.header_lt_pageSize
  have hpos := g.pageSize_pos
  induction n generalizing p store with
  | zero => exact ⟨store.index, store.log.device, rfl, hdev, hidx⟩
  | succ n ih =>
    unfold Tsavorite.recoverPages
    by_cases hlt : p * g.pageSize < info.finalAddress
    swap
    · -- all records have been seen
      rw [if_neg hlt]
      refine ⟨store.index, store.log.device, rfl, hdev, hidx.advance ?_ ?_⟩
      · exact Nat.mul_le_mul_right _ (by omega)
      · intro c hc hle
        have := h.final_le c hc
        have := c.addr_lt_stop
        omega
    rw [if_pos hlt]
    have hsucc : (p + 1) * g.pageSize = p * g.pageSize + g.pageSize := Nat.succ_mul _ _
    have hdiv : p * g.pageSize / g.pageSize = p := Nat.mul_div_cancel _ hpos
    have hoff : max (info.beginAddress - p * g.pageSize) PAGE_HEADER_SIZE = FIRST_VALID_ADDRESS := by
      have : PAGE_HEADER_SIZE = FIRST_VALID_ADDRESS := rfl
      rw [h.begin_eq]
      omega
    simp only [hdiv, hoff]
    generalize hlimit : min info.finalAddress (p * g.pageSize + g.pageSize) - p * g.pageSize = limit
    have hlimit' : p * g.pageSize + limit ≤ info.finalAddress := by omega
    have hlen := hdev.len
    obtain ⟨page, hbuf, hpage⟩ : ∃ page, store.log.readPagePrefixFromDisk g p limit = some page ∧
        page = fun off =>
          if off < limit then store.log.device.data (p * g.pageSize + off) else none := by
      refine ⟨_, ?_, rfl⟩
      unfold HybridLog.readPagePrefixFromDisk
      rw [if_neg (by omega), pageStart_eq, if_pos]
      simp only [Device.canRead, decide_eq_true_eq]
      omega
    -- no record lies across the end of the walk
    have hcut : ∀ c ∈ cells, c.addr < p * g.pageSize + limit →
        c.stop ≤ p * g.pageSize + limit := by
      intro c hc hclt
      have hfinal := h.final_le c hc
      have hpage := cut_of_page (fun d hd => h.inPage hd) (p + 1) c hc
      omega
    have hread : ReadsAs Record.strip (imageAt cells) (p * g.pageSize) page FIRST_VALID_ADDRESS
        limit := by
      intro off hlo hhi
      simp only [hpage, if_pos hhi]
      exact hdev.data _ (by omega) (by omega)
    have hbegin : Indexed mask len cells (p * g.pageSize + FIRST_VALID_ADDRESS) store.index := by
      refine hidx.advance (Nat.le_add_right _ _) ?_
      intro c hc hle
      by_contra hclt
      have := (h.inPage hc).1
      rw [pageOffset_of_mem hle (by omega)] at this
      omega
    obtain ⟨rc, hrc, hidx', hsame, hclean⟩ := h.recoverPage p limit (by omega) hcut limit
      (by omega) ⟨store.index, page, false⟩ le_rfl (.inl rfl) hread hbegin
    have hnext : Indexed mask len cells ((p + 1) * g.pageSize) rc.index := by
      refine hidx'.advance (by omega) ?_
      intro c hc hle
      have := h.final_le c hc
      have := c.addr_lt_stop
      omega
    have hdev' : OnDevice info cells (if rc.dirty = true then
        store.log.device.writeAt (p * g.pageSize) limit rc.page else store.log.device) := by
      split
      · exact hdev.writeAt (hpage ▸ hsame)
      · exact hdev
    rw [hbuf]
    simp only [hrc]
    rw [← hsucc]
    obtain ⟨index, device, hrest, hfinal⟩ := @ih (p + 1) { store with
      index := rc.index
      log := { store.log with device := if rc.dirty = true then
        store.log.device.writeAt (p * g.pageSize) limit rc.page else store.log.device } } hdev' hnext
    rw [show p + 1 + n = p + (n + 1) by omega] at hfinal
    exact ⟨index, device, hrest, hfinal⟩

end AllPages

/-! ## Section 5: Recovery -/

/-- `recover`, cut off after `n` pages. -/
def Store.recoverPrefix (g : Geometry) (info : CheckpointInfo) (n : ℕ) (store : Store) :
    RecoverResult :=
  recoverPages g info n (info.beginAddress / g.pageSize * g.pageSize) { store with
    index := store.index.clear
    log := store.log.recoverAddresses g info.beginAddress info.finalAddress
    systemState := ⟨.rest, info.version + 1⟩
    checkpointStartAddress := 2 ^ 64 - 1 }

theorem Store.recover_eq_recoverPrefix (g : Geometry) (info : CheckpointInfo) (store : Store) :
    store.recover g info = store.recoverPrefix g info (info.finalAddress / g.pageSize + 1) := rfl

/-- A store with nothing registered and an arena that is large enough. -/
structure Fresh (mask len : ℕ) (cells : List Cell) (store : Store) : Prop where
  mask_eq : store.index.mask = mask
  len_eq : store.index.overflowLen = len
  room : HashIndex.overflowNeed mask (cellSlots mask cells) ≤ len
  drain : store.log.epoch.drain = []

section Recover

variable {g : Geometry} {mask len : ℕ} {info : CheckpointInfo} {cells : List Cell} {store : Store}

/-- The final address lies behind the header of its page. -/
theorem Folded.final_offset (h : Folded g mask info cells) :
    FIRST_VALID_ADDRESS ≤ g.pageOffset info.finalAddress := by
  obtain ⟨c, hc, hstop⟩ := h.final_at
  obtain ⟨hfirst, hfits⟩ := h.inPage hc
  have hsplit := g.join_split c.addr
  have hin := h.inside
  have hpos := g.pageSize_pos
  rw [← g.pageOffset_eq] at hin
  have hfinal : info.finalAddress =
      g.pageOf c.addr * g.pageSize + (g.pageOffset c.addr + c.data.totalSize) := by
    rw [← hstop, Cell.stop]
    omega
  rcases Nat.lt_or_eq_of_le hfits with hlt | heq
  · rw [hfinal, g.pageOffset_join hlt]
    omega
  · -- the record would reach the end of the page
    exfalso
    apply hin
    rw [hfinal, heq, ← Nat.succ_mul, g.pageOffset_eq]
    exact Nat.mul_mod_left _ _

/-- The log that recovery starts from. -/
theorem Folded.logInv (h : Folded g mask info cells) {log : HybridLog}
    (hdrain : log.epoch.drain = []) (hdev : OnDevice info cells log.device) :
    LogInv g (log.recoverAddresses g info.beginAddress info.finalAddress) cells ∧
      Tiled g (log.recoverAddresses g info.beginAddress info.finalAddress) cells := by
  have hps := g.pageSize_pos
  have hps' := g.pageSize_le
  have hpage : g.pageOf info.finalAddress < 2 ^ 32 := by
    rw [g.pageOf_eq]
    exact h.page_lt
  have hoff : g.pageOffset info.finalAddress < 2 ^ 32 := by
    have := g.pageOffset_lt info.finalAddress
    omega
  have hword := unpack_pack hpage hoff
  have hsplit := g.join_split info.finalAddress
  have hlt := g.pageOffset_lt info.finalAddress
  have hfirst := h.final_offset
  have hlow : FIRST_VALID_ADDRESS ≤ info.finalAddress := by omega
  have htail : (log.recoverAddresses g info.beginAddress info.finalAddress).tail =
      pack (g.pageOf info.finalAddress) (g.pageOffset info.finalAddress) := rfl
  have htailPage : (log.recoverAddresses g info.beginAddress info.finalAddress).tailPage =
      g.pageOf info.finalAddress := by
    rw [HybridLog.tailPage, htail, hword]
  have htailOff : (log.recoverAddresses g info.beginAddress info.finalAddress).tailOffset =
      g.pageOffset info.finalAddress := by
    rw [HybridLog.tailOffset, htail, hword]
  have hpos : (log.recoverAddresses g info.beginAddress info.finalAddress).tailPos g =
      info.finalAddress := by
    rw [HybridLog.tailPos, htailPage, htailOff, hsplit]
  have hin : ∀ c ∈ cells, c.InPage g := fun c hc => h.inPage hc
  have hbelow : ∀ c ∈ cells, c.stop ≤ (log.recoverAddresses g info.beginAddress
      info.finalAddress).tailPos g := by
    rw [hpos]
    exact h.final_le
  have hcut : Cut cells info.finalAddress := fun c hc _ => h.final_le c hc
  have hnone : ∀ a, info.finalAddress ≤ a → imageAt cells a = none := by
    intro a ha
    exact imageAt_of_above hbelow (by rw [hpos]; exact ha)
  refine ⟨.of_pagesInv ?_ ?_ h.ordered hin hbelow, ?_, .inr (.inr ?_)⟩
  · refine ⟨?_, ?_, ?_, h.begin_eq, ?_, ?_, ?_, hlow, le_rfl, le_rfl, le_rfl, ?_, ?_,
      cut_of_page hin, hcut, hcut, ?_, ?_, .inr hdev.len, ?_⟩
    · rw [htail, pack_eq hpage hoff]
      omega
    · rw [htailOff]
      exact hfirst
    · rw [htailOff]
      exact hlt.le
    · change (g.pageOf info.finalAddress <<< g.pageBits) % g.pageSize = 0
      rw [pageStart_eq]
      exact Nat.mul_mod_left _ _
    · rw [htailPage]
      change _ < g.pageOf info.finalAddress <<< g.pageBits + _
      have := Nat.mul_pos (by have := g.two_le_bufferSize; omega : 0 < g.bufferSize) hps
      rw [pageStart_eq]
      omega
    · change g.pageOf info.finalAddress <<< g.pageBits ≤ info.finalAddress
      rw [pageStart_eq]
      omega
    · rw [hpos]
      exact le_rfl
    · rw [hpos]
      exact hnone
    · -- the only page that can be looked at has just been zeroed
      intro a hle hltop
      change info.finalAddress ≤ a at hle
      rw [htailPage, Nat.succ_mul] at hltop
      have hpageOf : g.pageOf a = g.pageOf info.finalAddress := pageOf_of_mem (by omega) hltop
      rw [hnone a hle, HybridLog.slotAt, hpageOf]
      simp only [HybridLog.recoverAddresses, HybridLog.zeroPage, HybridLog.zeroed, if_true]
      rfl
    · exact hdev.data
    · intro x hx
      change x ∈ log.epoch.drain at hx
      rw [hdrain] at hx
      cases hx
  · rw [htailPage, g.pageOf_eq]
    exact h.space
  · intro c hc
    refine (h.packed.tiled _ _ (imageAt_of_mem h.ordered hc)).imp id ?_
    rintro ⟨b, r, hb, hstop⟩
    obtain ⟨d, hd, rfl, rfl⟩ := mem_of_imageAt hb
    exact ⟨d, hd, d.stop_eq.symm.trans hstop⟩
  · rw [hpos]
    exact h.final_at

/-- The device is the only part of the log that the walk over the pages changes. -/
theorem LogInv.setDevice {log : HybridLog} (h : LogInv g log cells) {device : Device}
    (hflushed : log.flushedUntil = info.finalAddress) (hdev : OnDevice info cells device) :
    LogInv g { log with device := device } cells :=
  { h with
    disk := by
      intro a hfirst hlt
      exact hdev.data a hfirst (by rwa [← hflushed])
    device_len := by
      refine .inr ?_
      change log.flushedUntil ≤ device.len
      rw [hflushed]
      exact hdev.len
    pending := fun x hx => (h.pending x hx).mono le_rfl le_rfl }

/-- What cut-off recovery has done. -/
theorem Folded.recoverPrefix (h : Folded g mask info cells) (hfresh : Fresh mask len cells store)
    (hdev : OnDevice info cells store.log.device) (n : ℕ) :
    ∃ index device, store.recoverPrefix g info n = .ok ⟨{ store.log.recoverAddresses g
        info.beginAddress info.finalAddress with device := device }, index,
        ⟨.rest, info.version + 1⟩, 2 ^ 64 - 1⟩ ∧
      OnDevice info cells device ∧ Indexed mask len cells (n * g.pageSize) index := by
  have hfirst : info.beginAddress / g.pageSize = 0 := by
    rw [h.begin_eq]
    exact Nat.div_eq_of_lt g.header_lt_pageSize
  have hidx : Indexed mask len cells (0 * g.pageSize) store.index.clear := by
    refine Indexed.clear hfresh.mask_eq ?_ hfresh.len_eq hfresh.room
    intro c _
    rw [Nat.zero_mul]
    exact Nat.zero_le _
  unfold Store.recoverPrefix
  rw [hfirst]
  obtain ⟨index, device, hpages, hdev', hidx'⟩ := @Folded.recoverPages g mask len info cells h n 0
    { store with
      index := store.index.clear
      log := store.log.recoverAddresses g info.beginAddress info.finalAddress
      systemState := ⟨.rest, info.version + 1⟩
      checkpointStartAddress := 2 ^ 64 - 1 } hdev hidx
  rw [Nat.zero_add] at hidx'
  exact ⟨index, device, hpages, hdev', hidx'⟩

/-- What recovery leads to. -/
structure Recovered (g : Geometry) (mask len : ℕ) (info : CheckpointInfo) (cells : List Cell)
    (store : Store) : Prop where
  inv : StoreInv g store cells
  arena : store.index.ArenaInv
  mask_eq : store.index.mask = mask
  len_eq : store.index.overflowLen = len
  device : OnDevice info cells store.log.device
  flushed : store.log.flushedUntil = info.finalAddress
  readOnly : store.log.readOnly = info.finalAddress
  drain : store.log.epoch.drain = []

/-- Recovery rebuilds the index over the records of the checkpoint. -/
theorem Folded.recover (h : Folded g mask info cells) (hfresh : Fresh mask len cells store)
    (hdev : OnDevice info cells store.log.device) :
    ∃ store', store.recover g info = .ok store' ∧ Recovered g mask len info cells store' := by
  rw [Store.recover_eq_recoverPrefix]
  obtain ⟨index, device, hpages, hdev', hidx⟩ :=
    h.recoverPrefix hfresh hdev (info.finalAddress / g.pageSize + 1)
  obtain ⟨hlog, htiled⟩ := h.logInv hfresh.drain hdev
  have hall : below ((info.finalAddress / g.pageSize + 1) * g.pageSize) cells = cells := by
    apply below_eq_self
    intro c hc
    have := h.final_le c hc
    have := c.addr_lt_stop
    have := Nat.lt_div_mul_add (a := info.finalAddress) g.pageSize_pos
    rw [Nat.succ_mul]
    omega
  refine ⟨_, hpages, ⟨hlog.setDevice rfl hdev', ⟨htiled.tiled, htiled.tail⟩, ?_, ?_, ?_⟩, hidx.arena,
    hidx.mask_eq, hidx.len_eq, hdev', rfl, rfl, hfresh.drain⟩
  · intro s
    simp only [hidx.mask_eq]
    exact h.linked s
  · intro s
    have hs := hidx.entries s
    rw [hall] at hs
    simp only [hidx.mask_eq]
    exact hs
  · -- everything lies below the head
    intro c hc' hhead
    have hc := (newest_mem hc').1
    have := h.final_le c hc
    have := c.addr_lt_stop
    change info.finalAddress ≤ c.addr at hhead
    omega

end Recover

/-! ## Section 6: Interrupted recovery -/

/-- Recoveries on fresh stores over one device, one after the other, the `i`-th of them cut
    off after `ns[i]` pages. -/
def cutRecoveries (g : Geometry) (info : CheckpointInfo) (buckets : ℕ) :
    List ℕ → Device → Option Device
  | [], device => some device
  | n :: ns, device =>
    match (Store.new buckets device).recoverPrefix g info n with
    | .ok store => cutRecoveries g info buckets ns store.log.device
    | .ioError | .aborted => none

section Interrupted

variable {g : Geometry} {info : CheckpointInfo} {cells : List Cell} {buckets : ℕ} {device : Device}

theorem fresh_new (hroom : HashIndex.overflowNeed (HashIndex.new buckets).mask
      (cellSlots (HashIndex.new buckets).mask cells) ≤ (HashIndex.new buckets).overflowLen)
    (device : Device) : Fresh (HashIndex.new buckets).mask (HashIndex.new buckets).overflowLen cells
      (Store.new buckets device) :=
  ⟨rfl, rfl, hroom, rfl⟩

theorem Folded.cutRecoveries (h : Folded g (HashIndex.new buckets).mask info cells)
    (hroom : HashIndex.overflowNeed (HashIndex.new buckets).mask
      (cellSlots (HashIndex.new buckets).mask cells) ≤ (HashIndex.new buckets).overflowLen)
    (hdev : OnDevice info cells device) (ns : List ℕ) :
    ∃ device', Tsavorite.cutRecoveries g info buckets ns device = some device' ∧
      OnDevice info cells device' := by
  induction ns generalizing device with
  | nil => exact ⟨device, rfl, hdev⟩
  | cons n ns ih =>
    obtain ⟨index, device₁, hcut, hdev₁, -⟩ := h.recoverPrefix (fresh_new hroom device) hdev n
    obtain ⟨device', hrest, hdev'⟩ := ih hdev₁
    refine ⟨device', ?_, hdev'⟩
    unfold Tsavorite.cutRecoveries
    rw [hcut]
    exact hrest

end Interrupted

namespace OneRecord

abbrev geometry : Geometry := Geometry.twoPages 9 Geometry.nine_pageBits

/-- The first record of a log. -/
def cell : Cell := ⟨64, TEMP_INVALID_ADDRESS, false, false, ⟨[1], 8, false, ⟨[7], 0⟩⟩⟩

def checkpoint : CheckpointInfo := ⟨1, FIRST_VALID_ADDRESS, 104, 104, 0⟩

/-- A device that holds it, with a Sealed bit that recovery will clear. -/
def device : Device where
  data := fun a =>
    if a = 64 then some { cell.image with info := { cell.image.info with isSealed := true } }
    else none
  len := 104

theorem folded : Folded geometry (HashIndex.new 2).mask checkpoint [cell] := by
  have himage : ∀ {a r}, imageAt [cell] a = some r → a = 64 ∧ r = cell.image := by
    intro a r h
    obtain ⟨c, hc, rfl, rfl⟩ := mem_of_imageAt h
    rw [List.mem_singleton.mp hc]
    exact ⟨rfl, rfl⟩
  refine ⟨List.pairwise_singleton _ _, ⟨?_, ?_, ?_, ?_⟩, ?_, rfl, ?_, ?_, ?_, by decide, by decide,
    by decide⟩
  · intro a r h
    rw [(himage h).2]
    rfl
  · intro a r h
    obtain ⟨rfl, rfl⟩ := himage h
    decide
  · intro a b r r' h h' hlt
    have := (himage h).1
    have := (himage h').1
    omega
  · intro a r h
    rw [(himage h).1]
    exact .inl (by decide)
  · intro s
    have hone : chain (HashIndex.new 2).mask s [cell] = [cell] ∨
        chain (HashIndex.new 2).mask s [cell] = [] := by
      rw [chain_cons]
      split
      · exact .inl rfl
      · exact .inr rfl
    rcases hone with hone | hone
    · rw [hone]
      exact ⟨rfl, trivial⟩
    · rw [hone]
      trivial
  · intro c hc hnew
    rw [List.mem_singleton.mp hc] at hnew
    cases hnew
  · intro c hc
    rw [List.mem_singleton.mp hc]
    decide
  · exact ⟨cell, List.mem_singleton_self _, by decide⟩

end OneRecord

end Tsavorite
