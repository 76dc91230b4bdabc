import MiniGarnet.Tsavorite.ChainProtocol

/-! # The hash-chain invariant

    The chain of a slot, followed from its entry, is the list of the records
    published there.  Whoever publishes holds the exclusive latch of the
    bucket, so the entry it has loaded is still there when it swaps it, and
    the address it was granted lies above all that were published before.
    Until the new record is validated it is the only one that is newest for
    its key and closed; the old one is sealed when it is newest no more.
-/

namespace Tsavorite.ChainProtocol

/-! ## Section 1: The invariant -/

/-- The key an attempt is about. -/
def Pc.key : Pc → Option Key
  | .idle => none
  | .starting key | .loaded key _ => some key
  | .allocating a | .granted a _ | .swapping a _ | .validating a _ | .sealing a _ => some a.key

/-- The address an attempt was granted. -/
def Pc.addr : Pc → Option ℕ
  | .granted _ addr | .swapping _ addr | .validating _ addr | .sealing _ addr => some addr
  | _ => none

/-- The address `rec.init` is about to write to. -/
def Pc.writes : Pc → Option ℕ
  | .granted _ addr => some addr
  | _ => none

/-- The address a compare-and-swap is about to publish. -/
def Pc.publishes : Pc → Option ℕ
  | .swapping _ addr => some addr
  | _ => none

theorem Pc.addr_of_writes {p : Pc} {a : ℕ} (h : a ∈ p.writes) : a ∈ p.addr := by
  cases p <;> first | exact h | cases h

theorem Pc.addr_of_publishes {p : Pc} {a : ℕ} (h : a ∈ p.publishes) : a ∈ p.addr := by
  cases p <;> first | exact h | cases h

section Invariant

variable {Sid : Type} [DecidableEq Sid] (g : Geometry) (mask : ℕ)

/-- The fields of the tail word do not overflow, and a published address fits the 48 bits of
    an entry. -/
def Fits (s : State Sid) : Label Sid → Prop
  | .tail l => TailProtocol.InRange g s.tail l
  | .move i .cas => ∀ addr ∈ (s.pc i).publishes, addr < 2 ^ ADDRESS_BITS
  | _ => True

instance (s : State Sid) : (l : Label Sid) → Decidable (Fits g s l)
  | .tail l => inferInstanceAs (Decidable (TailProtocol.InRange g s.tail l))
  | .latch _ _ => .isTrue trivial
  | .move i m =>
    match m with
    | .cas => inferInstanceAs (Decidable (∀ addr ∈ (s.pc i).publishes, addr < 2 ^ ADDRESS_BITS))
    | .start _ | .load | .modify _ | .bury _ | .append _ _ _ _ | .init | .validate | .sealOld
    | .quit => .isTrue trivial

/-- The record to seal is on the chain, and it is one of the key. -/
def OldOk (s : State Sid) (a : Append) : Prop :=
  ∀ old ∈ a.old, old ∈ s.published (keySlot mask a.key) ∧
    ∃ r, s.records old = some r ∧ r.key = a.key

/-- The latch keeps the entry as it was loaded. -/
def EntryOk (s : State Sid) (a : Append) : Prop := s.entries (keySlot mask a.key) = a.entry

/-- An address that is granted and not published: nobody else has it, and it lies above the
    chain it is for. -/
structure Private (s : State Sid) (a : Append) (addr : ℕ) : Prop where
  unpublished : ∀ slot, addr ∉ s.published slot
  above : ∀ x ∈ s.published (keySlot mask a.key), x < addr
  first : FIRST_VALID_ADDRESS ≤ addr

def PcOk (s : State Sid) : Pc → Prop
  | .idle | .starting _ => True
  | .loaded key entry => s.entries (keySlot mask key) = entry
  | .allocating a => EntryOk mask s a ∧ OldOk mask s a
  | .granted a addr => EntryOk mask s a ∧ OldOk mask s a ∧ Private mask s a addr
  | .swapping a addr => EntryOk mask s a ∧ OldOk mask s a ∧ Private mask s a addr ∧
      ∃ r, s.records addr = some r ∧ r.key = a.key ∧ r.info.previousAddress = a.entry
  | .validating a addr | .sealing a addr =>
      (∃ c, s.published (keySlot mask a.key) = addr :: c) ∧ OldOk mask s a ∧
        (∀ old ∈ a.old, old ≠ addr) ∧ ∃ r, s.records addr = some r ∧ r.key = a.key

/-- The request a thread of the allocator carries. -/
def size? : TailProtocol.Pc → Option ℕ
  | .retrying size | .turning _ size | .zeroing _ size | .publishing _ size => some size
  | _ => none

structure Inv (s : State Sid) : Prop where
  tail : TailProtocol.Inv g s.tail
  sizes : (∀ x ∈ s.tail.granted, 0 < x.2) ∧ ∀ i, ∀ size ∈ size? (s.tail.pc i), 0 < size
  latches : ∀ b, LatchWord.Inv (s.latches b)
  held : ∀ i, ∀ key ∈ (s.pc i).key,
    ((s.latches (keySlot mask key).bucket).threads i).exclusive = true
  entries : ∀ slot, s.entries slot < 2 ^ ADDRESS_BITS
  chained : ∀ slot, Chained s.records (s.entries slot) (s.published slot)
  descends : ∀ slot, (s.published slot).Pairwise (· > ·)
  below : ∀ slot, ∀ a ∈ s.published slot, a < TailProtocol.frontier g s.tail
  keys : ∀ slot, ∀ a ∈ s.published slot, ∀ r, s.records a = some r → keySlot mask r.key = slot
  opened : ∀ slot key a r, newest s.records (s.published slot) key = some a →
    s.records a = some r → r.info.isClosed = false ∨ ∃ i ap, s.pc i = .validating ap a
  pcs : ∀ i, PcOk mask s (s.pc i)
  granted : ∀ i, ∀ a ∈ (s.pc i).addr, a < TailProtocol.frontier g s.tail
  apart : ∀ i j, i ≠ j → ∀ a ∈ (s.pc i).addr, a ∉ (s.pc j).addr

theorem Inv.init : Inv g mask (State.init : State Sid) where
  tail := TailProtocol.inv_initial g
  sizes := ⟨nofun, nofun⟩
  latches := fun _ => LatchWord.Inv.init
  held := nofun
  entries := fun _ => show TEMP_INVALID_ADDRESS < 2 ^ ADDRESS_BITS by decide
  chained := fun _ => show TEMP_INVALID_ADDRESS < FIRST_VALID_ADDRESS by decide
  descends := fun _ => .nil
  below := nofun
  keys := nofun
  opened := nofun
  pcs := fun _ => trivial
  granted := nofun
  apart := nofun

variable {g mask} {s s' : State Sid} {i j : Sid}

@[simp] theorem goto_self (s : State Sid) (i : Sid) (p : Pc) : (s.goto i p).pc i = p :=
  Function.update_self _ _ _

theorem goto_ne (s : State Sid) (p : Pc) (h : j ≠ i) : (s.goto i p).pc j = s.pc j :=
  Function.update_of_ne h _ _

/-- Two sessions in attempts are on different slots. -/
theorem Inv.slot_ne (inv : Inv g mask s) (hij : i ≠ j) {k l : Key} (hk : k ∈ (s.pc i).key)
    (hl : l ∈ (s.pc j).key) : keySlot mask k ≠ keySlot mask l := by
  intro heq
  have hi := inv.held i k hk
  have hj := inv.held j l hl
  rw [heq] at hi
  have hlatch := inv.latches (keySlot mask l).bucket
  have howner := (hlatch.owner i).mpr (.inl hi)
  rw [(hlatch.owner j).mpr (.inl hj)] at howner
  exact hij (Option.some.inj howner).symm

/-- Nothing is published at an address that is about to be written. -/
theorem Inv.writes_unpublished (inv : Inv g mask s) {a : ℕ} (h : a ∈ (s.pc i).writes)
    (slot : SlotRef) : a ∉ s.published slot := by
  have hok := inv.pcs i
  cases hpc : s.pc i with
  | granted ap addr =>
    rw [hpc] at hok h
    cases h
    exact hok.2.2.unpublished slot
  | _ =>
    rw [hpc] at h
    cases h

/-- What a step of `i` leaves alone for the others.  Headers may change, but no link does;
    a new record is written where the session was granted space. -/
structure Frame (mask : ℕ) (i : Sid) (s s' : State Sid) : Prop where
  pc : ∀ j, j ≠ i → s'.pc j = s.pc j
  entries : ∀ j, j ≠ i → ∀ key ∈ (s.pc j).key,
    s'.entries (keySlot mask key) = s.entries (keySlot mask key)
  published : ∀ j, j ≠ i → ∀ key ∈ (s.pc j).key,
    s'.published (keySlot mask key) = s.published (keySlot mask key)
  unpublished : ∀ slot, ∀ a ∈ s'.published slot, a ∈ s.published slot ∨ a ∈ (s.pc i).publishes
  links : ∀ a r, s.records a = some r → a ∉ (s.pc i).writes →
    ∃ r', s'.records a = some r' ∧ r'.key = r.key ∧
      r'.info.previousAddress = r.info.previousAddress

omit [DecidableEq Sid] in
theorem Frame.entryOk (frame : Frame mask i s s') (hj : j ≠ i) {a : Append}
    (hkey : a.key ∈ (s.pc j).key) (h : EntryOk mask s a) : EntryOk mask s' a :=
  (frame.entries j hj a.key hkey).trans h

section Others

variable (inv : Inv g mask s) (frame : Frame mask i s s') (hj : j ≠ i) {a : Append} {addr : ℕ}

include inv frame hj

theorem Inv.oldOk_other (hkey : a.key ∈ (s.pc j).key) (h : OldOk mask s a) : OldOk mask s' a := by
  intro old hold
  obtain ⟨hmem, r, hr, hrkey⟩ := h old hold
  have hnot : old ∉ (s.pc i).writes := fun hw => inv.writes_unpublished hw _ hmem
  obtain ⟨r', hr', hkey', -⟩ := frame.links old r hr hnot
  rw [frame.published j hj a.key hkey]
  exact ⟨hmem, r', hr', hkey'.trans hrkey⟩

theorem Inv.private_other (hkey : a.key ∈ (s.pc j).key) (haddr : addr ∈ (s.pc j).addr)
    (h : Private mask s a addr) : Private mask s' a addr := by
  refine ⟨?_, ?_, h.first⟩
  · intro slot hmem
    rcases frame.unpublished slot addr hmem with hmem | hmem
    · exact h.unpublished slot hmem
    · exact inv.apart j i hj addr haddr (Pc.addr_of_publishes hmem)
  · rw [frame.published j hj a.key hkey]
    exact h.above

/-- The record of another session keeps its key and its link. -/
theorem Inv.record_other (haddr : addr ∈ (s.pc j).addr) {r : Rec} (hr : s.records addr = some r) :
    ∃ r', s'.records addr = some r' ∧ r'.key = r.key ∧
      r'.info.previousAddress = r.info.previousAddress :=
  frame.links addr r hr fun hw => inv.apart j i hj addr haddr (Pc.addr_of_writes hw)

theorem Inv.pcOk_other : PcOk mask s' (s'.pc j) := by
  rw [frame.pc j hj]
  have hok := inv.pcs j
  cases hpc : s.pc j with
  | idle => trivial
  | starting key => trivial
  | loaded key entry =>
    rw [hpc] at hok
    exact (frame.entries j hj key (by rw [hpc]; rfl)).trans hok
  | allocating a =>
    rw [hpc] at hok
    have hkey : a.key ∈ (s.pc j).key := by rw [hpc]; rfl
    exact ⟨frame.entryOk hj hkey hok.1, inv.oldOk_other frame hj hkey hok.2⟩
  | granted a addr =>
    rw [hpc] at hok
    have hkey : a.key ∈ (s.pc j).key := by rw [hpc]; rfl
    exact ⟨frame.entryOk hj hkey hok.1, inv.oldOk_other frame hj hkey hok.2.1,
      inv.private_other frame hj hkey (by rw [hpc]; rfl) hok.2.2⟩
  | swapping a addr =>
    rw [hpc] at hok
    obtain ⟨hentry, hold, hprivate, r, hr, hrkey, hprev⟩ := hok
    have hkey : a.key ∈ (s.pc j).key := by rw [hpc]; rfl
    have haddr : addr ∈ (s.pc j).addr := by rw [hpc]; rfl
    obtain ⟨r', hr', hkey', hprev'⟩ := inv.record_other frame hj haddr hr
    exact ⟨frame.entryOk hj hkey hentry, inv.oldOk_other frame hj hkey hold,
      inv.private_other frame hj hkey haddr hprivate, r', hr', hkey'.trans hrkey, hprev'.trans hprev⟩
  | validating a addr | sealing a addr =>
    rw [hpc] at hok
    obtain ⟨⟨c, hc⟩, hold, hne, r, hr, hrkey⟩ := hok
    have hkey : a.key ∈ (s.pc j).key := by rw [hpc]; rfl
    have haddr : addr ∈ (s.pc j).addr := by rw [hpc]; rfl
    obtain ⟨r', hr', hkey', -⟩ := inv.record_other frame hj haddr hr
    exact ⟨⟨c, (frame.published j hj a.key hkey).trans hc⟩, inv.oldOk_other frame hj hkey hold, hne,
      r', hr', hkey'.trans hrkey⟩

end Others

/-! ## Section 2: Steps that publish nothing -/

/-- An address that is granted, and to nobody but `i`. -/
def Owned (g : Geometry) (s : State Sid) (i : Sid) (a : ℕ) : Prop :=
  a < TailProtocol.frontier g s.tail ∧ ∀ j, j ≠ i → a ∉ (s.pc j).addr

theorem Inv.owned (inv : Inv g mask s) {a : ℕ} (h : a ∈ (s.pc i).addr) : Owned g s i a :=
  ⟨inv.granted i a h, fun j hj => inv.apart i j (Ne.symm hj) a h⟩

/-- A step of `i` that publishes nothing and leaves the links of the chains alone. -/
theorem Inv.quiet (inv : Inv g mask s) (htail : s'.tail = s.tail) (hlatches : s'.latches = s.latches)
    (hentries : s'.entries = s.entries) (hpublished : s'.published = s.published)
    (hpc : ∀ j, j ≠ i → s'.pc j = s.pc j)
    (hlinks : ∀ a r, s.records a = some r → a ∉ (s.pc i).writes →
      ∃ r', s'.records a = some r' ∧ r'.key = r.key ∧
        r'.info.previousAddress = r.info.previousAddress)
    (hkey : ∀ key ∈ (s'.pc i).key, ((s.latches (keySlot mask key).bucket).threads i).exclusive = true)
    (haddr : ∀ a ∈ (s'.pc i).addr, Owned g s i a) (hok : PcOk mask s' (s'.pc i))
    (hopened : ∀ slot key a r, newest s.records (s.published slot) key = some a →
      s'.records a = some r → r.info.isClosed = false ∨ ∃ j ap, s'.pc j = .validating ap a) :
    Inv g mask s' := by
  have frame : Frame mask i s s' :=
    { pc := hpc
      entries := fun _ _ _ _ => by rw [hentries]
      published := fun _ _ _ _ => by rw [hpublished]
      unpublished := fun slot a ha => .inl (hpublished ▸ ha)
      links := hlinks }
  have hsame : ∀ slot, SameLinks s.records s'.records (s.published slot) := by
    intro slot x hx r hr
    exact hlinks x r hr fun hw => inv.writes_unpublished hw slot hx
  refine ⟨htail ▸ inv.tail, htail ▸ inv.sizes, hlatches ▸ inv.latches, ?_, hentries ▸ inv.entries,
    ?_, ?_, ?_, ?_, ?_, ?_, ?_, ?_⟩
  · intro j key hkey'
    rw [hlatches]
    by_cases hj : j = i
    · subst hj
      exact hkey key hkey'
    · rw [hpc j hj] at hkey'
      exact inv.held j key hkey'
  · intro slot
    rw [hentries, hpublished]
    exact (inv.chained slot).congr (hsame slot)
  · rw [hpublished]
    exact inv.descends
  · rw [hpublished, htail]
    exact inv.below
  · rw [hpublished]
    intro slot a ha r' hr'
    obtain ⟨-, r, hr⟩ := (inv.chained slot).record ha
    obtain ⟨r'', hr'', hkey, -⟩ := hsame slot a ha r hr
    obtain rfl : r'' = r' := Option.some.inj (hr''.symm.trans hr')
    rw [hkey]
    exact inv.keys slot a ha r hr
  · intro slot key a r hnewest hr
    rw [hpublished, newest_congr (fun x hx => ((inv.chained slot).record hx).2) (hsame slot)] at hnewest
    exact hopened slot key a r hnewest hr
  · intro j
    by_cases hj : j = i
    · subst hj
      exact hok
    · exact inv.pcOk_other frame hj
  · intro j a ha
    rw [htail]
    by_cases hj : j = i
    · subst hj
      exact (haddr a ha).1
    · rw [hpc j hj] at ha
      exact inv.granted j a ha
  · intro j k hjk a ha hk
    by_cases hj : j = i
    · subst hj
      rw [hpc k (Ne.symm hjk)] at hk
      exact (haddr a ha).2 k (Ne.symm hjk) hk
    · rw [hpc j hj] at ha
      by_cases hki : k = i
      · subst hki
        exact (haddr a hk).2 j hjk ha
      · rw [hpc k hki] at hk
        exact inv.apart j k hjk a ha hk

omit [DecidableEq Sid] in
/-- `PcOk` looks at the chains only. -/
theorem PcOk.congr {q : Pc} (h : PcOk mask s q) (hentries : s'.entries = s.entries)
    (hpublished : s'.published = s.published) (hrecords : s'.records = s.records) :
    PcOk mask s' q := by
  have hprivate : ∀ {a : Append} {addr : ℕ}, Private mask s a addr → Private mask s' a addr := by
    intro a addr h
    exact ⟨hpublished ▸ h.unpublished, hpublished ▸ h.above, h.first⟩
  cases q with
  | granted a addr =>
    simp only [PcOk, EntryOk, OldOk, hentries, hpublished, hrecords] at h ⊢
    exact ⟨h.1, h.2.1, hprivate h.2.2⟩
  | swapping a addr =>
    simp only [PcOk, EntryOk, OldOk, hentries, hpublished, hrecords] at h ⊢
    exact ⟨h.1, h.2.1, hprivate h.2.2.1, h.2.2.2⟩
  | _ =>
    simp only [PcOk, EntryOk, OldOk, hentries, hpublished, hrecords] at h ⊢
    try exact h

/-- A step that only moves the session on. -/
theorem Inv.goto {p : Pc} (inv : Inv g mask s)
    (hkey : ∀ key ∈ p.key, ((s.latches (keySlot mask key).bucket).threads i).exclusive = true)
    (haddr : ∀ a ∈ p.addr, Owned g s i a) (hok : PcOk mask s p)
    (hnot : ∀ ap a, s.pc i ≠ .validating ap a) : Inv g mask (s.goto i p) := by
  refine inv.quiet rfl rfl rfl rfl (fun j hj => goto_ne s p hj)
    (fun a r hr _ => ⟨r, hr, rfl, rfl⟩) (by rwa [goto_self]) (by rwa [goto_self]) ?_ ?_
  · rw [goto_self]
    exact hok.congr rfl rfl rfl
  · intro slot key a r hnewest hr
    rcases inv.opened slot key a r hnewest hr with hopen | ⟨j, ap, hj⟩
    · exact .inl hopen
    · refine .inr ⟨j, ap, ?_⟩
      rw [goto_ne s p (by rintro rfl; exact hnot ap a hj)]
      exact hj

/-- A step that ends the attempt. -/
theorem Inv.quit (inv : Inv g mask s) (hnot : ∀ ap a, s.pc i ≠ .validating ap a) :
    Inv g mask (s.goto i .idle) := inv.goto nofun nofun trivial hnot

omit [DecidableEq Sid] in
/-- The links after a change of a header. -/
theorem setInfo_links {f : RecordInfo → RecordInfo} {x : ℕ}
    (hf : ∀ r, (f r).previousAddress = r.previousAddress) {a : ℕ} {r : Rec}
    (hr : s.records a = some r) :
    ∃ r', (s.setInfo x f).records a = some r' ∧ r'.key = r.key ∧
      r'.info.previousAddress = r.info.previousAddress := by
  by_cases ha : a = x
  · subst ha
    exact ⟨⟨f r.info, r.key⟩, by simp [State.setInfo, State.setRecord, hr], rfl, hf r.info⟩
  · exact ⟨r, by simp [State.setInfo, State.setRecord, ha, hr], rfl, rfl⟩

/-- A header of a record on the chain of the session changes. -/
theorem Inv.editInfo {f : RecordInfo → RecordInfo} {x : ℕ} {p : Pc} (inv : Inv g mask s)
    (hf : ∀ r, (f r).previousAddress = r.previousAddress)
    (hkey : ∀ key ∈ p.key, key ∈ (s.pc i).key) (haddr : ∀ a ∈ p.addr, a ∈ (s.pc i).addr)
    (hok : PcOk mask (s.setInfo x f) p)
    (hopened : ∀ slot key r, newest s.records (s.published slot) key = some x →
      s.records x = some r → (f r.info).isClosed = false ∨ ∃ ap, p = .validating ap x)
    (hothers : ∀ ap a, s.pc i = .validating ap a → a = x ∨ p = .validating ap a) :
    Inv g mask ((s.setInfo x f).goto i p) := by
  refine inv.quiet rfl rfl rfl rfl (fun j hj => goto_ne _ p hj)
    (fun a r hr _ => setInfo_links hf hr) ?_ ?_ ?_ ?_
  · rw [goto_self]
    intro key hk
    exact inv.held i key (hkey key hk)
  · rw [goto_self]
    exact fun a ha => inv.owned (haddr a ha)
  · rw [goto_self]
    exact hok.congr rfl rfl rfl
  · intro slot key a r hnewest hr
    by_cases ha : a = x
    · subst ha
      obtain ⟨-, r₀, hr₀, -⟩ := newest_mem hnewest
      have hr' : ((s.setInfo a f).records a) = some r := hr
      simp only [State.setInfo, State.setRecord, Function.update_self, hr₀, Option.map_some,
        Option.some.injEq] at hr'
      subst hr'
      rcases hopened slot key r₀ hnewest hr₀ with hopen | ⟨ap, hp⟩
      · exact .inl hopen
      · exact .inr ⟨i, ap, by rw [goto_self]; exact hp⟩
    · have hr' : s.records a = some r := by
        simpa [State.goto, State.setInfo, State.setRecord, ha] using hr
      rcases inv.opened slot key a r hnewest hr' with hopen | ⟨j, ap, hj⟩
      · exact .inl hopen
      · refine .inr ?_
        by_cases hji : j = i
        · subst hji
          rcases hothers ap a hj with hax | hp
          · exact absurd hax ha
          · exact ⟨j, ap, by rw [goto_self]; exact hp⟩
        · exact ⟨j, ap, by rw [goto_ne _ p hji]; exact hj⟩

omit [DecidableEq Sid] in
theorem OldOk.setInfo {f : RecordInfo → RecordInfo} {x : ℕ} {a : Append}
    (hf : ∀ r, (f r).previousAddress = r.previousAddress) (h : OldOk mask s a) :
    OldOk mask (s.setInfo x f) a := by
  intro old hold
  obtain ⟨hmem, r, hr, hkey⟩ := h old hold
  obtain ⟨r', hr', hkey', -⟩ := setInfo_links hf hr
  exact ⟨hmem, r', hr', hkey'.trans hkey⟩

/-- `trace_back` finds the newest record of the key, and it is open. -/
theorem Inv.found (inv : Inv g mask s) {key : Key} {entry min addr : ℕ}
    (hentry : s.entries (keySlot mask key) = entry)
    (h : s.found key entry min = some (some addr)) :
    newest s.records (s.published (keySlot mask key)) key = some addr := by
  unfold State.found at h
  split at h
  · rename_i x htrace
    split at h
    · split at h
      · cases h
      · cases h
        have hchained := inv.chained (keySlot mask key)
        rw [hentry] at hchained
        exact hchained.traceBack_found htrace
    · cases h
  · cases h
  · cases h

/-- Under the latch, the newest record of the key is open. -/
theorem Inv.loaded_open {key : Key} {entry a : ℕ} {r : Rec} (inv : Inv g mask s)
    (hpc : s.pc i = .loaded key entry)
    (hnewest : newest s.records (s.published (keySlot mask key)) key = some a)
    (hr : s.records a = some r) : r.info.isClosed = false := by
  rcases inv.opened _ key a r hnewest hr with hopen | ⟨j, ap, hj⟩
  · exact hopen
  · -- nobody else validates a record of this slot
    exfalso
    have hslot := inv.pcs j
    rw [hj] at hslot
    obtain ⟨-, -, -, r', hr', hkey'⟩ := hslot
    obtain rfl : r = r' := Option.some.inj (hr.symm.trans hr')
    obtain ⟨-, r'', hr'', hkey''⟩ := newest_mem hnewest
    obtain rfl : r = r'' := Option.some.inj (hr.symm.trans hr'')
    have hji : j ≠ i := by
      rintro rfl
      rw [hpc] at hj
      cases hj
    apply inv.slot_ne hji (k := ap.key) (l := key) (by rw [hj]; rfl) (by rw [hpc]; rfl)
    rw [← hkey', hkey'']

/-- A header is changed in place. -/
theorem Inv.edit {f : RecordInfo → RecordInfo} {key : Key} {entry min : ℕ} (inv : Inv g mask s)
    (hpc : s.pc i = .loaded key entry) (hf : ∀ r, (f r).previousAddress = r.previousAddress)
    (hclosed : ∀ r, (f r).isClosed = r.isClosed) (h : s.edit key entry min f = some s') :
    Inv g mask s' := by
  unfold State.edit at h
  split at h
  · rename_i addr hfound
    obtain rfl := Option.some.inj h
    have hsame : (s.setInfo addr f).goto i (.loaded key entry) = s.setInfo addr f := by
      show { s.setInfo addr f with pc := Function.update s.pc i (.loaded key entry) } = _
      rw [← hpc, Function.update_eq_self]
      rfl
    rw [← hsame]
    have hok := inv.pcs i
    rw [hpc] at hok
    refine inv.editInfo hf (by rw [hpc]; exact fun _ h => h) nofun hok ?_ (by rw [hpc]; nofun)
    intro slot k r hnewest hr
    rw [hclosed]
    exact .inl (inv.loaded_open hpc (inv.found hok hfound) hr)
  · cases h

/-- The new record is written where nobody looks. -/
theorem Inv.write {a : Append} {addr : ℕ} {r : Rec} {p : Pc} (inv : Inv g mask s)
    (hpc : s.pc i = .granted a addr) (hkey : ∀ key ∈ p.key, key = a.key)
    (haddr : ∀ x ∈ p.addr, x = addr) (hok : PcOk mask (s.setRecord addr (some r)) p) :
    Inv g mask ((s.setRecord addr (some r)).goto i p) := by
  have hprivate := inv.pcs i
  rw [hpc] at hprivate
  obtain ⟨-, -, hprivate⟩ := hprivate
  have hother : ∀ x, x ≠ addr → (s.setRecord addr (some r)).records x = s.records x :=
    fun x hx => Function.update_of_ne hx _ _
  refine inv.quiet rfl rfl rfl rfl (fun j hj => goto_ne _ p hj) ?_ ?_ ?_ ?_ ?_
  · intro x r' hr' hx
    have hne : x ≠ addr := by
      rintro rfl
      exact hx (by rw [hpc]; rfl)
    exact ⟨r', (hother x hne).trans hr', rfl, rfl⟩
  · rw [goto_self]
    intro key hk
    rw [hkey key hk]
    exact inv.held i a.key (by rw [hpc]; rfl)
  · rw [goto_self]
    intro x hx
    rw [haddr x hx]
    exact inv.owned (by rw [hpc]; rfl)
  · rw [goto_self]
    exact hok.congr rfl rfl rfl
  · intro slot key x r' hnewest hr'
    have hne : x ≠ addr := by
      rintro rfl
      exact hprivate.unpublished slot (newest_mem hnewest).1
    have hr : s.records x = some r' := (hother x hne).symm.trans hr'
    rcases inv.opened slot key x r' hnewest hr with hopen | ⟨j, ap, hj⟩
    · exact .inl hopen
    · refine .inr ⟨j, ap, ?_⟩
      rw [goto_ne _ p (by rintro rfl; rw [hpc] at hj; cases hj)]
      exact hj

omit [DecidableEq Sid] in
theorem OldOk.setRecord {a : Append} {addr : ℕ} {r : Option Rec} (h : OldOk mask s a)
    (hnot : ∀ slot, addr ∉ s.published slot) : OldOk mask (s.setRecord addr r) a := by
  intro old hold
  obtain ⟨hmem, r', hr', hkey⟩ := h old hold
  refine ⟨hmem, r', ?_, hkey⟩
  show Function.update s.records addr r old = some r'
  rw [Function.update_of_ne (by rintro rfl; exact hnot _ hmem)]
  exact hr'

theorem Inv.init_step {a : Append} {addr : ℕ} (inv : Inv g mask s)
    (hpc : s.pc i = .granted a addr) (h : stepPc mask s i (.granted a addr) .init = some s') :
    Inv g mask s' := by
  have hok := inv.pcs i
  rw [hpc] at hok
  obtain ⟨hentry, hold, hprivate⟩ := hok
  simp only [stepPc] at h
  split at h
  · obtain rfl := Option.some.inj h
    exact inv.write hpc (fun key hk => (Option.some.inj hk).symm) nofun
      ⟨hentry, hold.setRecord hprivate.unpublished⟩
  · obtain rfl := Option.some.inj h
    refine inv.write hpc (fun key hk => (Option.some.inj hk).symm)
      (fun x hx => (Option.some.inj hx).symm) ?_
    refine ⟨hentry, hold.setRecord hprivate.unpublished,
      ⟨hprivate.unpublished, hprivate.above, hprivate.first⟩, a.record, ?_, rfl, ?_⟩
    · exact Function.update_self _ _ _
    · -- the entry's address has been through the mask before
      show maskAddress a.entry = a.entry
      rw [← hentry]
      exact maskAddress_of_lt (inv.entries _)

/-! ## Section 3: Publication -/

omit [DecidableEq Sid] in
theorem newest_cons_of_ne {records : ℕ → Option Rec} {c : List ℕ} {addr : ℕ} {key : Key} {r : Rec}
    (hr : records addr = some r) (hkey : r.key ≠ key) :
    newest records (addr :: c) key = newest records c key := by
  unfold newest
  rw [List.find?_cons_of_neg]
  simp [hr, hkey]

omit [DecidableEq Sid] in
theorem newest_cons_self {records : ℕ → Option Rec} {c : List ℕ} {addr : ℕ} {r : Rec}
    (hr : records addr = some r) : newest records (addr :: c) r.key = some addr := by
  unfold newest
  rw [List.find?_cons_of_pos]
  simp [hr]

section Publish

omit [DecidableEq Sid]

variable {slot t : SlotRef} {addr : ℕ}

@[simp] theorem publish_published_self :
    (s.publish slot addr).published slot = addr :: s.published slot := Function.update_self _ _ _

theorem publish_published_ne (h : t ≠ slot) :
    (s.publish slot addr).published t = s.published t := Function.update_of_ne h _ _

@[simp] theorem publish_entries_self : (s.publish slot addr).entries slot = maskAddress addr :=
  Function.update_self _ _ _

theorem publish_entries_ne (h : t ≠ slot) : (s.publish slot addr).entries t = s.entries t :=
  Function.update_of_ne h _ _

theorem mem_published_publish {x : ℕ} (h : x ∈ (s.publish slot addr).published t) :
    x ∈ s.published t ∨ x = addr ∧ t = slot := by
  by_cases ht : t = slot
  · subst ht
    rw [publish_published_self] at h
    rcases List.mem_cons.mp h with rfl | h
    · exact .inr ⟨rfl, rfl⟩
    · exact .inl h
  · rw [publish_published_ne ht] at h
    exact .inl h

/-- The newest record of a key after a publication. -/
theorem newest_publish {r : Rec} {key : Key} {x : ℕ} (hr : s.records addr = some r)
    (h : newest s.records ((s.publish slot addr).published t) key = some x) :
    x = addr ∨ newest s.records (s.published t) key = some x := by
  by_cases ht : t = slot
  · subst ht
    rw [publish_published_self] at h
    by_cases hk : r.key = key
    · rw [← hk, newest_cons_self hr] at h
      exact .inl (Option.some.inj h).symm
    · rw [newest_cons_of_ne hr hk] at h
      exact .inr h
  · rw [publish_published_ne ht] at h
    exact .inr h

end Publish

/-- What the compare-and-swap leaves alone: the latch keeps everybody else off the slot. -/
theorem Inv.frame_publish {a : Append} {addr : ℕ} (inv : Inv g mask s)
    (hpc : s.pc i = .swapping a addr) :
    Frame mask i s ((s.publish (keySlot mask a.key) addr).goto i (.validating a addr)) := by
  have hslots : ∀ j, j ≠ i → ∀ key ∈ (s.pc j).key, keySlot mask key ≠ keySlot mask a.key :=
    fun j hj key hkey => inv.slot_ne hj hkey (by rw [hpc]; rfl)
  refine ⟨fun j hj => goto_ne _ _ hj, fun j hj key hkey => publish_entries_ne (hslots j hj key hkey),
    fun j hj key hkey => publish_published_ne (hslots j hj key hkey), ?_,
    fun x r hr _ => ⟨r, hr, rfl, rfl⟩⟩
  intro t x hx
  rcases mem_published_publish hx with hx | ⟨rfl, -⟩
  · exact .inl hx
  · exact .inr (by rw [hpc]; rfl)

/-- The compare-and-swap puts the record on top of the chain it has loaded. -/
theorem Inv.publish {a : Append} {addr : ℕ} (inv : Inv g mask s) (hpc : s.pc i = .swapping a addr)
    (hfits : addr < 2 ^ ADDRESS_BITS) :
    Inv g mask ((s.publish (keySlot mask a.key) addr).goto i (.validating a addr)) := by
  have hok := inv.pcs i
  rw [hpc] at hok
  obtain ⟨hentry, hold, hprivate, r, hr, hrkey, hprev⟩ := hok
  have hback : ∀ (x : ℕ) (j : Sid),
      x ∈ (((s.publish (keySlot mask a.key) addr).goto i (.validating a addr)).pc j).addr →
        x ∈ (s.pc j).addr := by
    intro x j hx
    by_cases hj : j = i
    · subst hj
      rw [goto_self] at hx
      rw [hpc]
      exact hx
    · rw [goto_ne _ _ hj] at hx
      exact hx
  refine ⟨inv.tail, inv.sizes, inv.latches, ?_, ?_, ?_, ?_, ?_, ?_, ?_, ?_,
    fun j x hx => inv.granted j x (hback x j hx),
    fun j k hjk x hx hk => inv.apart j k hjk x (hback x j hx) (hback x k hk)⟩
  · intro j key hkey
    apply inv.held j key
    by_cases hj : j = i
    · subst hj
      rw [goto_self] at hkey
      rw [hpc]
      exact hkey
    · rw [goto_ne _ _ hj] at hkey
      exact hkey
  · intro t
    show (s.publish _ addr).entries t < _
    by_cases ht : t = keySlot mask a.key
    · rw [ht, publish_entries_self]
      exact Nat.mod_lt _ (by decide)
    · rw [publish_entries_ne ht]
      exact inv.entries t
  · intro t
    show Chained s.records ((s.publish _ addr).entries t) ((s.publish _ addr).published t)
    by_cases ht : t = keySlot mask a.key
    · rw [ht, publish_entries_self, publish_published_self]
      refine ⟨maskAddress_of_lt hfits, hprivate.first, r, hr, ?_⟩
      rw [hprev, ← show s.entries (keySlot mask a.key) = a.entry from hentry]
      exact inv.chained _
    · rw [publish_entries_ne ht, publish_published_ne ht]
      exact inv.chained t
  · intro t
    show ((s.publish _ addr).published t).Pairwise (· > ·)
    by_cases ht : t = keySlot mask a.key
    · rw [ht, publish_published_self]
      exact List.pairwise_cons.mpr ⟨hprivate.above, inv.descends _⟩
    · rw [publish_published_ne ht]
      exact inv.descends t
  · intro t x hx
    rcases mem_published_publish hx with hx | ⟨rfl, -⟩
    · exact inv.below t x hx
    · exact inv.granted i x (by rw [hpc]; rfl)
  · intro t x hx r' hr'
    rcases mem_published_publish hx with hx | ⟨rfl, ht⟩
    · exact inv.keys t x hx r' hr'
    · obtain rfl : r = r' := Option.some.inj (hr.symm.trans hr')
      rw [hrkey, ht]
  · intro t key x r' hnewest hr'
    rcases newest_publish hr hnewest with rfl | hn
    · exact .inr ⟨i, a, goto_self _ _ _⟩
    · rcases inv.opened t key x r' hn hr' with hopen | ⟨j, ap, hj⟩
      · exact .inl hopen
      · refine .inr ⟨j, ap, ?_⟩
        rw [goto_ne _ _ (by rintro rfl; rw [hpc] at hj; cases hj)]
        exact hj
  · intro j
    by_cases hj : j = i
    · subst hj
      rw [goto_self]
      refine ⟨⟨_, publish_published_self⟩, ?_, ?_, r, hr, hrkey⟩
      · intro old ho
        obtain ⟨hmem, hrec⟩ := hold old ho
        refine ⟨?_, hrec⟩
        show old ∈ (s.publish _ addr).published _
        rw [publish_published_self]
        exact List.mem_cons_of_mem _ hmem
      · intro old ho
        have := hprivate.above old (hold old ho).1
        omega
    · exact inv.pcOk_other (inv.frame_publish hpc) hj

/-- The new record is opened. -/
theorem Inv.validate {a : Append} {addr : ℕ} (inv : Inv g mask s)
    (hpc : s.pc i = .validating a addr) :
    Inv g mask ((s.setInfo addr RecordInfo.unsealAndValidate).goto i (.sealing a addr)) := by
  have hok := inv.pcs i
  rw [hpc] at hok
  obtain ⟨hhead, hold, hne, r, hr, hkey⟩ := hok
  obtain ⟨r', hr', hkey', -⟩ := setInfo_links (x := addr)
    (f := RecordInfo.unsealAndValidate) (fun _ => rfl) hr
  refine inv.editInfo (fun _ => rfl) (by rw [hpc]; exact fun _ h => h) (by rw [hpc]; exact fun _ h => h)
    ⟨hhead, hold.setInfo fun _ => rfl, hne, r', hr', hkey'.trans hkey⟩ (fun _ _ _ _ _ => .inl rfl) ?_
  intro ap x hx
  rw [hpc] at hx
  cases hx
  exact .inl rfl

/-- The old record is sealed when it is newest no more. -/
theorem Inv.sealOld {a : Append} {addr old : ℕ} (inv : Inv g mask s)
    (hpc : s.pc i = .sealing a addr) (hold : a.old = some old) :
    Inv g mask ((s.setInfo old RecordInfo.trySeal).goto i .idle) := by
  have hok := inv.pcs i
  rw [hpc] at hok
  obtain ⟨⟨c, hc⟩, holdOk, hne, r, hr, hkey⟩ := hok
  obtain ⟨hmem, ro, hro, hrokey⟩ := holdOk old hold
  have hprev : ∀ x : RecordInfo, x.trySeal.previousAddress = x.previousAddress := by
    intro x
    unfold RecordInfo.trySeal
    split <;> rfl
  refine inv.editInfo hprev nofun nofun trivial ?_ (by rw [hpc]; nofun)
  intro slot key r' hnewest hr'
  exfalso
  obtain ⟨hmem', rx, hrx, hrxkey⟩ := newest_mem hnewest
  obtain rfl : ro = rx := Option.some.inj (hro.symm.trans hrx)
  -- it is a record of the same key and so on the same chain, below the new one
  have hslot : slot = keySlot mask a.key := by
    rw [← inv.keys slot old hmem' ro hro, hrokey]
  rw [hslot, hc, ← hrxkey, hrokey, ← hkey, newest_cons_self hr] at hnewest
  exact hne old hold (Option.some.inj hnewest).symm

theorem Inv.stepPc {m : Move} (inv : Inv g mask s) (hfits : Fits g s (.move i m))
    (h : ChainProtocol.stepPc mask s i (s.pc i) m = some s') : Inv g mask s' := by
  generalize hpc : s.pc i = p at h
  have hok := inv.pcs i
  rw [hpc] at hok
  have hheld := inv.held i
  rw [hpc] at hheld
  cases p with
  | idle =>
    cases m with
    | start key =>
      simp only [ChainProtocol.stepPc] at h
      split at h
      · rename_i hex
        obtain rfl := Option.some.inj h
        refine inv.goto ?_ nofun trivial (by rw [hpc]; nofun)
        intro k hk
        cases hk
        exact hex
      · cases h
    | _ => cases h
  | starting key =>
    cases m with
    | load =>
      obtain rfl := Option.some.inj h
      exact inv.goto hheld nofun rfl (by rw [hpc]; nofun)
    | _ => cases h
  | loaded key entry =>
    cases m with
    | modify min => exact inv.edit (f := RecordInfo.setModified) hpc (fun _ => rfl) (fun _ => rfl) h
    | bury min => exact inv.edit (f := RecordInfo.setTombstone) hpc (fun _ => rfl) (fun _ => rfl) h
    | append min sealsOld tombstone nv =>
      obtain ⟨found, hfound, rfl⟩ := Option.map_eq_some_iff.mp h
      refine inv.goto hheld nofun ⟨hok, ?_⟩ (by rw [hpc]; nofun)
      intro old hold
      cases sealsOld with
      | false => cases hold
      | true =>
        have hf : found = some old := hold
        rw [hf] at hfound
        exact newest_mem (inv.found hok hfound)
    | quit =>
      obtain rfl := Option.some.inj h
      exact inv.quit (by rw [hpc]; nofun)
    | _ => cases h
  | allocating a =>
    cases m with
    | quit =>
      simp only [ChainProtocol.stepPc] at h
      split at h
      · obtain rfl := Option.some.inj h
        exact inv.quit (by rw [hpc]; nofun)
      · cases h
    | _ => cases h
  | granted a addr =>
    cases m with
    | init => exact inv.init_step hpc h
    | _ => cases h
  | swapping a addr =>
    cases m with
    | cas =>
      have hentry : s.entries (keySlot mask a.key) = a.entry := hok.1
      simp only [ChainProtocol.stepPc] at h
      rw [if_pos hentry] at h
      obtain rfl := Option.some.inj h
      exact inv.publish hpc (hfits addr (by rw [hpc]; rfl))
    | _ => cases h
  | validating a addr =>
    cases m with
    | validate =>
      obtain rfl := Option.some.inj h
      exact inv.validate hpc
    | _ => cases h
  | sealing a addr =>
    cases m with
    | sealOld =>
      simp only [ChainProtocol.stepPc] at h
      split at h
      · obtain rfl := Option.some.inj h
        exact inv.sealOld hpc ‹_›
      · obtain rfl := Option.some.inj h
        exact inv.quit (by rw [hpc]; nofun)
    | _ => cases h

/-! ## Section 4: Steps of the allocator and of the latches -/

/-- Requests stay positive: they are record sizes. -/
theorem sizes_step {tail tail' : TailProtocol.State Sid} {l : TailProtocol.Label Sid}
    (h : TailProtocol.next g tail l = some tail') (hpos : LogProtocol.positiveSize l = true)
    (hgranted : ∀ x ∈ tail.granted, 0 < x.2) (hpcs : ∀ i, ∀ size ∈ size? (tail.pc i), 0 < size) :
    (∀ x ∈ tail'.granted, 0 < x.2) ∧ ∀ i, ∀ size ∈ size? (tail'.pc i), 0 < size := by
  have hset : ∀ (t : Sid) (p : TailProtocol.Pc), (∀ n ∈ size? p, 0 < n) →
      ∀ i, ∀ n ∈ size? (TailProtocol.setPc tail.pc t p i), 0 < n := by
    intro t p hp i n hn
    by_cases hi : i = t
    · subst hi
      rw [TailProtocol.setPc_self] at hn
      exact hp n hn
    · rw [TailProtocol.setPc_ne _ _ hi] at hn
      exact hpcs i n hn
  have hcons : ∀ (addr n : ℕ), 0 < n → ∀ x ∈ (addr, n) :: tail.granted, 0 < x.2 := by
    intro addr n hn x hx
    rcases List.mem_cons.mp hx with rfl | hx
    · exact hn
    · exact hgranted x hx
  cases l with
  | fetchAdd t size =>
    have hsize : 0 < size := by simpa [LogProtocol.positiveSize] using hpos
    have hmine : ∀ n ∈ some size, 0 < n := by
      intro n hn
      cases hn
      exact hsize
    simp only [TailProtocol.next] at h
    split at h
    · obtain rfl := Option.some.inj h
      unfold TailProtocol.afterFetchAdd
      simp only
      split
      · exact ⟨hcons _ _ hsize, hset t .idle (by simp [size?])⟩
      split
      · exact ⟨hgranted, hset t (.retrying size) hmine⟩
      · exact ⟨hgranted, hset t (.turning _ size) hmine⟩
    · cases h
  | checkFree t =>
    simp only [TailProtocol.next] at h
    split at h
    · rename_i page size hpc
      have hmine := hpcs t
      rw [hpc] at hmine
      split at h <;> obtain rfl := Option.some.inj h
      · exact ⟨hgranted, hset t (.zeroing page size) hmine⟩
      · exact ⟨hgranted, hset t (.refusing page) (by simp [size?])⟩
    · cases h
  | refuse t =>
    simp only [TailProtocol.next] at h
    split at h
    · obtain rfl := Option.some.inj h
      exact ⟨hgranted, hset t .idle (by simp [size?])⟩
    · cases h
  | zero t =>
    simp only [TailProtocol.next] at h
    split at h
    · rename_i page size hpc
      have hmine := hpcs t
      rw [hpc] at hmine
      obtain rfl := Option.some.inj h
      exact ⟨hgranted, hset t (.publishing page size) hmine⟩
    · cases h
  | publish t =>
    simp only [TailProtocol.next] at h
    split at h
    · rename_i page size hpc
      have hmine := hpcs t
      rw [hpc] at hmine
      obtain rfl := Option.some.inj h
      exact ⟨hcons _ _ (hmine size rfl), hset t .idle (by simp [size?])⟩
    · cases h
  | close u =>
    obtain rfl := Option.some.inj h
    exact ⟨hgranted, hpcs⟩

/-- The allocator has moved on. -/
theorem Inv.setTail {tail : TailProtocol.State Sid} (inv : Inv g mask s)
    (htail : TailProtocol.Inv g tail)
    (hsizes : (∀ x ∈ tail.granted, 0 < x.2) ∧ ∀ i, ∀ size ∈ size? (tail.pc i), 0 < size)
    (hfrontier : TailProtocol.frontier g s.tail ≤ TailProtocol.frontier g tail) :
    Inv g mask { s with tail := tail } where
  tail := htail
  sizes := hsizes
  latches := inv.latches
  held := inv.held
  entries := inv.entries
  chained := inv.chained
  descends := inv.descends
  below := fun slot a ha => Nat.lt_of_lt_of_le (inv.below slot a ha) hfrontier
  keys := inv.keys
  opened := inv.opened
  pcs := fun j => (inv.pcs j).congr rfl rfl rfl
  granted := fun j a ha => Nat.lt_of_lt_of_le (inv.granted j a ha) hfrontier
  apart := inv.apart

/-- A session is granted an address above everything granted before. -/
theorem Inv.grant {tail : TailProtocol.State Sid} {a : Append} {addr : ℕ} (inv : Inv g mask s)
    (hinv : Inv g mask { s with tail := tail }) (hpc : s.pc i = .allocating a)
    (hadv : TailProtocol.Advances g s.tail tail) (h : ChainProtocol.grant s.tail tail = some addr) :
    Inv g mask ({ s with tail := tail }.goto i (.granted a addr)) := by
  obtain ⟨new, hnew, habove⟩ := hadv.granted
  obtain ⟨size, hmem, hfirst⟩ : ∃ size, (addr, size) ∈ tail.granted ∧
      TailProtocol.frontier g s.tail ≤ addr := by
    unfold ChainProtocol.grant at h
    split at h
    · cases h
    · rename_i hlen
      cases new with
      | nil =>
        rw [hnew] at hlen
        exact absurd rfl hlen
      | cons x new =>
        rw [hnew] at h ⊢
        obtain rfl := Option.some.inj h
        exact ⟨x.2, List.mem_cons_self, habove x List.mem_cons_self⟩
  have hsize : 0 < size := hinv.sizes.1 _ hmem
  have hbelow : addr + size ≤ TailProtocol.frontier g tail := hinv.tail.below _ hmem
  have hpage : FIRST_VALID_ADDRESS ≤ addr :=
    le_trans (hinv.tail.inPage _ hmem).1 Nat.and_le_left
  have hok := hinv.pcs i
  rw [show ({ s with tail := tail } : State Sid).pc i = s.pc i from rfl, hpc] at hok
  have hchain : ∀ slot, ∀ x ∈ s.published slot, x < addr :=
    fun slot x hx => Nat.lt_of_lt_of_le (inv.below slot x hx) hfirst
  refine hinv.goto ?_ ?_ ⟨hok.1, hok.2, ?_, hchain _, hpage⟩ (by rw [show _ = _ from hpc]; nofun)
  · intro key hk
    apply inv.held i key
    rw [hpc]
    exact hk
  · intro x hx
    cases hx
    refine ⟨show addr < TailProtocol.frontier g tail by omega, ?_⟩
    intro j hj hmine
    have := inv.granted j addr hmine
    omega
  · intro slot hx
    exact Nat.lt_irrefl _ (hchain slot addr hx)

theorem Inv.stepTail {l : TailProtocol.Label Sid} (inv : Inv g mask s)
    (hfits : Fits g s (.tail l)) (h : ChainProtocol.stepTail g s l = some s') : Inv g mask s' := by
  unfold ChainProtocol.stepTail at h
  split at h
  · rename_i hnone
    obtain ⟨tail, htail, rfl⟩ := Option.map_eq_some_iff.mp h
    obtain ⟨htailInv, hadv⟩ := TailProtocol.step_spec inv.tail hfits htail
    have hpos : LogProtocol.positiveSize l = true := by
      cases l with
      | fetchAdd t size => cases hnone
      | _ => rfl
    exact inv.setTail htailInv (sizes_step htail hpos inv.sizes.1 inv.sizes.2) hadv.frontier_le
  · rename_i i _
    split at h
    · rename_i a hpc
      split at h
      · rename_i hpos
        obtain ⟨tail, htail, rfl⟩ := Option.map_eq_some_iff.mp h
        obtain ⟨htailInv, hadv⟩ := TailProtocol.step_spec inv.tail hfits htail
        have hinv := inv.setTail htailInv (sizes_step htail hpos inv.sizes.1 inv.sizes.2)
          hadv.frontier_le
        split
        · exact inv.grant hinv hpc hadv ‹_›
        · -- still allocating
          have hsame : ({ s with tail := tail } : State Sid).goto i (.allocating a) =
              { s with tail := tail } := by
            unfold State.goto
            rw [← hpc, Function.update_eq_self]
          rw [hsame]
          exact hinv
      · cases h
    · cases h

/-- A step on a latch word is about the thread that makes it. -/
theorem latch_threads_ne {w w' : LatchWord.State Sid} {l : LatchWord.Label Sid}
    (h : LatchWord.next w l = some w') (hj : j ≠ l.thread) : w'.threads j = w.threads j := by
  obtain ⟨t, m⟩ := l
  have hset : ∀ {v : LatchWord.State Sid} {lo : LatchWord.Local},
      some (v.set t lo) = some w' → v.threads = w.threads → w'.threads j = w.threads j := by
    intro v lo heq hv
    obtain rfl := Option.some.inj heq
    show (if j = t then lo else v.threads j) = w.threads j
    rw [if_neg hj, hv]
  have hcall : ∀ (spurious : Bool) (pc : LatchWord.Pc),
      LatchWord.stepCall w t spurious pc = some w' → w'.threads j = w.threads j := by
    intro spurious pc hcall
    unfold LatchWord.stepCall at hcall
    split at hcall
    case h_1 => cases hcall
    case h_7 => exact hset hcall rfl
    case h_8 => exact hset hcall rfl
    all_goals split at hcall <;> exact hset hcall rfl
  simp only [LatchWord.next] at h
  unfold LatchWord.stepThread at h
  split at h
  · exact hcall _ _ h
  split at h
  · split at h
    case h_1 => exact hset h rfl
    case h_2 => exact hset h rfl
    case h_6 => cases h
    all_goals
      split at h
      · exact hset h rfl
      · cases h
  · cases h

theorem Inv.stepLatch {b : ℕ} {l : LatchWord.Label Sid} (inv : Inv g mask s)
    (h : ChainProtocol.stepLatch s b l = some s') : Inv g mask s' := by
  unfold ChainProtocol.stepLatch at h
  split at h
  · rename_i hidle
    obtain ⟨w, hw, rfl⟩ := Option.map_eq_some_iff.mp h
    refine ⟨inv.tail, inv.sizes, ?_, ?_, inv.entries, inv.chained, inv.descends, inv.below, inv.keys,
      inv.opened, fun j => (inv.pcs j).congr rfl rfl rfl, inv.granted, inv.apart⟩
    · intro c
      show LatchWord.Inv (Function.update s.latches b w c)
      by_cases hc : c = b
      · rw [hc, Function.update_self]
        exact (inv.latches b).step hw
      · rw [Function.update_of_ne hc]
        exact inv.latches c
    · intro j key hkey
      have hne : j ≠ l.thread := by
        rintro rfl
        have hkey' : key ∈ (s.pc l.thread).key := hkey
        rw [hidle] at hkey'
        cases hkey'
      show ((Function.update s.latches b w (keySlot mask key).bucket).threads j).exclusive = true
      have hheld := inv.held j key hkey
      by_cases hc : (keySlot mask key).bucket = b
      · rw [hc, Function.update_self, latch_threads_ne hw hne, ← hc]
        exact hheld
      · rw [Function.update_of_ne hc]
        exact hheld
  · cases h

theorem Inv.step {l : Label Sid} (inv : Inv g mask s) (hfits : Fits g s l)
    (h : next g mask s l = some s') : Inv g mask s' := by
  cases l with
  | tail l => exact inv.stepTail hfits h
  | latch b l => exact inv.stepLatch h
  | move i m => exact inv.stepPc hfits h

theorem inv_run {ls : List (Label Sid)}
    (h : Lts.Steps (next g mask) (Fits g) State.init ls s) : Inv g mask s :=
  h.invariant (fun inv hfits hnext => inv.step hfits hnext) (.init g mask)

/-! ## Section 5: Hash chains -/

/-- Only a compare-and-swap publishes, and it adds to the chain. -/
theorem published_step {l : Label Sid} (h : next g mask s l = some s') (slot : SlotRef) :
    s.published slot <:+ s'.published slot := by
  have hrefl : ∀ c : List ℕ, c <:+ c := fun c => List.suffix_refl c
  cases l with
  | tail l =>
    simp only [next, stepTail] at h
    split at h
    · obtain ⟨tail, -, rfl⟩ := Option.map_eq_some_iff.mp h
      exact hrefl _
    · split at h
      · split at h
        · obtain ⟨tail, -, rfl⟩ := Option.map_eq_some_iff.mp h
          exact hrefl _
        · cases h
      · cases h
  | latch b l =>
    simp only [next, stepLatch] at h
    split at h
    · obtain ⟨w, -, rfl⟩ := Option.map_eq_some_iff.mp h
      exact hrefl _
    · cases h
  | move i m =>
    have hedit : ∀ {key : Key} {entry min : ℕ} {f : RecordInfo → RecordInfo},
        s.edit key entry min f = some s' → s.published slot <:+ s'.published slot := by
      intro key entry min f h
      unfold State.edit at h
      split at h
      · obtain rfl := Option.some.inj h
        exact hrefl _
      · cases h
    simp only [next] at h
    generalize s.pc i = p at h
    unfold ChainProtocol.stepPc at h
    split at h
    case h_1 =>
      split at h
      · obtain rfl := Option.some.inj h
        exact hrefl _
      · cases h
    case h_3 => exact hedit h
    case h_4 => exact hedit h
    case h_5 =>
      obtain ⟨found, -, rfl⟩ := Option.map_eq_some_iff.mp h
      exact hrefl _
    case h_7 =>
      split at h
      · obtain rfl := Option.some.inj h
        exact hrefl _
      · cases h
    case h_8 => split at h <;> obtain rfl := Option.some.inj h <;> exact hrefl _
    case h_9 =>
      rename_i a addr
      split at h
      · obtain rfl := Option.some.inj h
        show s.published slot <:+ (s.publish _ addr).published slot
        by_cases hslot : slot = keySlot mask a.key
        · rw [hslot, publish_published_self]
          exact List.suffix_cons _ _
        · simpa only [publish_published_ne hslot] using hrefl _
      · obtain rfl := Option.some.inj h
        exact hrefl _
    case h_11 => split at h <;> obtain rfl := Option.some.inj h <;> exact hrefl _
    case h_12 => cases h
    all_goals
      obtain rfl := Option.some.inj h
      exact hrefl _

/-- **Hash chains.**  In every run in which the published addresses fit their 48 bits and the
    tail word does not overflow: following a chain from its entry leads through all records
    published there, with descending addresses, and each belongs to the slot; no step takes
    one off.  When nobody has the exclusive latch, the newest record of every key is valid and
    not sealed; to the session that has it and looks for its key likewise.  So the walks
    along a chain end, and nobody waits for a closed record in vain. -/
theorem hash_chains {ls : List (Label Sid)}
    (h : Lts.Steps (next g mask) (Fits g) State.init ls s) :
    (∀ slot, Chained s.records (s.entries slot) (s.published slot) ∧
      (s.published slot).Pairwise (· > ·)) ∧
    (∀ slot, ∀ a ∈ s.published slot, ∃ r, s.records a = some r ∧ keySlot mask r.key = slot) ∧
    (∀ l s' slot, next g mask s l = some s' → s.published slot <:+ s'.published slot) ∧
    (∀ slot, (∀ i, ((s.latches slot.bucket).threads i).exclusive = false) →
      ∀ key a, newest s.records (s.published slot) key = some a →
        ∃ r, s.records a = some r ∧ r.info.isValid = true ∧ r.info.isSealed = false) ∧
    (∀ i key entry min n addr, s.pc i = .loaded key entry →
      traceBack s.records key min n entry = some (.found addr) →
        ∃ r, s.records addr = some r ∧ r.info.isValid = true ∧ r.info.isSealed = false) ∧
    (∀ slot start, start = s.entries slot ∨ start ∈ s.published slot →
      ∀ key min head addr, ∃ n,
        (∃ t, traceBack s.records key min n start = some t) ∧
        (∃ t, findOnDisk s.records key n start = some t) ∧
        (∃ t, isLatest s.records key head addr n start = some t)) := by
  have inv := inv_run h
  have hopen : ∀ {r : Rec}, r.info.isClosed = false → r.info.isValid = true ∧ r.info.isSealed = false := by
    intro r hr
    simpa [RecordInfo.isClosed] using hr
  refine ⟨fun slot => ⟨inv.chained slot, inv.descends slot⟩, ?_, ?_, ?_, ?_, ?_⟩
  · intro slot a ha
    obtain ⟨-, r, hr⟩ := (inv.chained slot).record ha
    exact ⟨r, hr, inv.keys slot a ha r hr⟩
  · intro l s' slot hstep
    exact published_step hstep slot
  · intro slot hfree key a hnewest
    obtain ⟨hmem, r, hr, hkey⟩ := newest_mem hnewest
    refine ⟨r, hr, ?_⟩
    rcases inv.opened slot key a r hnewest hr with hclosed | ⟨i, ap, hi⟩
    · exact hopen hclosed
    · -- whoever validates has the latch
      exfalso
      have hok := inv.pcs i
      rw [hi] at hok
      obtain ⟨-, -, -, r', hr', hkey'⟩ := hok
      obtain rfl : r = r' := Option.some.inj (hr.symm.trans hr')
      have hslot := inv.keys slot a hmem r hr
      have hheld := inv.held i ap.key (by rw [hi]; rfl)
      rw [← hkey', hslot, hfree i] at hheld
      cases hheld
  · intro i key entry min n addr hpc htrace
    have hentry := inv.pcs i
    rw [hpc] at hentry
    have hchained := inv.chained (keySlot mask key)
    rw [show s.entries (keySlot mask key) = entry from hentry] at hchained
    have hnewest := hchained.traceBack_found htrace
    obtain ⟨-, r, hr, -⟩ := newest_mem hnewest
    exact ⟨r, hr, hopen (inv.loaded_open hpc hnewest hr)⟩
  · intro slot start hstart key min head addr
    exact ⟨_, (inv.chained slot).loops_end hstart key min head addr⟩

end Invariant

/-! ### A key written twice -/

/-- Take the exclusive latch of the bucket. -/
def takeLatch (bucket : ℕ) : List (Label Unit) :=
  [.latch bucket ⟨(), .tryExclusive⟩, .latch bucket ⟨(), .step false⟩, .latch bucket ⟨(), .step false⟩,
    .latch bucket ⟨(), .step false⟩]

/-- An upsert that finds room in the page. -/
def appendInPage (key : Key) (size : ℕ) : List (Label Unit) :=
  [.move () (.start key), .move () .load, .move () (.append 0 true false false),
    .tail (.fetchAdd () size), .move () .init, .move () .cas, .move () .validate, .move () .sealOld]

def writeTwice : List (Label Unit) :=
  takeLatch (keySlot 7 [1]).bucket ++ appendInPage [1] 64 ++ appendInPage [1] 64 ++
    [.latch (keySlot 7 [1]).bucket ⟨(), .unlockExclusive⟩]

theorem hash_chains_writeTwice :
    ∃ s : State Unit, Lts.Steps (next (Geometry.twoPages 9 (by decide)) 7)
      (Fits (Geometry.twoPages 9 (by decide))) State.init writeTwice s ∧
      s.published (keySlot 7 [1]) = [128, 64] ∧
      ((s.records 64).map fun r => r.info.isSealed) = some true ∧
      ∃ r, s.records 128 = some r ∧ r.info.isValid = true ∧ r.info.isSealed = false := by
  have hend : (Lts.runChecked (next (Geometry.twoPages 9 (by decide)) 7)
      (Fits (Geometry.twoPages 9 (by decide))) State.init writeTwice).map (fun s =>
      decide (s.published (keySlot 7 [1]) = [128, 64] ∧
        ((s.records 64).map fun r => r.info.isSealed) = some true ∧
        ((s.latches (keySlot 7 [1]).bucket).threads ()).exclusive = false ∧
        newest s.records (s.published (keySlot 7 [1])) [1] = some 128)) = some true := by
    decide +kernel
  obtain ⟨s, hrun, hs⟩ := Lts.exists_steps _ _ _ _ _ hend
  obtain ⟨hpub, hsealed, hfree, hnewest⟩ := of_decide_eq_true hs
  exact ⟨s, hrun, hpub, hsealed,
    (hash_chains hrun).2.2.2.1 _ (fun _ => hfree) [1] 128 hnewest⟩

/-! ### Beyond 48 bits -/

/-- A log with pages of a gigabyte. -/
def bigPages : Geometry := Geometry.twoPages 30 (by decide)

/-- The first address of page `n`. -/
def pageAddress (n : ℕ) : ℕ := n * 2 ^ 30 + 64

/-- The size of a record that fills a page. -/
def wholePage : ℕ := 2 ^ 30 - 64

/-- The fields of the tail word do not overflow. -/
def TailInRange (s : State Unit) : Label Unit → Prop
  | .tail l => TailProtocol.InRange bigPages s.tail l
  | _ => True

instance (s : State Unit) : (l : Label Unit) → Decidable (TailInRange s l)
  | .tail l => inferInstanceAs (Decidable (TailProtocol.InRange bigPages s.tail l))
  | .latch _ _ => .isTrue trivial
  | .move _ _ => .isTrue trivial

/-- The steps of the allocator for a record that fills the page after page `n`, where it gets
    the address `new`. -/
structure TurnsPage (n new : ℕ) (t t₁ t₂ t₃ t₄ : TailProtocol.State Unit) : Prop where
  fetchAdd : TailProtocol.next bigPages t (.fetchAdd () wholePage) = some t₁
  checkFree : TailProtocol.next bigPages t₁ (.checkFree ()) = some t₂
  zero : TailProtocol.next bigPages t₂ (.zero ()) = some t₃
  publish : TailProtocol.next bigPages t₃ (.publish ()) = some t₄
  addInRange : TailProtocol.InRange bigPages t (.fetchAdd () wholePage)
  publishInRange : TailProtocol.InRange bigPages t₃ (.publish ())
  granted₁ : t₁.granted = t.granted
  granted₂ : t₂.granted = t.granted
  granted₃ : t₃.granted = t.granted
  granted₄ : t₄.granted = (new, wholePage) :: t.granted
  tail : t₄.tail = pack (n + 1) (2 ^ 30)
  idle : t₄.pc () = .idle

/-- The allocator goes from a full page to the next and fills it. -/
theorem turn_big_page {n : ℕ} {t : TailProtocol.State Unit} (htail : t.tail = pack n (2 ^ 30))
    (hidle : t.pc () = .idle) (hclosed : t.closedUntil = n * 2 ^ 30) (hn : n + 1 < 2 ^ 32) :
    ∃ t₁ t₂ t₃ t₄, TurnsPage n (pageAddress (n + 1)) t t₁ t₂ t₃ t₄ := by
  have hunpack : unpack t.tail = (n, 2 ^ 30) := by
    rw [htail]
    exact unpack_pack (by omega) (by decide)
  have hsize : TailProtocol.AdmittedSize bigPages wholePage := by decide
  have hps : bigPages.pageSize = 2 ^ 30 := rfl
  have hfree : bigPages.pageIsFree t.closedUntil (n + 1) = true := by
    rw [hclosed]
    show (decide (n + 1 < 2) || decide ((n + 1 - 2 + 1) <<< 30 ≤ n * 2 ^ 30)) = true
    rw [Bool.or_eq_true, decide_eq_true_eq, decide_eq_true_eq, Nat.shiftLeft_eq]
    omega
  have haddr : (n + 1) <<< bigPages.pageBits ||| FIRST_VALID_ADDRESS = pageAddress (n + 1) :=
    bigPages.join_eq bigPages.header_lt_pageSize
  have hadd : TailProtocol.afterFetchAdd bigPages t () wholePage =
      { t with
        tail := fetchAdd t.tail wholePage
        pc := TailProtocol.setPc t.pc () (.turning n wholePage) } := by
    unfold TailProtocol.afterFetchAdd
    rw [hunpack, hps]
    rfl
  have hrange : TailProtocol.InRange bigPages t (.fetchAdd () wholePage) := by
    show (unpack t.tail).2 + wholePage < 2 ^ 32 ∧ (wholePage = 0 → _)
    rw [hunpack]
    exact ⟨show 2 ^ 30 + wholePage < 2 ^ 32 by decide, nofun⟩
  let t₁ : TailProtocol.State Unit :=
    ⟨fetchAdd t.tail wholePage, t.closedUntil, TailProtocol.setPc t.pc () (.turning n wholePage),
      t.granted⟩
  let t₂ : TailProtocol.State Unit :=
    { t₁ with pc := TailProtocol.setPc t₁.pc () (.zeroing n wholePage) }
  let t₃ : TailProtocol.State Unit :=
    { t₂ with pc := TailProtocol.setPc t₂.pc () (.publishing n wholePage) }
  let t₄ : TailProtocol.State Unit :=
    ⟨pack (n + 1) (FIRST_VALID_ADDRESS + wholePage), t.closedUntil, TailProtocol.setPc t₃.pc () .idle,
      ((n + 1) <<< bigPages.pageBits ||| FIRST_VALID_ADDRESS, wholePage) :: t.granted⟩
  refine ⟨t₁, t₂, t₃, t₄, ?_, ?_, ?_, ?_, hrange, hn, rfl, rfl, rfl, ?_, rfl, rfl⟩
  · rw [TailProtocol.next, if_pos ⟨hsize, .inl hidle⟩, hadd]
  · show (if bigPages.pageIsFree t.closedUntil (n + 1) then _ else _) = some t₂
    rw [if_pos hfree]
  · rfl
  · rfl
  · show (_, _) :: _ = _
    rw [haddr]

/-- A step of the allocator that grants nothing yet. -/
theorem stepTail_wait {s : State Unit} {l : TailProtocol.Label Unit} {t : TailProtocol.State Unit}
    {a : Append} (hpc : s.pc () = .allocating a) (hthread : LogProtocol.allocThread l = some ())
    (hpos : LogProtocol.positiveSize l = true)
    (hnext : TailProtocol.next bigPages s.tail l = some t) (hsame : t.granted = s.tail.granted) :
    next bigPages 7 s (.tail l) = some ({ s with tail := t }) := by
  have hgrant : grant s.tail t = none := by
    unfold grant
    rw [hsame, if_pos rfl]
  have hgoto : ({ s with tail := t } : State Unit).goto () (.allocating a) = { s with tail := t } := by
    unfold State.goto
    rw [← hpc, Function.update_eq_self]
  simp only [next, stepTail, hthread, hpc, hpos, if_true, hnext, Option.map_some, hgrant, hgoto]

/-- The step of the allocator that grants an address. -/
theorem stepTail_grant {s : State Unit} {l : TailProtocol.Label Unit} {t : TailProtocol.State Unit}
    {a : Append} {addr size : ℕ} (hpc : s.pc () = .allocating a)
    (hthread : LogProtocol.allocThread l = some ()) (hpos : LogProtocol.positiveSize l = true)
    (hnext : TailProtocol.next bigPages s.tail l = some t)
    (hnew : t.granted = (addr, size) :: s.tail.granted) :
    next bigPages 7 s (.tail l) = some (({ s with tail := t } : State Unit).goto () (.granted a addr)) := by
  have hgrant : grant s.tail t = some addr := by
    unfold grant
    rw [hnew, if_neg (by simp)]
    rfl
  simp only [next, stepTail, hthread, hpc, hpos, if_true, hnext, Option.map_some, hgrant]

/-- An upsert whose record fills the page after page `n`, the pages before `n` being closed. -/
def appendNextPage (n : ℕ) (key : Key) : List (Label Unit) :=
  [.tail (.close (n * 2 ^ 30)), .move () (.start key), .move () .load,
    .move () (.append 0 false false false),
    .tail (.fetchAdd () wholePage), .tail (.checkFree ()), .tail (.zero ()), .tail (.publish ()),
    .move () .init, .move () .cas, .move () .validate, .move () .sealOld]

/-- Page `n` is filled by one record at `addr`, the newest of its chain. -/
structure PageFull (n addr : ℕ) (s : State Unit) : Prop where
  idle : s.pc () = .idle
  held : ((s.latches (keySlot 7 [1]).bucket).threads ()).exclusive = true
  tail : s.tail.tail = pack n (2 ^ 30)
  allocIdle : s.tail.pc () = .idle
  entry : s.entries (keySlot 7 [1]) = maskAddress addr
  published : ∃ c, s.published (keySlot 7 [1]) = addr :: c
  record : ∃ r, s.records addr = some r ∧ r.key = [1] ∧ r.info.isClosed = false

/-- A key whose record is on top of its chain. -/
theorem found_on_top {s : State Unit} {a : ℕ} {r : Rec} (hr : s.records a = some r)
    (hopen : r.info.isClosed = false) (hfirst : FIRST_VALID_ADDRESS ≤ a) :
    s.found r.key a 0 = some (some a) := by
  have htrace : traceBack s.records r.key 0 (a + 1) a = some (.found a) := by
    simp [traceBack, follow, hr, hfirst]
  simp [State.found, htrace, hr, hopen]

/-- While the address fits an entry, the next upsert fills the next page. -/
theorem PageFull.append {n old new : ℕ} {s : State Unit} {t₁ t₂ t₃ t₄ : TailProtocol.State Unit}
    (h : PageFull n old s)
    (turn : TurnsPage n new { s.tail with closedUntil := n * 2 ^ 30 } t₁ t₂ t₃ t₄)
    (hfits : old < 2 ^ 48) (hfirst : FIRST_VALID_ADDRESS ≤ old) (hlt : ¬ new ≤ old) :
    ∃ s', Lts.Steps (next bigPages 7) TailInRange s (appendNextPage n [1]) s' ∧
      PageFull (n + 1) new s' := by
  obtain ⟨r, hr, hkey, hopen⟩ := h.record
  have hentry : s.entries (keySlot 7 [1]) = old := by
    rw [h.entry, maskAddress_of_lt hfits]
  let s₀ : State Unit := { s with tail := { s.tail with closedUntil := n * 2 ^ 30 } }
  have hfound : s₀.found [1] old 0 = some (some old) := by
    rw [← hkey]
    exact found_on_top (s := s₀) hr hopen hfirst
  let a : Append := ⟨[1], old, none, false, false⟩
  let s₂ : State Unit := (s₀.goto () (.starting [1])).goto () (.loaded [1] old)
  let s₃ : State Unit := s₂.goto () (.allocating a)
  let s₇ : State Unit := ({ s₃ with tail := t₄ } : State Unit).goto () (.granted a new)
  let s₈ : State Unit := (s₇.setRecord new (some a.record)).goto () (.swapping a new)
  let s₉ : State Unit := (s₈.publish (keySlot 7 [1]) new).goto () (.validating a new)
  let s₁₀ : State Unit := (s₉.setInfo new RecordInfo.unsealAndValidate).goto () (.sealing a new)
  have hstart : next bigPages 7 s₀ (.move () (.start [1])) = some (s₀.goto () (.starting [1])) := by
    show stepPc 7 s₀ () (s.pc ()) _ = _
    rw [h.idle]
    show (if ((s.latches (keySlot 7 [1]).bucket).threads ()).exclusive = true then _ else _) = _
    rw [if_pos h.held]
  have hload : next bigPages 7 (s₀.goto () (.starting [1])) (.move () .load) = some s₂ := by
    simp only [next, goto_self, stepPc, s₂, Option.some.injEq]
    rw [← hentry]
    rfl
  have happend : next bigPages 7 s₂ (.move () (.append 0 false false false)) = some s₃ := by
    show Option.map _ (s₀.found [1] old 0) = some s₃
    rw [hfound]
    rfl
  have hpc₃ : s₃.pc () = .allocating a := goto_self _ _ _
  have hgrant : t₄.granted = (new, wholePage) :: t₃.granted := by
    rw [turn.granted₄, turn.granted₃]
  have hinit : next bigPages 7 s₇ (.move () .init) = some s₈ := by
    simp only [next, s₇, goto_self, stepPc]
    rw [if_neg hlt]
  have hcas : next bigPages 7 s₈ (.move () .cas) = some s₉ := by
    show (if s.entries (keySlot 7 [1]) = old then _ else _) = _
    rw [if_pos hentry]
  have hvalidate : next bigPages 7 s₉ (.move () .validate) = some s₁₀ := rfl
  have hseal : next bigPages 7 s₁₀ (.move () .sealOld) = some (s₁₀.goto () .idle) := rfl
  have hentries : (s₁₀.goto () .idle).entries (keySlot 7 [1]) = maskAddress new := by
    simp only [s₁₀, s₉, State.goto, State.setInfo, State.setRecord, publish_entries_self]
  have hpublished : (s₁₀.goto () .idle).published (keySlot 7 [1]) =
      new :: s₈.published (keySlot 7 [1]) := by
    simp only [s₁₀, s₉, State.goto, State.setInfo, State.setRecord, publish_published_self]
  have hrecord : (s₁₀.goto () .idle).records new =
      some { a.record with info := a.record.info.unsealAndValidate } := by
    have hwritten : s₉.records new = some a.record := Function.update_self _ _ _
    show Function.update s₉.records new _ new = _
    rw [Function.update_self, hwritten]
    rfl
  refine ⟨s₁₀.goto () .idle, .cons trivial rfl (.cons trivial hstart (.cons trivial hload
    (.cons trivial happend
    (.cons turn.addInRange (stepTail_wait hpc₃ rfl rfl turn.fetchAdd turn.granted₁)
    (.cons trivial (stepTail_wait hpc₃ rfl rfl turn.checkFree (turn.granted₂.trans turn.granted₁.symm))
    (.cons trivial (stepTail_wait hpc₃ rfl rfl turn.zero (turn.granted₃.trans turn.granted₂.symm))
    (.cons turn.publishInRange (stepTail_grant hpc₃ rfl rfl turn.publish hgrant)
    (.cons trivial hinit (.cons trivial hcas (.cons trivial hvalidate (.cons trivial hseal
    (.nil _)))))))))))), ?_⟩
  exact ⟨rfl, h.held, turn.tail, turn.idle, hentries, ⟨_, hpublished⟩, ⟨_, hrecord, rfl, rfl⟩⟩

/-- The first upsert fills page 0. -/
theorem pageFull_zero : ∃ s : State Unit, Lts.Steps (next bigPages 7) TailInRange State.init
    (takeLatch (keySlot 7 [1]).bucket ++ appendInPage [1] wholePage) s ∧
      PageFull 0 (pageAddress 0) s := by
  have hend : (Lts.runChecked (next bigPages 7) TailInRange State.init
      (takeLatch (keySlot 7 [1]).bucket ++ appendInPage [1] wholePage)).map (fun s =>
      decide (s.pc () = .idle ∧
        ((s.latches (keySlot 7 [1]).bucket).threads ()).exclusive = true ∧
        s.tail.tail = pack 0 (2 ^ 30) ∧ s.tail.pc () = .idle ∧
        s.entries (keySlot 7 [1]) = maskAddress (pageAddress 0) ∧
        s.published (keySlot 7 [1]) = [pageAddress 0] ∧
        (s.records (pageAddress 0)).map (fun r => (r.key, r.info.isClosed)) = some ([1], false))) =
      some true := by
    decide +kernel
  obtain ⟨s, hrun, hs⟩ := Lts.exists_steps _ _ _ _ _ hend
  obtain ⟨hidle, hheld, htail, halloc, hentry, hpublished, hrecord⟩ := of_decide_eq_true hs
  obtain ⟨r, hr, hrkey⟩ := Option.map_eq_some_iff.mp hrecord
  exact ⟨s, hrun, hidle, hheld, htail, halloc, hentry, ⟨[], hpublished⟩, r, hr,
    congrArg Prod.fst hrkey, congrArg Prod.snd hrkey⟩

/-- One upsert after the other fills the pages that an entry can address, and one more. -/
theorem pageFull_reachable {n : ℕ} (hn : n ≤ 2 ^ 18) : ∃ ls, ∃ s : State Unit,
    Lts.Steps (next bigPages 7) TailInRange State.init ls s ∧ PageFull n (pageAddress n) s := by
  induction n with
  | zero =>
    obtain ⟨s, hrun, hfull⟩ := pageFull_zero
    exact ⟨_, s, hrun, hfull⟩
  | succ n ih =>
    obtain ⟨ls, s, hrun, hfull⟩ := ih (by omega)
    obtain ⟨t₁, t₂, t₃, t₄, turn⟩ := turn_big_page (n := n)
      (t := { s.tail with closedUntil := n * 2 ^ 30 }) hfull.tail hfull.allocIdle rfl (by omega)
    have hfits : pageAddress n < 2 ^ 48 := by
      unfold pageAddress
      omega
    have hfirst : FIRST_VALID_ADDRESS ≤ pageAddress n := by
      unfold pageAddress FIRST_VALID_ADDRESS PAGE_HEADER_SIZE
      omega
    have hlt : ¬ pageAddress (n + 1) ≤ pageAddress n := by
      unfold pageAddress
      omega
    obtain ⟨s', hrun', hfull'⟩ := hfull.append turn hfits hfirst hlt
    exact ⟨_, s', hrun.append hrun', hfull'⟩

/-- Behind `2 ^ 48` the entry no longer leads to the record that was published last. -/
theorem chain_lost_beyond_48_bits : ∃ ls, ∃ s : State Unit,
    Lts.Steps (next bigPages 7) TailInRange State.init ls s ∧
    ((s.latches (keySlot 7 [1]).bucket).threads ()).exclusive = true ∧
    s.pc () = .idle ∧
    (s.published (keySlot 7 [1])).head? = some (2 ^ 48 + 64) ∧
    s.entries (keySlot 7 [1]) = 64 ∧
    ¬ Chained s.records (s.entries (keySlot 7 [1])) (s.published (keySlot 7 [1])) := by
  obtain ⟨ls, s, hrun, hfull⟩ := pageFull_reachable (le_refl _)
  obtain ⟨c, hc⟩ := hfull.published
  have hentry : s.entries (keySlot 7 [1]) = 64 := by
    rw [hfull.entry]
    decide
  have hhead : (s.published (keySlot 7 [1])).head? = some (2 ^ 48 + 64) := by
    rw [hc]
    rfl
  refine ⟨ls, s, hrun, hfull.held, hfull.idle, hhead, hentry, ?_⟩
  intro hchained
  rw [hc, hentry] at hchained
  exact absurd hchained.1 (by decide)

end Tsavorite.ChainProtocol
