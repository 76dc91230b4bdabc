import MiniGarnet.Tsavorite.FarLog
import MiniGarnet.Tsavorite.LostUpdates

/-! # One session

    With a single session and no checkpoint nothing can overtake a disk
    read, so the store is a plain map.  It also always gets on: an operation
    has to be tried again only while the log makes room, and two bumps of
    the epoch make room for any record.
-/

namespace Tsavorite

/-! ## Section 1: Making room -/

/-- How far the log has come when an operation that has backed off `n` times tries again. -/
structure Waits (g : Geometry) (log : HybridLog) (n : ℕ) : Prop where
  le : n ≤ 3
  settled : 1 ≤ n → Settled g log
  shifted : 2 ≤ n → HybridLog.desiredRo g (log.tailPage + 1) ≤ log.readOnly
  free : 3 ≤ n → g.pageIsFree log.closedUntil (log.tailPage + 1) = true

/-- How far it has come when the operation is about to back off for the `n`th time. -/
structure BacksOff (g : Geometry) (log : HybridLog) (n : ℕ) : Prop where
  pos : 1 ≤ n
  le : n ≤ 3
  shifted : 2 ≤ n → HybridLog.desiredRo g (log.tailPage + 1) ≤ log.readOnly
  head : 3 ≤ n → HybridLog.desiredHead g (log.tailPage + 1) ≤ log.head

section MakingRoom

variable {g : Geometry} {log log' : HybridLog} {cells : List Cell} {n : ℕ}

theorem waits_zero (g : Geometry) (log : HybridLog) : Waits g log 0 :=
  ⟨by omega, by omega, by omega, by omega⟩

theorem desiredHead_le_desiredRo (g : Geometry) (next : ℕ) :
    HybridLog.desiredHead g next ≤ HybridLog.desiredRo g next := le_max_right _ _

theorem Waits.bump (h : Waits g log n) (hinv : LogInv g log cells) :
    Waits g (log.bumpCurrentEpoch g) n := by
  have hdr := bumpCurrentEpoch_drained g log
  have htail := tailPage_of_tail_eq hdr.tail
  refine ⟨h.le, fun hn => (h.settled hn).bump hinv.pages, fun hn => ?_, fun hn => ?_⟩
  · rw [htail, hdr.readOnly]
    exact h.shifted hn
  · rw [htail]
    exact Geometry.pageIsFree_mono hdr.closed (h.free hn)

theorem Waits.setEpoch (h : Waits g log n) (e : LightEpoch DrainAction) :
    Waits g { log with epoch := e } n :=
  ⟨h.le, fun hn => ⟨(h.settled hn).readOnly, (h.settled hn).head⟩, h.shifted, h.free⟩

theorem BacksOff.mono (h : BacksOff g log n) (hdr : Drained log log') : BacksOff g log' n := by
  have htail := tailPage_of_tail_eq hdr.tail
  refine ⟨h.pos, h.le, fun hn => ?_, fun hn => ?_⟩
  · rw [htail, hdr.readOnly]
    exact h.shifted hn
  · rw [htail, hdr.head]
    exact h.head hn

/-- Once the head has reached the desired one and the pages below it are closed, the next
    page is free. -/
theorem LogInv.free_of_settled (hinv : LogInv g log cells) (hs : Settled g log)
    (hhead : HybridLog.desiredHead g (log.tailPage + 1) ≤ log.head) :
    g.pageIsFree log.closedUntil (log.tailPage + 1) = true := by
  have hlt := hs.head
  obtain ⟨q, hq⟩ : ∃ q, log.closedUntil = q * g.pageSize :=
    ⟨log.closedUntil / g.pageSize,
      (Nat.div_mul_cancel (Nat.dvd_of_mod_eq_zero hinv.closed_page)).symm⟩
  unfold HybridLog.desiredHead at hhead
  have hq' : (log.tailPage + 1 + 2 - g.bufferSize) * g.pageSize < (q + 1) * g.pageSize := by
    rw [Nat.add_mul q, one_mul]
    omega
  have hk := Nat.lt_of_mul_lt_mul_right hq'
  simp only [Geometry.pageIsFree, Bool.or_eq_true, decide_eq_true_eq, Nat.shiftLeft_eq]
  by_cases hbuf : log.tailPage + 1 < g.bufferSize
  · exact .inl hbuf
  · right
    rw [hq]
    exact Nat.mul_le_mul_right _ (by omega)

/-- The bump of a back-off. -/
theorem BacksOff.bump (h : BacksOff g log n) (hinv : LogInv g log cells) (hdue : Due g log)
    (htable : log.epoch.table = []) : Waits g (log.bumpCurrentEpoch g) n := by
  have hdr := bumpCurrentEpoch_drained g log
  have hs := hdue.settled_bump hinv.pages htable
  have hm := h.mono hdr
  exact ⟨h.le, fun _ => hs, hm.shifted, fun hn => hinv.bumpCurrentEpoch.free_of_settled hs
    (hm.head hn)⟩

/-- What a refused page turn has issued. -/
theorem Refused.spec (h : Refused g log log') (hpage : log.tailPage < 2 ^ 32) :
    log'.tailPage = log.tailPage ∧ HybridLog.desiredRo g (log.tailPage + 1) ≤ log'.readOnly ∧
      min (HybridLog.desiredHead g (log.tailPage + 1)) log.flushedUntil ≤ log'.head := by
  have hps := g.pageSize_le
  obtain ⟨-, rfl⟩ := h
  obtain ⟨hsh, hro, hhead⟩ := issueShiftAddresses_shifted g
    { log with tail := pack log.tailPage g.pageSize } (log.tailPage + 1)
  refine ⟨?_, by rw [hro]; exact le_max_right _ _, hhead⟩
  rw [HybridLog.tailPage, hsh.tail]
  show (unpack (pack log.tailPage g.pageSize)).1 = log.tailPage
  rw [unpack_pack hpage (by omega)]

/-- An attempt that finds no room. -/
theorem Waits.refused (h : Waits g log n) (hinv : LogInv g log cells)
    {pages : ℕ → ℕ → Option Record} (href : Refused g { log with pages := pages } log') :
    BacksOff g log' (n + 1) := by
  have hle := h.le
  have hn : n ≠ 3 := by
    rintro rfl
    have hfree : g.pageIsFree log.closedUntil (log.tailPage + 1) = false := href.1
    rw [h.free (le_refl _)] at hfree
    cases hfree
  obtain ⟨htail, hro, hhead⟩ : log'.tailPage = log.tailPage ∧
      HybridLog.desiredRo g (log.tailPage + 1) ≤ log'.readOnly ∧
      min (HybridLog.desiredHead g (log.tailPage + 1)) log.flushedUntil ≤ log'.head :=
    href.spec hinv.tailPage_lt
  refine ⟨by omega, by omega, fun _ => by rw [htail]; exact hro, fun hn' => ?_⟩
  -- After two refusals everything up to the desired head has been flushed.
  have hflushed := (h.settled (by omega)).readOnly
  have hshifted := h.shifted (by omega)
  have := desiredHead_le_desiredRo g (log.tailPage + 1)
  rw [htail]
  omega

/-- An attempt that finds its record on the way to being immutable. -/
theorem Waits.fuzzy (h : Waits g log n) (hinv : LogInv g log cells) {a : ℕ}
    (hsafe : log.safeReadOnly ≤ a) (hro : a < log.readOnly) : BacksOff g log (n + 1) := by
  have hn : n = 0 := by
    by_contra hne
    have hflushed := (h.settled (by omega)).readOnly
    have := hinv.flushed_le
    omega
  subst hn
  exact ⟨by omega, by omega, by omega, by omega⟩

end MakingRoom

/-! ## Section 2: Histories of the plain map -/

/-- Every event is explained by the map the events before it have left behind. -/
def Explained {I O : Type} (f : SessionFunctions I O) : List (Event I O) → Prop
  | [] => True
  | e :: h => e.Justified f (outcomeOf h) ∧ Explained f h

/-! ## Section 3: The invariant of a single session -/

/-- The steps of session 0 and epoch bumps, while there is address space. -/
def Sole {I O : Type} (g : Geometry) (s : System I O) : Label I O → Prop
  | .start t _ _ | .enter t | .diskRead t | .backoff t => t = 0
  | .attempt t => t = 0 ∧ s.store.log.HasSpace g
  | .bump => True
  | .checkpoint _ => False

instance {I O : Type} (g : Geometry) (s : System I O) : (l : Label I O) → Decidable (Sole g s l)
  | .start _ _ _ | .enter _ | .diskRead _ | .backoff _ => inferInstanceAs (Decidable (_ = _))
  | .attempt _ => inferInstanceAs (Decidable (_ ∧ _))
  | .bump => isTrue trivial
  | .checkpoint _ => isFalse id

/-- A disk source is as recent as its chain. -/
def Recent {I : Type} (store : Store) (cells : List Cell) (req : Request I)
    (src : Option DiskSrc) : Prop :=
  ∀ r seen, src = some (r, seen) → seen = headAddr (store.chainOf cells req.key)

def SolePc {I : Type} (g : Geometry) (store : Store) (cells : List Cell) : Pc I → Prop
  | .idle => True
  | .ready req src n => Waits g store.log n ∧ Recent store cells req src
  | .entered req src n state =>
      Waits g store.log n ∧ Recent store cells req src ∧ state.phase = .rest
  | .backoff req src n => BacksOff g store.log n ∧ Recent store cells req src
  | .reading req n _ latest =>
      Waits g store.log n ∧ latest = headAddr (store.chainOf cells req.key)

def Pc.isEntered {I : Type} : Pc I → Bool
  | .entered _ _ _ _ => true
  | _ => false

structure SoleInv {I O : Type} (g : Geometry) (f : SessionFunctions I O) (s : System I O)
    (cells : List Cell) : Prop where
  inv : SystemInv g s cells
  phase : s.store.systemState.phase = .rest
  due : Due g s.store.log
  table : ∀ x ∈ s.store.log.epoch.table, x.1 = 0
  unprotected : (s.sessions 0).pc.isEntered = false → s.store.log.epoch.table = []
  pc : SolePc g s.store cells (s.sessions 0).pc
  explained : Explained f s.history
  outcome : outcomeOf s.history = s.published
  noError : ∀ e ∈ s.history, e.shown.status ≠ some .error

section SoleSteps

variable {I O : Type} {g : Geometry} {f : SessionFunctions I O} {s s' : System I O}
  {cells : List Cell} {store : Store}

theorem Recent.fresh {req : Request I} {src : Option DiskSrc} (hrec : Recent store cells req src)
    (hinv : StoreInv g store cells)
    (hsrc : ∀ r seen, src = some (r, seen) →
      SourceAt store.log.head (store.log.tailPos g) cells req.key r seen) :
    FreshIfUsed store cells req.key src := by
  intro r seen heq _
  unfold FreshSrc
  rw [(hsrc r seen heq).image, newest_upTo fun c hc hk => ?_]
  rw [hrec r seen heq, Store.chainOf, ← hk]
  exact addr_le_headAddr hinv.over.log.desc _ hc

/-- A disk read of the newest record ends a `read` the way the plain map does. -/
theorem readFromDisk_eq {key : Key} {r : Option Record}
    (h : r.map Record.strip = (newest cells key).map Cell.image) (input : I) (out : O) :
    readFromDisk f key input out r = Plain.read f (view cells key) key input out := by
  cases r with
  | none =>
    rw [view_of_newest_none (FreshSrc.none h)]
    rfl
  | some r =>
    obtain ⟨c, hc, ht, hd⟩ := FreshSrc.some h
    rw [view_of_newest hc]
    unfold readFromDisk Cell.live
    simp only [ht, hd]
    split <;> rfl

theorem headAddr_chain_of_places {cells cells' : List Cell}
    (h : cells'.map Cell.place = cells.map Cell.place) (mask : ℕ) (slot : SlotRef) :
    headAddr (chain mask slot cells') = headAddr (chain mask slot cells) := by
  induction cells generalizing cells' with
  | nil =>
    rw [List.map_nil, List.map_eq_nil_iff] at h
    rw [h]
  | cons c cells ih =>
    cases cells' with
    | nil => cases h
    | cons d cells' =>
      simp only [List.map_cons, List.cons.injEq, Cell.place, Prod.mk.injEq] at h
      obtain ⟨⟨haddr, hkey⟩, hrest⟩ := h
      rw [chain_cons, chain_cons, hkey]
      split
      · exact haddr
      · exact ih hrest

theorem Due.setTable {log : HybridLog} (h : Due g log) (table : List (ℕ × ℕ)) :
    Due g { log with epoch := { log.epoch with table := table } } :=
  ⟨h.readOnly, h.head, h.past⟩

/-- Where the attempt of a sole session leads. -/
theorem AttemptStep.solePc {cells' : List Cell} {req : Request I} {src : Option DiskSrc} {n : ℕ}
    {state : SystemState} {a : Attempt O} {e : Event I O}
    (h : AttemptStep g f s cells 0 s' cells' req src n state a e) (hinv : StoreInv g s.store cells)
    (hpc : SolePc g s.store cells (s.sessions 0).pc) (herr : a.outcome ≠ .done .error) :
    SolePc g s'.store cells' (s'.sessions 0).pc ∧ e.shown.status ≠ some .error ∧
      (s'.sessions 0).pc.isEntered = false := by
  rw [h.pc] at hpc
  obtain ⟨hwaits, hrec, hrest⟩ := hpc
  have hafter := h.after
  have hlog : s'.store.log.tailPage = a.store.log.tailPage := by rw [h.store]; rfl
  have hmask : s'.store.index.mask = s.store.index.mask := by
    rw [h.store]
    exact h.reached.mask
  -- A retry keeps its source, and its chain still has the same head.
  have hretry : a.outcome = .retryLater → BacksOff g a.store.log (n + 1) →
      cells'.map Cell.place = cells.map Cell.place →
      SolePc g s'.store cells' (s'.sessions 0).pc ∧ e.shown.status ≠ some .error ∧
        (s'.sessions 0).pc.isEntered = false := by
    intro hout hback hplaces
    have hle := hback.le
    rw [hout] at hafter
    simp only [afterAttempt, handleRetry, MAX_RETRIES, if_true] at hafter
    rw [if_neg (by omega)] at hafter
    simp only [Option.some.injEq, Prod.mk.injEq] at hafter
    rw [← hafter.1, ← hafter.2]
    refine ⟨⟨?_, fun r seen hsrc => ?_⟩, by simp, rfl⟩
    · rw [h.store]
      exact ⟨hback.pos, hback.le, hback.shifted, hback.head⟩
    · rw [hrec r seen hsrc, Store.chainOf, Store.chainOf, hmask,
        headAddr_chain_of_places hplaces]
  cases h.outcome with
  | @done st hout =>
    rw [hout] at hafter herr
    simp only [afterAttempt, Option.some.injEq, Prod.mk.injEq] at hafter
    rw [← hafter.1, ← hafter.2]
    refine ⟨trivial, fun heq => herr ?_, rfl⟩
    rw [Option.some.inj heq]
  | refused hout hplaces href => exact hretry hout (hwaits.refused hinv.log href) hplaces
  | fuzzy hout hcells hsame _ hsafe hro =>
    refine hretry hout ?_ (by rw [hcells])
    rw [hsame]
    exact hwaits.fuzzy hinv.log hsafe hro
  | shift _ _ _ hphase => rw [hrest] at hphase; cases hphase
  | stale _ _ _ hseen hne =>
    exfalso
    obtain ⟨⟨r, seen⟩, hsrc, hk⟩ := Option.map_eq_some_iff.mp hseen
    have hsrc' : src = some (r, seen) := by
      cases req with
      | rmw | delete => exact hsrc
      | read | upsert => cases hsrc
    exact hne (hk ▸ hrec r seen hsrc')
  | onDisk hout hcells hsame hnone hdisk =>
    rw [hout] at hafter
    simp only [afterAttempt, Option.some.injEq, Prod.mk.injEq] at hafter
    rw [← hafter.1, ← hafter.2]
    refine ⟨⟨?_, ?_⟩, by simp, rfl⟩
    · rw [h.store]
      exact Waits.setEpoch (by rw [hsame]; exact hwaits) _
    · rw [hdisk.latest_eq, hcells, Store.chainOf, Store.chainOf, hmask]

theorem SoleInv.attempt (h : SoleInv g f s cells) (hspace : s.store.log.HasSpace g)
    (hnext : next g f s (.attempt 0) = some s') : ∃ cells', SoleInv g f s' cells' := by
  obtain ⟨cells', req, src, n, state, a, e, hstep⟩ := h.inv.attempt hspace hnext
  have hinv := h.inv.store
  have hsole := h.pc
  have hpcok := h.inv.sessions 0
  rw [hstep.pc] at hsole hpcok
  have hfresh : FreshIfUsed s.store cells req.key (req.source src) := by
    have hall := Recent.fresh hsole.2.1 hinv hpcok
    cases req with
    | rmw | delete => exact hall
    | read | upsert =>
      intro r seen hsrc
      cases hsrc
  obtain ⟨hj, herr⟩ := hstep.justified hfresh
  obtain ⟨hpc, hstatus, hout⟩ := hstep.solePc hinv h.pc herr
  obtain ⟨-, hreq, -, hwrote⟩ := hstep.event
  have hempty : s'.store.log.epoch.table = [] := by
    rw [hstep.store]
    simp only [Store.unprotect, LightEpoch.unprotect, List.filter_eq_nil_iff]
    intro x hx
    rw [hstep.reached.advanced.table] at hx
    simp [h.table x hx]
  refine ⟨cells', hstep.systemInv h.inv, ?_, ?_, ?_, fun _ => hempty, hpc, ?_, ?_, ?_⟩
  · rw [hstep.store]
    exact (congrArg SystemState.phase hstep.reached.systemState).trans h.phase
  · rw [hstep.store]
    exact (hstep.reached.advanced.due h.due).setTable _
  · rw [hempty]
    simp
  · rw [hstep.history]
    exact ⟨h.outcome ▸ hj, h.explained⟩
  · rw [hstep.history, hstep.published, outcomeOf, h.outcome, hreq, hwrote]
  · rw [hstep.history]
    intro e' he'
    rcases List.mem_cons.mp he' with rfl | he'
    · exact hstatus
    · exact h.noError e' he'

/-- A bump by anybody, at any point of the operation. -/
theorem SolePc.bump {pc : Pc I} (h : SolePc g store cells pc) (hinv : LogInv g store.log cells) :
    SolePc g (store.bumpCurrentEpoch g) cells pc := by
  cases pc with
  | idle => trivial
  | ready req src n => exact ⟨h.1.bump hinv, h.2⟩
  | entered req src n state => exact ⟨h.1.bump hinv, h.2⟩
  | backoff req src n => exact ⟨h.1.mono (bumpCurrentEpoch_drained g _), h.2⟩
  | reading req n addr latest => exact ⟨h.1.bump hinv, h.2⟩

theorem SoleInv.quiet (h : SoleInv g f s cells) {l : Label I O} (hok : Sole g s l)
    (hl : l.isAttempt = false) (hnext : next g f s l = some s') : SoleInv g f s' cells := by
  obtain ⟨hinv, hpub, -⟩ := h.inv.quiet hl hnext
  have hstore := h.inv.store
  have hsole := h.pc
  have hbumped : (s.store.bumpCurrentEpoch g).log.epoch.table = s.store.log.epoch.table :=
    (bumpCurrentEpoch_drained g _).table
  cases l with
  | start t req out =>
    obtain rfl : t = 0 := hok
    cases hpc : (s.sessions 0).pc with
    | idle =>
      simp only [next, hpc, Option.some.injEq] at hnext
      subst hnext
      have htable := h.unprotected (by rw [hpc]; rfl)
      exact ⟨hinv, h.phase, h.due, h.table, fun _ => htable,
        ⟨waits_zero g _, fun _ _ hsrc => by cases hsrc⟩, h.explained, h.outcome, h.noError⟩
    | _ => simp [next, hpc] at hnext
  | enter t =>
    obtain rfl : t = 0 := hok
    cases hpc : (s.sessions 0).pc with
    | ready req src n =>
      rw [hpc] at hsole
      simp only [next, hpc, Option.some.injEq] at hnext
      subst hnext
      refine ⟨hinv, h.phase, h.due.setTable _, ?_, fun hpc' => ?_,
        ⟨hsole.1.setEpoch _, hsole.2, h.phase⟩, h.explained, h.outcome, h.noError⟩
      · intro x hx
        rcases List.mem_cons.mp hx with rfl | hx
        · rfl
        · exact h.table x (List.mem_of_mem_filter hx)
      · cases hpc'
    | _ => simp [next, hpc] at hnext
  | attempt t => cases hl
  | diskRead t =>
    obtain rfl : t = 0 := hok
    cases hpc : (s.sessions 0).pc with
    | reading req n addr latest =>
      rw [hpc] at hsole
      have hpend := h.inv.sessions 0
      rw [hpc] at hpend
      have htable := h.unprotected (by rw [hpc]; rfl)
      simp only [next, hpc] at hnext
      cases req with
      | read key input =>
        simp only [Option.some.injEq] at hnext
        subst hnext
        -- The record on disk is still the newest.
        have hsrc := (PendingAt.findOnDisk hstore.over hpend).image
        rw [newest_upTo fun c hc hk => by
          rw [hsole.2, Store.chainOf, ← hk]
          exact addr_le_headAddr hstore.over.log.desc _ hc] at hsrc
        have heq := readFromDisk_eq (f := f) hsrc input (s.sessions 0).out
        have hne : (readFromDisk f key input (s.sessions 0).out
            (findOnDisk s.store.log key (addr + 1) addr)).status ≠ some .error := by
          simp only [Request.key] at heq
          rw [heq]
          exact Plain.perform_status (f := f) ⟨true, true⟩ _ (.read key input) _
        refine ⟨hinv, h.phase, h.due, h.table, fun _ => htable, trivial, ⟨.inr ⟨⟨true, true⟩, ?_⟩,
          h.explained⟩, ?_, ?_⟩
        · rw [Event.attempted_eq hne]
          simp only [h.outcome, h.inv.published]
          exact heq
        · have hquiet : (readFromDisk f key input (s.sessions 0).out
              (findOnDisk s.store.log key (addr + 1) addr)).wrote = none := by
            unfold readFromDisk
            split
            · split <;> rfl
            · rfl
          simp only [System.setSession, outcomeOf, Request.key, hquiet, applyWrote_none]
          exact h.outcome
        · intro e' he'
          rcases List.mem_cons.mp he' with rfl | he'
          · exact hne
          · exact h.noError e' he'
      | upsert | rmw | delete =>
        simp only [Option.some.injEq] at hnext
        subst hnext
        refine ⟨hinv, h.phase, h.due, h.table, fun _ => htable, ⟨hsole.1, ?_⟩, h.explained,
          h.outcome, h.noError⟩
        intro r seen hsrc
        cases hsrc
        exact hsole.2
    | _ => simp [next, hpc] at hnext
  | backoff t =>
    obtain rfl : t = 0 := hok
    cases hpc : (s.sessions 0).pc with
    | backoff req src n =>
      rw [hpc] at hsole
      have htable := h.unprotected (by rw [hpc]; rfl)
      simp only [next, hpc, Option.some.injEq] at hnext
      subst hnext
      refine ⟨hinv, h.phase, h.due.bumpCurrentEpoch hstore.log.pages, ?_, fun _ => hbumped.trans htable,
        ⟨hsole.1.bump hstore.log h.due htable, hsole.2⟩, h.explained, h.outcome, h.noError⟩
      intro x hx
      exact h.table x (hbumped ▸ hx)
    | _ => simp [next, hpc] at hnext
  | bump =>
    cases hnext
    exact ⟨hinv, h.phase, h.due.bumpCurrentEpoch hstore.log.pages, fun x hx => h.table x (hbumped ▸ hx),
      fun hout => hbumped.trans (h.unprotected hout), hsole.bump hstore.log, h.explained, h.outcome,
      h.noError⟩
  | checkpoint u => exact absurd hok id

theorem soleInv_new (buckets : ℕ) (device : Device) (out : O) :
    SoleInv g f (System.new (Store.new buckets device) out) [] where
  inv := systemInv_new buckets device out
  phase := rfl
  due := due_new g device
  table := by intro x hx; cases hx
  unprotected := fun _ => rfl
  pc := trivial
  explained := trivial
  outcome := rfl
  noError := by intro e he; cases he

theorem soleInv_run {buckets : ℕ} {device : Device} {out : O} {ls : List (Label I O)}
    (hrun : Lts.Steps (next g f) (Sole g) (System.new (Store.new buckets device) out) ls s) :
    ∃ cells, SoleInv g f s cells := by
  refine hrun.invariant (P := fun s => ∃ cells, SoleInv g f s cells) ?_
    ⟨[], soleInv_new buckets device out⟩
  rintro s s' l ⟨cells, h⟩ hok hnext
  by_cases hl : l.isAttempt = true
  · cases l with
    | attempt t =>
      obtain ⟨rfl, hspace⟩ := hok
      exact h.attempt hspace hnext
    | _ => cases hl
  · exact ⟨cells, h.quiet hok (by simpa using hl) hnext⟩

end SoleSteps

namespace LostUpdate

/-- The last event has shown the reader a counter at one. -/
def readOne (s : System ℕ Unit) : Bool :=
  s.history.head?.any fun e => decide (e.shown.status = some .found) &&
    e.shown.calls.any fun c => decide (unaryValue (some c.seen) = 1)

end LostUpdate

end Tsavorite
