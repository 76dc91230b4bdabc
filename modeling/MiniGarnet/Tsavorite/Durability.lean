import MiniGarnet.Tsavorite.LostUpdates
import MiniGarnet.Tsavorite.Recovery

/-! # Checkpoints across crashes

    What `take_checkpoint` and `recover` are for: the store is a map, and a
    checkpoint saves it.  A machine runs sessions and checkpoints, loses its
    memory at any moment, is cut off while it recovers, and goes on.  Next
    to it runs a plain map with a saved copy; the machine never shows
    anything else.

    Two things are asked of a run.  No session is in the middle of an
    operation between the capture of the start and the shift of ReadOnly,
    and the final address is captured inside a page, behind a record.
-/

namespace Tsavorite

/-! ## Section 1: A map that can be saved -/

/-- A map, what a running checkpoint has captured of it, and the saved copy. -/
structure SavedMap (K V : Type) where
  current : K → Option V
  captured : K → Option V
  saved : K → Option V

inductive SavedMap.Label (K V : Type) where
  | write (key : K) (x : Option V)
  | capture
  | save
  /-- Go back to the saved copy. -/
  | lose
  | skip

namespace SavedMap

variable {K V : Type}

def empty : SavedMap K V := ⟨fun _ => none, fun _ => none, fun _ => none⟩

def next [DecidableEq K] (m : SavedMap K V) : SavedMap.Label K V → SavedMap K V
  | .write key x => { m with current := Function.update m.current key x }
  | .capture => { m with captured := m.current }
  | .save => { m with saved := m.captured }
  | .lose => { m with current := m.saved }
  | .skip => m

end SavedMap

/-! ## Section 2: The machine -/

/-- The system, or what is left of it: the device and the metadata file. -/
inductive Machine (I O : Type) where
  | running (s : System I O)
  | down (device : Device) (metadata : Option CheckpointInfo)

inductive MachineLabel (I O : Type) where
  | step (l : Label I O)
  /-- `take_checkpoint` has returned and can be called again. -/
  | returned
  /-- The memory is lost, and `device` is what the device holds afterwards. -/
  | crash (device : Device)
  /-- A recovery is cut off after `n` pages. -/
  | cut (n : ℕ)
  /-- `Store::new`, and `recover` if there is a checkpoint. -/
  | restart

section Machines

variable {I O : Type} (g : Geometry) (f : SessionFunctions I O) (buckets : ℕ) (out : O)

/-- One step.  After a restart the bookkeeping of the system begins with what its store
    holds. -/
def Machine.next : Machine I O → MachineLabel I O → Option (Machine I O)
  | .running s, .step l => (Tsavorite.next g f s l).map .running
  | .running s, .returned =>
    match s.checkpoint with
    | .done _ => some (.running { s with checkpoint := .idle })
    | _ => none
  | .running s, .crash device => some (.down device s.metadata)
  | .down device metadata, .cut n =>
    metadata.bind fun info =>
      match (Store.new buckets device).recoverPrefix g info n with
      | .ok store => some (.down store.log.device metadata)
      | .ioError | .aborted => none
  | .down device none, .restart => some (.running (System.new (Store.new buckets device) out))
  | .down device (some info), .restart =>
    match (Store.new buckets device).recover g info with
    | .ok store =>
      some (.running { System.new store out with
        metadata := some info
        published := store.lookup g })
    | .ioError | .aborted => none
  | _, _ => none

/-- What a step means for the saved map. -/
def System.meaning (s : System I O) : Label I O → SavedMap.Label Key RecordData
  | .attempt t =>
    match (s.sessions t).pc with
    | .entered req src _ state =>
      match (attempt g f s.store state req src (s.sessions t).out).wrote with
      | some x => .write req.key x
      | none => .skip
    | _ => .skip
  | .checkpoint _ =>
    match s.checkpoint with
    | .capturing _ _ => .capture
    | .persisting _ _ _ => .save
    | _ => .skip
  | _ => .skip

def Machine.meaning : Machine I O → MachineLabel I O → SavedMap.Label Key RecordData
  | .running s, .step l => s.meaning g f l
  | _, .crash _ => .lose
  | _, _ => .skip

/-- The machine with the map next to it. -/
def Machine.nextShadowed (x : Machine I O × SavedMap Key RecordData) (l : MachineLabel I O) :
    Option (Machine I O × SavedMap Key RecordData) :=
  (x.1.next g f buckets out l).map fun m => (m, x.2.next (x.1.meaning g f l))

/-- No session is in the middle of an operation. -/
def System.Quiet (s : System I O) : Prop := ∀ t, (s.sessions t).pc = .idle

/-- From the capture of the start to the shift of ReadOnly. -/
def CheckpointPc.isCapturing : CheckpointPc → Bool
  | .idle | .waitFlushed _ _ _ | .persisting _ _ _ | .toRest _ | .waitRest _ | .done _ => false
  | _ => true

/-- What is asked of a step of the system. -/
def System.Permitted (s : System I O) (l : Label I O) : Prop :=
  Roomy g s l ∧
    match l with
    | .start _ _ _ => s.checkpoint.isCapturing = false
    | .checkpoint _ =>
      match s.checkpoint with
      | .idle => s.Quiet
      | .capturing _ _ =>
        FIRST_VALID_ADDRESS < s.store.log.tailOffset ∧ s.store.log.tailOffset < g.pageSize
      | _ => True
    | _ => True

/-- What is asked of a step of the machine: a crash loses nothing below the final address of
    the last checkpoint. -/
def Machine.Permitted (x : Machine I O × SavedMap Key RecordData) (l : MachineLabel I O) : Prop :=
  match x.1, l with
  | .running s, .step l => s.Permitted g l
  | .running s, .crash device =>
    ∀ info, s.metadata = some info →
      (∀ a < info.finalAddress, device.data a = s.store.log.device.data a) ∧
        info.finalAddress ≤ device.len
  | _, _ => True

end Machines

/-! ## Section 3: What a checkpoint has captured -/

section Captures

variable {g : Geometry} {mask len : ℕ} {cells cells' : List Cell}

/-- The cells are what a checkpoint of `[start, final)` is about, and the arena of a fresh
    index has room for them. -/
structure Capture (g : Geometry) (mask len start final : ℕ) (cells : List Cell) : Prop where
  folded : Folded g mask ⟨0, FIRST_VALID_ADDRESS, start, final, 0⟩ cells
  room : HashIndex.overflowNeed mask (cellSlots mask cells) ≤ len

theorem Capture.with_info {start final : ℕ} (h : Capture g mask len start final cells)
    {info : CheckpointInfo} (hbegin : info.beginAddress = FIRST_VALID_ADDRESS)
    (hstart : info.startAddress = start) (hfinal : info.finalAddress = final) :
    Folded g mask info cells := by
  subst hstart hfinal
  exact { h.folded with begin_eq := hbegin }

/-- What lies below both ReadOnly and the tail, nobody changes. -/
theorem below_edits {state : SystemState} {start ro tail b : ℕ} {key : Key}
    {w : Option (Option RecordData)} (h : Edits state start ro tail key cells w cells')
    (hro : b ≤ ro) (htail : b ≤ tail) : below b cells' = below b cells := by
  refine h.preserve (P := fun cells' => below b cells' = below b cells) ?_ ?_ rfl
  · intro cells₁ c hc hsame
    rw [← hsame]
    exact List.filter_cons_of_neg (by simp only [decide_eq_true_eq]; omega)
  · intro cells₁ a f ha hf hsame
    rw [← hsame]
    unfold below editAt
    rw [List.filter_map]
    have hkeep : ((fun c : Cell => decide (c.addr < b)) ∘ fun c => if c.addr = a then f c else c) =
        fun c => decide (c.addr < b) := by
      funext c
      simp only [Function.comp_apply]
      split
      · rw [hf.addr]
      · rfl
    rw [hkeep]
    -- the cell at `a` has been filtered out
    refine (List.map_congr_left ?_).trans (List.map_id _)
    intro c hc
    have hlt : c.addr < b := by simpa using (List.mem_filter.mp hc).2
    rw [if_neg (by omega)]
    rfl

theorem imageAt_below {a b : ℕ} (h : a < b) : imageAt (below b cells) a = imageAt cells a := by
  unfold imageAt below
  rw [List.find?_filter]
  congr 2
  funext c
  by_cases hc : c.addr = a
  · simp [hc, h]
  · simp [hc]

/-- At the moment the final address is captured. -/
theorem StoreInv.capture {store : Store} (h : StoreInv g store cells)
    (harena : store.index.ArenaInv) (hlow : FIRST_VALID_ADDRESS < store.log.tailOffset)
    (hhigh : store.log.tailOffset < g.pageSize) :
    Capture g store.index.mask store.index.overflowLen (store.log.tailPos g) (store.log.tailPos g)
      cells := by
  have hps := g.pageSize_pos
  have hdiv : store.log.tailPos g / g.pageSize = store.log.tailPage := by
    unfold HybridLog.tailPos
    rw [Nat.add_comm, Nat.add_mul_div_right _ _ hps, Nat.div_eq_of_lt hhigh, Nat.zero_add]
  have hmod : store.log.tailPos g % g.pageSize = store.log.tailOffset := by
    unfold HybridLog.tailPos
    rw [Nat.mul_add_mod_of_lt hhigh]
  have hpacked := h.over.log.laid.packed
  rw [imageOver_none] at hpacked
  have hfinal : ∃ c ∈ cells, c.stop = store.log.tailPos g := by
    rcases h.tiled.tail with heq | heq | hat
    · omega
    · omega
    · exact hat
  refine ⟨⟨h.log.ordered, hpacked, h.linked, rfl, ?_, h.log.below, hfinal, ?_, ?_, ?_⟩, ?_⟩
  · intro c hc _
    exact lt_of_lt_of_le c.addr_lt_stop (h.log.below c hc)
  · change store.log.tailPos g % g.pageSize ≠ 0
    have : FIRST_VALID_ADDRESS = 64 := rfl
    omega
  · change store.log.tailPos g / g.pageSize < 2 ^ 32
    rw [hdiv]
    exact h.log.tailPage_lt
  · change (store.log.tailPos g / g.pageSize + 1) * g.pageSize ≤ 2 ^ 48
    rw [hdiv]
    exact h.log.space
  · apply harena.overflowNeed_le
    intro s hs
    obtain ⟨c, hc, hslot⟩ := List.mem_map.mp (List.mem_toFinset.mp hs)
    rcases h.entries s with hsome | ⟨-, hnil⟩
    · rw [hsome]
      rfl
    · have hmem : c ∈ chain store.index.mask s cells := List.mem_filter.mpr ⟨hc, by simpa using hslot⟩
      rw [hnil] at hmem
      cases hmem

end Captures

/-! ## Section 4: The invariant -/

section Invariant

variable {I O : Type} {g : Geometry} {f : SessionFunctions I O} {buckets : ℕ}
  {s s' : System I O} {cells cells' : List Cell} {d : SavedMap Key RecordData}

/-- What lies below `final` has been captured. -/
structure Captured (g : Geometry) (buckets : ℕ) (start final : ℕ) (cells : List Cell)
    (d : SavedMap Key RecordData) : Prop where
  capture : Capture g (HashIndex.new buckets).mask (HashIndex.new buckets).overflowLen start final
    (below final cells)
  captured : d.captured = view (below final cells)

/-- How far a running checkpoint has come. -/
def CheckpointAt (g : Geometry) (buckets : ℕ) (s : System I O) (cells : List Cell)
    (d : SavedMap Key RecordData) : CheckpointPc → Prop
  | .idle | .toRest _ | .waitRest _ | .done _ => True
  | .toPrepare _ start | .waitPrepare _ start | .toInProgress _ start | .waitInProgress _ start
  | .capturing _ start => s.Quiet ∧ tailAddress g s.store.log.tail = some start
  | .toWaitFlush _ start final | .waitWaitFlush _ start final | .folding _ start final =>
    s.Quiet ∧ Captured g buckets start final cells d
  | .waitFlushed _ start final | .persisting _ start final =>
    final ≤ s.store.log.readOnly ∧ Captured g buckets start final cells d

/-- The records of the last checkpoint are where it has left them. -/
structure Preserved (g : Geometry) (buckets : ℕ) (log : HybridLog) (cells : List Cell)
    (info : CheckpointInfo) (m : Key → Option RecordData) : Prop where
  folded : Folded g (HashIndex.new buckets).mask info (below info.finalAddress cells)
  room : HashIndex.overflowNeed (HashIndex.new buckets).mask
    (cellSlots (HashIndex.new buckets).mask (below info.finalAddress cells)) ≤
      (HashIndex.new buckets).overflowLen
  flushed : info.finalAddress ≤ log.flushedUntil
  readOnly : info.finalAddress ≤ log.readOnly
  saved : m = view (below info.finalAddress cells)

/-- A running system and the map next to it. -/
structure Running (g : Geometry) (buckets : ℕ) (s : System I O) (cells : List Cell)
    (d : SavedMap Key RecordData) : Prop where
  inv : SystemInv g s cells
  mask : s.store.index.mask = (HashIndex.new buckets).mask
  arena : s.store.index.ArenaInv ∧
    s.store.index.overflowLen = (HashIndex.new buckets).overflowLen
  current : d.current = s.published
  checkpoint : CheckpointAt g buckets s cells d s.checkpoint
  unsaved : s.metadata = none → d.saved = fun _ => none
  saved : ∀ info, s.metadata = some info →
    Preserved g buckets s.store.log cells info d.saved

theorem Preserved.moved {store store' : Store} {info : CheckpointInfo}
    {m : Key → Option RecordData} (h : Preserved g buckets store.log cells info m)
    (hinv : StoreInv g store cells) (hm : Moved g store cells store' cells') :
    Preserved g buckets store'.log cells' info m := by
  obtain ⟨state, start, key, w, he⟩ := hm.edits
  have hro := h.readOnly
  have hsame := below_edits he hro (le_trans hro hinv.log.readOnly_le)
  refine ⟨by rw [hsame]; exact h.folded, by rw [hsame]; exact h.room,
    le_trans h.flushed hm.ahead.flushed, le_trans hro hm.ahead.readOnly, ?_⟩
  rw [hsame]
  exact h.saved

theorem Captured.congr {start final : ℕ} (h : Captured g buckets start final cells d)
    (hsame : below final cells' = below final cells) {d' : SavedMap Key RecordData}
    (hd : d'.captured = d.captured) : Captured g buckets start final cells' d' :=
  ⟨by rw [hsame]; exact h.capture, by rw [hsame, hd]; exact h.captured⟩

/-- A checkpoint that has shifted ReadOnly does not mind what the sessions do. -/
theorem CheckpointAt.moved {pc : CheckpointPc} (h : CheckpointAt g buckets s cells d pc)
    (hpc : pc.isCapturing = false) (hinv : StoreInv g s.store cells)
    (hm : Moved g s.store cells s'.store cells') {d' : SavedMap Key RecordData}
    (hd : d'.captured = d.captured) : CheckpointAt g buckets s' cells' d' pc := by
  obtain ⟨state, start, key, w, he⟩ := hm.edits
  cases pc with
  | idle | toRest | waitRest | done => trivial
  | waitFlushed v start final | persisting v start final =>
    obtain ⟨hro, hcap⟩ := h
    exact ⟨le_trans hro hm.ahead.readOnly,
      hcap.congr (below_edits he hro (le_trans hro hinv.log.readOnly_le)) hd⟩
  | toPrepare | waitPrepare | toInProgress | waitInProgress | capturing | toWaitFlush
  | waitWaitFlush | folding => cases hpc

/-- While the checkpoint is capturing, the sessions are quiet. -/
theorem CheckpointAt.quiet {pc : CheckpointPc} (h : CheckpointAt g buckets s cells d pc)
    (hpc : pc.isCapturing = true) : s.Quiet := by
  cases pc with
  | toPrepare | waitPrepare | toInProgress | waitInProgress | capturing | toWaitFlush
  | waitWaitFlush | folding => exact h.1
  | idle | toRest | waitRest | done | waitFlushed | persisting => cases hpc

/-- What a step does that is neither an attempt nor the checkpoint's. -/
structure Aside (g : Geometry) (s s' : System I O) : Prop where
  ahead : Ahead g s.store.log s'.store.log
  tail : s'.store.log.tail = s.store.log.tail
  index : s'.store.index = s.store.index
  checkpoint : s'.checkpoint = s.checkpoint
  metadata : s'.metadata = s.metadata

/-- Such a step of a session that is not idle; the only others are calls and epoch bumps. -/
theorem next_aside {l : Label I O} (hattempt : l.isAttempt = false)
    (hl : ∀ u, l ≠ .checkpoint u) (hnext : next g f s l = some s') :
    Aside g s s' ∧ (s.Quiet → (∀ t req out, l ≠ .start t req out) → s'.Quiet) := by
  have hepoch : ∀ (e : LightEpoch DrainAction) (x : ℕ → Session I O),
      Aside g s { s with
        store := { s.store with log := { s.store.log with epoch := e } }, sessions := x } :=
    fun e x => ⟨Ahead.setEpoch g _ e, rfl, rfl, rfl, rfl⟩
  have hbump : ∀ x : ℕ → Session I O, Aside g s { s with
      store := s.store.bumpCurrentEpoch g, sessions := x } := by
    intro x
    have hdr := bumpCurrentEpoch_drained g s.store.log
    exact ⟨hdr.shifted.ahead, hdr.tail, rfl, rfl, rfl⟩
  cases l with
  | attempt t => cases hattempt
  | checkpoint u => exact absurd rfl (hl u)
  | start t req out =>
    simp only [next] at hnext
    split at hnext
    · cases hnext
      exact ⟨⟨Ahead.refl g _, rfl, rfl, rfl, rfl⟩, fun _ hnone => absurd rfl (hnone t req out)⟩
    · cases hnext
  | enter t =>
    simp only [next] at hnext
    split at hnext
    · next hpc =>
      cases hnext
      refine ⟨hepoch _ _, fun hquiet _ => ?_⟩
      rw [hquiet t] at hpc
      cases hpc
    · cases hnext
  | diskRead t =>
    simp only [next] at hnext
    split at hnext
    · next hpc =>
      refine ⟨?_, fun hquiet _ => ?_⟩
      · split at hnext <;> cases hnext <;> exact ⟨Ahead.refl g _, rfl, rfl, rfl, rfl⟩
      · rw [hquiet t] at hpc
        cases hpc
    · cases hnext
  | backoff t =>
    simp only [next] at hnext
    split at hnext
    · next hpc =>
      cases hnext
      refine ⟨hbump _, fun hquiet _ => ?_⟩
      rw [hquiet t] at hpc
      cases hpc
    · cases hnext
  | bump =>
    cases hnext
    exact ⟨hbump _, fun hquiet _ => hquiet⟩

/-- The steps of the sessions. -/
theorem Running.session (h : Running g buckets s cells d) {l : Label I O}
    (hl : ∀ u, l ≠ .checkpoint u) (hok : s.Permitted g l) (hnext : next g f s l = some s') :
    ∃ cells', Running g buckets s' cells' (d.next (s.meaning g f l)) := by
  have harena := next_index (HashIndex.stable_arenaInv _) h.arena hnext
  by_cases hattempt : l.isAttempt = true
  · cases l with
    | attempt t =>
      obtain ⟨cells', req, src, n, state, a, e, hstep⟩ := h.inv.attempt hok.1 hnext
      have hm : Moved g s.store cells s'.store cells' := by
        rw [hstep.store]
        have hmoved := hstep.reached.moved
        exact ⟨hmoved.edits, hmoved.ahead.trans (Ahead.setEpoch g _ _), hmoved.mask⟩
      have hwrote : s.meaning g f (.attempt t) =
          match a.wrote with | some x => .write req.key x | none => .skip := by
        simp only [System.meaning, hstep.pc, ← hstep.attempt_eq]
      have hnew : (d.next (s.meaning g f (.attempt t))).current = s'.published ∧
          (d.next (s.meaning g f (.attempt t))).captured = d.captured ∧
          (d.next (s.meaning g f (.attempt t))).saved = d.saved := by
        rw [hwrote, hstep.published, ← h.current]
        cases a.wrote <;> exact ⟨rfl, rfl, rfl⟩
      -- an attempt is under way, so the checkpoint is not capturing
      have hpc : s.checkpoint.isCapturing = false := by
        cases hcap : s.checkpoint.isCapturing with
        | false => rfl
        | true =>
          have hidle := h.checkpoint.quiet hcap t
          rw [hstep.pc] at hidle
          cases hidle
      refine ⟨cells', hstep.systemInv h.inv, hm.mask.trans h.mask, harena, hnew.1, ?_, ?_, ?_⟩
      · rw [hstep.checkpoint]
        exact h.checkpoint.moved hpc h.inv.store hm hnew.2.1
      · rw [hstep.metadata, hnew.2.2]
        exact h.unsaved
      · rw [hstep.metadata, hnew.2.2]
        intro info hinfo
        exact (h.saved info hinfo).moved h.inv.store hm
    | start | enter | diskRead | backoff | bump | checkpoint => cases hattempt
  · rw [Bool.not_eq_true] at hattempt
    obtain ⟨hinv, hquiet⟩ := h.inv.quiet hattempt hnext
    obtain ⟨haside, hstay⟩ := next_aside hattempt hl hnext
    have hm : Moved g s.store cells s'.store cells :=
      ⟨⟨s.store.systemState, 0, [], none, .refl _⟩, haside.ahead, by rw [haside.index]⟩
    have hskip : d.next (s.meaning g f l) = d := by
      cases l with
      | attempt t => cases hattempt
      | checkpoint u => exact absurd rfl (hl u)
      | start | enter | diskRead | backoff | bump => rfl
    rw [hskip]
    refine ⟨cells, hinv, hm.mask.trans h.mask, harena, h.current.trans hquiet.published.symm, ?_,
      ?_, ?_⟩
    · rw [haside.checkpoint]
      cases hcap : s.checkpoint.isCapturing with
      | false => exact h.checkpoint.moved hcap h.inv.store hm rfl
      | true =>
        -- nobody begins an operation while the checkpoint is capturing
        have hq' : s'.Quiet := by
          apply hstay (h.checkpoint.quiet hcap)
          rintro t req out rfl
          have hno := hok.2
          simp only at hno
          rw [hcap] at hno
          cases hno
        have hat := h.checkpoint
        cases hpc : s.checkpoint with
        | toPrepare | waitPrepare | toInProgress | waitInProgress | capturing =>
          rw [hpc] at hat
          refine ⟨hq', ?_⟩
          rw [haside.tail]
          exact hat.2
        | toWaitFlush | waitWaitFlush | folding =>
          rw [hpc] at hat
          exact ⟨hq', hat.2⟩
        | idle | toRest | waitRest | done | waitFlushed | persisting =>
          rw [hpc] at hcap
          cases hcap
    · rw [haside.metadata]
      exact h.unsaved
    · rw [haside.metadata]
      intro info hinfo
      exact (h.saved info hinfo).moved h.inv.store hm

/-- A turn of a wait loop goes on or stays, and the tail and the cells stay. -/
theorem CheckpointAt.awaitStep (here there : CheckpointPc) (cond : Bool)
    (hhere : CheckpointAt g buckets s cells d here)
    (hthere : CheckpointAt g buckets s cells d there) :
    CheckpointAt g buckets { s with store := (s.store.awaitStep g cond here there).1 } cells d
      (s.store.awaitStep g cond here there).2 := by
  have hdr := bumpCurrentEpoch_drained g s.store.log
  have hbumped : ∀ pc, CheckpointAt g buckets s cells d pc →
      CheckpointAt g buckets { s with store := s.store.bumpCurrentEpoch g } cells d pc := by
    intro pc hpc
    cases pc with
    | idle | toRest | waitRest | done => trivial
    | toPrepare | waitPrepare | toInProgress | waitInProgress | capturing =>
      refine ⟨hpc.1, ?_⟩
      have htail : (s.store.bumpCurrentEpoch g).log.tail = s.store.log.tail := hdr.tail
      simp only [htail]
      exact hpc.2
    | toWaitFlush | waitWaitFlush | folding => exact ⟨hpc.1, hpc.2⟩
    | waitFlushed v start final | persisting v start final =>
      refine ⟨?_, hpc.2⟩
      have hro : (s.store.bumpCurrentEpoch g).log.readOnly = s.store.log.readOnly := hdr.readOnly
      simp only [hro]
      exact hpc.1
  unfold Store.awaitStep
  split
  · exact hthere
  · exact hbumped here hhere

/-- A transition of the global state leaves the tail and ReadOnly alone. -/
theorem transition_log (store : Store) (new : SystemState) :
    (store.transition g new).log.tail = store.log.tail ∧
      (store.transition g new).log.readOnly = store.log.readOnly := by
  have hdr := bumpWithAction_drained g { store.log with observed := false } .observe
  exact ⟨hdr.tail, hdr.readOnly⟩

/-- The steps of the checkpoint. -/
theorem Running.checkpointStep (h : Running g buckets s cells d) {u : ℕ}
    (hok : s.Permitted g (.checkpoint u)) (hnext : next g f s (.checkpoint u) = some s') :
    Running g buckets s' cells (d.next (s.meaning g f (.checkpoint u))) := by
  have harena := next_index (HashIndex.stable_arenaInv _) h.arena hnext
  obtain ⟨hinv, hquiet⟩ := h.inv.quiet rfl hnext
  obtain ⟨⟨store', pc', info⟩, hstep, rfl⟩ := Option.map_eq_some_iff.mp hnext
  obtain ⟨hmove, -⟩ := checkpointStep_spec h.inv.store h.inv.checkpoint hstep
  have hm : Moved g s.store cells store' cells := hmove.moved
  have hold := h.checkpoint
  have hokpc := hok.2
  -- all steps but two leave the map and the metadata alone
  have hplain : s.meaning g f (.checkpoint u) = .skip → info = none →
      CheckpointAt g buckets { s with store := store' } cells d pc' →
      Running g buckets { s with store := store', checkpoint := pc', metadata := info.or s.metadata }
        cells (d.next (s.meaning g f (.checkpoint u))) := by
    rintro hskip rfl hat
    rw [hskip]
    refine ⟨hinv, hm.mask.trans h.mask, harena, h.current, ?_, h.unsaved, ?_⟩
    · cases pc' <;> exact hat
    · intro info hinfo
      exact (h.saved info hinfo).moved h.inv.store hm
  cases hpc : s.checkpoint with
  | idle =>
    rw [hpc] at hstep hokpc
    simp only [Tsavorite.checkpointStep, Option.ite_none_right_eq_some] at hstep
    obtain ⟨start, hstart, heq⟩ := Option.map_eq_some_iff.mp hstep.2
    cases heq
    exact hplain (by simp only [System.meaning, hpc]) rfl ⟨hokpc, hstart⟩
  | toPrepare v start | toInProgress v start =>
    rw [hpc] at hstep hold
    cases hstep
    refine hplain (by simp only [System.meaning, hpc]) rfl ⟨hold.1, ?_⟩
    simp only [(transition_log (g := g) s.store _).1]
    exact hold.2
  | waitPrepare v start =>
    rw [hpc] at hstep hold
    cases hstep
    exact hplain (by simp only [System.meaning, hpc]) rfl
      (CheckpointAt.awaitStep _ (.toInProgress v start) s.store.log.observed hold hold)
  | waitInProgress v start =>
    rw [hpc] at hstep hold
    cases hstep
    exact hplain (by simp only [System.meaning, hpc]) rfl
      (CheckpointAt.awaitStep _ (.capturing v start) s.store.log.observed hold hold)
  | capturing v start =>
    rw [hpc] at hstep hold hokpc
    obtain ⟨final, hfinal, heq⟩ := Option.map_eq_some_iff.mp hstep
    cases heq
    obtain ⟨hlow, hhigh⟩ := hokpc
    have hodd : ¬ OddPageFull g s.store.log.tail := by
      rintro ⟨-, hfull⟩
      change s.store.log.tailOffset = g.pageSize at hfull
      omega
    obtain ⟨-, rfl⟩ := tailAddress_eq hfinal hodd
    obtain ⟨-, rfl⟩ := tailAddress_eq hold.2 hodd
    have hall : below (s.store.log.tailPos g) cells = cells := by
      apply below_eq_self
      intro c hc
      exact lt_of_lt_of_le c.addr_lt_stop (h.inv.store.log.below c hc)
    have hcap := h.inv.store.capture h.arena.1 hlow hhigh
    rw [h.mask, h.arena.2] at hcap
    have hmean : s.meaning g f (.checkpoint u) = .capture := by simp only [System.meaning, hpc]
    rw [hmean]
    refine ⟨hinv, h.mask, h.arena, h.current, ⟨hold.1, ?_, ?_⟩, h.unsaved, h.saved⟩
    · change Capture g _ _ (s.store.log.tailPos g) (s.store.log.tailPos g)
        (below (s.store.log.tailPos g) cells)
      rw [hall]
      exact hcap
    · change d.current = view (below (s.store.log.tailPos g) cells)
      rw [hall, h.current, h.inv.published]
  | toWaitFlush v start final =>
    rw [hpc] at hstep hold
    cases hstep
    exact hplain (by simp only [System.meaning, hpc]) rfl ⟨hold.1, hold.2⟩
  | waitWaitFlush v start final =>
    rw [hpc] at hstep hold
    cases hstep
    exact hplain (by simp only [System.meaning, hpc]) rfl
      (CheckpointAt.awaitStep _ (.folding v start final) s.store.log.observed hold hold)
  | folding v start final =>
    rw [hpc] at hstep hold
    cases hstep
    refine hplain (by simp only [System.meaning, hpc]) rfl ⟨?_, hold.2⟩
    simp only [(shiftReadOnlyAddress_shifted g s.store.log final).2]
    exact le_max_right _ _
  | waitFlushed v start final =>
    rw [hpc] at hstep hold
    cases hstep
    exact hplain (by simp only [System.meaning, hpc]) rfl
      (CheckpointAt.awaitStep _ (.persisting v start final)
        (decide (final ≤ s.store.log.flushedUntil)) hold hold)
  | persisting v start final =>
    have hflushed := h.inv.checkpoint
    rw [hpc] at hstep hold hflushed
    cases hstep
    have hmean : s.meaning g f (.checkpoint u) = .save := by simp only [System.meaning, hpc]
    rw [hmean]
    obtain ⟨hro, hcap⟩ := hold
    refine ⟨hinv, h.mask, h.arena, h.current, trivial, by simp, ?_⟩
    intro info hinfo
    cases hinfo
    refine ⟨hcap.capture.with_info h.inv.store.log.begin_eq rfl rfl, hcap.capture.room, ?_,
      le_trans hro hm.ahead.readOnly, hcap.captured⟩
    exact le_trans hflushed hm.ahead.flushed
  | toRest info' =>
    rw [hpc] at hstep
    cases hstep
    exact hplain (by simp only [System.meaning, hpc]) rfl trivial
  | waitRest info' =>
    rw [hpc] at hstep hold
    cases hstep
    exact hplain (by simp only [System.meaning, hpc]) rfl
      (CheckpointAt.awaitStep (.waitRest info') (.done info')
        s.store.log.observed trivial trivial)
  | done info' =>
    rw [hpc] at hstep
    cases hstep

end Invariant

/-! ## Section 5: Crashes -/

section Crashes

variable {I O : Type} {g : Geometry} {f : SessionFunctions I O} {buckets : ℕ} {out : O}
  {s s' : System I O} {cells : List Cell} {d : SavedMap Key RecordData} {device : Device}

/-- What a crash leaves of a checkpoint. -/
structure Survived (g : Geometry) (buckets : ℕ) (device : Device) (info : CheckpointInfo)
    (kept : List Cell) (m : Key → Option RecordData) : Prop where
  folded : Folded g (HashIndex.new buckets).mask info kept
  room : HashIndex.overflowNeed (HashIndex.new buckets).mask
    (cellSlots (HashIndex.new buckets).mask kept) ≤ (HashIndex.new buckets).overflowLen
  device : OnDevice info kept device
  saved : m = view kept

/-- A machine that is down and the map next to it. -/
structure Down (g : Geometry) (buckets : ℕ) (device : Device) (metadata : Option CheckpointInfo)
    (d : SavedMap Key RecordData) : Prop where
  current : d.current = d.saved
  unsaved : metadata = none → d.saved = fun _ => none
  saved : ∀ info, metadata = some info → ∃ kept, Survived g buckets device info kept d.saved

theorem running_new (device : Device) (hcurrent : d.current = fun _ => none)
    (hsaved : d.saved = fun _ => none) :
    Running (I := I) g buckets (System.new (Store.new buckets device) out) [] d where
  inv := systemInv_new buckets device out
  mask := rfl
  arena := ⟨HashIndex.ArenaInv.new buckets, rfl⟩
  current := hcurrent
  checkpoint := trivial
  unsaved := fun _ => hsaved
  saved := nofun

/-- Below the final address a crash finds everything on the device. -/
theorem Running.crash (h : Running g buckets s cells d)
    (hdevice : ∀ info, s.metadata = some info →
      (∀ a < info.finalAddress, device.data a = s.store.log.device.data a) ∧
        info.finalAddress ≤ device.len) :
    Down g buckets device s.metadata (d.next .lose) := by
  refine ⟨rfl, h.unsaved, ?_⟩
  intro info hinfo
  have hp := h.saved info hinfo
  obtain ⟨hdata, hlen⟩ := hdevice info hinfo
  refine ⟨below info.finalAddress cells, hp.folded, hp.room, ⟨?_, hlen⟩, hp.saved⟩
  intro a hfirst hlt
  rw [hdata a hlt, imageAt_below hlt]
  exact h.inv.store.log.disk a hfirst (lt_of_lt_of_le hlt hp.flushed)

/-- Recovery brings back the saved copy. -/
theorem Survived.restart (out : O) {info : CheckpointInfo} {kept : List Cell}
    (h : Survived g buckets device info kept d.saved) (hcurrent : d.current = d.saved) :
    ∃ store, (Store.new buckets device).recover g info = .ok store ∧
      Running (I := I) g buckets { System.new store out with
        metadata := some info
        published := store.lookup g } kept d := by
  obtain ⟨store, hrec, hr⟩ := h.folded.recover (fresh_new h.room device) h.device
  have hlookup : store.lookup g = view kept := funext fun key => hr.inv.over.lookup_eq key
  have hall : below info.finalAddress kept = kept := by
    apply below_eq_self
    intro c hc
    exact lt_of_lt_of_le c.addr_lt_stop (h.folded.final_le c hc)
  refine ⟨store, hrec, ⟨hr.inv, hlookup, fun _ => trivial, trivial⟩, hr.mask_eq,
    ⟨hr.arena, hr.len_eq⟩, ?_, trivial, nofun, ?_⟩
  · rw [hcurrent, h.saved]
    exact hlookup.symm
  · intro info' hinfo
    cases hinfo
    refine ⟨by rw [hall]; exact h.folded, by rw [hall]; exact h.room, le_of_eq hr.flushed.symm,
      le_of_eq hr.readOnly.symm, by rw [hall]; exact h.saved⟩

/-- A recovery that is cut off costs nothing. -/
theorem Survived.cut {info : CheckpointInfo} {kept : List Cell} {m : Key → Option RecordData}
    (h : Survived g buckets device info kept m) (n : ℕ) :
    ∃ store, (Store.new buckets device).recoverPrefix g info n = .ok store ∧
      Survived g buckets store.log.device info kept m := by
  obtain ⟨index, device', hcut, hdev', -⟩ :=
    h.folded.recoverPrefix (fresh_new h.room device) h.device n
  exact ⟨_, hcut, h.folded, h.room, hdev', h.saved⟩

/-- The machine and the map next to it. -/
def Machine.Inv (g : Geometry) (buckets : ℕ) (x : Machine I O × SavedMap Key RecordData) : Prop :=
  match x.1 with
  | .running s => ∃ cells, Running g buckets s cells x.2
  | .down device metadata => Down g buckets device metadata x.2

theorem Machine.inv_step {x x' : Machine I O × SavedMap Key RecordData} {l : MachineLabel I O}
    (h : Machine.Inv g buckets x) (hok : Machine.Permitted g x l)
    (hnext : Machine.nextShadowed g f buckets out x l = some x') : Machine.Inv g buckets x' := by
  obtain ⟨m, d⟩ := x
  obtain ⟨m', hm, rfl⟩ := Option.map_eq_some_iff.mp hnext
  cases m with
  | running s =>
    obtain ⟨cells, hrun⟩ := h
    cases l with
    | step l =>
      obtain ⟨s', hs', rfl⟩ := Option.map_eq_some_iff.mp hm
      by_cases hl : ∃ u, l = .checkpoint u
      · obtain ⟨u, rfl⟩ := hl
        exact ⟨cells, hrun.checkpointStep hok hs'⟩
      · exact hrun.session (fun u hu => hl ⟨u, hu⟩) hok hs'
    | returned =>
      simp only [Machine.next] at hm
      split at hm
      · cases hm
        exact ⟨cells, ⟨hrun.inv.store, hrun.inv.published, hrun.inv.sessions, trivial⟩, hrun.mask,
          hrun.arena, hrun.current, trivial, hrun.unsaved, hrun.saved⟩
      · cases hm
    | crash device =>
      cases hm
      exact hrun.crash hok
    | cut | restart => cases hm
  | down device metadata =>
    cases l with
    | cut n =>
      obtain ⟨info, rfl, hm⟩ := Option.bind_eq_some_iff.mp hm
      obtain ⟨kept, hsurv⟩ := h.saved info rfl
      obtain ⟨store, hcut, hsurv'⟩ := hsurv.cut n
      rw [hcut] at hm
      cases hm
      refine ⟨h.current, nofun, ?_⟩
      intro info' hinfo
      cases hinfo
      exact ⟨kept, hsurv'⟩
    | restart =>
      cases metadata with
      | none =>
        cases hm
        have hsaved := h.unsaved rfl
        exact ⟨[], running_new device (h.current.trans hsaved) hsaved⟩
      | some info =>
        obtain ⟨kept, hsurv⟩ := h.saved info rfl
        obtain ⟨store, hrec, hrun⟩ := @Survived.restart I O g buckets d device out info kept hsurv h.current
        simp only [Machine.next, hrec] at hm
        cases hm
        exact ⟨kept, hrun⟩
    | step | returned | crash => cases hm

end Crashes

/-! ## Section 6: Runs -/

section Runs

variable {I O : Type} {g : Geometry} {f : SessionFunctions I O} {buckets : ℕ} {out : O}

theorem Machine.inv_run {device : Device} {ls : List (MachineLabel I O)}
    {x : Machine I O × SavedMap Key RecordData}
    (hrun : Lts.Steps (Machine.nextShadowed g f buckets out) (Machine.Permitted g)
      (.running (System.new (Store.new buckets device) out), .empty) ls x) :
    Machine.Inv g buckets x := by
  refine hrun.invariant (P := Machine.Inv g buckets) ?_ ⟨[], running_new device rfl rfl⟩
  intro x x' l h hok hnext
  exact Machine.inv_step h hok hnext

end Runs

/-! ## Section 7: A crash after a checkpoint -/

namespace Crash

open LostUpdate

/-- The other sessions have never begun. -/
def others (x : Machine ℕ Unit × SavedMap Key RecordData) : Prop :=
  match x.1 with
  | .running s => ∀ t, t ≠ 0 → (s.sessions t).pc = .idle
  | .down _ _ => False

end Crash

end Tsavorite
