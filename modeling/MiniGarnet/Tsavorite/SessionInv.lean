import MiniGarnet.Tsavorite.Attempts
import MiniGarnet.Tsavorite.Sessions

/-! # What any interleaving of sessions preserves

    `StoreInv` says what the store holds at one moment.  Between two steps of
    its operation a session also remembers things about the past: a record
    it has read from disk, or the address at which to read one.  This module
    says what these memories are worth when other sessions, page turns and a
    checkpoint move in between, and puts the invariant of the whole system
    together.
-/

namespace Tsavorite

/-! ## Section 1: Attempts of any kind -/

/-- One attempt on the plain map. -/
def Plain.perform {I O : Type} (f : SessionFunctions I O) (luck : Luck) (cur : Option RecordData)
    (req : Request I) (out : O) : Shown O :=
  match req with
  | .read key input => Plain.read f cur key input out
  | .upsert key input => Plain.upsert f luck cur key input out
  | .rmw key input => Plain.rmw f luck cur key input out
  | .delete key => Plain.delete luck cur key out

/-- The result of a disk read, for an operation that uses it. -/
def Request.source {I : Type} (req : Request I) (src : Option DiskSrc) : Option DiskSrc :=
  match req with
  | .rmw _ _ | .delete _ => src
  | .read _ _ | .upsert _ _ => none

section AnyAttempt

variable {I O : Type} {g : Geometry} {rest : ℕ → Option Record} {f : SessionFunctions I O}
  {store : Store} {cells : List Cell}

theorem attempt_spec (h : StoreOver g rest store cells) (hspace : store.log.HasSpace g)
    (state : SystemState) (req : Request I) (src : Option DiskSrc) (out : O) :
    let a := attempt g f store state req src out
    AttemptSpec g rest store cells state req.key ((req.source src).map Prod.snd) a
      (FreshIfUsed store cells req.key (req.source src) → a.Matches out fun luck =>
        Plain.perform f luck (view cells req.key) req out) := by
  cases req with
  | read key input => exact (internalRead_spec h).imp fun hm _ => hm
  | upsert key input => exact (internalUpsert_spec h hspace).imp fun hm _ => hm
  | rmw key input => exact internalRmw_spec h hspace src
  | delete key => exact internalDelete_spec h hspace src

end AnyAttempt

/-! ## Section 2: What a session remembers -/

/-- The cells at or below `seen`. -/
def upTo (seen : ℕ) (cells : List Cell) : List Cell := cells.filter fun c => c.addr ≤ seen

/-- `src` is what the newest record of `key` was when `seen` was the head of its chain;
    whatever the key had then is on disk now. -/
structure SourceAt (head tail : ℕ) (cells : List Cell) (key : Key) (src : Option Record)
    (seen : ℕ) : Prop where
  image : src.map Record.strip = (newest (upTo seen cells) key).map Cell.image
  seen_lt : seen < tail
  cold : ∀ c ∈ cells, c.data.key = key → c.addr ≤ seen → c.addr < head

/-- At `addr` starts the part of the chain on which the newest record of `key`, as of
    chain head `latest`, can be found on disk. -/
structure PendingAt (head tail mask : ℕ) (cells : List Cell) (key : Key) (addr latest : ℕ) :
    Prop where
  below : ∃ below, below <:+ chain mask (keySlot mask key) cells ∧ addr = headAddr below ∧
    newest (upTo latest cells) key = newest below key ∧ ∀ c ∈ below, c.addr < head
  latest_lt : latest < tail
  cold : ∀ c ∈ cells, c.data.key = key → c.addr ≤ latest → c.addr < head

section Memories

variable {seen : ℕ} {cells : List Cell} {key : Key}

theorem upTo_cons_of_lt {c : Cell} (h : seen < c.addr) : upTo seen (c :: cells) = upTo seen cells := by
  unfold upTo
  rw [List.filter_cons_of_neg (by simpa using h)]

theorem upTo_editAt (a : ℕ) {f : Cell → Cell} (hf : Cell.Keeps f) :
    upTo seen (editAt cells a f) = editAt (upTo seen cells) a f := by
  unfold upTo editAt
  rw [List.filter_map]
  congr 2
  funext c
  simp only [Function.comp_apply]
  split
  · rw [hf.addr]
  · rfl

theorem mem_upTo {c : Cell} : c ∈ upTo seen cells ↔ c ∈ cells ∧ c.addr ≤ seen := by
  simp [upTo]

/-- If no record of the key lies above `seen`, nothing has been missed. -/
theorem newest_upTo (h : ∀ c ∈ cells, c.data.key = key → c.addr ≤ seen) :
    newest (upTo seen cells) key = newest cells key := by
  induction cells with
  | nil => rfl
  | cons c cells ih =>
    have ih := ih fun d hd => h d (by simp [hd])
    by_cases hle : c.addr ≤ seen
    · have hcons : upTo seen (c :: cells) = c :: upTo seen cells :=
        List.filter_cons_of_pos (by simpa using hle)
      rw [hcons, newest_cons, newest_cons, ih]
    · have hk : ¬ c.data.key = key := fun hk => hle (h c (by simp) hk)
      rw [upTo_cons_of_lt (by omega), newest_cons, if_neg hk, ih]

/-- Changing a cell above `head` leaves alone what is on disk. -/
theorem newest_upTo_editAt {a head : ℕ} {f : Cell → Cell} (hf : Cell.Keeps f) (ha : head ≤ a)
    (hcold : ∀ c ∈ cells, c.data.key = key → c.addr ≤ seen → c.addr < head) :
    newest (upTo seen (editAt cells a f)) key = newest (upTo seen cells) key := by
  rw [upTo_editAt a hf, newest_editAt _ _ hf]
  cases hn : newest (upTo seen cells) key with
  | none => rfl
  | some c =>
    obtain ⟨hmem, hkey⟩ := newest_mem hn
    obtain ⟨hc, hle⟩ := mem_upTo.mp hmem
    have hlt := hcold c hc hkey hle
    rw [Option.map_some, if_neg (by omega)]

theorem cold_editAt {a head : ℕ} {f : Cell → Cell} (hf : Cell.Keeps f)
    (hcold : ∀ c ∈ cells, c.data.key = key → c.addr ≤ seen → c.addr < head) :
    ∀ c ∈ editAt cells a f, c.data.key = key → c.addr ≤ seen → c.addr < head := by
  refine forall_mem_editAt hcold fun c _ hc hk hle => ?_
  rw [hf.addr] at hle ⊢
  rw [hf.key] at hk
  exact hc hk hle

theorem cold_cons {c : Cell} {head : ℕ} (hlt : seen < c.addr)
    (hcold : ∀ c ∈ cells, c.data.key = key → c.addr ≤ seen → c.addr < head) :
    ∀ d ∈ c :: cells, d.data.key = key → d.addr ≤ seen → d.addr < head := by
  intro d hd hk hle
  rcases List.mem_cons.mp hd with rfl | hd
  · omega
  · exact hcold d hd hk hle

theorem editAt_eq_self {l : List Cell} {a head : ℕ} (f : Cell → Cell) (ha : head ≤ a)
    (hlt : ∀ c ∈ l, c.addr < head) : editAt l a f = l := by
  unfold editAt
  refine (List.map_congr_left fun c hc => ?_).trans (List.map_id l)
  have := hlt c hc
  rw [if_neg (by omega)]
  rfl

variable {head ro tail head' tail' mask : ℕ} {state : SystemState} {start : ℕ} {k : Key}
  {w : Option (Option RecordData)} {cells' : List Cell} {src : Option Record} {addr latest : ℕ}

theorem SourceAt.edits (h : SourceAt head tail cells key src seen) (hro : head ≤ ro)
    (he : Edits state start ro tail k cells w cells') : SourceAt head tail cells' key src seen := by
  refine he.preserve (P := fun cells => SourceAt head tail cells key src seen) ?_ ?_ h
  · intro cells c htail h
    have hlt : seen < c.addr := lt_of_lt_of_le h.seen_lt htail
    exact ⟨by rw [upTo_cons_of_lt hlt]; exact h.image, h.seen_lt, cold_cons hlt h.cold⟩
  · intro cells a f ha hf h
    exact ⟨by rw [newest_upTo_editAt hf (le_trans hro ha) h.cold]; exact h.image, h.seen_lt,
      cold_editAt hf h.cold⟩

theorem SourceAt.mono (h : SourceAt head tail cells key src seen) (hhead : head ≤ head')
    (htail : tail ≤ tail') : SourceAt head' tail' cells key src seen :=
  ⟨h.image, lt_of_lt_of_le h.seen_lt htail, fun c hc hk hle =>
    lt_of_lt_of_le (h.cold c hc hk hle) hhead⟩

theorem PendingAt.edits (h : PendingAt head tail mask cells key addr latest) (hro : head ≤ ro)
    (he : Edits state start ro tail k cells w cells') :
    PendingAt head tail mask cells' key addr latest := by
  refine he.preserve (P := fun cells => PendingAt head tail mask cells key addr latest) ?_ ?_ h
  · intro cells c htail h
    have hlt : latest < c.addr := lt_of_lt_of_le h.latest_lt htail
    obtain ⟨below, hsuf, haddr, hnew, hcold⟩ := h.below
    refine ⟨⟨below, ?_, haddr, by rw [upTo_cons_of_lt hlt]; exact hnew, hcold⟩, h.latest_lt,
      cold_cons hlt h.cold⟩
    rw [chain_cons]
    split
    · exact hsuf.trans (List.suffix_cons _ _)
    · exact hsuf
  · intro cells a f ha hf h
    obtain ⟨below, hsuf, haddr, hnew, hcold⟩ := h.below
    refine ⟨⟨below, ?_, haddr, ?_, hcold⟩, h.latest_lt, cold_editAt hf h.cold⟩
    · obtain ⟨pre, hpre⟩ := hsuf
      refine ⟨editAt pre a f, ?_⟩
      rw [chain_editAt _ _ _ _ hf, ← hpre]
      have hsame := editAt_eq_self f (le_trans hro ha) hcold
      unfold editAt at hsame ⊢
      rw [List.map_append, hsame]
    · rw [newest_upTo_editAt hf (le_trans hro ha) h.cold, hnew]

theorem PendingAt.mono (h : PendingAt head tail mask cells key addr latest) (hhead : head ≤ head')
    (htail : tail ≤ tail') : PendingAt head' tail' mask cells key addr latest := by
  obtain ⟨below, hsuf, haddr, hnew, hcold⟩ := h.below
  exact ⟨⟨below, hsuf, haddr, hnew, fun c hc => lt_of_lt_of_le (hcold c hc) hhead⟩,
    lt_of_lt_of_le h.latest_lt htail, fun c hc hk hle => lt_of_lt_of_le (h.cold c hc hk hle) hhead⟩

end Memories

/-- The head of a chain is its highest address. -/
theorem addr_le_headAddr {cells : List Cell}
    (h : cells.Pairwise fun newer older => older.addr < newer.addr) (mask : ℕ) {c : Cell}
    (hc : c ∈ cells) :
    c.addr ≤ headAddr (chain mask (keySlot mask c.data.key) cells) := by
  have hmem : c ∈ chain mask (keySlot mask c.data.key) cells :=
    List.mem_filter.mpr ⟨hc, by simp⟩
  have hdesc : (chain mask (keySlot mask c.data.key) cells).Pairwise
      fun newer older => older.addr < newer.addr := h.filter _
  cases hch : chain mask (keySlot mask c.data.key) cells with
  | nil => rw [hch] at hmem; cases hmem
  | cons d l =>
    rw [hch] at hmem hdesc
    rcases List.mem_cons.mp hmem with rfl | hl
    · exact le_refl _
    · exact le_of_lt ((List.pairwise_cons.mp hdesc).1 c hl)

/-- What `recordOnDisk` tells is a memory of the right kind. -/
theorem OnDisk.pendingAt {g : Geometry} {rest : ℕ → Option Record} {store : Store}
    {cells : List Cell} {key : Key} {addr latest : ℕ} (h : OnDisk store cells key addr latest)
    (hinv : StoreOver g rest store cells) :
    PendingAt store.log.head (store.log.tailPos g) store.index.mask cells key addr latest := by
  obtain ⟨below, hsuf, haddr, hnew, hcold⟩ := h.below
  have hall : ∀ c ∈ cells, c.data.key = key → c.addr ≤ latest := by
    intro c hc hk
    rw [h.latest_eq, Store.chainOf, ← hk]
    exact addr_le_headAddr hinv.log.desc _ hc
  refine ⟨⟨below, hsuf, haddr, (newest_upTo hall).trans hnew, hcold⟩, ?_, ?_⟩
  · rw [h.latest_eq]
    exact hinv.headAddr_lt_tailPos _
  · intro c hc hk _
    cases hn : newest cells key with
    | none =>
      have hfind := List.find?_eq_none.mp hn c hc
      simp [hk] at hfind
    | some d =>
      have hd := hcold d (newest_mem (hnew.symm.trans hn)).1
      exact lt_of_le_of_lt (newest_le hinv.log.desc hn hc hk) hd

/-- Reading the chain on disk turns the one memory into the other. -/
theorem PendingAt.findOnDisk {g : Geometry} {rest : ℕ → Option Record} {store : Store}
    {cells : List Cell} {key : Key} {addr latest : ℕ} (hinv : StoreOver g rest store cells)
    (h : PendingAt store.log.head (store.log.tailPos g) store.index.mask cells key addr latest) :
    SourceAt store.log.head (store.log.tailPos g) cells key
      (Tsavorite.findOnDisk store.log key (addr + 1) addr) latest := by
  obtain ⟨below, hsuf, rfl, hnew, hcold⟩ := h.below
  refine ⟨?_, h.latest_lt, h.cold⟩
  rw [hnew]
  exact hinv.findOnDisk hsuf fun c hc => lt_of_lt_of_le (hcold c hc) hinv.log.pages.head_le

/-! ## Section 3: Steps of the log alone -/

section LogSteps

variable {g : Geometry} {rest : ℕ → Option Record} {store : Store} {cells : List Cell}

/-- A log whose boundaries have moved over the same pages. -/
theorem StoreOver.shifted (h : StoreOver g rest store cells) {log' : HybridLog}
    (hpages : PagesInv g Record.strip log' (imageOver rest cells) (CutOf (imageOver rest cells)))
    (hsh : Shifted store.log log') : StoreOver g rest { store with log := log' } cells := by
  refine ⟨h.log.move hpages hsh.tail, h.linked, h.entries, ?_⟩
  intro c hc hhead r hr
  refine h.unsealed c hc (le_trans hsh.head hhead) r ?_
  rw [← hr]
  simp only [HybridLog.slotAt, hsh.pages]

theorem StoreInv.shifted (h : StoreInv g store cells) {log' : HybridLog}
    (hlog : LogInv g log' cells) (hsh : Shifted store.log log') :
    StoreInv g { store with log := log' } cells := by
  have hpages := hlog.pages.congr_cut fun b => (cutOf_imageAt h.log.ordered b).symm
  rw [← imageOver_none] at hpages
  exact (h.over.shifted hpages hsh).inv

theorem StoreOver.setEpoch (h : StoreOver g rest store cells) {e : LightEpoch DrainAction}
    (he : e.drain = store.log.epoch.drain) :
    StoreOver g rest { store with log := { store.log with epoch := e } } cells :=
  ⟨h.log.move (h.log.pages.setEpoch (by rw [he]; exact h.log.pages.pending)) rfl, h.linked,
    h.entries, h.unsealed⟩

theorem StoreOver.protect (h : StoreOver g rest store cells) (t : ℕ) :
    StoreOver g rest (store.protect t) cells := h.setEpoch rfl

theorem StoreOver.unprotect (h : StoreOver g rest store cells) (t : ℕ) :
    StoreOver g rest (store.unprotect t) cells := h.setEpoch rfl

theorem StoreOver.bumpCurrentEpoch (h : StoreOver g rest store cells) :
    StoreOver g rest (store.bumpCurrentEpoch g) cells :=
  h.shifted h.log.pages.bumpCurrentEpoch (bumpCurrentEpoch_drained g _).shifted

theorem StoreInv.protect (h : StoreInv g store cells) (t : ℕ) :
    StoreInv g (store.protect t) cells := (h.over.protect t).inv

theorem StoreInv.unprotect (h : StoreInv g store cells) (t : ℕ) :
    StoreInv g (store.unprotect t) cells := (h.over.unprotect t).inv

theorem StoreInv.bumpCurrentEpoch (h : StoreInv g store cells) :
    StoreInv g (store.bumpCurrentEpoch g) cells := h.over.bumpCurrentEpoch.inv

/-- The result of `tail_address` lies at or below the tail and inside no record. -/
theorem LogOver.tailAddress_cut {log : HybridLog} (h : LogOver g rest log cells) {T : ℕ}
    (hT : tailAddress g log.tail = some T) :
    T ≤ log.tailPos g ∧ CutOf (imageOver rest cells) T := by
  by_cases hodd : OddPageFull g log.tail
  · simp only [tailAddress, Option.ite_none_right_eq_some, Option.some.injEq] at hT
    obtain ⟨-, rfl⟩ := hT
    rw [hodd.2, Geometry.pageSize, Bits.shiftLeft_or_two_pow, if_pos hodd.1]
    exact ⟨Nat.le_add_right _ _, h.pages.page_cut _⟩
  · obtain ⟨-, rfl⟩ := tailAddress_eq hT hodd
    exact ⟨le_refl _, fun a r ha _ => h.laid.stops a r ha⟩

end LogSteps

/-! ## Section 4: The invariant -/

/-- What a session may rely on. -/
def PcOk {I : Type} (g : Geometry) (store : Store) (cells : List Cell) : Pc I → Prop
  | .idle => True
  | .ready req src _ | .entered req src _ _ | .backoff req src _ => ∀ r seen, src = some (r, seen) →
      SourceAt store.log.head (store.log.tailPos g) cells req.key r seen
  | .reading req _ addr latest =>
      PendingAt store.log.head (store.log.tailPos g) store.index.mask cells req.key addr latest

/-- What the checkpoint may rely on. -/
def CheckpointOk (g : Geometry) (store : Store) (cells : List Cell) : CheckpointPc → Prop
  | .toWaitFlush _ _ final | .waitWaitFlush _ _ final | .folding _ _ final
  | .waitFlushed _ _ final => final ≤ store.log.tailPos g ∧ Cut cells final
  | .persisting _ _ final => final ≤ store.log.flushedUntil
  | _ => True

/-- The same, of a log that reads as `image`. -/
def CheckpointOver (g : Geometry) (store : Store) (image : ℕ → Option Record) : CheckpointPc → Prop
  | .toWaitFlush _ _ final | .waitWaitFlush _ _ final | .folding _ _ final
  | .waitFlushed _ _ final => final ≤ store.log.tailPos g ∧ CutOf image final
  | .persisting _ _ final => final ≤ store.log.flushedUntil
  | _ => True

structure SystemInv {I O : Type} (g : Geometry) (s : System I O) (cells : List Cell) : Prop where
  store : StoreInv g s.store cells
  published : s.published = view cells
  sessions : ∀ t, PcOk g s.store cells (s.sessions t).pc
  checkpoint : CheckpointOk g s.store cells s.checkpoint

/-- A step of the system, as far as the memories of others are concerned. -/
structure Moved (g : Geometry) (store : Store) (cells : List Cell) (store' : Store)
    (cells' : List Cell) : Prop where
  edits : ∃ state start key w,
    Edits state start store.log.readOnly (store.log.tailPos g) key cells w cells'
  ahead : Ahead g store.log store'.log
  mask : store'.index.mask = store.index.mask

section Invariant

variable {I O : Type} {g : Geometry} {store store' : Store} {cells cells' : List Cell}

theorem Moved.of_log {log' : HybridLog} (h : Ahead g store.log log') :
    Moved g store cells { store with log := log' } cells :=
  ⟨⟨store.systemState, 0, [], none, .refl _⟩, h, rfl⟩

theorem Reached.moved {rest : ℕ → Option Record} {state : SystemState} {key : Key}
    {wrote : Option (Option RecordData)} (h : Reached g rest store cells state key store' cells' wrote) : Moved g store cells store' cells' :=
  ⟨⟨_, _, _, _, h.edits⟩, h.advanced.toAhead, h.mask⟩

theorem LogInv.head_le_readOnly {log : HybridLog} (h : LogInv g log cells) :
    log.head ≤ log.readOnly :=
  le_trans h.head_le (le_trans h.flushed_le h.safeReadOnly_le)

theorem PcOk.moved {pc : Pc I} (h : PcOk g store cells pc) (hinv : StoreInv g store cells)
    (hm : Moved g store cells store' cells') : PcOk g store' cells' pc := by
  obtain ⟨state, start, key, w, he⟩ := hm.edits
  have hro := hinv.log.head_le_readOnly
  cases pc with
  | idle => trivial
  | ready | entered | backoff =>
    exact fun r seen hsrc => ((h r seen hsrc).edits hro he).mono hm.ahead.head hm.ahead.tailPos
  | reading =>
    have hp := PendingAt.edits h hro he
    simp only [PcOk, hm.mask]
    exact hp.mono hm.ahead.head hm.ahead.tailPos

theorem Cut.edits {state : SystemState} {start ro tail b : ℕ} {key : Key}
    {w : Option (Option RecordData)} (h : Cut cells b) (hb : b ≤ tail)
    (he : Edits state start ro tail key cells w cells') : Cut cells' b := by
  refine he.preserve (P := fun cells => Cut cells b) ?_ ?_ h
  · exact fun htail h => h.cons (le_trans hb htail)
  · intro cells a f _ hf h
    refine forall_mem_editAt h fun d _ hd hlt => ?_
    rw [hf.addr] at hlt
    rw [hf.stop]
    exact hd hlt

theorem CheckpointOk.moved {pc : CheckpointPc} (h : CheckpointOk g store cells pc)
    (hm : Moved g store cells store' cells') : CheckpointOk g store' cells' pc := by
  obtain ⟨state, start, key, w, he⟩ := hm.edits
  cases pc with
  | toWaitFlush | waitWaitFlush | folding | waitFlushed =>
    exact ⟨le_trans h.1 hm.ahead.tailPos, Cut.edits h.2 h.1 he⟩
  | persisting => exact le_trans (show _ ≤ store.log.flushedUntil from h) hm.ahead.flushed
  | _ => trivial

theorem systemInv_new (buckets : ℕ) (device : Device) (out : O) :
    SystemInv g (System.new (I := I) (Store.new buckets device) out) [] where
  store := storeInv_new g buckets device
  published := rfl
  sessions := fun _ => trivial
  checkpoint := trivial

end Invariant

/-! ## Section 5: Events -/

/-- What the last attempt of an event came to: an operation that gives up reports an error
    for an attempt that would have had to be made again. -/
def Event.attempted {I O : Type} (e : Event I O) : Shown O :=
  { e.shown with status := e.shown.status.filter (· ≠ .error) }

/-- An event that the plain map `m` explains: an attempt that showed nothing, or one that
    did what an attempt on `m` does. -/
def Event.Justified {I O : Type} (f : SessionFunctions I O) (m : Key → Option RecordData)
    (e : Event I O) : Prop :=
  e.attempted = ⟨none, e.input, [], none⟩ ∨
    ∃ luck, e.attempted = Plain.perform f luck (m e.req.key) e.req e.input

/-- The map that a history has left behind. -/
def outcomeOf {I O : Type} : List (Event I O) → Key → Option RecordData
  | [] => fun _ => none
  | e :: h => applyWrote (outcomeOf h) e.req.key e.shown.wrote

/-! ## Section 6: Steps -/

/-- What the step of an attempt does. -/
structure AttemptStep {I O : Type} (g : Geometry) (f : SessionFunctions I O) (s : System I O)
    (cells : List Cell) (t : ℕ) (s' : System I O) (cells' : List Cell) (req : Request I)
    (src : Option DiskSrc) (retries : ℕ) (state : SystemState) (a : Attempt O) (e : Event I O) :
    Prop where
  pc : (s.sessions t).pc = .entered req src retries state
  attempt_eq : a = attempt g f s.store state req src (s.sessions t).out
  reached : Reached g (fun _ => none) s.store cells state req.key a.store cells' a.wrote
  outcome : Outcome g s.store cells cells' state req.key ((req.source src).map Prod.snd) a
  store : s'.store = a.store.unprotect t
  after : afterAttempt req src retries a.outcome = some ((s'.sessions t).pc, e.shown.status)
  others : ∀ u, u ≠ t → s'.sessions u = s.sessions u
  checkpoint : s'.checkpoint = s.checkpoint
  metadata : s'.metadata = s.metadata
  published : s'.published = applyWrote s.published req.key a.wrote
  history : s'.history = e :: s.history
  event : e.session = t ∧ e.req = req ∧ e.version = state.version ∧ e.shown.wrote = a.wrote
  justified : FreshIfUsed s.store cells req.key (req.source src) →
    e.Justified f s.published ∧ a.outcome ≠ .done .error

section Steps

variable {I O : Type} {g : Geometry} {f : SessionFunctions I O} {s s' : System I O}
  {cells : List Cell}

theorem afterAttempt_aborted {req : Request I} {src : Option DiskSrc} {n : ℕ} (x : Abort) :
    afterAttempt req src n (.aborted x) = none := rfl

/-- The status of an event is that of its attempt, or an error. -/
theorem afterAttempt_status {O : Type} {req : Request I} {src : Option DiskSrc} {n : ℕ}
    {a : Attempt O} {pc : Pc I} {status : Option Status}
    (h : afterAttempt req src n a.outcome = some (pc, status))
    (herr : a.outcome ≠ .done .error) : status.filter (· ≠ .error) = a.shown.status := by
  unfold Attempt.shown
  unfold afterAttempt at h
  cases ho : a.outcome with
  | done st =>
    rw [ho] at h herr
    cases h
    have hne : st ≠ .error := fun heq => herr (by rw [heq])
    simp [Option.filter, hne]
  | recordOnDisk addr latest => rw [ho] at h; cases h; rfl
  | aborted x => rw [ho] at h; cases h
  | retryNow | retryLater | cprShift =>
    rw [ho] at h
    simp only at h
    split at h <;> cases h <;> rfl

theorem Event.attempted_eq {e : Event I O} (h : e.shown.status ≠ some .error) :
    e.attempted = e.shown := by
  unfold Event.attempted
  cases hst : e.shown.status with
  | none => rw [Option.filter_none, ← hst]
  | some st =>
    have hne : st ≠ .error := fun heq => h (by rw [hst, heq])
    rw [Option.filter_some, if_pos (by simpa using hne), ← hst]

/-- What a request comes to on the plain map is never an error. -/
theorem Plain.perform_status (luck : Luck) (cur : Option RecordData) (req : Request I) (out : O) :
    (Plain.perform f luck cur req out).status ≠ some .error := by
  have hpub : ∀ (key : Key) (size : RecordSizeInfo) (out : O) (calls : List Call)
      (wrote : Option (Option RecordData)) (fill : RecordData → O → Payload × O) (tomb : Bool)
      (st : Status) (fillCalls : List Call), st ≠ .error →
      (Plain.publish luck key size out calls wrote fill tomb st fillCalls).status ≠ some .error := by
    intro key size out calls wrote fill tomb st fillCalls hst
    unfold Plain.publish
    split
    · simpa using hst
    · simp
  have hinit : ∀ (key : Key) (input : I) (out : O) (calls : List Call)
      (wrote : Option (Option RecordData)),
      (Plain.rmwInitial f luck key input out calls wrote).status ≠ some .error := by
    intro key input out calls wrote
    simp only [Plain.rmwInitial]
    split
    · exact hpub _ _ _ _ _ _ _ _ _ (by decide)
    · simp
  have hcopy : ∀ (key : Key) (input : I) (out : O) (calls : List Call) (d : RecordData),
      (Plain.rmwCopy f luck key input out calls d).status ≠ some .error := by
    intro key input out calls d
    unfold Plain.rmwCopy
    split
    · simp
    · exact hpub _ _ _ _ _ _ _ _ _ (by decide)
    · exact hpub _ _ _ _ _ _ _ _ _ (by decide)
  cases req with
  | read key input =>
    simp only [Plain.perform]
    unfold Plain.read
    split
    · simp
    · simp only
      split <;> simp
  | upsert key input =>
    simp only [Plain.perform]
    unfold Plain.upsert
    split
    · split
      · simp
      · exact hpub _ _ _ _ _ _ _ _ _ (by decide)
    · exact hpub _ _ _ _ _ _ _ _ _ (by decide)
  | rmw key input =>
    simp only [Plain.perform]
    unfold Plain.rmw
    split
    · exact hinit _ _ _ _ _
    · split
      · unfold Plain.rmwInPlace
        split
        · simp
        · simp
        · exact hinit _ _ _ _ _
        · simp
        · exact hcopy _ _ _ _ _
      · exact hcopy _ _ _ _ _
  | delete key =>
    simp only [Plain.perform]
    unfold Plain.delete
    split
    · simp
    · split
      · simp
      · exact hpub _ _ _ _ _ _ _ _ _ (by decide)

theorem Attempt.Matches.outcome_ne_error {a : Attempt O} {out : O} {cur : Option RecordData}
    {req : Request I} (h : a.Matches out fun luck => Plain.perform f luck cur req out) :
    a.outcome ≠ .done .error := by
  intro herr
  have hstatus : a.shown.status = some .error := by simp [Attempt.shown, herr]
  rcases h with hsilent | ⟨luck, hshown⟩
  · rw [hsilent] at hstatus
    cases hstatus
  · rw [hshown] at hstatus
    exact Plain.perform_status luck cur req out hstatus

theorem SystemInv.attempt (h : SystemInv g s cells) {t : ℕ} (hspace : s.store.log.HasSpace g)
    (hnext : next g f s (.attempt t) = some s') :
    ∃ cells' req src n state a e, AttemptStep g f s cells t s' cells' req src n state a e := by
  cases hpc : (s.sessions t).pc with
  | entered req src n state =>
    simp only [next, hpc] at hnext
    generalize ha : Tsavorite.attempt g f s.store state req src (s.sessions t).out = a at hnext
    obtain ⟨⟨pc, status⟩, hafter, rfl⟩ := Option.map_eq_some_iff.mp hnext
    have hspec := attempt_spec (f := f) h.store.over hspace state req src (s.sessions t).out
    simp only [ha] at hspec
    cases hspec with
    | aborted _ hx => rw [hx, afterAttempt_aborted] at hafter; cases hafter
    | kept hr ho hsim =>
      refine ⟨_, req, src, n, state, a, _, hpc, ha.symm, hr, ho, rfl, ?_, ?_, rfl, rfl, rfl, rfl,
        ⟨rfl, rfl, rfl, rfl⟩, ?_⟩
      · simpa only [System.setSession, if_true] using hafter
      · intro u hu
        simp only [System.setSession, if_neg hu]
      · intro hfresh
        have hm := hsim hfresh
        have hst := afterAttempt_status hafter hm.outcome_ne_error
        have heq : Event.attempted (⟨t, req, state.version, (s.sessions t).out,
            { a.shown with status := status }⟩ : Event I O) = a.shown := by
          simp only [Event.attempted, hst]
        refine ⟨?_, hm.outcome_ne_error⟩
        unfold Event.Justified
        rw [heq, h.published]
        exact hm
  | idle | ready | reading | backoff => simp [next, hpc] at hnext

/-- Where a session that has to go on goes on from. -/
theorem AttemptStep.pcOk {cells' : List Cell} {t : ℕ} {req : Request I} {src : Option DiskSrc}
    {n : ℕ} {state : SystemState} {a : Attempt O} {e : Event I O}
    (h : AttemptStep g f s cells t s' cells' req src n state a e) (hinv : StoreInv g s.store cells)
    (hpc : PcOk g s.store cells (s.sessions t).pc) : PcOk g a.store cells' (s'.sessions t).pc := by
  have hafter := h.after
  have hsrc : ∀ r seen, src = some (r, seen) →
      SourceAt a.store.log.head (a.store.log.tailPos g) cells' req.key r seen := by
    rw [h.pc] at hpc
    have hm : PcOk g a.store cells' (Pc.entered req src n state) :=
      PcOk.moved hpc hinv h.reached.moved
    exact hm
  unfold afterAttempt at hafter
  cases hout : a.outcome with
  | done st =>
    rw [hout] at hafter
    simp only [Option.some.injEq, Prod.mk.injEq] at hafter
    rw [← hafter.1]
    trivial
  | recordOnDisk addr latest =>
    rw [hout] at hafter
    simp only [Option.some.injEq, Prod.mk.injEq] at hafter
    rw [← hafter.1]
    have ho := h.outcome
    cases ho with
    | onDisk heq hcells hlog _ hdisk =>
      rw [hout] at heq
      cases heq
      simp only [PcOk, hcells, hlog, h.reached.mask]
      exact hdisk.pendingAt hinv.over
    | done heq | refused heq | fuzzy heq | shift heq | stale heq => rw [hout] at heq; cases heq
  | aborted x => rw [hout] at hafter; cases hafter
  | retryNow | retryLater | cprShift =>
    rw [hout] at hafter
    simp only [handleRetry] at hafter
    split at hafter
    · next hgo =>
      split at hgo
      · cases hgo
      · split at hgo <;>
        · cases hgo
          simp only [Option.some.injEq, Prod.mk.injEq] at hafter
          rw [← hafter.1]
          exact hsrc
    · simp only [Option.some.injEq, Prod.mk.injEq] at hafter
      rw [← hafter.1]
      trivial

theorem AttemptStep.systemInv {cells' : List Cell} {t : ℕ} {req : Request I}
    {src : Option DiskSrc} {n : ℕ} {state : SystemState} {a : Attempt O} {e : Event I O}
    (h : AttemptStep g f s cells t s' cells' req src n state a e) (hinv : SystemInv g s cells) :
    SystemInv g s' cells' := by
  have hsame : ∀ {pc : Pc I}, PcOk g a.store cells' pc → PcOk g s'.store cells' pc := by
    intro pc hpc
    rw [h.store]
    cases pc <;> exact hpc
  refine ⟨by rw [h.store]; exact (h.reached.inv.unprotect t).inv, ?_, fun u => ?_, ?_⟩
  · rw [h.published, hinv.published]
    exact (view_edits h.reached.edits h.reached.inv.log.ordered).symm
  · by_cases hu : u = t
    · subst hu
      exact hsame (h.pcOk hinv.store (hinv.sessions u))
    · rw [h.others u hu]
      exact hsame ((hinv.sessions u).moved hinv.store h.reached.moved)
  · rw [h.checkpoint, h.store]
    have hck := hinv.checkpoint.moved h.reached.moved
    cases hc : s.checkpoint <;> rw [hc] at hck <;> exact hck

end Steps

/-! ## Section 7: The other steps -/

section OtherSteps

variable {I O : Type} {g : Geometry} {f : SessionFunctions I O} {s s' : System I O}
  {cells : List Cell} {store : Store}

/-- A step of the log, with any change of the checkpoint fields of the store. -/
theorem StoreOver.setFields (h : StoreOver g rest store cells) (state : SystemState) (start : ℕ)
    {log' : HybridLog}
    (hpages : PagesInv g Record.strip log' (imageOver rest cells) (CutOf (imageOver rest cells)))
    (hsh : Shifted store.log log') : StoreOver g rest ⟨log', store.index, state, start⟩ cells :=
  ⟨(h.shifted hpages hsh).log, h.linked, h.entries, (h.shifted hpages hsh).unsealed⟩

theorem PagesInv.transition {log : HybridLog} {image : ℕ → Option Record} {cut : ℕ → Prop}
    (h : PagesInv g Record.strip log image cut) :
    PagesInv g Record.strip (({ log with observed := false }).bumpWithAction g .observe) image cut ∧
      Shifted log (({ log with observed := false }).bumpWithAction g .observe) := by
  have hlog : PagesInv g Record.strip { log with observed := false } image cut :=
    { h with pending := fun x hx => (h.pending x hx).mono (le_refl _) (le_refl _) }
  have hdr := bumpWithAction_drained g { log with observed := false } .observe
  exact ⟨hlog.bumpWithAction (a := .observe) trivial, ⟨hdr.tail, hdr.pages, le_of_eq hdr.head.symm, le_of_eq hdr.readOnly.symm,
    hdr.flushed, hdr.closed, hdr.safeReadOnly, hdr.table⟩⟩

/-- What a step of the checkpoint does to the store. -/
structure CheckpointMove (g : Geometry) (rest : ℕ → Option Record) (store : Store)
    (cells : List Cell) (store' : Store) : Prop where
  inv : StoreOver g rest store' cells
  shifted : Shifted store.log store'.log
  index : store'.index = store.index

theorem CheckpointMove.refl (h : StoreOver g rest store cells) :
    CheckpointMove g rest store cells store := ⟨h, Shifted.refl _, rfl⟩

theorem StoreOver.checkpointTransition (h : StoreOver g rest store cells) (new : SystemState) :
    CheckpointMove g rest store cells (store.transition g new) :=
  ⟨h.setFields _ _ h.log.pages.transition.1 h.log.pages.transition.2, h.log.pages.transition.2, rfl⟩

theorem StoreOver.awaitStep (h : StoreOver g rest store cells) (cond : Bool)
    (here next : CheckpointPc) :
    CheckpointMove g rest store cells (store.awaitStep g cond here next).1 ∧
      ((store.awaitStep g cond here next).2 = next ∧ cond = true ∧
          (store.awaitStep g cond here next).1 = store ∨
        (store.awaitStep g cond here next).2 = here) := by
  unfold Store.awaitStep
  split
  · next hc => exact ⟨CheckpointMove.refl h, .inl ⟨rfl, hc, rfl⟩⟩
  · exact ⟨⟨h.bumpCurrentEpoch, (bumpCurrentEpoch_drained g _).shifted, rfl⟩, .inr rfl⟩

theorem CheckpointMove.moved {store' : Store} (h : CheckpointMove g rest store cells store') :
    Moved g store cells store' cells :=
  ⟨⟨store.systemState, 0, [], none, .refl _⟩, h.shifted.ahead, by rw [h.index]⟩

theorem CheckpointOver.ahead {image : ℕ → Option Record} {store' : Store} {pc : CheckpointPc}
    (h : CheckpointOver g store image pc) (ha : Ahead g store.log store'.log) :
    CheckpointOver g store' image pc := by
  cases pc with
  | toWaitFlush | waitWaitFlush | folding | waitFlushed => exact ⟨le_trans h.1 ha.tailPos, h.2⟩
  | persisting => exact le_trans (show _ ≤ store.log.flushedUntil from h) ha.flushed
  | _ => trivial

theorem checkpointStep_over (h : StoreOver g rest store cells) {pc pc' : CheckpointPc}
    (hpc : CheckpointOver g store (imageOver rest cells) pc) {u : ℕ} {store' : Store}
    {info : Option CheckpointInfo}
    (hstep : checkpointStep g u store pc = some (store', pc', info)) :
    CheckpointMove g rest store cells store' ∧
      CheckpointOver g store' (imageOver rest cells) pc' := by
  -- The wait loops go on or stay, and what they rely on survives a bump.
  have hwait : ∀ (cond : Bool) (here next : CheckpointPc),
      CheckpointOver g store (imageOver rest cells) here →
      (cond = true → CheckpointOver g store (imageOver rest cells) next) →
      CheckpointMove g rest store cells (store.awaitStep g cond here next).1 ∧
        CheckpointOver g (store.awaitStep g cond here next).1 (imageOver rest cells)
          (store.awaitStep g cond here next).2 := by
    intro cond here next hhere hnext
    obtain ⟨hm, hgo | hstay⟩ := h.awaitStep cond here next
    · refine ⟨hm, ?_⟩
      rw [hgo.1, hgo.2.2]
      exact hnext hgo.2.1
    · refine ⟨hm, ?_⟩
      rw [hstay]
      exact hhere.ahead hm.shifted.ahead
  cases pc with
  | idle =>
    simp only [checkpointStep, Option.ite_none_right_eq_some] at hstep
    obtain ⟨T, -, heq⟩ := Option.map_eq_some_iff.mp hstep.2
    cases heq
    exact ⟨⟨h.setFields _ _ h.log.pages (Shifted.refl _), Shifted.refl _, rfl⟩, trivial⟩
  | toPrepare v start =>
    cases hstep
    exact ⟨h.checkpointTransition _, trivial⟩
  | waitPrepare v start =>
    cases hstep
    exact hwait _ _ _ trivial fun _ => trivial
  | toInProgress v start =>
    cases hstep
    exact ⟨h.checkpointTransition _, trivial⟩
  | waitInProgress v start =>
    cases hstep
    exact hwait _ _ _ trivial fun _ => trivial
  | capturing v start =>
    obtain ⟨T, hT, heq⟩ := Option.map_eq_some_iff.mp hstep
    cases heq
    exact ⟨CheckpointMove.refl h, h.log.tailAddress_cut hT⟩
  | toWaitFlush v start final =>
    cases hstep
    exact ⟨h.checkpointTransition _, CheckpointOver.ahead hpc
      (h.checkpointTransition _).shifted.ahead⟩
  | waitWaitFlush v start final =>
    cases hstep
    exact hwait _ _ _ hpc fun _ => hpc
  | folding v start final =>
    cases hstep
    have hpages := h.log.pages.shiftReadOnlyAddress hpc.1 hpc.2
    have hsh := (shiftReadOnlyAddress_shifted g store.log final).1
    exact ⟨⟨h.shifted hpages hsh, hsh, rfl⟩, CheckpointOver.ahead hpc hsh.ahead⟩
  | waitFlushed v start final =>
    cases hstep
    exact hwait _ _ _ hpc fun hc => by simpa [CheckpointOver] using hc
  | persisting v start final =>
    cases hstep
    have hsame : store.log.flushUntil g final = store.log := by
      unfold HybridLog.flushUntil
      rw [if_pos (show final ≤ store.log.flushedUntil from hpc)]
    rw [hsame]
    exact ⟨CheckpointMove.refl h, trivial⟩
  | toRest info =>
    cases hstep
    exact ⟨h.checkpointTransition _, trivial⟩
  | waitRest info =>
    cases hstep
    exact hwait _ _ _ trivial fun _ => trivial
  | done info => cases hstep

theorem checkpointOk_iff (hord : cells.Pairwise fun newer older => older.stop ≤ newer.addr)
    {pc : CheckpointPc} :
    CheckpointOk g store cells pc ↔ CheckpointOver g store (imageAt cells) pc := by
  cases pc with
  | toWaitFlush | waitWaitFlush | folding | waitFlushed =>
    exact and_congr_right fun _ => (cutOf_imageAt hord _).symm
  | _ => exact Iff.rfl

theorem checkpointStep_spec (h : StoreInv g store cells) {pc pc' : CheckpointPc}
    (hpc : CheckpointOk g store cells pc) {u : ℕ} {store' : Store} {info : Option CheckpointInfo}
    (hstep : checkpointStep g u store pc = some (store', pc', info)) :
    CheckpointMove g (fun _ => none) store cells store' ∧ CheckpointOk g store' cells pc' := by
  rw [checkpointOk_iff h.log.ordered, ← imageOver_none] at hpc
  obtain ⟨hm, hpc'⟩ := checkpointStep_over h.over hpc hstep
  rw [imageOver_none, ← checkpointOk_iff h.log.ordered] at hpc'
  exact ⟨hm, hpc'⟩

/-- Replacing one session's program counter. -/
theorem SystemInv.setSession (h : SystemInv g s cells) (t : ℕ) {x : Session I O}
    (hx : PcOk g s.store cells x.pc) : SystemInv g (s.setSession t x) cells := by
  refine ⟨h.store, h.published, fun u => ?_, h.checkpoint⟩
  simp only [System.setSession]
  split
  · exact hx
  · exact h.sessions u

/-- A step of the store that only moves boundaries. -/
theorem SystemInv.setStore (h : SystemInv g s cells) {store' : Store}
    (hinv : StoreInv g store' cells) (hm : Moved g s.store cells store' cells) :
    SystemInv g { s with store := store' } cells :=
  ⟨hinv, h.published, fun t => (h.sessions t).moved h.store hm, h.checkpoint.moved hm⟩

theorem Ahead.setEpoch (g : Geometry) (log : HybridLog) (e : LightEpoch DrainAction) :
    Ahead g log { log with epoch := e } :=
  ⟨le_refl _, le_refl _, le_refl _, le_refl _⟩

/-- Is this the step of an attempt? -/
def Label.isAttempt : Label I O → Bool
  | .attempt _ => true
  | _ => false

/-- What the other steps show: a `read` may end with what it has found on disk. -/
structure QuietStep (f : SessionFunctions I O) (s s' : System I O) : Prop where
  published : s'.published = s.published
  history : s'.history = s.history ∨ ∃ t key input n addr latest version,
    (s.sessions t).pc = .reading (.read key input) n addr latest ∧
    s'.history = ⟨t, .read key input, version, (s.sessions t).out,
      readFromDisk f key input (s.sessions t).out
        (findOnDisk s.store.log key (addr + 1) addr)⟩ :: s.history

/-- Every step but an attempt leaves the cells alone. -/
theorem SystemInv.quiet (h : SystemInv g s cells) {l : Label I O} (hl : l.isAttempt = false)
    (hnext : next g f s l = some s') : SystemInv g s' cells ∧ QuietStep f s s' := by
  cases l with
  | start t req out =>
    cases hpc : (s.sessions t).pc with
    | idle =>
      simp only [next, hpc, Option.some.injEq] at hnext
      subst hnext
      exact ⟨h.setSession t (by simp [PcOk]), rfl, .inl rfl⟩
    | _ => simp [next, hpc] at hnext
  | enter t =>
    cases hpc : (s.sessions t).pc with
    | ready req src n =>
      simp only [next, hpc, Option.some.injEq] at hnext
      subst hnext
      have hm : Moved g s.store cells (s.store.protect t) cells :=
        Moved.of_log (Ahead.setEpoch g _ _)
      have hold := (h.sessions t).moved h.store hm
      rw [hpc] at hold
      exact ⟨(h.setStore (h.store.protect t) hm).setSession t hold, rfl, .inl rfl⟩
    | _ => simp [next, hpc] at hnext
  | attempt t => cases hl
  | diskRead t =>
    cases hpc : (s.sessions t).pc with
    | reading req n addr latest =>
      have hpend := h.sessions t
      rw [hpc] at hpend
      simp only [next, hpc] at hnext
      cases req with
      | read key input =>
        simp only [Option.some.injEq] at hnext
        subst hnext
        have hevent : ∀ e, SystemInv g { s with history := e :: s.history } cells :=
          fun _ => ⟨h.store, h.published, h.sessions, h.checkpoint⟩
        exact ⟨(hevent _).setSession t trivial, rfl, .inr ⟨t, key, input, n, addr, latest, _, hpc, rfl⟩⟩
      | upsert | rmw | delete =>
        simp only [Option.some.injEq] at hnext
        subst hnext
        refine ⟨h.setSession t ?_, rfl, .inl rfl⟩
        intro r seen hsrc
        cases hsrc
        exact PendingAt.findOnDisk h.store.over hpend
    | _ => simp [next, hpc] at hnext
  | backoff t =>
    cases hpc : (s.sessions t).pc with
    | backoff req src n =>
      simp only [next, hpc, Option.some.injEq] at hnext
      subst hnext
      have hm : Moved g s.store cells (s.store.bumpCurrentEpoch g) cells :=
        Moved.of_log (bumpCurrentEpoch_drained g _).shifted.ahead
      have hold := (h.sessions t).moved h.store hm
      rw [hpc] at hold
      exact ⟨(h.setStore h.store.bumpCurrentEpoch hm).setSession t hold, rfl, .inl rfl⟩
    | _ => simp [next, hpc] at hnext
  | bump =>
    cases hnext
    exact ⟨h.setStore h.store.bumpCurrentEpoch
      (Moved.of_log (bumpCurrentEpoch_drained g _).shifted.ahead), rfl, .inl rfl⟩
  | checkpoint u =>
    obtain ⟨⟨store', pc', info⟩, hstep, rfl⟩ := Option.map_eq_some_iff.mp hnext
    obtain ⟨hm, hpc⟩ := checkpointStep_spec h.store h.checkpoint hstep
    exact ⟨⟨hm.inv.inv, h.published, fun t => (h.sessions t).moved h.store hm.moved, hpc⟩, rfl, .inl rfl⟩

/-- An attempt is made only while the log has address space for one more page. -/
def Roomy (g : Geometry) (s : System I O) : Label I O → Prop
  | .attempt _ => s.store.log.HasSpace g
  | _ => True

instance (g : Geometry) (s : System I O) : (l : Label I O) → Decidable (Roomy g s l)
  | .attempt _ => inferInstanceAs (Decidable (HybridLog.HasSpace _ _))
  | .start _ _ _ | .enter _ | .diskRead _ | .backoff _ | .bump | .checkpoint _ => isTrue trivial

/-- The steps of session 0, and epoch bumps. -/
def Alone : Label I O → Prop
  | .start t _ _ | .enter t | .attempt t | .diskRead t | .backoff t => t = 0
  | .bump => True
  | .checkpoint _ => False

/-- Whose step it is, if it is a session's. -/
def Label.session : Label I O → Option ℕ
  | .start t _ _ | .enter t | .attempt t | .diskRead t | .backoff t => some t
  | .bump | .checkpoint _ => none

/-- A session moves in its own steps only. -/
theorem next_sessions {l : Label I O} (hnext : next g f s l = some s') {t : ℕ}
    (ht : l.session ≠ some t) : (s'.sessions t) = s.sessions t := by
  have hset : ∀ (s : System I O) (u : ℕ) (x : Session I O), some u ≠ some t →
      (s.setSession u x).sessions t = s.sessions t := by
    intro s u x hu
    exact if_neg fun heq => hu (by rw [heq])
  cases l with
  | start u req out | enter u =>
    simp only [next] at hnext
    split at hnext <;> cases hnext
    exact hset _ _ _ ht
  | attempt u =>
    simp only [next] at hnext
    split at hnext
    · obtain ⟨x, -, rfl⟩ := Option.map_eq_some_iff.mp hnext
      exact hset _ _ _ ht
    · cases hnext
  | diskRead u =>
    simp only [next] at hnext
    split at hnext
    · split at hnext <;> cases hnext <;> exact hset _ _ _ ht
    · cases hnext
  | backoff u =>
    simp only [next] at hnext
    split at hnext <;> cases hnext
    exact hset _ _ _ ht
  | bump =>
    cases hnext
    rfl
  | checkpoint u =>
    obtain ⟨x, -, rfl⟩ := Option.map_eq_some_iff.mp hnext
    rfl

theorem SystemInv.step (h : SystemInv g s cells) {l : Label I O} (hok : Roomy g s l)
    (hnext : next g f s l = some s') : ∃ cells', SystemInv g s' cells' := by
  by_cases hl : l.isAttempt = true
  · cases l with
    | attempt t =>
      obtain ⟨cells', req, src, n, state, a, e, hstep⟩ := h.attempt hok hnext
      exact ⟨cells', hstep.systemInv h⟩
    | _ => cases hl
  · exact ⟨cells, (h.quiet (by simpa using hl) hnext).1⟩

/-- The invariant holds in every state the system reaches. -/
theorem systemInv_run {ok : System I O → Label I O → Prop} (hok : ∀ s l, ok s l → Roomy g s l)
    {buckets : ℕ} {device : Device} {out : O} {ls : List (Label I O)}
    (hrun : Lts.Steps (next g f) ok (System.new (Store.new buckets device) out) ls s) :
    ∃ cells, SystemInv g s cells := by
  refine hrun.invariant (P := fun s => ∃ cells, SystemInv g s cells) ?_
    ⟨[], systemInv_new buckets device out⟩
  rintro s s' l ⟨cells, h⟩ hl hnext
  exact h.step (hok _ _ hl) hnext

end OtherSteps

end Tsavorite
