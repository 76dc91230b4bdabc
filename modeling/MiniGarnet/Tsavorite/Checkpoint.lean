import MiniGarnet.Tsavorite.Store

/-! # Fold-over checkpoints and recovery

    `take_checkpoint` runs as a thread of its own next to the sessions, so it
    is modelled step by step (`checkpoint.rs`): every transition of the
    global state, every turn of a wait loop, the reads of the tail and the
    metadata write are separate steps.  `recover` runs alone and is a
    function.
-/

namespace Tsavorite

structure CheckpointInfo where
  version : ℕ
  beginAddress : ℕ
  startAddress : ℕ
  finalAddress : ℕ
  userData : ℕ
  deriving DecidableEq, Repr

/-! ## Section 1: Taking a checkpoint -/

/-- Where `take_checkpoint` stands. -/
inductive CheckpointPc where
  /-- No checkpoint is being taken. -/
  | idle
  /-- Start captured: about to move to PREPARE. -/
  | toPrepare (v start : ℕ)
  | waitPrepare (v start : ℕ)
  /-- About to move to IN_PROGRESS. -/
  | toInProgress (v start : ℕ)
  | waitInProgress (v start : ℕ)
  /-- About to capture the final address. -/
  | capturing (v start : ℕ)
  /-- About to move to WAIT_FLUSH. -/
  | toWaitFlush (v start final : ℕ)
  | waitWaitFlush (v start final : ℕ)
  /-- About to shift ReadOnly to the final address. -/
  | folding (v start final : ℕ)
  /-- In `wait_flushed`. -/
  | waitFlushed (v start final : ℕ)
  /-- About to sync the device and to write the metadata. -/
  | persisting (v start final : ℕ)
  /-- About to move to REST. -/
  | toRest (info : CheckpointInfo)
  | waitRest (info : CheckpointInfo)
  /-- Returned `Ok(info)`. -/
  | done (info : CheckpointInfo)
  deriving DecidableEq, Repr

variable (g : Geometry)

/-- The first half of `transition_and_wait`: move the global state and register the
    flag that tells when every thread has observed it. -/
def Store.transition (store : Store) (new : SystemState) : Store :=
  { store with
    systemState := new
    log := ({ store.log with observed := false }).bumpWithAction g .observe }

/-- One turn of a wait loop: go on if `cond` holds, else bump the epoch and look again. -/
def Store.awaitStep (store : Store) (cond : Bool) (here next : CheckpointPc) :
    Store × CheckpointPc :=
  if cond then (store, next) else ({ store with log := store.log.bumpCurrentEpoch g }, here)

/-- One step of `take_checkpoint`, with the metadata it writes.  `none`: nothing to do,
    or `tail_address` spins. -/
def checkpointStep (userData : ℕ) (store : Store) :
    CheckpointPc → Option (Store × CheckpointPc × Option CheckpointInfo)
  | .idle =>
    if store.systemState.phase = .rest then
      (tailAddress g store.log.tail).map fun start =>
        ({ store with checkpointStartAddress := start },
          .toPrepare store.systemState.version start, none)
    else none
  | .toPrepare v start =>
    some (store.transition g ⟨.prepare, v⟩, .waitPrepare v start, none)
  | .waitPrepare v start =>
    let (store, pc) := store.awaitStep g store.log.observed (.waitPrepare v start) (.toInProgress v start)
    some (store, pc, none)
  | .toInProgress v start =>
    some (store.transition g ⟨.inProgress, v + 1⟩, .waitInProgress v start, none)
  | .waitInProgress v start =>
    let (store, pc) := store.awaitStep g store.log.observed (.waitInProgress v start)
      (.capturing v start)
    some (store, pc, none)
  | .capturing v start =>
    (tailAddress g store.log.tail).map fun final => (store, .toWaitFlush v start final, none)
  | .toWaitFlush v start final =>
    some (store.transition g ⟨.waitFlush, v + 1⟩, .waitWaitFlush v start final, none)
  | .waitWaitFlush v start final =>
    let (store, pc) := store.awaitStep g store.log.observed (.waitWaitFlush v start final)
      (.folding v start final)
    some (store, pc, none)
  | .folding v start final =>
    some ({ store with log := store.log.shiftReadOnlyAddress g final }, .waitFlushed v start final,
      none)
  | .waitFlushed v start final =>
    let (store, pc) := store.awaitStep g (final ≤ store.log.flushedUntil)
      (.waitFlushed v start final) (.persisting v start final)
    some (store, pc, none)
  | .persisting v start final =>
    let info := ⟨v, store.log.beginAddress, start, final, userData⟩
    some ({ store with log := store.log.flushUntil g final }, .toRest info, some info)
  | .toRest info =>
    some (store.transition g ⟨.rest, info.version + 1⟩, .waitRest info, none)
  | .waitRest info =>
    let (store, pc) := store.awaitStep g store.log.observed (.waitRest info) (.done info)
    some (store, pc, none)
  | .done _ => none

/-! ## Section 2: Recovery -/

namespace HybridLog

/-- `recover_addresses`: everything below `tail` is on disk, nothing is in memory. -/
def recoverAddresses (log : HybridLog) (begin_ tail : ℕ) : HybridLog :=
  let page := g.pageOf tail
  { log.zeroPage g page with
    beginAddress := begin_
    closedUntil := page <<< g.pageBits
    safeHead := tail
    head := tail
    flushedUntil := tail
    safeReadOnly := tail
    readOnly := tail
    tail := pack page (g.pageOffset tail) }

/-- `read_page_prefix_from_disk`: the images of the first `len` bytes of a page. -/
def readPagePrefixFromDisk (log : HybridLog) (page len : ℕ) : Option (ℕ → Option Record) :=
  if len = 0 then some fun _ => none
  else if log.device.canRead (page <<< g.pageBits) len then
    some fun off => if off < len then log.device.data (page <<< g.pageBits + off) else none
  else none

end HybridLog

/-- What recovery has rebuilt so far; `dirty` marks a page that has to be written back. -/
structure Recovery where
  index : HashIndex
  page : ℕ → Option Record
  dirty : Bool

/-- What recovery does with one record of the page buffer.  `none` is the failed
    assertion of the overflow arena. -/
def recoverRecord (info : CheckpointInfo) (pageStart : ℕ) (rc : Recovery) (off : ℕ) (r : Record) :
    Option Recovery :=
  let addr := pageStart + off
  if !r.info.isValid then some rc
  else if r.info.inNewVersion && info.startAddress ≤ addr then
    some { rc with
      page := fun o => if o = off then some { r with info := r.info.setInvalid } else rc.page o
      dirty := true }
  else
    let rc := if r.info.isSealed then
        { rc with
          page := fun o => if o = off then some { r with info := r.info.clearSealed } else rc.page o
          dirty := true }
      else rc
    (rc.index.findOrCreateTag (hash64 r.data.key)).bind fun (index, slot) =>
      let cur := (index.load slot).getD 0
      if cur < addr then
        (index.tryCas slot cur addr).map fun index => { rc with index := index }
      else some { rc with index := index }

/-- `for_each_record_in_buf` with the body of recovery; the first argument bounds the
    number of records. -/
def recoverPage (info : CheckpointInfo) (pageStart limit : ℕ) :
    ℕ → ℕ → Recovery → Option Recovery
  | 0, _, rc => some rc
  | n + 1, off, rc =>
    if off + MIN_DISK_READ ≤ limit then
      let r := (rc.page off).getD Record.zero
      if r.isZeroHeader then some rc
      else if limit < off + r.totalSize then some rc
      else (recoverRecord info pageStart rc off r).bind fun rc =>
        recoverPage info pageStart limit n (off + r.totalSize) rc
    else some rc

/-- How `recover` can end. -/
inductive RecoverResult where
  | ok (store : Store)
  /-- `Err`: a page could not be read. -/
  | ioError
  /-- A failed assertion. -/
  | aborted

/-- The loop over the pages of the checkpoint; the first argument bounds their number. -/
def recoverPages (info : CheckpointInfo) : ℕ → ℕ → Store → RecoverResult
  | 0, _, store => .ok store
  | n + 1, pageStart, store =>
    if pageStart < info.finalAddress then
      let page := pageStart / g.pageSize
      let limit := min info.finalAddress (pageStart + g.pageSize) - pageStart
      match store.log.readPagePrefixFromDisk g page limit with
      | none => .ioError
      | some buf =>
        let fromOff := info.beginAddress - pageStart
        match recoverPage info pageStart limit limit (max fromOff PAGE_HEADER_SIZE)
            ⟨store.index, buf, false⟩ with
        | none => .aborted
        | some rc =>
          let device := if rc.dirty then store.log.device.writeAt pageStart limit rc.page
            else store.log.device
          recoverPages info n (pageStart + g.pageSize)
            { store with index := rc.index, log := { store.log with device := device } }
    else .ok store

/-- `recover`, on a fresh store over the device of the checkpoint. -/
def Store.recover (store : Store) (info : CheckpointInfo) : RecoverResult :=
  let store := { store with
    index := store.index.clear
    log := store.log.recoverAddresses g info.beginAddress info.finalAddress
    systemState := ⟨.rest, info.version + 1⟩
    checkpointStartAddress := 2 ^ 64 - 1 }
  recoverPages g info (info.finalAddress / g.pageSize + 1)
    (info.beginAddress / g.pageSize * g.pageSize) store

end Tsavorite
