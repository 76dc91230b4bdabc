import Mathlib.Logic.Function.Basic
import MiniGarnet.Tsavorite.Index
import MiniGarnet.Tsavorite.Log

/-! # The store: Read, Upsert, RMW, Delete

    The four operations of `store.rs` over the index and the log.  An
    *attempt* (`internal_read`, `internal_upsert`, `internal_rmw`,
    `internal_delete`) is one step: it runs under its bucket latch, so
    nothing else touches its chain meanwhile.  An operation is a loop of
    attempts, separated by epoch bumps and by reads of the device.

    Attempts report the callbacks they made together with the body each was
    given, so that one can say what the application saw.
-/

namespace Tsavorite

/-! ## Section 1: Callbacks -/

/-- Result of an in-place update callback; `updated` carries what it wrote. -/
inductive InPlaceResult where
  | updated (p : Payload)
  | needCopy
  | expired
  | cancel
  | delete
  deriving DecidableEq, Repr

/-- What the copy-to-tail path should do with a record. -/
inductive CopyDecision where
  | copy
  | cancel
  | delete
  deriving DecidableEq, Repr

/-- The application callbacks.  `O` is the output together with whatever else the
    `&mut self` receiver owns.  The three laws are the assertion
    `size.key_len == key.len()` of `RecordPtr::init`. -/
structure SessionFunctions (I O : Type) where
  reader : Key → I → RecordData → O → Bool × O
  upsertSize : Key → I → RecordSizeInfo
  initialWriter : Key → I → RecordData → O → Payload × O
  /-- `none`: the new value does not fit. -/
  inPlaceWriter : Key → I → RecordData → O → Option Payload × O
  needInitialUpdate : Key → I → O → Bool × O
  initialSize : Key → I → RecordSizeInfo
  initialUpdater : Key → I → RecordData → O → Payload × O
  inPlaceUpdater : Key → I → RecordData → O → InPlaceResult × O
  needCopyUpdate : Key → I → RecordData → O → CopyDecision × O
  copySize : Key → I → RecordData → RecordSizeInfo
  copyUpdater : Key → I → RecordData → RecordData → O → Payload × O
  upsertSize_keyLen : ∀ k i, (upsertSize k i).keyLen = k.length
  initialSize_keyLen : ∀ k i, (initialSize k i).keyLen = k.length
  copySize_keyLen : ∀ k i d, (copySize k i d).keyLen = k.length

/-- A call of one of the callbacks that look at an existing record. -/
inductive Call where
  | reader (d : RecordData)
  | inPlaceWriter (d : RecordData)
  | inPlaceUpdater (d : RecordData)
  | needCopyUpdate (d : RecordData)
  | copyUpdater (old : RecordData)
  deriving DecidableEq, Repr

/-- The existing record a callback was given. -/
def Call.seen : Call → RecordData
  | .reader d | .inPlaceWriter d | .inPlaceUpdater d | .needCopyUpdate d | .copyUpdater d => d

/-! ## Section 2: State -/

inductive Phase where
  | rest
  | prepare
  | inProgress
  | waitFlush
  deriving DecidableEq, Repr

structure SystemState where
  phase : Phase
  version : ℕ
  deriving DecidableEq, Repr

/-- Is a thread in this state a version `v + 1` thread? -/
def SystemState.inNewVersion (s : SystemState) : Bool :=
  match s.phase with
  | .inProgress | .waitFlush => true
  | .rest | .prepare => false

structure Store where
  log : HybridLog
  index : HashIndex
  systemState : SystemState
  /-- Records at or above it with `InNewVersion` belong to version `v + 1`. -/
  checkpointStartAddress : ℕ

/-- `Store::new` -/
def Store.new (indexBuckets : ℕ) (device : Device) : Store where
  log := HybridLog.new device
  index := HashIndex.new indexBuckets
  systemState := ⟨.rest, 1⟩
  checkpointStartAddress := 2 ^ 64 - 1

inductive Status where
  | notFound
  | found
  | created
  | inPlaceUpdated
  | copyUpdated
  | deleted
  | canceled
  | error
  deriving DecidableEq, Repr

def Status.isUpdated : Status → Bool
  | .created | .inPlaceUpdated | .copyUpdated | .deleted => true
  | _ => false

/-- How an attempt can fail to return. -/
inductive Abort where
  /-- The assertion "record larger than a page". -/
  | recordLargerThanPage
  /-- The assertion "hash index overflow arena exhausted". -/
  | overflowArenaExhausted
  /-- `try_allocate_retry_now` spins and no other thread ends the spin. -/
  | spinning
  deriving DecidableEq, Repr

/-- Outcome of an attempt. -/
inductive Op where
  | done (s : Status)
  | retryNow
  | retryLater
  | recordOnDisk (addr latest : ℕ)
  | cprShift
  | aborted (a : Abort)
  deriving DecidableEq, Repr

/-- What an attempt leaves behind.  `wrote` reports what it made of the key's record:
    `none` if it left it alone, `some none` if it tombstoned it, and `some (some d)` if
    the newest record of the key now has the body `d`. -/
structure Attempt (O : Type) where
  outcome : Op
  store : Store
  out : O
  calls : List Call
  wrote : Option (Option RecordData)

/-- What an attempt shows of itself; `status` is `none` if it has to be made again. -/
structure Shown (O : Type) where
  status : Option Status
  out : O
  calls : List Call
  wrote : Option (Option RecordData)

def Attempt.shown {O : Type} (a : Attempt O) : Shown O :=
  ⟨match a.outcome with | .done s => some s | _ => none, a.out, a.calls, a.wrote⟩

/-- Bind `key` to what has been written, if anything has. -/
def applyWrote (m : Key → Option RecordData) (key : Key) (w : Option (Option RecordData)) :
    Key → Option RecordData :=
  match w with
  | some x => Function.update m key x
  | none => m

@[simp] theorem applyWrote_none (m : Key → Option RecordData) (key : Key) :
    applyWrote m key none = m := rfl

@[simp] theorem applyWrote_some (m : Key → Option RecordData) (key : Key)
    (x : Option RecordData) : applyWrote m key (some x) = Function.update m key x := rfl

/-! ## Section 3: Chains -/

inductive Trace where
  | found (addr : ℕ)
  | stopped (addr : ℕ)
  deriving DecidableEq, Repr

def Trace.isStopped : Trace → Bool
  | .stopped _ => true
  | .found _ => false

variable (g : Geometry)

/-- Walk the in-memory chain from `addr` looking for `key`, not going below `min`.  The
    first argument bounds the walk; addresses descend along a chain. -/
def traceBack (log : HybridLog) (key : Key) (min : ℕ) : ℕ → ℕ → Trace
  | 0, addr => .stopped addr
  | n + 1, addr =>
    if min ≤ addr ∧ FIRST_VALID_ADDRESS ≤ addr then
      let rec_ := log.recordAt g addr
      if rec_.data.key = key then .found addr
      else traceBack log key min n rec_.info.previousAddress
    else .stopped addr

/-- Read the chain on disk starting at `addr` until `key` matches or the chain drops
    below BeginAddress; `none` also when a device read fails. -/
def findOnDisk (log : HybridLog) (key : Key) : ℕ → ℕ → Option Record
  | 0, _ => none
  | n + 1, addr =>
    if log.beginAddress ≤ addr ∧ FIRST_VALID_ADDRESS ≤ addr then do
      let r ← log.readRecordFromDisk addr
      let r := { r with info := r.info.clearSealed }
      if r.data.key = key then return r
      else findOnDisk log key n r.info.previousAddress
    else none

/-- Does the chain go on below the in-memory part? -/
def continuesOnDisk (log : HybridLog) (addr : ℕ) : Bool :=
  log.beginAddress ≤ addr && FIRST_VALID_ADDRESS ≤ addr

/-! ## Section 4: Publishing a record -/

/-- `allocate_record`: reserve and initialise a record above `prev`.  An address that is
    not above the chain head is wasted (its header zeroed) and another one is asked for. -/
def allocateRecord (state : SystemState) (size : RecordSizeInfo) (key : Key) (prev : ℕ) :
    ℕ → HybridLog → AllocResult × HybridLog
  | 0, log => (.retryNow, log)
  | n + 1, log =>
    match log.tryAllocateRetryNow g (2 ^ 32) size.totalSize with
    | (.ok addr, log) =>
      if addr ≤ prev then
        allocateRecord state size key prev n (log.updateInfo g addr fun _ => RecordInfo.zero)
      else
        (.ok addr, log.setRecord g addr (Record.init prev state.inNewVersion size key))
    | r => r

/-- `old.info().try_seal()` -/
def sealAt (addr : ℕ) (store : Store) : Store :=
  { store with log := store.log.updateInfo g addr RecordInfo.trySeal }

/-- Seal the source of a read-copy-update, when there is one to seal. -/
def sealOld (old : Option ℕ) (store : Store) : Store :=
  match old with
  | some addr => sealAt g addr store
  | none => store

/-- What the publishing paths share: allocate at the tail, let `fill` write the body,
    CAS the index entry and seal the old record.  `wrote` is what the attempt has
    written before. -/
def publish {O : Type} (store : Store) (state : SystemState) (slot : SlotRef) (entry : ℕ)
    (key : Key) (size : RecordSizeInfo) (out : O) (calls : List Call)
    (wrote : Option (Option RecordData)) (fill : RecordData → O → Payload × O) (tombstone : Bool)
    (old : Option ℕ) (status : Status) (fillCalls : List Call) : Attempt O :=
  match allocateRecord g state size key entry (entry + 2) store.log with
  | (.ok newAddr, log) =>
    let (payload, out) := fill (log.recordAt g newAddr).data out
    let log := log.updateData g newAddr payload
    let log := if tombstone then log.updateInfo g newAddr RecordInfo.setTombstone else log
    let calls := calls ++ fillCalls
    match store.index.tryCas slot entry newAddr with
    | some index =>
      let log := log.updateInfo g newAddr RecordInfo.unsealAndValidate
      let wrote := if tombstone then none else some (log.recordAt g newAddr).data
      ⟨.done status, sealOld g old { store with log := log, index := index }, out, calls,
        some wrote⟩
    | none =>
      let log := log.updateInfo g newAddr RecordInfo.sealAndInvalidate
      ⟨.retryNow, { store with log := log }, out, calls, wrote⟩
  | (.retryLater, log) => ⟨.retryLater, { store with log := log }, out, calls, wrote⟩
  | (.retryNow, log) => ⟨.aborted .spinning, { store with log := log }, out, calls, wrote⟩
  | (.tooLarge, log) =>
    ⟨.aborted .recordLargerThanPage, { store with log := log }, out, calls, wrote⟩

/-- Append a tombstone record at the tail. -/
def deleteRcu {O : Type} (store : Store) (state : SystemState) (slot : SlotRef) (entry : ℕ)
    (key : Key) (old : Option ℕ) (out : O) (calls : List Call) : Attempt O :=
  publish g store state slot entry key ⟨key.length, 0, false⟩ out calls none
    (fun d out => (d.payload, out)) true old .deleted []

/-! ## Section 5: Concurrent Prefix Recovery -/

/-- Was the record written in the new (v+1) version of the checkpoint in progress? -/
def Store.recordInNewVersion (store : Store) (addr : ℕ) (info : RecordInfo) : Bool :=
  info.inNewVersion && store.checkpointStartAddress ≤ addr

/-- The outcome to propagate for a record that was found, or `none` to go on. -/
def cprGate (store : Store) (state : SystemState) (addr : ℕ) (info : RecordInfo) : Option Op :=
  if state.phase = .prepare ∧ store.recordInNewVersion addr info then some .cprShift
  else if info.isClosed then some .retryLater
  else none

/-- A v+1 thread must copy instead of updating a version v record in place. -/
def cprBlocksInPlace (store : Store) (state : SystemState) (addr : ℕ) (info : RecordInfo) : Bool :=
  state.inNewVersion && !store.recordInNewVersion addr info

/-! ## Section 6: Attempts -/

variable {I O : Type} (f : SessionFunctions I O)

def internalRead (store : Store) (state : SystemState) (key : Key) (input : I) (out : O) :
    Attempt O :=
  match store.index.findTag (hash64 key) with
  | none => ⟨.done .notFound, store, out, [], none⟩
  | some slot =>
    let latest := (store.index.load slot).getD 0
    match traceBack g store.log key store.log.head (latest + 1) latest with
    | .found addr =>
      let r := store.log.recordAt g addr
      match cprGate store state addr r.info with
      | some op => ⟨op, store, out, [], none⟩
      | none =>
        if r.info.isTombstone then ⟨.done .notFound, store, out, [], none⟩
        else
          let (ok, out) := f.reader key input r.data out
          ⟨.done (if ok then .found else .notFound), store, out, [.reader r.data], none⟩
    | .stopped addr =>
      if continuesOnDisk store.log addr then ⟨.recordOnDisk addr latest, store, out, [], none⟩
      else ⟨.done .notFound, store, out, [], none⟩

/-- The path shared by missing keys and by values that cannot be updated in place. -/
def upsertCreate (store : Store) (state : SystemState) (slot : SlotRef) (entry : ℕ) (key : Key)
    (input : I) (oldToSeal : Option ℕ) (out : O) (calls : List Call) : Attempt O :=
  publish g store state slot entry key (f.upsertSize key input) out calls none
    (f.initialWriter key input) false oldToSeal .created []

def internalUpsert (store : Store) (state : SystemState) (key : Key) (input : I) (out : O) :
    Attempt O :=
  match store.index.findOrCreateTag (hash64 key) with
  | none => ⟨.aborted .overflowArenaExhausted, store, out, [], none⟩
  | some (index, slot) =>
    let store := { store with index := index }
    let latest := (index.load slot).getD 0
    match traceBack g store.log key store.log.readOnly (latest + 1) latest with
    | .found addr =>
      let r := store.log.recordAt g addr
      match cprGate store state addr r.info with
      | some op => ⟨op, store, out, [], none⟩
      | none =>
        if r.info.isTombstone then
          upsertCreate g f store state slot latest key input none out []
        else if cprBlocksInPlace store state addr r.info then
          upsertCreate g f store state slot latest key input (some addr) out []
        else
          match f.inPlaceWriter key input r.data out with
          | (some p, out) =>
            let log := (store.log.updateData g addr p).updateInfo g addr RecordInfo.setModified
            ⟨.done .inPlaceUpdated, { store with log := log }, out, [.inPlaceWriter r.data],
              some (some (r.data.write p))⟩
          | (none, out) =>
            upsertCreate g f store state slot latest key input (some addr) out
              [.inPlaceWriter r.data]
    | .stopped _ => upsertCreate g f store state slot latest key input none out []

/-- `wrote` is the tombstone left by an expired record, if there was one. -/
def rmwInitial (store : Store) (state : SystemState) (slot : SlotRef) (entry : ℕ) (key : Key)
    (input : I) (out : O) (calls : List Call) (wrote : Option (Option RecordData)) : Attempt O :=
  let (needed, out) := f.needInitialUpdate key input out
  if needed then
    publish g store state slot entry key (f.initialSize key input) out calls wrote
      (f.initialUpdater key input) false none .created []
  else ⟨.done .notFound, store, out, calls, wrote⟩

/-- `oldAddr` is the in-memory address of `old`, when `old` is to be sealed. -/
def rmwCopy (store : Store) (state : SystemState) (slot : SlotRef) (entry : ℕ) (key : Key)
    (input : I) (out : O) (calls : List Call) (oldAddr : Option ℕ) (old : RecordData) :
    Attempt O :=
  match f.needCopyUpdate key input old out with
  | (.cancel, out) => ⟨.done .canceled, store, out, calls ++ [.needCopyUpdate old], none⟩
  | (.delete, out) =>
    deleteRcu g store state slot entry key oldAddr out (calls ++ [.needCopyUpdate old])
  | (.copy, out) =>
    publish g store state slot entry key (f.copySize key input old) out
      (calls ++ [.needCopyUpdate old]) none (f.copyUpdater key input old) false oldAddr
      .copyUpdated [.copyUpdater old]

/-- The mutable-region branch of `internal_rmw`. -/
def rmwMutable (store : Store) (state : SystemState) (slot : SlotRef) (entry : ℕ) (key : Key)
    (input : I) (out : O) (addr : ℕ) (r : Record) : Attempt O :=
  if cprBlocksInPlace store state addr r.info then
    rmwCopy g f store state slot entry key input out [] (some addr) r.data
  else
    let calls := [.inPlaceUpdater r.data]
    match f.inPlaceUpdater key input r.data out with
    | (.updated p, out) =>
      let log := (store.log.updateData g addr p).updateInfo g addr RecordInfo.setModified
      ⟨.done .inPlaceUpdated, { store with log := log }, out, calls,
        some (some (r.data.write p))⟩
    | (.cancel, out) => ⟨.done .found, store, out, calls, none⟩
    | (.expired, out) =>
      let log := store.log.updateInfo g addr RecordInfo.setTombstone
      rmwInitial g f { store with log := log } state slot entry key input out calls (some none)
    | (.delete, out) =>
      let log := store.log.updateInfo g addr RecordInfo.setTombstone
      ⟨.done .deleted, { store with log := log }, out, calls, some none⟩
    | (.needCopy, out) => rmwCopy g f store state slot entry key input out calls (some addr) r.data

/-- `disk_src` in `internal_rmw`: a record image, or `none` if the key was found absent,
    and the chain head observed before the read. -/
abbrev DiskSrc : Type := Option Record × ℕ

/-- The re-validation of a disk source: has a newer record of the key shown up in memory? -/
def sourceStillLatest (log : HybridLog) (key : Key) (latest seenLatest : ℕ) : Bool :=
  seenLatest = latest ||
    (traceBack g log key (max (seenLatest + 1) log.head) (latest + 1) latest).isStopped

/-- Does a disk source hold a live record? -/
def existsOnDisk (src : Option Record) : Bool := src.any fun r => !r.info.isTombstone

def internalRmw (store : Store) (state : SystemState) (key : Key) (input : I) (out : O)
    (diskSrc : Option DiskSrc) : Attempt O :=
  match store.index.findOrCreateTag (hash64 key) with
  | none => ⟨.aborted .overflowArenaExhausted, store, out, [], none⟩
  | some (index, slot) =>
    let store := { store with index := index }
    let latest := (index.load slot).getD 0
    match traceBack g store.log key store.log.head (latest + 1) latest with
    | .found addr =>
      let r := store.log.recordAt g addr
      match cprGate store state addr r.info with
      | some op => ⟨op, store, out, [], none⟩
      | none =>
        if r.info.isTombstone then rmwInitial g f store state slot latest key input out [] none
        else if store.log.readOnly ≤ addr then
          rmwMutable g f store state slot latest key input out addr r
        else if store.log.safeReadOnly ≤ addr then ⟨.retryLater, store, out, [], none⟩
        else rmwCopy g f store state slot latest key input out [] none r.data
    | .stopped addr =>
      if continuesOnDisk store.log addr then
        match diskSrc with
        | some (src, seenLatest) =>
          if sourceStillLatest g store.log key latest seenLatest then
            match src with
            | some old =>
              if old.info.isTombstone then
                rmwInitial g f store state slot latest key input out [] none
              else rmwCopy g f store state slot latest key input out [] none old.data
            | none => rmwInitial g f store state slot latest key input out [] none
          else ⟨.retryNow, store, out, [], none⟩
        | none => ⟨.recordOnDisk addr latest, store, out, [], none⟩
      else rmwInitial g f store state slot latest key input out [] none

/-- `diskChecked`: does the key exist on disk, and the chain head observed before the read. -/
def internalDelete (store : Store) (state : SystemState) (key : Key) (out : O)
    (diskChecked : Option (Bool × ℕ)) : Attempt O :=
  match store.index.findTag (hash64 key) with
  | none => ⟨.done .notFound, store, out, [], none⟩
  | some slot =>
    let latest := (store.index.load slot).getD 0
    match traceBack g store.log key store.log.head (latest + 1) latest with
    | .found addr =>
      let r := store.log.recordAt g addr
      match cprGate store state addr r.info with
      | some op => ⟨op, store, out, [], none⟩
      | none =>
        if r.info.isTombstone then ⟨.done .notFound, store, out, [], none⟩
        else if store.log.readOnly ≤ addr ∧ !cprBlocksInPlace store state addr r.info then
          let log := (store.log.updateInfo g addr RecordInfo.setTombstone).updateInfo g addr
            RecordInfo.setModified
          ⟨.done .deleted, { store with log := log }, out, [], some none⟩
        else deleteRcu g store state slot latest key (some addr) out []
    | .stopped addr =>
      if continuesOnDisk store.log addr then
        match diskChecked with
        | some (exists_, seenLatest) =>
          if sourceStillLatest g store.log key latest seenLatest then
            if exists_ then deleteRcu g store state slot latest key none out []
            else ⟨.done .notFound, store, out, [], none⟩
          else ⟨.retryNow, store, out, [], none⟩
        | none => ⟨.recordOnDisk addr latest, store, out, [], none⟩
      else ⟨.done .notFound, store, out, [], none⟩

end Tsavorite
