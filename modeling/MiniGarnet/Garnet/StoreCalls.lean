import MiniGarnet.Garnet.Regions

/-! # Store calls

    What `read`, `upsert`, `rmw` and `delete` of a store session do to the
    newest record of a key.  A call makes attempts until one of them is done
    or the retry limit is reached, when it returns `Status::Error`.  What an
    attempt meets is decided by everything else that goes on in the store: it
    may be turned away before it gets to the record (the latch is taken, the
    record is sealed or in the fuzzy region, a checkpoint has moved on), find
    the record in one of the regions of the log, get no memory for a new
    record, or lose the race for the index entry.

    The key has no record when its newest one is a tombstone.
-/

namespace Garnet

open Tsavorite (Status RecordSizeInfo CopyDecision Geometry)

/-! ## Section 1: Callbacks of reads and blind writes -/

namespace StringFunctions

/-- Normalize GETRANGE bounds to `[start, stop)` byte offsets over `len`. -/
def rangeBounds (start stop : Int64) (len : ℕ) : ℕ × ℕ :=
  let norm (i : ℤ) : ℤ := if i < 0 then max (len + i) 0 else min i len
  let s := norm start.toInt
  let e := if stop.toInt < 0 then len + stop.toInt else min stop.toInt (len - 1)
  if len = 0 ∨ e < s ∨ (len : ℤ) ≤ s then (0, 0) else (s.toNat, (min (e + 1) len).toNat)

/-- The remaining time to live, -1 for none. -/
def remaining (ms : Bool) (nowMs expiration : Int64) : Int64 :=
  if expiration = 0 then -1
  else
    let rem := if expiration - nowMs < 0 then 0 else expiration - nowMs
    if ms then rem else (rem + 999) / 1000

/-- The Boolean is false if the record is expired. -/
def reader (input : StringInput) (r : RecordPtr) (out : StringOutput) : Bool × StringOutput :=
  if r.expired input.nowMs then (false, out)
  else
    match input.op with
    | .getRange start stop =>
      let (s, e) := rangeBounds start stop r.valueLen
      (true, out.setBytes ((r.value.take e).drop s))
    | .exists_ => (true, out)
    | .strlen => (true, out.setInt (Int64.ofNat r.valueLen))
    | .ttl ms => (true, out.setInt (remaining ms input.nowMs r.expiration))
    | _ => (true, out.setBytes r.value)

def upsertSize (key : Bytes) (input : StringInput) : RecordSizeInfo where
  keyLen := key.length
  valueCap := input.operand.length
  hasExpiration := decide (input.expiration ≠ 0)

def initialWriter (input : StringInput) (r : RecordPtr) : Option RecordPtr := do
  let r ← r.writeVal input.operand
  return if input.expiration ≠ 0 then (r.setExpiration input.expiration).1 else r

/-- `none` stands for the answer `false`: the record has to be copied. -/
def inPlaceWriter (input : StringInput) (r : RecordPtr) : Option RecordPtr :=
  if r.valueCap < input.operand.length then none
  -- plain SET clears any prior TTL
  else if r.hasExpirationSlot then (r.setExpiration input.expiration).1.writeVal input.operand
  else if input.expiration ≠ 0 then none
  else r.writeVal input.operand

end StringFunctions

open StringFunctions

/-! ## Section 2: Attempts -/

/-- Where an attempt finds a record. -/
inductive Place where
  /-- At or above ReadOnly, and no checkpoint protects it. -/
  | mutable_
  /-- In memory below ReadOnly, protected by a checkpoint, or read from disk. -/
  | frozen
  /-- On disk, and the device could not read it: taken for absent. -/
  | lost
  deriving DecidableEq, Repr

structure Attempt where
  /-- It gets as far as the record. -/
  enters : Bool
  place : Place
  /-- There is room for a new record. -/
  allocates : Bool
  /-- The new record goes into the chain. -/
  links : Bool
  /-- What the memory of a new record holds. -/
  mem : ℕ → UInt8

/-- How an attempt ends, with the record of the key. -/
inductive Outcome where
  | done (status : Status) (record : Option RecordPtr) (out : StringOutput)
  | retry (record : Option RecordPtr) (out : StringOutput)
  /-- An assertion or a slice index fails. -/
  | panic
  deriving DecidableEq, Repr

section Attempts

variable (g : Geometry) (key : Bytes) (input : StringInput) (a : Attempt)

/-- Allocate a record, write it with `fill` and link it; `record` is the record of the key until
    then. -/
def attemptLink (size : RecordSizeInfo) (fill : RecordPtr → Option (RecordPtr × StringOutput))
    (status : Status) (record : Option RecordPtr) (out : StringOutput) : Outcome :=
  match allocateRecord g size a.mem with
  | none => .panic
  | some new =>
    if a.allocates then
      match fill new with
      | none => .panic
      | some (r, out') => if a.links then .done status (some r) out' else .retry record out'
    else .retry record out

/-- `delete_rcu`: append a tombstone. -/
def attemptTombstone (record : Option RecordPtr) (out : StringOutput) : Outcome :=
  match allocateRecord g ⟨key.length, 0, false⟩ a.mem with
  | none => .panic
  | some _ => if a.allocates && a.links then .done .deleted none out else .retry record out

/-- `rmw_initial` -/
def attemptInitial (record : Option RecordPtr) (out : StringOutput) : Outcome :=
  if needInitialUpdate input then
    attemptLink g a (initialSize key input) (fun new => initialUpdater input new out) .created
      record out
  else .done .notFound record out

/-- `rmw_copy` -/
def attemptCopy (old : RecordPtr) (out : StringOutput) : Outcome :=
  match needCopyUpdate input old out with
  | (.cancel, out) => .done .canceled (some old) out
  | (.delete, out) => attemptTombstone g key a (some old) out
  | (.copy, out) =>
    attemptLink g a (copySize key input old) (fun new => copyUpdater input old new out)
      .copyUpdated (some old) out

/-- `internal_rmw` -/
def attemptRmw (record : Option RecordPtr) (out : StringOutput) : Outcome :=
  if ¬ a.enters then .retry record out
  else
    match record with
    | none => attemptInitial g key input a none out
    | some r =>
      match a.place with
      | .lost => attemptInitial g key input a (some r) out
      | .frozen => attemptCopy g key input a r out
      | .mutable_ =>
        match inPlaceUpdater input r out with
        | none => .panic
        | some (.updated, r, out) => .done .inPlaceUpdated (some r) out
        | some (.cancel, r, out) => .done .found (some r) out
        -- the record is a tombstone from here on
        | some (.expired, _, out) => attemptInitial g key input a none out
        | some (.delete, _, out) => .done .deleted none out
        | some (.needCopy, r, out) => attemptCopy g key input a r out

/-- `internal_read`, with the way through `find_on_disk`. -/
def attemptRead (record : Option RecordPtr) (out : StringOutput) : Outcome :=
  if ¬ a.enters then .retry record out
  else
    match record with
    | none => .done .notFound none out
    | some r =>
      if a.place = .lost then .done .notFound (some r) out
      else
        match reader input r out with
        | (true, out) => .done .found (some r) out
        | (false, out) => .done .notFound (some r) out

/-- `internal_upsert`: only a record in the mutable region is looked at. -/
def attemptUpsert (record : Option RecordPtr) (out : StringOutput) : Outcome :=
  if ¬ a.enters then .retry record out
  else
    let write := attemptLink g a (upsertSize key input)
      (fun new => (initialWriter input new).map fun r => (r, out)) .created record out
    match record with
    | none => write
    | some r =>
      if a.place = .mutable_ then
        match inPlaceWriter input r with
        | some r => .done .inPlaceUpdated (some r) out
        | none => write
      else write

/-- `internal_delete` -/
def attemptDelete (record : Option RecordPtr) (out : StringOutput) : Outcome :=
  if ¬ a.enters then .retry record out
  else
    match record with
    | none => .done .notFound none out
    | some r =>
      match a.place with
      | .lost => .done .notFound (some r) out
      | .mutable_ => .done .deleted none out
      | .frozen => attemptTombstone g key a (some r) out

end Attempts

/-- The loop of a call: attempts until one is done, and `Status::Error` when they are used up. -/
def callLoop (attempt : Attempt → Option RecordPtr → StringOutput → Outcome) :
    List Attempt → Option RecordPtr → StringOutput → Outcome
  | [], record, out => .done .error record out
  | a :: attempts, record, out =>
    match attempt a record out with
    | .done status record out => .done status record out
    | .retry record out => callLoop attempt attempts record out
    | .panic => .panic

/-! ## Section 3: The shared state -/

/-- The store, the watch table and the log, as the commands see them. -/
structure Shared where
  /-- The newest record of a key. -/
  record : Bytes → Option RecordPtr
  /-- The number of store calls made. -/
  calls : ℕ
  /-- The watch table. -/
  version : ℕ → ℕ
  log : List AofEntry
  /-- A call has panicked, and with it the thread of the command. -/
  panicked : Bool

/-- What the commands meet in the store. -/
structure World where
  geometry : Geometry
  /-- The attempts of the n-th store call. -/
  attempts : ℕ → List Attempt
  /-- Answers of the calls that are not about one key. -/
  countLive : Shared → ℕ
  scanLive : Bytes → Shared → List Bytes
  checkpoint : Shared → Option Bytes
  lastSaveMs : Shared → Int64

namespace World

variable (w : World)

/-- One store call on a key. -/
def call (key : Bytes) (attempt : Attempt → Option RecordPtr → StringOutput → Outcome)
    (out : StringOutput) (st : Shared) : (Status × StringOutput) × Shared :=
  match callLoop attempt (w.attempts st.calls) (st.record key) out with
  | .done status record out =>
    ((status, out), { st with record := Function.update st.record key record, calls := st.calls + 1 })
  -- the loop ends with `done` or `panic`
  | _ => ((.error, out), { st with calls := st.calls + 1, panicked := true })

/-- After a panic nothing happens any more. -/
def stopped : (e : Effect) → e.Result
  | .read _ _ out | .upsert _ _ out | .rmw _ _ out => (.error, out)
  | .delete _ => .error
  | .bump _ | .enqueue _ | .txnLock _ | .txnUnlock | .clear => ()
  | .slotVersion _ => (0, 0)
  | .versionAt _ => 0
  | .countLive => 0
  | .scanLive _ => []
  | .checkpoint => none
  | .lastSaveMs => 0

def perform (e : Effect) (st : Shared) : e.Result × Shared :=
  match e with
  | .read key input out => w.call key (attemptRead input) out st
  | .upsert key input out => w.call key (attemptUpsert w.geometry key input) out st
  | .rmw key input out => w.call key (attemptRmw w.geometry key input) out st
  | .delete key =>
    let ((status, _), st) := w.call key (attemptDelete w.geometry key) .default st
    (status, st)
  | .bump key =>
    let slot := watchSlot key
    ((), { st with version := Function.update st.version slot (st.version slot + 1) })
  | .slotVersion key => ((watchSlot key, st.version (watchSlot key)), st)
  | .versionAt slot => (st.version slot, st)
  | .enqueue entry => ((), { st with log := st.log ++ [entry] })
  | .txnLock _ | .txnUnlock => ((), st)
  | .countLive => (w.countLive st, st)
  | .scanLive pattern => (w.scanLive pattern st, st)
  | .clear => ((), { st with record := fun _ => none })
  | .checkpoint => (w.checkpoint st, st)
  | .lastSaveMs => (w.lastSaveMs st, st)

def handle (e : Effect) (st : Shared) : e.Result × Shared :=
  if st.panicked then (stopped e, st) else w.perform e st

/-- After a panic the state stays as it is. -/
theorem run_panicked {α : Type} {st : Shared} (h : st.panicked = true)
    (p : Program Effect Effect.Result α) : (p.run w.handle st).2 = st := by
  induction p with
  | ret a => rfl
  | op e k ih =>
    show ((k (w.handle e st).1).run w.handle (w.handle e st).2).2 = st
    have hstay : (w.handle e st).2 = st := by
      unfold handle
      rw [if_pos h]
    rw [hstay]
    exact ih _

/-- Before a panic every operation is performed. -/
theorem handle_live {st : Shared} (h : st.panicked = false) (e : Effect) :
    w.handle e st = w.perform e st := by
  unfold handle
  rw [h]
  rfl

/-- What the bookkeeping of a write does. -/
def noted (s : RespSession) (key raw : Bytes) (st : Shared) : Shared :=
  { st with
    version := Function.update st.version (watchSlot key) (st.version (watchSlot key) + 1)
    log := if !s.replay && s.aof then st.log ++ [⟨.command, s.nowMs, raw⟩] else st.log }

theorem run_afterWrite_state (s : RespSession) (key raw : Bytes) {st : Shared}
    (h : st.panicked = false) :
    ((afterWrite key raw s).run w.handle st).2 = noted s key raw st := by
  rcases st with ⟨record, calls, version, log, panicked⟩
  obtain rfl : panicked = false := h
  rcases s with ⟨txn, nowMs, _ | _, out, _ | _⟩ <;> rfl

end World

/-- A store whose calls are done at their first attempt, with all records in one place. -/
def World.calm (place : Place) : World where
  geometry := .twoPages 9 Geometry.nine_pageBits
  attempts _ := [⟨true, place, true, true, fun _ => 0⟩]
  countLive _ := 0
  scanLive _ _ := []
  checkpoint _ := none
  lastSaveMs _ := 0

/-- The store right after it has got these records. -/
def Shared.holding (records : List (Bytes × RecordPtr)) : Shared where
  record key := (records.find? fun x => x.1 = key).map (·.2)
  calls := 0
  version _ := 0
  log := []
  panicked := false

end Garnet
