import MiniGarnet.Garnet.Commands
import MiniGarnet.Lib.Slice
import MiniGarnet.Tsavorite.Geometry

/-! # The callbacks of the string type

    `functions.rs`: what each RMW command does to a record, once for a record
    that may be updated in place and once for a copy of it.  A record is seen
    through a `RecordPtr`, with its whole value buffer: the bytes behind the
    value are whatever earlier values, or the page, left there.  `none` stands
    for a panic (a slice out of range, a failed assertion).

    The `rmw` functions of this module are the ways of `internal_rmw` through
    the callbacks, one for each region of the log, with the record the key has
    afterwards.
-/

namespace Garnet

open Tsavorite (Status RecordSizeInfo CopyDecision Geometry PAGE_HEADER_SIZE)

/-! ## Section 1: Records and outputs -/

/-- A record as the callbacks see it. -/
structure RecordPtr where
  /-- The bytes of `value_buf_mut`, `value_cap` of them. -/
  valueBuf : Bytes
  valueLen : ℕ
  expirationSlot : Option Int64
  len_le : valueLen ≤ valueBuf.length
  cap_lt : valueBuf.length < 2 ^ 32
  deriving DecidableEq, Repr

namespace RecordPtr

variable (r : RecordPtr)

def valueCap : ℕ := r.valueBuf.length

def value : Bytes := r.valueBuf.take r.valueLen

def hasExpirationSlot : Bool := r.expirationSlot.isSome

/-- Expiration timestamp (0 = none). Returns 0 when the record has no slot. -/
def expiration : Int64 := r.expirationSlot.getD 0

/-- The Boolean is false if the record has no expiration slot. -/
def setExpiration (ts : Int64) : RecordPtr × Bool :=
  if r.hasExpirationSlot then ({ r with expirationSlot := some ts }, true) else (r, false)

/-- Put back the buffer of `value_buf_mut`, then `set_value_len` with its assertion. -/
def withValue (buf : Bytes) (n : ℕ) : Option RecordPtr :=
  if h : buf.length = r.valueBuf.length ∧ n ≤ r.valueBuf.length then
    some ⟨buf, n, r.expirationSlot, by omega, by have := r.cap_lt; omega⟩
  else none

/-- `write_val` -/
def writeVal (v : Bytes) : Option RecordPtr := do
  let buf ← Slice.copyFrom r.valueBuf 0 v.length v
  r.withValue buf v.length

/-- Is a record with this expiration slot expired at `now`? -/
def expired (now : Int64) : Bool :=
  r.hasExpirationSlot && decide (r.expiration ≠ 0) && decide (r.expiration ≤ now)

end RecordPtr

def StringOutput.setBytes (out : StringOutput) (b : Bytes) : StringOutput :=
  { out with bytes := b, hasBytes := true }

def StringOutput.setInt (out : StringOutput) (v : Int64) : StringOutput :=
  { out with int := v, hasInt := true }

/-- `checked_add` -/
def checkedAdd (a b : Int64) : Option Int64 :=
  if -2 ^ 63 ≤ a.toInt + b.toInt ∧ a.toInt + b.toInt < 2 ^ 63 then some (a + b) else none

/-- `InPlaceResult` -/
inductive InPlace where
  | updated
  | needCopy
  | expired
  | cancel
  | delete
  deriving DecidableEq, Repr

namespace StringFunctions

/-! ## Section 2: The initial path -/

def needInitialUpdate (input : StringInput) : Bool :=
  match input.op with
  | .setXx | .getDel | .getEx | .expire | .persist => false
  | _ => true

def initialSize (key : Bytes) (input : StringInput) : RecordSizeInfo where
  keyLen := key.length
  valueCap :=
    match input.op with
    | .incrBy => Resp.i64DigitLen input.delta
    | .setRange offset => offset + input.operand.length
    | _ => input.operand.length
  hasExpiration := decide (input.expiration ≠ 0)

/-- What `initial_updater` writes and puts out, by command. -/
def initialValue (input : StringInput) (r : RecordPtr) (out : StringOutput) :
    Option (RecordPtr × StringOutput) :=
  match input.op with
  | .incrBy => do
    let r ← r.writeVal (Resp.fmtI64 input.delta)
    return (r, out.setInt input.delta)
  | .setRange offset => do
    let v := input.operand
    let buf ← Slice.fill r.valueBuf 0 offset 0
    let buf ← Slice.copyFrom buf offset (offset + v.length) v
    let r ← r.withValue buf (offset + v.length)
    return (r, out.setInt (Int64.ofNat (offset + v.length)))
  | .append => do
    let r ← r.writeVal input.operand
    return (r, out.setInt (Int64.ofNat input.operand.length))
  | .setGet _ => do
    let r ← r.writeVal input.operand
    return (r, { out with hasBytes := false })
  | _ => do
    let r ← r.writeVal input.operand
    return (r, out)

def initialUpdater (input : StringInput) (r : RecordPtr) (out : StringOutput) :
    Option (RecordPtr × StringOutput) := do
  let (r, out) ← initialValue input r out
  if input.expiration ≠ 0 then return ((r.setExpiration input.expiration).1, out)
  else return (r, out)

/-! ## Section 3: Updates in place -/

/-- Apply the input's TTL to an existing record in place; false if a TTL is requested
    but the record has no expiration slot. -/
def applyTtlInPlace (r : RecordPtr) (input : StringInput) : RecordPtr × Bool :=
  match input.op with
  | .setKeepTtl => (r, true)
  | .set | .setXx | .setGet false | .getEx =>
    if input.expiration ≠ 0 then r.setExpiration input.expiration
    else if r.hasExpirationSlot then r.setExpiration 0
    else (r, true)
  | .setGet true => (r, true)
  | _ => if input.expiration ≠ 0 then r.setExpiration input.expiration else (r, true)

/-- The in-place SET forms; `out` already has the old value if the form returns it. -/
def setInPlace (input : StringInput) (r : RecordPtr) (out : StringOutput) :
    Option (InPlace × RecordPtr × StringOutput) :=
  match applyTtlInPlace r input with
  | (r, false) => some (.needCopy, r, out)
  | (r, true) => do
    let r ← r.writeVal input.operand
    return (.updated, r, out)

def incrInPlace (input : StringInput) (r : RecordPtr) (out : StringOutput) :
    Option (InPlace × RecordPtr × StringOutput) :=
  match Resp.parseI64 r.value with
  -- the sentinel that signals the caller
  | none => some (.cancel, r, out.setInt Int64.minValue)
  | some cur =>
    match checkedAdd cur input.delta with
    | none => some (.cancel, r, out.setInt Int64.minValue)
    | some n =>
      let s := Resp.fmtI64 n
      if r.valueCap < s.length then some (.needCopy, r, out)
      else do
        let r ← r.writeVal s
        return (.updated, r, out.setInt n)

def appendInPlace (v : Bytes) (r : RecordPtr) (out : StringOutput) :
    Option (InPlace × RecordPtr × StringOutput) :=
  let n := r.valueLen + v.length
  if r.valueCap < n then some (.needCopy, r, out)
  else do
    let buf ← Slice.copyFrom r.valueBuf r.valueLen n v
    let r ← r.withValue buf n
    return (.updated, r, out.setInt (Int64.ofNat n))

def setRangeInPlace (offset : ℕ) (v : Bytes) (r : RecordPtr) (out : StringOutput) :
    Option (InPlace × RecordPtr × StringOutput) :=
  let n := max (offset + v.length) r.valueLen
  if r.valueCap < n then some (.needCopy, r, out)
  else do
    let buf ←
      if r.valueLen < offset then Slice.fill r.valueBuf r.valueLen offset 0 else some r.valueBuf
    let buf ← Slice.copyFrom buf offset (offset + v.length) v
    let r ← r.withValue buf n
    return (.updated, r, out.setInt (Int64.ofNat n))

def getExInPlace (input : StringInput) (r : RecordPtr) (out : StringOutput) :
    InPlace × RecordPtr × StringOutput :=
  let out := out.setBytes r.value
  match applyTtlInPlace r input with
  | (r, false) => (.needCopy, r, out)
  | (r, true) => (.updated, r, out)

def inPlaceUpdater (input : StringInput) (r : RecordPtr) (out : StringOutput) :
    Option (InPlace × RecordPtr × StringOutput) :=
  if r.expired input.nowMs then some (.expired, r, out)
  else
    match input.op with
    | .setNx => some (.cancel, r, out)
    | .setXx | .set | .setKeepTtl =>
      if r.valueCap < input.operand.length then some (.needCopy, r, out)
      else setInPlace input r out
    | .setGet _ =>
      if r.valueCap < input.operand.length then some (.needCopy, r, out)
      else setInPlace input r (out.setBytes r.value)
    | .incrBy => incrInPlace input r out
    | .append => appendInPlace input.operand r out
    | .setRange offset => setRangeInPlace offset input.operand r out
    | .getDel => some (.delete, r, out.setBytes r.value)
    | .getEx => some (getExInPlace input r out)
    | .expire =>
      if r.hasExpirationSlot then
        some (.updated, (r.setExpiration input.expiration).1, out.setInt 1)
      else some (.needCopy, r, out)
    | .persist =>
      if r.hasExpirationSlot ∧ r.expiration ≠ 0 then
        some (.updated, (r.setExpiration 0).1, out.setInt 1)
      else some (.cancel, r, out.setInt 0)
    | _ => some (.needCopy, r, out)

/-! ## Section 4: The copy path -/

def needCopyUpdate (input : StringInput) (old : RecordPtr) (out : StringOutput) :
    CopyDecision × StringOutput :=
  if old.expired input.nowMs then
    match input.op with
    | .set | .setKeepTtl | .setNx | .incrBy | .append | .setRange _ | .getEx => (.copy, out)
    | _ => (.cancel, out)
  else
    match input.op with
    | .setNx => (.cancel, out)
    -- the same guard `in_place_updater` applies
    | .incrBy =>
      match (Resp.parseI64 old.value).bind fun cur => checkedAdd cur input.delta with
      | some _ => (.copy, out)
      | none => (.cancel, out)
    | .getDel => (.delete, out.setBytes old.value)
    | .expire => (.copy, out.setInt 1)
    | _ => (.copy, out)

/-- The value the copy starts from. -/
def oldValue (input : StringInput) (old : RecordPtr) : Bytes :=
  if old.expired input.nowMs then [] else old.value

/-- The number INCR starts from on the copy path. -/
def oldNumber (input : StringInput) (old : RecordPtr) : Int64 :=
  if old.expired input.nowMs then 0 else (Resp.parseI64 (oldValue input old)).getD 0

def copySize (key : Bytes) (input : StringInput) (old : RecordPtr) : RecordSizeInfo where
  keyLen := key.length
  valueCap :=
    match input.op with
    | .incrBy => Resp.i64DigitLen (oldNumber input old + input.delta)
    | .append => (oldValue input old).length + input.operand.length
    | .setRange offset => max (offset + input.operand.length) (oldValue input old).length
    | .getEx | .expire | .persist => (oldValue input old).length
    | _ => input.operand.length
  hasExpiration :=
    match input.op with
    | .persist => false
    | .set => decide (input.expiration ≠ 0)
    | _ => decide (input.expiration ≠ 0) ||
        (old.hasExpirationSlot && decide (old.expiration ≠ 0))

/-- What `copy_updater` writes and puts out, by command. -/
def copyValue (input : StringInput) (old new : RecordPtr) (out : StringOutput) :
    Option (RecordPtr × StringOutput) :=
  let oldVal := oldValue input old
  match input.op with
  | .incrBy => do
    let n := oldNumber input old + input.delta
    let r ← new.writeVal (Resp.fmtI64 n)
    return (r, out.setInt n)
  | .append => do
    let appended := input.operand
    let newLen := oldVal.length + appended.length
    let buf ← Slice.copyFrom new.valueBuf 0 oldVal.length oldVal
    let buf ← Slice.copyFrom buf oldVal.length newLen appended
    let r ← new.withValue buf newLen
    return (r, out.setInt (Int64.ofNat newLen))
  | .setRange offset => do
    let v := input.operand
    let n := max (offset + v.length) oldVal.length
    let buf ← Slice.fill new.valueBuf 0 n 0
    let buf ← Slice.copyFrom buf 0 oldVal.length oldVal
    let buf ← Slice.copyFrom buf offset (offset + v.length) v
    let r ← new.withValue buf n
    return (r, out.setInt (Int64.ofNat n))
  | .setGet _ => do
    let r ← new.writeVal input.operand
    return (r, out.setBytes oldVal)
  | .getEx => do
    let r ← new.writeVal oldVal
    return (r, out.setBytes oldVal)
  | .expire => do
    let r ← new.writeVal oldVal
    return (r, out)
  | .persist => do
    let r ← new.writeVal oldVal
    return (r, out.setInt 1)
  | _ => do
    let r ← new.writeVal input.operand
    return (r, out)

/-- The TTL of the new record, if it has a slot. -/
def copyTtl (input : StringInput) (old : RecordPtr) : Int64 :=
  match input.op with
  | .set | .expire | .getEx => input.expiration
  | .persist => 0
  | _ =>
    if input.expiration ≠ 0 then input.expiration
    else if old.hasExpirationSlot ∧ old.expiration ≠ 0 ∧ ¬ old.expired input.nowMs then
      old.expiration
    else 0

def copyUpdater (input : StringInput) (old new : RecordPtr) (out : StringOutput) :
    Option (RecordPtr × StringOutput) := do
  let (r, out) ← copyValue input old new out
  if r.hasExpirationSlot then return ((r.setExpiration (copyTtl input old)).1, out)
  else return (r, out)

end StringFunctions

/-! ## Section 5: Ways through `internal_rmw` -/

open StringFunctions

/-- A record of this size fits in a page: the assertion of `try_allocate`. -/
def FitsInPage (g : Geometry) (size : RecordSizeInfo) : Prop :=
  size.totalSize + PAGE_HEADER_SIZE ≤ g.pageSize

instance (g : Geometry) (size : RecordSizeInfo) : Decidable (FitsInPage g size) :=
  inferInstanceAs (Decidable (_ ≤ _))

theorem FitsInPage.valueCap_lt {g : Geometry} {size : RecordSizeInfo} (h : FitsInPage g size) :
    size.valueCap < 2 ^ 32 := by
  have hcap : size.valueCap ≤ size.totalSize := by
    unfold RecordSizeInfo.totalSize
    refine Nat.le_trans ?_ (Tsavorite.align8_ge _)
    omega
  have hpage := g.pageSize_le
  unfold FitsInPage at h
  omega

/-- `allocate_record`: an initialised record on memory that holds anything. -/
def allocateRecord (g : Geometry) (size : RecordSizeInfo) (mem : ℕ → UInt8) : Option RecordPtr :=
  if h : FitsInPage g size then
    some {
      valueBuf := (List.range size.valueCap).map mem
      valueLen := 0
      expirationSlot := if size.hasExpiration then some 0 else none
      len_le := Nat.zero_le _
      cap_lt := by simpa using h.valueCap_lt }
  else none

/-- What an attempt leaves behind: its status, the record of the key (`none` when it has
    none or a tombstone), and the output. -/
structure RmwResult where
  status : Status
  record : Option RecordPtr
  out : StringOutput
  deriving DecidableEq, Repr

section Paths

variable (g : Geometry) (key : Bytes) (input : StringInput) (mem : ℕ → UInt8)

def rmwInitial (out : StringOutput) : Option RmwResult :=
  if needInitialUpdate input then do
    let new ← allocateRecord g (initialSize key input) mem
    let (r, out) ← initialUpdater input new out
    return ⟨.created, some r, out⟩
  else some ⟨.notFound, none, out⟩

def rmwCopy (old : RecordPtr) (out : StringOutput) : Option RmwResult :=
  match needCopyUpdate input old out with
  | (.cancel, out) => some ⟨.canceled, some old, out⟩
  | (.delete, out) => do
    -- `delete_rcu`
    let _ ← allocateRecord g ⟨key.length, 0, false⟩ mem
    return ⟨.deleted, none, out⟩
  | (.copy, out) => do
    let new ← allocateRecord g (copySize key input old) mem
    let (r, out) ← copyUpdater input old new out
    return ⟨.copyUpdated, some r, out⟩

/-- A record at or above ReadOnly that no checkpoint protects. -/
def rmwMutable (r : RecordPtr) (out : StringOutput) : Option RmwResult := do
  let (result, r, out) ← inPlaceUpdater input r out
  match result with
  | .updated => return ⟨.inPlaceUpdated, some r, out⟩
  | .cancel => return ⟨.found, some r, out⟩
  | .expired => rmwInitial g key input mem out
  | .delete => return ⟨.deleted, none, out⟩
  | .needCopy => rmwCopy g key input mem r out

end Paths

/-! ## Section 6: Replies -/

/-- What the handlers of RMW commands reply, from the status and the output. -/
def rmwReply (op : StringOp) (status : Status) (out : StringOutput) : Bytes :=
  match op with
  | .setGet _ => if out.hasBytes then Resp.bulk out.bytes else Resp.NULL_BULK
  | .incrBy => if status.isUpdated then Resp.integer out.int else Resp.error NOT_AN_INTEGER
  | .append | .setRange _ => if status.isUpdated then Resp.integer out.int else Resp.integer 0
  | .getDel => if status = .deleted then Resp.bulk out.bytes else Resp.NULL_BULK
  | .getEx => if status.isUpdated then Resp.bulk out.bytes else Resp.NULL_BULK
  | .expire => Resp.integer (if status.isUpdated then 1 else 0)
  | .persist =>
    Resp.integer (if status.isUpdated && out.hasInt && decide (out.int = 1) then 1 else 0)
  | _ => if status.isUpdated then Resp.OK else Resp.NULL_BULK

/-- In session state `s` the reply is that of `rmwReply` for whatever status and output the
    store answers this RMW with. -/
def Handler.Replies (h : Handler Bytes) (s : RespSession) (key : Bytes) (input : StringInput)
    (scratch : StringOutput) : Prop :=
  ∀ (σ : Type) (handle : (e : Effect) → σ → e.Result × σ) (st st' : σ) (status : Status)
    (out : StringOutput), handle (.rmw key input scratch) st = ((status, out), st') →
    (Program.run handle (h s) st).1.1 = rmwReply input.op status out

section Replies

variable {σ α β : Type} (handle : (e : Effect) → σ → e.Result × σ) (s : RespSession) (st : σ)

theorem run_handler_bind (h : Handler α) (f : α → Handler β) :
    Program.run handle ((h >>= f) s) st =
      Program.run handle (f (Program.run handle (h s) st).1.1 (Program.run handle (h s) st).1.2)
        (Program.run handle (h s) st).2 := Program.run_bind handle (h s) _ st

theorem run_get : Program.run handle ((get : Handler RespSession) s) st = ((s, s), st) := rfl

theorem run_pure (a : α) : Program.run handle ((pure a : Handler α) s) st = ((a, s), st) := rfl

theorem run_clearBytes :
    Program.run handle (clearBytes s) st =
      (((), { s with outScratch := { s.outScratch with bytes := [] } }), st) := rfl

variable {s st}

theorem run_rmw {key : Bytes} {input : StringInput} {status : Status} {out : StringOutput} {st' : σ}
    (h : handle (.rmw key input s.outScratch) st = ((status, out), st')) :
    Program.run handle (rmw key input s) st = ((status, { s with outScratch := out }), st') := by
  show (((handle (.rmw key input s.outScratch) st).1.1,
    { s with outScratch := (handle (.rmw key input s.outScratch) st).1.2 }),
    (handle (.rmw key input s.outScratch) st).2) = _
  rw [h]

theorem run_afterWrite (key raw : Bytes) :
    (Program.run handle (afterWrite key raw s) st).1 = ((), s) := by
  unfold afterWrite logWrite
  rcases s with ⟨txn, nowMs, _ | _, out, _ | _⟩ <;> rfl

end Replies

section Handlers

variable (raw key : Bytes) (s : RespSession)

theorem cmdPersist_replies :
    (cmdPersist raw key).Replies s key ⟨.persist, [], 0, 0, s.nowMs⟩ s.outScratch := by
  intro σ handle st st' status out h
  unfold cmdPersist
  simp only [run_handler_bind, run_get, run_rmw handle h, rmwReply]
  show (Program.run handle ((if (status.isUpdated && out.hasInt && decide (out.int = 1)) = true
    then afterWrite key raw >>= fun _ => _ else _ : Handler Bytes) _) st').1.1 = _
  by_cases hset : (status.isUpdated && out.hasInt && decide (out.int = 1)) = true
  · rw [if_pos hset, run_handler_bind, run_afterWrite]
    rfl
  · rw [if_neg hset]
    rfl

theorem cmdExpire_replies {time : Bytes} {t : Int64} (unit : Int64) (at_ : Bool)
    (ht : Resp.parseI64 time = some t) :
    (cmdExpire raw key time unit at_).Replies s key
      ⟨.expire, [], 0, if at_ then t * unit else s.nowMs + t * unit, s.nowMs⟩ s.outScratch := by
  intro σ handle st st' status out h
  unfold cmdExpire
  simp only [ht, run_handler_bind, run_get, run_rmw handle h, rmwReply]
  by_cases hset : status.isUpdated = true
  · simp only [if_pos hset, run_handler_bind, run_afterWrite, run_pure]
  · simp only [if_neg hset, run_pure]

theorem cmdGetset_replies (value : Bytes) :
    (cmdGetset raw key value).Replies s key (.simple (.setGet false) value s.nowMs) s.outScratch := by
  intro σ handle st st' status out h
  unfold cmdGetset
  simp only [run_handler_bind, run_get, run_rmw handle h, run_afterWrite, run_pure]
  rfl

theorem cmdGetdel_replies :
    (cmdGetdel raw key).Replies s key (.read .getDel s.nowMs)
      { s.outScratch with bytes := [] } := by
  intro σ handle st st' status out h
  unfold cmdGetdel
  simp only [run_handler_bind, run_get, run_clearBytes,
    run_rmw (s := { s with outScratch := { s.outScratch with bytes := [] } }) handle h]
  show _ = if status = .deleted then Resp.bulk out.bytes else Resp.NULL_BULK
  by_cases hset : status = .deleted
  · simp only [if_pos hset, run_handler_bind, run_get, run_afterWrite, run_pure]
  · simp only [if_neg hset, run_pure]

theorem cmdGetex_replies {opts : List Bytes} {e : Int64} (hopts : opts ≠ [])
    (he : getexLoop s.nowMs opts 0 = .ok e) :
    (cmdGetex raw key opts).Replies s key ⟨.getEx, [], 0, e, s.nowMs⟩
      { s.outScratch with bytes := [] } := by
  intro σ handle st st' status out h
  unfold cmdGetex
  simp only [if_neg hopts, he, run_handler_bind, run_get, run_clearBytes,
    run_rmw (s := { s with outScratch := { s.outScratch with bytes := [] } }) handle h, rmwReply]
  by_cases hset : status.isUpdated = true
  · simp only [if_pos hset, run_handler_bind, run_get, run_afterWrite, run_pure]
  · simp only [if_neg hset, run_pure]

theorem cmdIncr_replies (delta : Int64) :
    (cmdIncr raw key delta).Replies s key ⟨.incrBy, [], delta, 0, s.nowMs⟩ s.outScratch := by
  intro σ handle st st' status out h
  unfold cmdIncr
  simp only [run_handler_bind, run_get, run_rmw handle h, rmwReply]
  by_cases hset : status.isUpdated = true
  · simp only [if_pos hset, run_handler_bind, run_get, run_afterWrite, run_pure]
  · simp only [if_neg hset, run_pure]

theorem cmdRmwInt_replies {op : StringOp} (hop : op = .append ∨ ∃ offset, op = .setRange offset)
    (operand : Bytes) (delta : Int64) :
    (cmdRmwInt raw key op operand delta).Replies s key ⟨op, operand, delta, 0, s.nowMs⟩
      s.outScratch := by
  intro σ handle st st' status out h
  unfold cmdRmwInt
  simp only [run_handler_bind, run_get, run_rmw handle h]
  have hreply : rmwReply op status out =
      if status.isUpdated then Resp.integer out.int else Resp.integer 0 := by
    rcases hop with rfl | ⟨offset, rfl⟩ <;> rfl
  rw [hreply]
  by_cases hset : status.isUpdated = true
  · simp only [if_pos hset, run_handler_bind, run_get, run_afterWrite, run_pure]
  · simp only [if_neg hset, run_pure]

theorem cmdSet_replies {rest : List Bytes} {o : SetOpts} (name value : Bytes)
    (ho : parseSetOpts rest s.nowMs = .ok o) (hop : o.op ≠ .set) :
    (cmdSet raw (name :: key :: value :: rest)).Replies s key
      ⟨o.op, value, 0, o.expiration, s.nowMs⟩ s.outScratch := by
  intro σ handle st st' status out h
  unfold cmdSet
  have hreply : rmwReply o.op status out =
      if o.get then if out.hasBytes then Resp.bulk out.bytes else Resp.NULL_BULK
      else if status.isUpdated then Resp.OK else Resp.NULL_BULK := by
    unfold SetOpts.op at hop ⊢
    rcases o with ⟨e, _ | _, _ | _, _ | _, _ | _⟩ <;> simp_all [rmwReply]
  simp only [ho, if_neg hop, hop, false_or, run_handler_bind, run_get, run_rmw handle h, hreply]
  by_cases hset : status.isUpdated = true
  · simp only [if_pos hset, run_handler_bind, run_afterWrite, run_pure]
    rfl
  · simp only [if_neg hset, run_pure]
    rfl

end Handlers

end Garnet
