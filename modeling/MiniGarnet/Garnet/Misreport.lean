import MiniGarnet.Garnet.Announce

/-! # Replies and the outcomes of store calls

    A reply acknowledges a write, or says that a key is missing, or that it is
    there.  Whether it is right depends on the statuses of the store calls
    that the command has made: `Status::Error` after the retry limit, a record
    that the device could not read, or a GETSET that is cancelled, are no
    reason for any handler but that of INCR to reply with an error.  For every
    command it is said here with which statuses its reply is right.
-/

namespace Garnet

open Tsavorite (Status)
open StringFunctions

/-! ## Section 1: Replies apart from each other -/

namespace Resp

theorem length_fmtI64_pos (v : Int64) : 0 < (fmtI64 v).length := by
  have hparse := parseSigned_fmtI64 v
  cases h : fmtI64 v with
  | nil =>
    rw [h] at hparse
    cases hparse
  | cons c l => exact Nat.succ_pos _

theorem integer_inj {a b : Int64} (h : integer a = integer b) : a = b := by
  have hfmt : fmtI64 a = fmtI64 b := List.append_cancel_left (List.append_cancel_right h)
  have hparse := parseSigned_fmtI64 a
  rw [hfmt, parseSigned_fmtI64 b] at hparse
  exact (Option.some.inj hparse).symm

theorem bulk_ne_nullBulk (b : Bytes) : bulk b ≠ NULL_BULK := by
  intro h
  have hlen := congrArg List.length h
  have hpos := length_fmtI64_pos (Int64.ofNat b.length)
  have hnull : NULL_BULK.length = 5 := by decide
  rw [hnull] at hlen
  simp only [bulk, List.length_append, CRLF, show (ascii "$").length = 1 by decide,
    List.length_cons, List.length_nil] at hlen
  omega

theorem bulk_eq_empty {b : Bytes} (h : bulk b = bulk []) : b = [] := by
  have hlen := congrArg List.length h
  have hpos := length_fmtI64_pos (Int64.ofNat b.length)
  have hempty : (bulk []).length = 6 := by decide
  rw [hempty] at hlen
  simp only [bulk, List.length_append, CRLF, show (ascii "$").length = 1 by decide,
    List.length_cons, List.length_nil] at hlen
  exact List.eq_nil_of_length_eq_zero (by omega)

theorem error_ne_integer (s : String) (n : Int64) : error s ≠ integer n := by
  intro h
  have hhead := congrArg List.head? h
  simp [error, errorBytes, integer, ascii] at hhead

end Resp

/-! ## Section 2: The store calls of a command -/

/-- A store call on a key: its status and output, and the record of the key before and after. -/
structure KeyCall where
  key : Bytes
  before : Option RecordPtr
  status : Status
  after : Option RecordPtr
  out : StringOutput
  deriving DecidableEq, Repr

def KeyCall.note (e : Effect) (r : e.Result) (st st' : Shared) : Option KeyCall :=
  match e, r with
  | .read key _ _, (status, out) | .upsert key _ _, (status, out) | .rmw key _ _, (status, out) =>
    some ⟨key, st.record key, status, st'.record key, out⟩
  | .delete key, status => some ⟨key, st.record key, status, st'.record key, .default⟩
  | _, _ => none

/-- The store calls on keys that a handler makes, in order. -/
def Handler.keyCalls {α : Type} (h : Handler α) (w : World) (s : RespSession) (st : Shared) :
    List KeyCall := (h s).trace w.handle KeyCall.note st

section KeyCalls

variable {w : World} {s : RespSession} {st : Shared} {key raw : Bytes}

theorem Handler.keyCalls_bind {α β : Type} (h : Handler α) (f : α → Handler β) :
    (h >>= f).keyCalls w s st = h.keyCalls w s st ++
      (f ((h s).run w.handle st).1.1).keyCalls w ((h s).run w.handle st).1.2
        ((h s).run w.handle st).2 := Program.trace_bind w.handle KeyCall.note (h s) _ st

theorem Handler.keyCalls_pure {α : Type} (a : α) :
    (pure a : Handler α).keyCalls w s st = [] := rfl

theorem keyCalls_afterWrite : (afterWrite key raw).keyCalls w s st = [] := by
  rcases s with ⟨txn, nowMs, _ | _, out, _ | _⟩ <;> rfl

theorem keyCalls_logWrite : (logWrite raw).keyCalls w s st = [] := by
  rcases s with ⟨txn, nowMs, _ | _, out, _ | _⟩ <;> rfl

/-- The call of a command. -/
def KeyCommand.keyCall (c : KeyCommand) (w : World) (key : Bytes) (s : RespSession) (st : Shared) :
    KeyCall :=
  let x := c.answer w.handle key s st
  ⟨key, st.record key, x.1.1, x.2.record key, x.1.2⟩

theorem KeyCommand.keyCalls_call (c : KeyCommand) :
    (c.call key).keyCalls w s st = [c.keyCall w key s st] := by
  unfold KeyCommand.keyCall KeyCommand.answer
  change Program.trace w.handle KeyCall.note (c.call key s) st = _
  unfold KeyCommand.call
  cases c.kind <;> rfl

/-- A command on one key makes one call. -/
theorem KeyCommand.keyCalls_exec (c : KeyCommand) :
    (c.exec raw key).keyCalls w s st = [c.keyCall w key (c.prepared s) st] := by
  have hprepared : c.exec raw key s = (do
      let status ← c.call key
      let out := (← getThe RespSession).outScratch
      if c.writes status out then afterWrite key raw
      return c.reply status out : Handler Bytes) (c.prepared s) := by
    unfold KeyCommand.exec KeyCommand.prepared
    cases c.clears <;> rfl
  unfold Handler.keyCalls
  rw [hprepared]
  show Handler.keyCalls (c.call key >>= fun status => _) w (c.prepared s) st = _
  rw [Handler.keyCalls_bind, KeyCommand.keyCalls_call, KeyCommand.run_call]
  generalize c.answer w.handle key (c.prepared s) st = x
  -- the bookkeeping makes none
  have hrest : ((if c.writes x.1.1 x.1.2 = true then afterWrite key raw >>= fun _ =>
      pure (c.reply x.1.1 x.1.2) else pure (c.reply x.1.1 x.1.2) : Handler Bytes)).keyCalls w
      { c.prepared s with outScratch := x.1.2 } x.2 = [] := by
    split
    · rw [Handler.keyCalls_bind, keyCalls_afterWrite]
      rfl
    · rfl
  exact congrArg (_ ++ ·) hrest

end KeyCalls

/-! ## Section 3: What a reply says -/

/-- The write has been applied: its call says so, and the record of the key is what the reply has
    it to be. -/
def KeyCommand.Applied (c : KeyCommand) (call : KeyCall) (reply : Bytes) : Prop :=
  call.status.isUpdated = true ∧
    match c with
    | .set value _ | .setnx value | .getset value => ∃ r, call.after = some r ∧ r.value = value
    | .setex value expiration =>
      ∃ r, call.after = some r ∧ r.value = value ∧ r.expiration = expiration
    | .getdel => call.after = none
    | .getex expiration | .expire expiration =>
      ∃ r, call.after = some r ∧ r.expiration = expiration
    | .persist => ∃ r, call.after = some r ∧ r.expiration = 0
    | .incr _ =>
      ∃ r n, call.after = some r ∧ r.value = Resp.fmtI64 n ∧ reply = Resp.integer n
    | .append _ | .setrange _ _ =>
      ∃ r, call.after = some r ∧ reply = Resp.integer (Int64.ofNat r.value.length)
    | .get | .strlen | .getrange _ _ | .ttl _ | .type => True

/-- The key is absent or expired when the call is made. -/
def KeyCall.Missing (now : Int64) (call : KeyCall) : Prop := seenAt now call.before = none

/-- The value has no bytes in the range. -/
def emptyRange (start stop : Int64) (value : Bytes) : Prop :=
  (value.take (rangeBounds start stop value.length).2).drop
    (rangeBounds start stop value.length).1 = []

/-- What the reply to a command stands for is true: a reply of success, that the write has been
    applied, and a reply for a missing key, that it is missing.  The old value that GETSET, or SET
    with GET, replies acknowledges the write as well.  The replies of SETNX and SET NX that are not
    of success are for a key that is there, and the zero of STRLEN, the empty range of GETRANGE and
    the zero of PERSIST for an empty value, an empty range and a key without a deadline too. -/
def KeyCommand.Right (c : KeyCommand) (now : Int64) (call : KeyCall) (reply : Bytes) : Prop :=
  match c with
  | .get => reply = Resp.NULL_BULK → call.Missing now
  | .strlen =>
    reply = Resp.integer 0 → call.Missing now ∨ ∃ e, seenAt now call.before = some ([], e)
  | .getrange start stop =>
    reply = Resp.bulk [] → call.Missing now ∨
      ∃ v e, seenAt now call.before = some (v, e) ∧ emptyRange start stop v
  | .ttl _ => reply = Resp.integer (-2) → call.Missing now
  | .type => reply = Resp.simple "none" → call.Missing now
  | .set _ options =>
    if options.get then c.Applied call reply ∧ (reply = Resp.NULL_BULK → call.Missing now)
    else (reply = Resp.OK → c.Applied call reply) ∧
      (reply = Resp.NULL_BULK → if options.op = .setNx then ¬ call.Missing now else call.Missing now)
  | .setnx _ =>
    (reply = Resp.integer 1 → c.Applied call reply) ∧
      (reply = Resp.integer 0 → ¬ call.Missing now)
  | .setex _ _ => reply = Resp.OK → c.Applied call reply
  | .getset _ => c.Applied call reply ∧ (reply = Resp.NULL_BULK → call.Missing now)
  | .getdel | .getex _ =>
    (reply ≠ Resp.NULL_BULK → c.Applied call reply) ∧
      (reply = Resp.NULL_BULK → call.Missing now)
  | .incr _ | .append _ | .setrange _ _ => ∀ n, reply = Resp.integer n → c.Applied call reply
  | .expire _ =>
    (reply = Resp.integer 1 → c.Applied call reply) ∧ (reply = Resp.integer 0 → call.Missing now)
  | .persist =>
    (reply = Resp.integer 1 → c.Applied call reply) ∧
      (reply = Resp.integer 0 → call.Missing now ∨ ∃ v, seenAt now call.before = some (v, 0))

/-- The statuses with which the reply of the command is right. -/
def KeyCommand.ToldTrue (c : KeyCommand) (now : Int64) (call : KeyCall) : Prop :=
  match c with
  | .get | .ttl _ | .type => call.status = .found ∨ call.Missing now
  | .strlen =>
    call.status = .found ∨ call.Missing now ∨ ∃ e, seenAt now call.before = some ([], e)
  | .getrange start stop =>
    call.status = .found ∨ call.Missing now ∨
      ∃ v e, seenAt now call.before = some (v, e) ∧ emptyRange start stop v
  | .set _ options =>
    if options.get then
      call.status.isUpdated = true ∧ (call.status = .created → call.Missing now)
    else
      match options.op with
      | .set => call.status.isUpdated = true
      | .setNx => call.status.isUpdated = true ∨ ¬ call.Missing now
      | _ => call.status.isUpdated = true ∨ call.Missing now
  | .setnx _ => call.status = .created ∨ ¬ call.Missing now
  | .setex _ _ => call.status.isUpdated = true
  | .getset _ => call.status.isUpdated = true ∧ (call.status = .created → call.Missing now)
  | .getdel | .getex _ | .expire _ => call.status.isUpdated = true ∨ call.Missing now
  -- the only handler that replies with an error
  | .incr _ => True
  | .append _ | .setrange _ _ => call.status.isUpdated = true
  | .persist =>
    call.status.isUpdated = true ∨ call.Missing now ∨ ∃ v, seenAt now call.before = some (v, 0)

section OneKey

variable {c : KeyCommand} {now : Int64} {call : KeyCall}

theorem SetOpts.op_cases (options : SetOpts) :
    options.op = .set ∨ options.op = .setGet options.keepTtl ∨ options.op = .setNx ∨
      options.op = .setXx ∨ options.op = .setKeepTtl := by
  unfold SetOpts.op
  repeat' split
  all_goals simp

theorem Written.value_of_set {value : Bytes} {options : SetOpts} {r : RecordPtr} {out : StringOutput}
    (hop : options.op = .set ∨ options.op = .setGet options.keepTtl ∨ options.op = .setNx ∨
      options.op = .setXx ∨ options.op = .setKeepTtl)
    (h : Written ((KeyCommand.set value options).input now) r out) : r.value = value := by
  change Written ⟨options.op, value, 0, options.expiration, now⟩ r out at h
  unfold Written at h
  rcases hop with hop | hop | hop | hop | hop
  all_goals
    simp only [hop] at h
    exact h

/-- The answer to the call of a command, as a call. -/
def KeyCall.Answers (c : KeyCommand) (now : Int64) (call : KeyCall) : Prop :=
  c.AnswerOk now call.before call.status call.after call.out

/-- A write that its call says is applied is applied. -/
theorem KeyCommand.applied (h : call.Answers c now) (hupdated : call.status.isUpdated = true) :
    c.Applied call (c.reply call.status call.out) := by
  refine ⟨hupdated, ?_⟩
  unfold KeyCall.Answers AnswerOk at h
  have hrmw (hkind : c.kind = .rmw) (hdel : (c.input now).op ≠ .getDel) :
      ∃ r, call.after = some r ∧ Written (c.input now) r call.out := by
    rw [hkind] at h
    have hwritten := RmwOk.written h hupdated
    rwa [if_neg hdel] at hwritten
  cases c with
  | set value options =>
    by_cases hop : options.op = .set
    · simp only [kind, if_pos hop] at h
      obtain ⟨r, hr, hvalue, -⟩ := UpsertOk.written h hupdated
      exact ⟨r, hr, hvalue⟩
    · have hforms := options.op_cases
      obtain ⟨r, hr, hvalue⟩ := hrmw (if_neg hop) fun hdel => by
        have hdel' : options.op = .getDel := hdel
        rw [hdel'] at hforms
        simp at hforms
      exact ⟨r, hr, Written.value_of_set hforms hvalue⟩
  | setex value expiration => exact UpsertOk.written h hupdated
  | setnx value => exact hrmw rfl (by simp [input, StringInput.simple])
  | getset value => exact hrmw rfl (by simp [input, StringInput.simple])
  | getdel =>
    have hwritten := RmwOk.written h hupdated
    rwa [if_pos (show (KeyCommand.getdel.input now).op = .getDel from rfl)] at hwritten
  | getex expiration => exact hrmw rfl (by simp [input, StringInput.simple])
  | expire expiration => exact hrmw rfl (by simp [input, StringInput.simple])
  | persist => exact hrmw rfl (by simp [input, StringInput.simple])
  | incr delta =>
    obtain ⟨r, hr, hvalue⟩ := hrmw rfl (by simp [input, StringInput.simple])
    exact ⟨r, call.out.int, hr, hvalue, if_pos hupdated⟩
  | append value =>
    obtain ⟨r, hr, hlen⟩ := hrmw rfl (by simp [input, StringInput.simple])
    exact ⟨r, hr, (if_pos hupdated).trans (congrArg Resp.integer hlen)⟩
  | setrange offset value =>
    obtain ⟨r, hr, hlen⟩ := hrmw rfl (by simp [input, StringInput.simple])
    exact ⟨r, hr, (if_pos hupdated).trans (congrArg Resp.integer hlen)⟩
  | _ => trivial

/-- What a read that finds the key shows. -/
theorem ReadOk.shows {input : StringInput} {before after : Option RecordPtr} {status : Status}
    {out : StringOutput} (h : ReadOk input before status after out) (hfound : status = .found) :
    ∃ r out', before = some r ∧ r.expired input.nowMs = false ∧ reader input r out' = (true, out) := by
  obtain ⟨out', hread⟩ := h.found hfound
  cases before with
  | none => cases hread
  | some r =>
    refine ⟨r, out', rfl, ?_, hread⟩
    cases hexp : r.expired input.nowMs with
    | false => rfl
    | true =>
      have hgone : reader input r out' = (false, out') := if_pos hexp
      rw [readOf, hgone] at hread
      cases hread

/-- A remaining time is never the -2 of a missing key. -/
theorem remaining_ne (ms : Bool) (nowMs expiration : Int64) : remaining ms nowMs expiration ≠ -2 := by
  unfold remaining
  split
  · decide
  · have hnonneg : 0 ≤ (if expiration - nowMs < 0 then 0 else expiration - nowMs).toInt := by
      split
      · decide
      · rename_i hneg
        have h := Int64.not_lt.mp hneg
        rw [Int64.le_iff_toInt_le] at h
        simpa using h
    generalize (if expiration - nowMs < 0 then 0 else expiration - nowMs) = rem at hnonneg ⊢
    intro h
    have hint := congrArg Int64.toInt h
    simp only at hint
    split at hint
    · have hminus : (-2 : Int64).toInt = -2 := by decide
      omega
    · have hminus : (-2 : Int64).toInt = -2 := by decide
      have hlt := Int64.toInt_lt rem
      rw [Int64.toInt_div, Int64.toInt_add, hminus, show (999 : Int64).toInt = 999 by decide,
        show (1000 : Int64).toInt = 1000 by decide] at hint
      generalize rem.toInt = n at *
      -- the sum may wrap around; the quotient is then far from -2
      have hsum : (n + 999).bmod (2 ^ 64) = n + 999 ∨ (n + 999).bmod (2 ^ 64) = n + 999 - 2 ^ 64 := by
        rw [Int.bmod_def]
        split <;> omega
      have hwrap : ∀ q : ℤ, -2 ^ 63 ≤ q → q < 2 ^ 63 → q.bmod (2 ^ 64) = q := by
        intro q hlo hhi
        rw [Int.bmod_def]
        split <;> omega
      rcases hsum with hsum | hsum
      · rw [hsum, Int.tdiv_eq_ediv_of_nonneg (by omega), hwrap _ (by omega) (by omega)] at hint
        omega
      · rw [hsum] at hint
        obtain ⟨m, rfl⟩ : ∃ m, n = 2 ^ 64 - 999 - m := ⟨2 ^ 64 - 999 - n, by omega⟩
        have hneg : (2 ^ 64 - 999 - m + 999 - 2 ^ 64 : ℤ) = -m := by omega
        rw [hneg, Int.neg_tdiv, Int.tdiv_eq_ediv_of_nonneg (by omega),
          hwrap _ (by omega) (by omega)] at hint
        omega

theorem KeyCommand.right_of_read (h : call.Answers c now) (hfound : call.status = .found)
    (hkind : c.kind = .read) : c.Right now call (c.reply call.status call.out) := by
  unfold KeyCall.Answers AnswerOk at h
  rw [hkind] at h
  obtain ⟨r, out', hbefore, halive, hread⟩ := ReadOk.shows h hfound
  rw [c.input_nowMs] at halive
  have hseen : seenAt now call.before = some (r.value, r.expiration) := by
    rw [hbefore]
    exact seenAt_alive halive
  have hshown : ∀ {b : Bytes}, c.reply call.status call.out = b → c.reply .found call.out = b := by
    intro b hb
    rwa [hfound] at hb
  unfold reader at hread
  rw [c.input_nowMs, halive] at hread
  cases c with
  | get => exact fun hreply => absurd (hshown hreply) (Resp.bulk_ne_nullBulk _)
  | strlen =>
    intro hreply
    have hout : out'.setInt (Int64.ofNat r.valueLen) = call.out := (Prod.mk.inj hread).2
    have hzero : (call.out).int = 0 := Resp.integer_inj (hshown hreply)
    rw [← hout] at hzero
    -- a length is below `2 ^ 32`
    have hlen : r.valueLen = 0 := by
      have hint := congrArg Int64.toInt (show Int64.ofNat r.valueLen = 0 from hzero)
      have hlt := r.len_le
      have hcap := r.cap_lt
      rw [Int64.toInt_ofNat_of_lt (by omega)] at hint
      simpa using hint
    have hempty : r.value = [] := List.eq_nil_of_length_eq_zero (r.length_value.trans hlen)
    exact .inr ⟨r.expiration, by rw [hseen, hempty]⟩
  | getrange start stop =>
    intro hreply
    have hout : out'.setBytes ((r.value.take (rangeBounds start stop r.valueLen).2).drop
        (rangeBounds start stop r.valueLen).1) = call.out := (Prod.mk.inj hread).2
    have hbytes : call.out.bytes = [] := Resp.bulk_eq_empty (hshown hreply)
    refine .inr ⟨r.value, r.expiration, hseen, ?_⟩
    unfold emptyRange
    rw [r.length_value]
    rw [← hout] at hbytes
    exact hbytes
  | ttl ms =>
    intro hreply
    have hout : out'.setInt (remaining ms now r.expiration) = call.out := (Prod.mk.inj hread).2
    have hint : call.out.int = -2 := Resp.integer_inj (hshown hreply)
    rw [← hout] at hint
    exact absurd hint (remaining_ne ms now r.expiration)
  | type =>
    intro hreply
    have hne : Resp.simple "string" ≠ Resp.simple "none" := by decide
    exact absurd (hshown hreply) hne
  | set value options =>
    by_cases hop : options.op = .set
    · simp [kind, hop] at hkind
    · simp [kind, hop] at hkind
  | _ => cases hkind

/-- GETSET and SET with GET say nil where the key has been created, and nowhere else. -/
theorem RmwOk.reply_null {input : StringInput} {keepTtl : Bool} {before after : Option RecordPtr}
    {status : Status} {out : StringOutput} (h : RmwOk input before status after out)
    (hop : input.op = .setGet keepTtl) (hupdated : status.isUpdated = true) :
    (if out.hasBytes then Resp.bulk out.bytes else Resp.NULL_BULK) = Resp.NULL_BULK ↔
      status = .created := by
  rw [h.setGet keepTtl hop hupdated]
  by_cases hcreated : status = .created
  · simp [hcreated]
  · simp [hcreated, Resp.bulk_ne_nullBulk]

/-- The old value, or nil, of a write that the store has or has not applied. -/
theorem right_shown_iff {keepTtl : Bool} {applied : Prop} {reply : Bytes}
    (h : RmwOk (c.input now) call.before call.status call.after call.out)
    (hop : (c.input now).op = .setGet keepTtl)
    (hreply : reply = if call.out.hasBytes then Resp.bulk call.out.bytes else Resp.NULL_BULK)
    (happlied : applied ↔ call.status.isUpdated = true) :
    applied ∧ (reply = Resp.NULL_BULK → call.Missing now) ↔
      call.status.isUpdated = true ∧ (call.status = .created → call.Missing now) := by
  rw [happlied]
  refine and_congr_right fun hupdated => ?_
  rw [hreply, RmwOk.reply_null h hop hupdated]

theorem integer_one_ne_zero : Resp.integer 1 ≠ Resp.integer 0 := by decide

/-- The reply to a command is right just with these statuses. -/
theorem KeyCommand.right_iff (h : call.Answers c now) :
    c.Right now call (c.reply call.status call.out) ↔ c.ToldTrue now call := by
  have happlied : c.Applied call (c.reply call.status call.out) ↔ call.status.isUpdated = true :=
    ⟨fun happlied => happlied.1, c.applied h⟩
  have hread := fun hfound hkind => KeyCommand.right_of_read h hfound hkind
  unfold Right ToldTrue
  cases c with
  | get | ttl ms | type =>
    by_cases hfound : call.status = .found
    · exact iff_of_true (hread hfound rfl) (.inl hfound)
    · simp [reply, hfound]
  | strlen =>
    by_cases hfound : call.status = .found
    · exact iff_of_true (hread hfound rfl) (.inl hfound)
    · simp [reply, hfound]
  | getrange start stop =>
    by_cases hfound : call.status = .found
    · exact iff_of_true (hread hfound rfl) (.inl hfound)
    · simp [reply, hfound]
  | set value options =>
    by_cases hget : options.get = true
    · have hop := SetOpts.op_of_get hget
      have hkind : (KeyCommand.set value options).kind = .rmw := if_neg (by simp [hop])
      simp only [hget, if_true]
      have hok := h
      unfold KeyCall.Answers AnswerOk at hok
      rw [hkind] at hok
      exact right_shown_iff hok hop (if_pos hget) happlied
    · have hreply : (KeyCommand.set value options).reply call.status call.out =
          if options.op = .set ∨ call.status.isUpdated = true then Resp.OK else Resp.NULL_BULK :=
        if_neg hget
      have hne : Resp.OK ≠ Resp.NULL_BULK := by decide
      simp only [if_neg hget]
      rw [happlied, hreply]
      rcases options.op_cases with hop | hop | hop | hop | hop
      · simp [hop, hne]
      · have hsome : options.op ≠ .setGet options.keepTtl :=
          SetOpts.op_ne_setGet (by simpa using hget) _
        exact absurd hop hsome
      all_goals
        simp only [hop]
        cases call.status.isUpdated <;> simp [hne, hne.symm]
  | setnx value =>
    have hreply : (KeyCommand.setnx value).reply call.status call.out =
        Resp.integer (if call.status = .created then 1 else 0) := rfl
    rw [happlied, hreply]
    by_cases hcreated : call.status = .created
    · simp [hcreated, integer_one_ne_zero, Status.isUpdated]
    · simp [hcreated, integer_one_ne_zero.symm]
  | setex value expiration =>
    have hreply : (KeyCommand.setex value expiration).reply call.status call.out = Resp.OK := rfl
    rw [happlied, hreply]
    simp
  | getset value => exact @right_shown_iff (.getset value) now call false _ _ h rfl rfl happlied
  | getdel =>
    by_cases hdeleted : call.status = .deleted
    · have hreply : KeyCommand.getdel.reply call.status call.out = Resp.bulk call.out.bytes :=
        if_pos hdeleted
      have hupdated : call.status.isUpdated = true := by rw [hdeleted]; rfl
      rw [happlied, hreply]
      simp [hupdated, Resp.bulk_ne_nullBulk]
    · have hreply : KeyCommand.getdel.reply call.status call.out = Resp.NULL_BULK :=
        if_neg hdeleted
      have hidle : call.status.isUpdated ≠ true := fun hupdated =>
        hdeleted (RmwOk.getDel h rfl hupdated)
      rw [happlied, hreply]
      simp [hidle]
  | getex expiration =>
    have hreply : (KeyCommand.getex expiration).reply call.status call.out =
        if call.status.isUpdated then Resp.bulk call.out.bytes else Resp.NULL_BULK := rfl
    rw [happlied, hreply]
    cases call.status.isUpdated <;> simp [Resp.bulk_ne_nullBulk]
  | incr delta =>
    refine iff_of_true (fun n hn => happlied.mpr ?_) trivial
    by_contra hidle
    have hreply : (KeyCommand.incr delta).reply call.status call.out = Resp.error NOT_AN_INTEGER :=
      if_neg hidle
    exact Resp.error_ne_integer _ _ (hreply.symm.trans hn)
  | append value | setrange offset value =>
    rw [happlied]
    refine ⟨fun hright => ?_, fun hupdated _ _ => hupdated⟩
    by_contra hidle
    exact hidle (hright 0 (if_neg hidle))
  | expire expiration =>
    have hreply : (KeyCommand.expire expiration).reply call.status call.out =
        Resp.integer (if call.status.isUpdated then 1 else 0) := rfl
    rw [happlied, hreply]
    cases call.status.isUpdated <;> simp [integer_one_ne_zero, integer_one_ne_zero.symm]
  | persist =>
    have hreply : KeyCommand.persist.reply call.status call.out =
        Resp.integer (if call.status.isUpdated then 1 else 0) := by
      cases hupdated : call.status.isUpdated with
      | false => simp [reply, hupdated]
      | true =>
        obtain ⟨hhas, hone⟩ := RmwOk.persist h rfl hupdated
        simp [reply, hupdated, hhas, hone]
    rw [happlied, hreply]
    cases call.status.isUpdated <;> simp [integer_one_ne_zero, integer_one_ne_zero.symm]

end OneKey

/-! ## Section 4: Commands on several keys -/

def pairsOf : List Bytes → List (Bytes × Bytes)
  | key :: value :: rest => (key, value) :: pairsOf rest
  | _ => []

/-- The part of the reply of MGET that is about one key. -/
def KeyCall.getReply (call : KeyCall) : Bytes := KeyCommand.get.reply call.status call.out

/-- What the reply stands for is true.  The reply of MSET acknowledges all of its writes; that of
    MGET says of each key what GET says, that of EXISTS how
    many keys are there, and that of DEL how many have been deleted, the others being missing. -/
def Parsed.Right (p : Parsed) (now : Int64) (calls : List KeyCall) (reply : Bytes) : Prop :=
  match p with
  | .reply _ => ∃ text, reply = Resp.errorBytes text
  | .one _ c => ∃ call, calls = [call] ∧ c.Right now call reply
  | .mset pairs =>
    reply = Resp.OK → List.Forall₂ (fun pair call =>
      (KeyCommand.setex pair.2 0).Applied call reply) (pairsOf pairs) calls
  | .mget keys =>
    reply = Resp.arrayHeader keys.length ++ (calls.map KeyCall.getReply).flatten ∧
      ∀ call ∈ calls, KeyCommand.get.Right now call call.getReply
  | .del _ =>
    reply = Resp.integer (Int64.ofNat (calls.countP fun call => call.status = .deleted)) ∧
      ∀ call ∈ calls, if call.status = .deleted then call.after = none else call.Missing now
  | .exists_ _ =>
    reply = Resp.integer (Int64.ofNat (calls.countP fun call => call.status = .found)) ∧
      ∀ call ∈ calls, call.status ≠ .found ↔ call.Missing now

/-- The statuses with which the reply is right. -/
def Parsed.ToldTrue (p : Parsed) (now : Int64) (calls : List KeyCall) : Prop :=
  match p with
  | .reply _ => True
  | .one _ c => ∀ call ∈ calls, c.ToldTrue now call
  | .mset _ => ∀ call ∈ calls, call.status.isUpdated = true
  | .mget _ | .exists_ _ => ∀ call ∈ calls, call.status = .found ∨ call.Missing now
  | .del _ => ∀ call ∈ calls, call.status = .deleted ∨ call.Missing now

/-- The reply is right, and a command that has not written anything is not logged. -/
structure Honest (p : Parsed) (now : Int64) (calls : List KeyCall) (reply : Bytes) (st st' : Shared) :
    Prop where
  right : p.Right now calls reply
  log : (∀ call ∈ calls, call.status.isUpdated = false) → st'.log = st.log

section Several

variable {w : World} {raw key : Bytes} {s : RespSession} {st : Shared} {now : Int64}

/-- A program that has not panicked at its end has not at its beginning. -/
theorem World.live_of_run {α : Type} {p : Program Effect Effect.Result α}
    (h : (p.run w.handle st).2.panicked = false) : st.panicked = false := by
  cases hpanic : st.panicked with
  | false => rfl
  | true =>
    rw [World.run_panicked w hpanic] at h
    exact hpanic.symm.trans h

theorem KeyCommand.keyCall_answers (c : KeyCommand)
    (hlive : (c.answer w.handle key s st).2.panicked = false) :
    (c.keyCall w key s st).Answers c s.nowMs ∧
      (c.answer w.handle key s st).2.log = st.log := by
  have hstart : st.panicked = false := by
    apply World.live_of_run (w := w) (p := c.call key s)
    rw [KeyCommand.run_call]
    exact hlive
  rcases c.answer_cases (w := w) key s hstart with ⟨status, after, out, hok, hanswer⟩ | hpanic
  · unfold KeyCall.Answers KeyCommand.keyCall
    rw [hanswer]
    simp only [Function.update_self]
    exact ⟨hok, trivial⟩
  · rw [hpanic] at hlive
    cases hlive

/-- The calls of MSET, by induction on the pairs. -/
theorem msetLoop_calls (pairs : List Bytes)
    (hlive : ((msetLoop pairs s).run w.handle st).2.panicked = false) :
    List.Forall₂ (fun pair call => call.Answers (.setex pair.2 0) s.nowMs) (pairsOf pairs)
      ((msetLoop pairs).keyCalls w s st) := by
  fun_induction everyOther pairs generalizing s st with
  | case1 key value rest ih =>
    have hloop : msetLoop (key :: value :: rest) = ((KeyCommand.setex value 0).call key >>=
        fun _ => perform (.bump key) >>= fun _ => msetLoop rest) := rfl
    rw [hloop] at hlive ⊢
    rw [run_handler_bind, run_handler_bind] at hlive
    rw [Handler.keyCalls_bind, Handler.keyCalls_bind, KeyCommand.keyCalls_call]
    have hcall := World.live_of_run (World.live_of_run hlive)
    rw [KeyCommand.run_call] at hlive hcall ⊢
    exact .cons ((KeyCommand.setex value 0).keyCall_answers hcall).1 (ih hlive)
  | case2 key => exact .nil
  | case3 => exact .nil

/-- A GET inside of another command. -/
theorem cmdGet_run (key : Bytes) (s : RespSession) (st : Shared) :
    (cmdGet key s).run w.handle st =
        (((KeyCommand.get.keyCall w key s st).getReply,
          { s with outScratch := (KeyCommand.get.answer w.handle key s st).1.2 }),
          (KeyCommand.get.answer w.handle key s st).2) ∧
      (cmdGet key).keyCalls w s st = [KeyCommand.get.keyCall w key s st] := by
  have hget : cmdGet key = KeyCommand.get.exec [] key := funext fun s => cmdGet_eq [] key s
  rw [hget, KeyCommand.run_exec, KeyCommand.keyCalls_exec]
  exact ⟨rfl, rfl⟩

/-- The calls of MGET. -/
theorem mgetLoop_calls (keys : List Bytes)
    (hlive : ((mgetLoop keys s).run w.handle st).2.panicked = false) :
    ((mgetLoop keys s).run w.handle st).1.1 =
        (((mgetLoop keys).keyCalls w s st).map KeyCall.getReply).flatten ∧
      (∀ call ∈ (mgetLoop keys).keyCalls w s st, call.Answers .get s.nowMs) ∧
      ((mgetLoop keys s).run w.handle st).2.log = st.log := by
  induction keys generalizing s st with
  | nil => exact ⟨rfl, nofun, rfl⟩
  | cons key rest ih =>
    obtain ⟨hrun, hcalls⟩ := cmdGet_run (w := w) key s st
    have hloop : mgetLoop (key :: rest) = (cmdGet key >>= fun reply =>
        mgetLoop rest >>= fun more => pure (reply ++ more)) := rfl
    rw [hloop] at hlive ⊢
    rw [run_handler_bind, run_handler_bind, hrun] at hlive
    rw [Handler.keyCalls_bind, Handler.keyCalls_bind, hcalls, run_handler_bind, run_handler_bind, hrun]
    obtain ⟨hanswer, hlog⟩ := KeyCommand.get.keyCall_answers (World.live_of_run hlive)
    obtain ⟨hreply, hrest, hrestLog⟩ := ih hlive
    rw [Handler.keyCalls_pure, List.append_nil]
    refine ⟨?_, ?_, hrestLog.trans hlog⟩
    · show _ ++ ((mgetLoop rest _).run w.handle _).1.1 = _
      rw [hreply]
      rfl
    · intro call hmem
      rcases List.mem_append.mp hmem with hfirst | hmore
      · rw [List.mem_singleton.mp hfirst]
        exact hanswer
      · exact hrest call hmore

theorem countP_status (status : Status) (call : KeyCall) (calls : List KeyCall) :
    ([call] ++ calls).countP (fun call => call.status = status) =
      if call.status = status then calls.countP (fun call => call.status = status) + 1
      else calls.countP fun call => call.status = status := by
  rw [List.singleton_append, List.countP_cons]
  by_cases h : call.status = status
  · rw [if_pos h, if_pos (by simpa using h)]
  · rw [if_neg h, if_neg (by simpa using h), Nat.add_zero]

/-- The calls of EXISTS. -/
theorem existsLoop_calls (keys : List Bytes)
    (hlive : ((existsLoop keys s).run w.handle st).2.panicked = false) :
    ((existsLoop keys s).run w.handle st).1.1 =
        ((existsLoop keys).keyCalls w s st).countP (fun call => call.status = .found) ∧
      (∀ call ∈ (existsLoop keys).keyCalls w s st, call.Answers .type s.nowMs) ∧
      ((existsLoop keys s).run w.handle st).2.log = st.log := by
  induction keys generalizing s st with
  | nil => exact ⟨rfl, nofun, rfl⟩
  | cons key rest ih =>
    have hloop : existsLoop (key :: rest) = (KeyCommand.type.call key >>= fun status =>
        existsLoop rest >>= fun n => pure (if status = .found then n + 1 else n)) := rfl
    rw [hloop] at hlive ⊢
    rw [run_handler_bind, run_handler_bind, KeyCommand.run_call] at hlive
    rw [Handler.keyCalls_bind, Handler.keyCalls_bind, KeyCommand.keyCalls_call, run_handler_bind,
      run_handler_bind, KeyCommand.run_call]
    obtain ⟨hanswer, hlog⟩ := KeyCommand.type.keyCall_answers (World.live_of_run hlive)
    obtain ⟨hcount, hrest, hrestLog⟩ := ih hlive
    rw [Handler.keyCalls_pure, List.append_nil]
    refine ⟨?_, ?_, hrestLog.trans hlog⟩
    · show (if _ then ((existsLoop rest _).run w.handle _).1.1 + 1
        else ((existsLoop rest _).run w.handle _).1.1) = _
      rw [hcount, countP_status]
      rfl
    · intro call hmem
      rcases List.mem_append.mp hmem with hfirst | hmore
      · rw [List.mem_singleton.mp hfirst]
        exact hanswer
      · exact hrest call hmore

theorem World.delete_answers (hlive : (w.handle (.delete key) st).2.panicked = false) :
    DeleteOk (st.record key) (w.handle (.delete key) st).1
        ((w.handle (.delete key) st).2.record key) ∧
      (w.handle (.delete key) st).2.log = st.log := by
  have hstart : st.panicked = false :=
    World.live_of_run (w := w) (p := .op (.delete key) fun _ => .ret ()) hlive
  have hdelete : w.handle (.delete key) st =
      ((w.call key (attemptDelete w.geometry key) .default st).1.1,
        (w.call key (attemptDelete w.geometry key) .default st).2) := w.handle_live hstart _
  rw [hdelete] at hlive ⊢
  rcases @World.call_cases w key _ _ _ _ (@deleteLoop_ok key w.geometry (w.attempts st.calls)
    (st.record key) .default) with ⟨status, after, out, hok, hcall⟩ | hpanic
  · rw [hcall]
    simp only [Function.update_self]
    exact ⟨hok, trivial⟩
  · rw [hpanic] at hlive
    cases hlive

/-- The calls of DEL. -/
theorem delLoop_calls (keys : List Bytes)
    (hlive : ((delLoop keys s).run w.handle st).2.panicked = false) :
    ((delLoop keys s).run w.handle st).1.1 =
        ((delLoop keys).keyCalls w s st).countP (fun call => call.status = .deleted) ∧
      (∀ call ∈ (delLoop keys).keyCalls w s st, DeleteOk call.before call.status call.after) ∧
      ((delLoop keys s).run w.handle st).2.log = st.log := by
  induction keys generalizing st with
  | nil => exact ⟨rfl, nofun, rfl⟩
  | cons key rest ih =>
    have hstart := World.live_of_run hlive
    have hloop : delLoop (key :: rest) = (perform (.delete key) >>= fun (status : Status) =>
        if status = .deleted then
          perform (.bump key) >>= fun _ => delLoop rest >>= fun n => pure (n + 1)
        else delLoop rest) := rfl
    rw [hloop] at hlive ⊢
    rw [run_handler_bind] at hlive
    rw [Handler.keyCalls_bind, run_handler_bind]
    have hfirst : (perform (.delete key) : Handler Status).keyCalls w s st =
        [⟨key, st.record key, (w.handle (.delete key) st).1,
          (w.handle (.delete key) st).2.record key, .default⟩] := rfl
    have hrun : ((perform (.delete key) : Handler Status) s).run w.handle st =
        (((w.handle (.delete key) st).1, s), (w.handle (.delete key) st).2) := rfl
    rw [hfirst]
    rw [hrun] at hlive ⊢
    have hlive₁ : (w.handle (.delete key) st).2.panicked = false := World.live_of_run hlive
    obtain ⟨hok, hlog⟩ := World.delete_answers hlive₁
    by_cases hdeleted : (w.handle (.delete key) st).1 = .deleted
    · simp only [if_pos hdeleted] at hlive ⊢
      rw [run_handler_bind, run_handler_bind] at hlive
      rw [Handler.keyCalls_bind, Handler.keyCalls_bind, run_handler_bind, run_handler_bind]
      generalize (w.handle (.delete key) st).2 = st₁ at *
      have hbump : ((perform (.bump key) : Handler Unit) s).run w.handle st₁ =
          (((), s), bumpedState key st₁) := by
        show ((_, s), (w.handle (.bump key) st₁).2) = _
        rw [World.bump_state hlive₁]
      rw [hbump] at hlive ⊢
      obtain ⟨hcount, hrest, hrestLog⟩ := ih (World.live_of_run hlive)
      rw [Handler.keyCalls_pure, List.append_nil]
      -- the bump is not a call on a key
      show _ + 1 = ([_] ++ (delLoop rest).keyCalls w s (bumpedState key st₁)).countP _ ∧
        (∀ call ∈ [_] ++ (delLoop rest).keyCalls w s (bumpedState key st₁), _) ∧ _
      refine ⟨?_, ?_, hrestLog.trans hlog⟩
      · rw [hcount, countP_status, if_pos hdeleted]
      · intro call hmem
        rcases List.mem_append.mp hmem with hmem | hmem
        · rw [List.mem_singleton.mp hmem]
          exact hok
        · exact hrest call hmem
    · simp only [if_neg hdeleted] at hlive ⊢
      obtain ⟨hcount, hrest, hrestLog⟩ := ih hlive
      refine ⟨?_, ?_, hrestLog.trans hlog⟩
      · rw [hcount, countP_status, if_neg hdeleted]
      · intro call hmem
        rcases List.mem_append.mp hmem with hmem | hmem
        · rw [List.mem_singleton.mp hmem]
          exact hok
        · exact hrest call hmem

/-- A read does not find a missing key. -/
theorem KeyCall.not_missing {c : KeyCommand} {call : KeyCall} (h : call.Answers c now)
    (hkind : c.kind = .read) (hfound : call.status = .found) : ¬ call.Missing now := by
  unfold KeyCall.Answers KeyCommand.AnswerOk at h
  rw [hkind] at h
  obtain ⟨r, out', hbefore, halive, -⟩ := ReadOk.shows h hfound
  rw [c.input_nowMs] at halive
  intro hmissing
  unfold KeyCall.Missing at hmissing
  rw [hbefore, seenAt_alive halive] at hmissing
  cases hmissing

/-- The log of a command on one key whose reply is right. -/
theorem KeyCommand.exec_log (c : KeyCommand)
    (hlog : (c.answer w.handle key (c.prepared s) st).2.log = st.log)
    (htold : c.ToldTrue s.nowMs (c.keyCall w key (c.prepared s) st))
    (hidle : (c.keyCall w key (c.prepared s) st).status.isUpdated = false) :
    ((c.exec raw key s).run w.handle st).2.log = st.log := by
  rw [KeyCommand.run_exec]
  have hwrites : c.writes (c.answer w.handle key (c.prepared s) st).1.1
      (c.answer w.handle key (c.prepared s) st).1.2 = false := by
    unfold KeyCommand.keyCall at htold hidle
    simp only at htold hidle
    generalize (c.answer w.handle key (c.prepared s) st).1.1 = status at *
    have hcreated : status ≠ .created := by rintro rfl; cases hidle
    have hdeleted : status ≠ .deleted := by rintro rfl; cases hidle
    cases c with
    -- logged whatever the status is, but the reply is right only for a write that is applied
    | setex value expiration => exact absurd htold (by simp [ToldTrue, hidle])
    | getset value => exact absurd htold.1 (by simp [hidle])
    | setnx value => simp [writes, hcreated]
    | getdel => simp [writes, hdeleted]
    | _ => simp [writes, hidle]
  simp only [hwrites]
  exact hlog

theorem forall₂_iff_forall {α β : Type} {A : α → β → Prop} {B : α → β → Prop} {P : β → Prop}
    {xs : List α} {ys : List β} (h : List.Forall₂ A xs ys) (hB : ∀ x y, A x y → (B x y ↔ P y)) :
    List.Forall₂ B xs ys ↔ ∀ y ∈ ys, P y := by
  induction h with
  | nil => simp
  | cons hxy _ ih => rw [List.forall₂_cons, hB _ _ hxy, ih, List.forall_mem_cons]

/-- The answer to the call of a command that has not panicked. -/
theorem KeyCommand.exec_answers (c : KeyCommand)
    (hlive : ((c.exec raw key s).run w.handle st).2.panicked = false) :
    (c.keyCall w key (c.prepared s) st).Answers c s.nowMs ∧
      (c.answer w.handle key (c.prepared s) st).2.log = st.log := by
  have hanswer : (c.answer w.handle key (c.prepared s) st).2.panicked = false := by
    rw [KeyCommand.run_exec] at hlive
    simp only at hlive
    split at hlive
    · exact World.live_of_run hlive
    · exact hlive
  rw [← c.prepared_nowMs s]
  exact c.keyCall_answers hanswer

theorem one_honest (c : KeyCommand)
    (hlive : ((c.exec raw key s).run w.handle st).2.panicked = false) :
    Honest (.one key c) s.nowMs ((c.exec raw key).keyCalls w s st)
        ((c.exec raw key s).run w.handle st).1.1 st ((c.exec raw key s).run w.handle st).2 ↔
      (Parsed.one key c).ToldTrue s.nowMs ((c.exec raw key).keyCalls w s st) := by
  obtain ⟨hanswers, hlog⟩ := c.exec_answers hlive
  have hreply : ((c.exec raw key s).run w.handle st).1.1 =
      c.reply (c.keyCall w key (c.prepared s) st).status (c.keyCall w key (c.prepared s) st).out := by
    rw [KeyCommand.run_exec]
    rfl
  rw [KeyCommand.keyCalls_exec, hreply]
  have hright := c.right_iff hanswers
  refine ⟨fun h call hmem => ?_, fun htold => ⟨⟨_, rfl, ?_⟩, fun hidle => ?_⟩⟩
  · obtain ⟨call', hcall, h'⟩ := h.right
    obtain rfl := List.singleton_inj.mp hcall
    rw [List.mem_singleton.mp hmem]
    exact hright.mp h'
  · exact hright.mpr (htold _ (List.mem_singleton_self _))
  · exact c.exec_log hlog (htold _ (List.mem_singleton_self _)) (hidle _ (List.mem_singleton_self _))

theorem mset_honest (pairs : List Bytes) (hpairs : 2 ≤ pairs.length)
    (hlive : ((cmdMset raw pairs s).run w.handle st).2.panicked = false) :
    Honest (.mset pairs) s.nowMs ((cmdMset raw pairs).keyCalls w s st)
        ((cmdMset raw pairs s).run w.handle st).1.1 st ((cmdMset raw pairs s).run w.handle st).2 ↔
      (Parsed.mset pairs).ToldTrue s.nowMs ((cmdMset raw pairs).keyCalls w s st) := by
  have hmset : cmdMset raw pairs =
      (msetLoop pairs >>= fun _ => logWrite raw >>= fun _ => pure Resp.OK) := rfl
  have hcalls : (cmdMset raw pairs).keyCalls w s st = (msetLoop pairs).keyCalls w s st := by
    rw [hmset, Handler.keyCalls_bind, Handler.keyCalls_bind, keyCalls_logWrite,
      Handler.keyCalls_pure, List.append_nil, List.append_nil]
  rw [hmset, run_handler_bind] at hlive
  have hanswers := msetLoop_calls pairs (World.live_of_run hlive)
  have hright : (Parsed.mset pairs).Right s.nowMs ((cmdMset raw pairs).keyCalls w s st) Resp.OK ↔
      (Parsed.mset pairs).ToldTrue s.nowMs ((cmdMset raw pairs).keyCalls w s st) := by
    rw [hcalls]
    refine Iff.trans ⟨fun h => h rfl, fun h _ => h⟩ (forall₂_iff_forall hanswers ?_)
    exact fun pair call hcall => ⟨fun happlied => happlied.1, KeyCommand.applied hcall⟩
  have hreply : ((cmdMset raw pairs s).run w.handle st).1.1 = Resp.OK := by
    rw [hmset, run_handler_bind, run_handler_bind]
    rfl
  rw [← hreply] at hright
  refine ⟨fun h => hright.mp h.right, fun htold => ⟨hright.mpr htold, fun hidle => ?_⟩⟩
  -- there is a first call, and it has been applied
  obtain ⟨call, hmem⟩ : ∃ call, call ∈ (msetLoop pairs).keyCalls w s st := by
    apply List.exists_mem_of_length_pos
    rw [← hanswers.length_eq]
    match pairs, hpairs with
    | _ :: _ :: _, _ => exact Nat.succ_pos _
  rw [← hcalls] at hmem
  have hupdated : call.status.isUpdated = true := htold call hmem
  rw [hidle call hmem] at hupdated
  cases hupdated

theorem mget_honest (keys : List Bytes)
    (hlive : ((cmdMget keys s).run w.handle st).2.panicked = false) :
    Honest (.mget keys) s.nowMs ((cmdMget keys).keyCalls w s st)
        ((cmdMget keys s).run w.handle st).1.1 st ((cmdMget keys s).run w.handle st).2 ↔
      (Parsed.mget keys).ToldTrue s.nowMs ((cmdMget keys).keyCalls w s st) := by
  have hmget : cmdMget keys = (mgetLoop keys >>= fun replies =>
      pure (Resp.arrayHeader keys.length ++ replies)) := rfl
  rw [hmget, run_handler_bind] at hlive ⊢
  rw [Handler.keyCalls_bind, Handler.keyCalls_pure, List.append_nil]
  obtain ⟨hreply, hanswers, hlog⟩ := mgetLoop_calls keys (World.live_of_run hlive)
  have hright : ∀ call ∈ (mgetLoop keys).keyCalls w s st,
      (KeyCommand.get.Right s.nowMs call call.getReply ↔
        call.status = .found ∨ call.Missing s.nowMs) :=
    fun call hmem => KeyCommand.right_iff (hanswers call hmem)
  refine ⟨fun h call hmem => (hright call hmem).mp (h.right.2 call hmem), fun htold => ⟨⟨?_, ?_⟩, ?_⟩⟩
  · exact congrArg (Resp.arrayHeader keys.length ++ ·) hreply
  · exact fun call hmem => (hright call hmem).mpr (htold call hmem)
  · exact fun _ => hlog

theorem exists_honest (keys : List Bytes)
    (hlive : ((cmdExists keys s).run w.handle st).2.panicked = false) :
    Honest (.exists_ keys) s.nowMs ((cmdExists keys).keyCalls w s st)
        ((cmdExists keys s).run w.handle st).1.1 st ((cmdExists keys s).run w.handle st).2 ↔
      (Parsed.exists_ keys).ToldTrue s.nowMs ((cmdExists keys).keyCalls w s st) := by
  have hexists : cmdExists keys = (existsLoop keys >>= fun n =>
      pure (Resp.integer (Int64.ofNat n))) := rfl
  rw [hexists, run_handler_bind] at hlive ⊢
  rw [Handler.keyCalls_bind, Handler.keyCalls_pure, List.append_nil]
  obtain ⟨hreply, hanswers, hlog⟩ := existsLoop_calls keys (World.live_of_run hlive)
  have hright : ∀ call ∈ (existsLoop keys).keyCalls w s st,
      ((call.status ≠ .found ↔ call.Missing s.nowMs) ↔
        call.status = .found ∨ call.Missing s.nowMs) := by
    intro call hmem
    have hfound := KeyCall.not_missing (hanswers call hmem) rfl
    by_cases h : call.status = .found
    · simp [h, hfound h]
    · simp [h]
  refine ⟨fun h call hmem => (hright call hmem).mp (h.right.2 call hmem), fun htold => ⟨⟨?_, ?_⟩, ?_⟩⟩
  · exact congrArg (fun n => Resp.integer (Int64.ofNat n)) hreply
  · exact fun call hmem => (hright call hmem).mpr (htold call hmem)
  · exact fun _ => hlog

theorem del_honest (keys : List Bytes)
    (hlive : ((cmdDel raw keys s).run w.handle st).2.panicked = false) :
    Honest (.del keys) s.nowMs ((cmdDel raw keys).keyCalls w s st)
        ((cmdDel raw keys s).run w.handle st).1.1 st ((cmdDel raw keys s).run w.handle st).2 ↔
      (Parsed.del keys).ToldTrue s.nowMs ((cmdDel raw keys).keyCalls w s st) := by
  have hdel : cmdDel raw keys = (delLoop keys >>= fun n =>
      if 0 < n then logWrite raw >>= fun _ => pure (Resp.integer (Int64.ofNat n))
      else pure (Resp.integer (Int64.ofNat n))) := rfl
  rw [hdel, run_handler_bind] at hlive ⊢
  rw [Handler.keyCalls_bind]
  obtain ⟨hcount, hanswers, hlog⟩ := delLoop_calls keys (World.live_of_run hlive)
  generalize hrun : (delLoop keys s).run w.handle st = x at *
  have hrest : ((if 0 < x.1.1 then logWrite raw >>= fun _ => pure (Resp.integer (Int64.ofNat x.1.1))
      else pure (Resp.integer (Int64.ofNat x.1.1)) : Handler Bytes)).keyCalls w x.1.2 x.2 = [] := by
    split
    · rw [Handler.keyCalls_bind, keyCalls_logWrite]
      rfl
    · rfl
  rw [hrest, List.append_nil]
  have hreply : (((if 0 < x.1.1 then logWrite raw >>= fun _ => pure (Resp.integer (Int64.ofNat x.1.1))
      else pure (Resp.integer (Int64.ofNat x.1.1)) : Handler Bytes) x.1.2).run w.handle x.2).1.1 =
      Resp.integer (Int64.ofNat x.1.1) := by
    split
    · rw [run_handler_bind]
      rfl
    · rfl
  rw [hreply]
  have hright : ∀ call ∈ (delLoop keys).keyCalls w s st,
      ((if call.status = .deleted then call.after = none else call.Missing s.nowMs) ↔
        call.status = .deleted ∨ call.Missing s.nowMs) := by
    intro call hmem
    by_cases h : call.status = .deleted
    · simp [h, (hanswers call hmem).deleted h]
    · simp [h]
  refine ⟨fun h call hmem => (hright call hmem).mp (h.right.2 call hmem), fun htold =>
    ⟨⟨?_, ?_⟩, fun hidle => ?_⟩⟩
  · rw [hcount]
  · exact fun call hmem => (hright call hmem).mpr (htold call hmem)
  · have hzero : x.1.1 = 0 := by
      rw [hcount, List.countP_eq_zero]
      intro call hmem hdeleted
      have hidle' := hidle call hmem
      rw [of_decide_eq_true hdeleted] at hidle'
      cases hidle'
    rw [if_neg (by omega)]
    exact hlog

end Several

/-! ## Section 5: All key-addressed commands -/

/-- What the arguments come to is an error, or a command with arguments enough. -/
def Parsed.WellFormed : Parsed → Prop
  | .reply b => ∃ text, b = Resp.errorBytes text
  | .mset pairs => 2 ≤ pairs.length
  | .one _ _ | .mget _ | .del _ | .exists_ _ => True

section All

variable {w : World} {raw : Bytes} {args : List Bytes} {s : RespSession} {st : Shared} {p : Parsed}
  {now : Int64}

theorem unknownCommand_wellFormed : (Parsed.reply (unknownCommand args)).WellFormed := ⟨_, rfl⟩

theorem parsed2_wellFormed {f : Bytes → Parsed} (h : ∀ a, (f a).WellFormed) :
    (parsed2 args f).WellFormed := by
  unfold parsed2
  split
  · exact h _
  · exact unknownCommand_wellFormed

theorem parsed3_wellFormed {f : Bytes → Bytes → Parsed} (h : ∀ a b, (f a b).WellFormed) :
    (parsed3 args f).WellFormed := by
  unfold parsed3
  split
  · exact h _ _
  · exact unknownCommand_wellFormed

theorem parsed4_wellFormed {f : Bytes → Bytes → Bytes → Parsed} (h : ∀ a b c, (f a b c).WellFormed) :
    (parsed4 args f).WellFormed := by
  unfold parsed4
  split
  · exact h _ _ _
  · exact unknownCommand_wellFormed

theorem parsedMany_wellFormed {f : List Bytes → Parsed} (h : ∀ rest, (f rest).WellFormed) :
    (parsedMany args f).WellFormed := by
  unfold parsedMany
  split
  · exact h _
  · exact unknownCommand_wellFormed

theorem withInt_wellFormed {arg : Bytes} {f : Int64 → Parsed} (h : ∀ i, (f i).WellFormed) :
    (withInt arg f).WellFormed := by
  unfold withInt
  split
  · exact h _
  · exact ⟨_, rfl⟩

theorem parseKeyed_wellFormed {cmd : CommandName} (h : parseKeyed args now cmd = some p) :
    p.WellFormed := by
  have hsetex (ms : Bool) (key time value : Bytes) : (parsedSetex now ms key time value).WellFormed := by
    unfold parsedSetex
    split
    · exact ⟨_, rfl⟩
    · trivial
  cases cmd with
  | set =>
    cases h
    unfold parsedSet
    split
    · split
      · exact ⟨_, rfl⟩
      · trivial
    · exact ⟨_, rfl⟩
  | setex => cases h; exact parsed4_wellFormed (hsetex false)
  | psetex => cases h; exact parsed4_wellFormed (hsetex true)
  | getex =>
    cases h
    refine parsedMany_wellFormed fun rest => ?_
    unfold parsedGetex
    split
    · trivial
    · split
      · exact ⟨_, rfl⟩
      · trivial
  | getrange | substr =>
    cases h
    refine parsed4_wellFormed fun key start stop => ?_
    unfold parsedGetrange
    split
    · trivial
    · exact ⟨_, rfl⟩
  | setrange =>
    cases h
    refine parsed4_wellFormed fun key offset value => ?_
    unfold parsedSetrange
    split
    · exact ⟨_, rfl⟩
    · trivial
  | incrby | decrby =>
    cases h; exact parsed3_wellFormed fun _ _ => withInt_wellFormed fun _ => trivial
  | expire | pexpire | expireat | pexpireat =>
    cases h; exact parsed3_wellFormed fun _ _ => withInt_wellFormed fun _ => trivial
  | mset =>
    cases h
    split
    · rename_i hlen
      show 2 ≤ (args.drop 1).length
      rw [List.length_drop]
      omega
    · exact ⟨_, rfl⟩
  | get | getdel | strlen | incr | decr | ttl | pttl | persist | type =>
    cases h; exact parsed2_wellFormed fun _ => trivial
  | setnx | getset | append => cases h; exact parsed3_wellFormed fun _ _ => trivial
  | mget | del | unlink | exists_ => cases h; exact parsedMany_wellFormed fun _ => trivial
  | _ => cases h

/-- The reply to a key-addressed command is right, and nothing is logged for a command that has not
    written, just if the statuses of its calls are those that its handler takes them to be. -/
theorem replies_report_the_store (w : World) (raw : Bytes) {cmd : CommandName}
    (hcmd : commandOf args = some cmd) (hparse : parseKeyed args s.nowMs cmd = some p)
    (hlive : ((execBasic raw args s).run w.handle st).2.panicked = false) :
    Honest p s.nowMs ((execBasic raw args).keyCalls w s st)
        ((execBasic raw args s).run w.handle st).1.1 st
        ((execBasic raw args s).run w.handle st).2 ↔
      p.ToldTrue s.nowMs ((execBasic raw args).keyCalls w s st) := by
  have hexec : execBasic raw args s = p.exec raw s := by
    unfold execBasic
    rw [hcmd]
    exact execNamed_eq raw s hparse
  have hcalls : (execBasic raw args).keyCalls w s st = (p.exec raw).keyCalls w s st :=
    congrArg (fun h => Program.trace w.handle KeyCall.note h st) hexec
  rw [hcalls]
  rw [hexec] at hlive ⊢
  have hwell := parseKeyed_wellFormed hparse
  cases p with
  | reply b => exact iff_of_true ⟨hwell, fun _ => rfl⟩ trivial
  | one key c => exact one_honest c hlive
  | mset pairs => exact mset_honest pairs hwell hlive
  | mget keys => exact mget_honest keys hlive
  | del keys => exact del_honest keys hlive
  | exists_ keys => exact exists_honest keys hlive

end All

/-- SETNX in a store that is not disturbed. -/
theorem replies_report_the_store_setnx :
    let args : List Bytes := [ascii "SETNX", ascii "k", ascii "v"]
    let s : RespSession := { RespSession.new true with nowMs := 6000 }
    let st := Shared.holding []
    let w := World.calm .mutable_
    let x := (execBasic [] args s).run w.handle st
    Honest (.one (ascii "k") (.setnx (ascii "v"))) 6000
      ((execBasic [] args).keyCalls w s st) x.1.1 st x.2 := by
  intro args s st w x
  apply (@replies_report_the_store args s st (.one (ascii "k") (.setnx (ascii "v"))) w [] .setnx
    (by decide) rfl (by decide +kernel)).mpr
  show ∀ call ∈ (execBasic [] args).keyCalls w s st, call.status = .created ∨ _
  have hcreated : ∀ call ∈ (execBasic [] args).keyCalls w s st, call.status = .created := by
    decide +kernel
  exact fun call hmem => .inl (hcreated call hmem)

/-- A store whose attempts are all turned away, as by a latch that is held for long. -/
def World.stalled : World where
  geometry := .twoPages 9 Tsavorite.Geometry.nine_pageBits
  attempts _ := [⟨false, .mutable_, true, true, fun _ => 0⟩]
  countLive _ := 0
  scanLive _ _ := []
  checkpoint _ := none
  lastSaveMs _ := 0

/-- There SETEX replies OK and logs itself, though nothing has been written, and GET says nil for a
    key that is there. -/
theorem replies_misreport :
    let s : RespSession := { RespSession.new true with nowMs := 4000 }
    let st := Shared.holding [(ascii "k", fortyOne)]
    let setex : List Bytes := [ascii "SETEX", ascii "k", ascii "10", ascii "v"]
    let get : List Bytes := [ascii "GET", ascii "k"]
    let x := (execBasic [] setex s).run World.stalled.handle st
    let y := (execBasic [] get s).run World.stalled.handle st
    x.1.1 = Resp.OK ∧ x.2.record (ascii "k") = some fortyOne ∧ x.2.log.length = 1 ∧
      ¬ Honest (.one (ascii "k") (.setex (ascii "v") 14000)) 4000
        ((execBasic [] setex).keyCalls World.stalled s st) x.1.1 st x.2 ∧
      y.1.1 = Resp.NULL_BULK ∧ seenAt 4000 (st.record (ascii "k")) = some (ascii "41", 5000) ∧
      ¬ Honest (.one (ascii "k") .get) 4000
        ((execBasic [] get).keyCalls World.stalled s st) y.1.1 st y.2 := by
  intro s st setex get x y
  have hlog : x.2.log.length = 1 := by decide +kernel
  have hnil : y.1.1 = Resp.NULL_BULK := by decide +kernel
  have hseen : seenAt 4000 (st.record (ascii "k")) = some (ascii "41", 5000) := by decide +kernel
  refine ⟨by decide +kernel, by decide +kernel, hlog, fun hhonest => ?_, hnil, hseen, fun hhonest => ?_⟩
  · have hsame := hhonest.log (by decide +kernel)
    rw [hsame] at hlog
    cases hlog
  · obtain ⟨call, hcall, hright⟩ := hhonest.right
    have hmissing : call.Missing 4000 := hright hnil
    have hbefore : ((execBasic [] get).keyCalls World.stalled s st).map (·.before) =
        [st.record (ascii "k")] := by decide +kernel
    rw [hcall] at hbefore
    have hcallBefore : call.before = st.record (ascii "k") := List.singleton_inj.mp hbefore
    rw [KeyCall.Missing, hcallBefore, hseen] at hmissing
    cases hmissing

end Garnet
