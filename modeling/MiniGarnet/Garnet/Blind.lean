import MiniGarnet.Garnet.Scratch
import MiniGarnet.Garnet.Pipelining

/-! # Replies depend on the command and the store

    Two sessions that differ in their output scratch only, and so in what
    their connections have done before, run every command alike: the same
    replies, the same calls, the same state afterwards.  The exception is
    GETSET, and SET with GET, when no attempt of its call writes the output:
    the call is cancelled, because the record is expired and must not be
    changed in place, or ends in `Status::Error`.  The reply is then what an
    earlier command of the connection put out.
-/

namespace Garnet

open Tsavorite (Status)

/-! ## Section 1: Two runs -/

/-- The session with another output scratch. -/
def RespSession.withScratch (s : RespSession) (o : StringOutput) : RespSession :=
  { s with outScratch := o }

/-- Two runs that end in the same state and, unless they panic, with the same value and with
    sessions that differ in the scratch at most. -/
structure SameRun {α : Type} (x y : (α × RespSession) × Shared) : Prop where
  state : y.2 = x.2
  value : x.2.panicked = false → y.1.1 = x.1.1
  session : x.2.panicked = false → ∃ o, y.1.2 = x.1.2.withScratch o

/-- The handler runs alike whatever the scratch holds. -/
def Handler.Blind (w : World) {α : Type} (h : Handler α) : Prop :=
  ∀ (s : RespSession) (o : StringOutput) (st : Shared),
    SameRun ((h s).run w.handle st) ((h (s.withScratch o)).run w.handle st)

namespace Handler

variable {w : World} {α β : Type} {s : RespSession} {o : StringOutput} {st : Shared}

/-- One handler after another: the second has to run alike only where the first ends. -/
theorem sameRun_bind {h : Handler α} {f : α → Handler β}
    (hh : SameRun ((h s).run w.handle st) ((h (s.withScratch o)).run w.handle st))
    (hf : ∀ o', SameRun
      ((f ((h s).run w.handle st).1.1 ((h s).run w.handle st).1.2).run w.handle
        ((h s).run w.handle st).2)
      ((f ((h s).run w.handle st).1.1 (((h s).run w.handle st).1.2.withScratch o')).run w.handle
        ((h s).run w.handle st).2)) :
    SameRun (((h >>= f) s).run w.handle st) (((h >>= f) (s.withScratch o)).run w.handle st) := by
  rw [run_handler_bind, run_handler_bind, hh.state]
  cases hpanic : ((h s).run w.handle st).2.panicked with
  | false =>
    obtain ⟨o', hsession⟩ := hh.session hpanic
    rw [hh.value hpanic, hsession]
    exact hf o'
  | true =>
    -- nothing happens any more
    have hstay {γ : Type} (p : Program Effect Effect.Result γ) :
        (p.run w.handle ((h s).run w.handle st).2).2.panicked = true := by
      rw [World.run_panicked w hpanic]
      exact hpanic
    have hfalse {p : Prop} {γ : Type} (q : Program Effect Effect.Result γ) :
        (q.run w.handle ((h s).run w.handle st).2).2.panicked = false → p := by
      intro hlive
      rw [hstay] at hlive
      cases hlive
    refine ⟨?_, hfalse _, hfalse _⟩
    rw [World.run_panicked w hpanic, World.run_panicked w hpanic]

theorem blind_pure (a : α) : (pure a : Handler α).Blind w :=
  fun _ o _ => ⟨rfl, fun _ => rfl, fun _ => ⟨o, rfl⟩⟩

theorem Blind.bind {h : Handler α} {f : α → Handler β} (hh : h.Blind w) (hf : ∀ a, (f a).Blind w) :
    (h >>= f).Blind w := fun s o st => sameRun_bind (hh s o st) fun o' => hf _ _ o' _

theorem blind_perform (e : Effect) : (perform e).Blind w :=
  fun _ o _ => ⟨rfl, fun _ => rfl, fun _ => ⟨o, rfl⟩⟩

theorem blind_modify {f : RespSession → RespSession}
    (hf : ∀ s o, ∃ o', f (s.withScratch o) = (f s).withScratch o') :
    (modify f : Handler PUnit).Blind w :=
  fun s o _ => ⟨rfl, fun _ => rfl, fun _ => hf s o⟩

/-- A handler that goes by the other fields of the session. -/
theorem blind_get {f : RespSession → Handler β} (hf : ∀ s, (f s).Blind w)
    (hsame : ∀ s o, f (s.withScratch o) = f s) : (get >>= f : Handler β).Blind w := by
  intro s o st
  show SameRun ((f s s).run w.handle st) ((f (s.withScratch o) (s.withScratch o)).run w.handle st)
  rw [hsame]
  exact hf s s o st

theorem blind_ite {c : Prop} [Decidable c] {h h' : Handler α} (hh : h.Blind w) (hh' : h'.Blind w) :
    (if c then h else h' : Handler α).Blind w := by
  split
  · exact hh
  · exact hh'

theorem blind_logWrite (raw : Bytes) : (logWrite raw).Blind w :=
  blind_get (fun s => by
    refine blind_ite (blind_pure ()) ?_
    exact blind_ite (blind_perform (.enqueue _)) (blind_pure ())) fun _ _ => rfl

theorem blind_afterWrite (key raw : Bytes) : (afterWrite key raw).Blind w :=
  (blind_perform (.bump key)).bind fun _ => blind_logWrite raw

end Handler

/-! ## Section 2: Key-addressed commands -/

section Keyed

open Handler

variable {w : World} {c : KeyCommand} {raw key : Bytes} {s : RespSession} {o : StringOutput}
  {st : Shared}

theorem KeyCommand.prepared_withScratch (c : KeyCommand) (s : RespSession) (o : StringOutput) :
    ∃ o', c.prepared (s.withScratch o) = (c.prepared s).withScratch o' := by
  unfold KeyCommand.prepared
  cases c.clears with
  | true => exact ⟨{ o with bytes := [] }, rfl⟩
  | false => exact ⟨o, rfl⟩

theorem KeyCommand.answer_withScratch (c : KeyCommand) (key : Bytes) (s : RespSession)
    (o : StringOutput) (st : Shared) :
    SameAnswer (c.input s.nowMs).op (c.shownOn s.nowMs) False (c.answer w.handle key s st)
      (c.answer w.handle key (s.withScratch o) st) := KeyCommand.answer_same key s o st

theorem KeyCommand.answer_told_withScratch (c : KeyCommand) (key : Bytes) (s : RespSession)
    (o : StringOutput) (st : Shared) (h : c.showsAlways = true) (htold : Told w (c.effect key s) st) :
    SameAnswer (c.input s.nowMs).op (fun _ => True) True (c.answer w.handle key s st)
      (c.answer w.handle key (s.withScratch o) st) := KeyCommand.answer_told key s o st h htold

/-- A command on one key; a GETSET has to write the output in some attempt. -/
theorem KeyCommand.exec_sameRun (raw : Bytes)
    (htold : c.showsAlways = true → Told w (c.effect key (c.prepared s)) st) :
    SameRun ((c.exec raw key s).run w.handle st)
      ((c.exec raw key (s.withScratch o)).run w.handle st) := by
  obtain ⟨o', ho'⟩ := c.prepared_withScratch s o
  rw [KeyCommand.run_exec, KeyCommand.run_exec, ho']
  have hsame := @KeyCommand.answer_withScratch w c key (c.prepared s) o' st
  have halways := fun h => c.answer_told_withScratch key (c.prepared s) o' st h (htold h)
  generalize c.answer w.handle key (c.prepared s) st = x at hsame halways ⊢
  generalize c.answer w.handle key ((c.prepared s).withScratch o') st = y at hsame halways ⊢
  obtain ⟨⟨status, out⟩, st₁⟩ := x
  obtain ⟨⟨status₂, out₂⟩, st₂⟩ := y
  obtain rfl : st₂ = st₁ := hsame.state
  cases hpanic : st₂.panicked with
  | false =>
    obtain rfl : status₂ = status := hsame.status hpanic
    obtain ⟨hreply, hwrites⟩ := @KeyCommand.reply_congr c out out₂ status₂ (c.prepared s).nowMs (by
        rintro (hshown | h)
        · exact hsame.shown hpanic (.inl hshown)
        · exact (halways h).shown hpanic (.inl trivial))
    simp only [hreply, hwrites]
    refine ⟨?_, fun _ => rfl, fun _ => ⟨out₂, rfl⟩⟩
    split
    · exact (blind_afterWrite key raw { c.prepared s with outScratch := out } out₂ st₂).state
    · rfl
  | true =>
    have hstay : ∀ b : Bool, ∀ s' : RespSession,
        (if b = true then ((afterWrite key raw s').run w.handle st₂).2 else st₂) = st₂ := by
      intro b s'
      split
      · exact World.run_panicked w hpanic _
      · rfl
    simp only [hstay]
    have hfalse : ∀ {p : Prop}, st₂.panicked = false → p := by
      intro p hlive
      rw [hpanic] at hlive
      cases hlive
    exact ⟨rfl, fun h => hfalse h, fun h => hfalse h⟩

theorem KeyCommand.exec_blind (h : c.showsAlways = false) : (c.exec raw key).Blind w :=
  fun _ _ _ => KeyCommand.exec_sameRun raw fun halways => by rw [h] at halways; cases halways

theorem cmdGet_blind (key : Bytes) : (cmdGet key).Blind w := by
  intro s o st
  rw [cmdGet_eq [], cmdGet_eq []]
  exact KeyCommand.exec_blind rfl s o st

/-- A call made for its status only. -/
theorem KeyCommand.call_blind (c : KeyCommand) (key : Bytes) : (c.call key).Blind w := by
  intro s o st
  have hsame := @KeyCommand.answer_withScratch w c key s o st
  rw [KeyCommand.run_call, KeyCommand.run_call]
  exact ⟨hsame.state, hsame.status, fun _ => ⟨_, rfl⟩⟩

theorem msetLoop_blind (pairs : List Bytes) : (msetLoop pairs).Blind w := by
  fun_induction everyOther pairs with
  | case1 key value rest ih =>
    exact ((KeyCommand.setex value 0).call_blind key).bind fun _ =>
      (blind_perform (.bump key)).bind fun _ => ih
  | case2 key => exact blind_pure ()
  | case3 => exact blind_pure ()

theorem mgetLoop_blind (keys : List Bytes) : (mgetLoop keys).Blind w := by
  induction keys with
  | nil => exact blind_pure []
  | cons key rest ih =>
    exact (cmdGet_blind key).bind fun _ => ih.bind fun _ => blind_pure _

theorem delLoop_blind (keys : List Bytes) : (delLoop keys).Blind w := by
  induction keys with
  | nil => exact blind_pure 0
  | cons key rest ih =>
    refine (blind_perform (.delete key)).bind fun (status : Status) => ?_
    refine blind_ite ((blind_perform (.bump key)).bind fun _ => ?_) ih
    exact ih.bind fun _ => blind_pure _

theorem existsLoop_blind (keys : List Bytes) : (existsLoop keys).Blind w := by
  induction keys with
  | nil => exact blind_pure 0
  | cons key rest ih =>
    exact (KeyCommand.type.call_blind key).bind fun status => ih.bind fun n =>
      blind_pure (if status = .found then n + 1 else n)

/-- A GETSET, or a SET with GET, finds something to put out. -/
def ParsedTold (w : World) (s : RespSession) (st : Shared) : Parsed → Prop
  | .one key c => c.showsAlways = true →
    callTells (c.input s.nowMs) (w.attempts st.calls) (st.record key) = true
  | _ => True

theorem KeyCommand.told_of_callTells (h : c.showsAlways = true →
    callTells (c.input s.nowMs) (w.attempts st.calls) (st.record key) = true) :
    c.showsAlways = true → Told w (c.effect key (c.prepared s)) st := by
  intro halways
  have htells := h halways
  have hprepared : (c.prepared s).nowMs = s.nowMs := by
    unfold KeyCommand.prepared
    split <;> rfl
  unfold KeyCommand.effect Told
  rw [hprepared]
  cases c.kind with
  | rmw =>
    simp only
    split
    · exact htells
    · trivial
  | _ => trivial

/-- A key-addressed command. -/
theorem Parsed.exec_sameRun {p : Parsed} (htold : ParsedTold w s st p) :
    SameRun ((p.exec raw s).run w.handle st) ((p.exec raw (s.withScratch o)).run w.handle st) := by
  cases p with
  | reply b => exact blind_pure b s o st
  | one key c => exact KeyCommand.exec_sameRun raw (KeyCommand.told_of_callTells htold)
  | mset pairs =>
    refine Blind.bind (msetLoop_blind pairs) (fun _ => ?_) s o st
    exact (blind_logWrite raw).bind fun _ => blind_pure _
  | mget keys => exact (mgetLoop_blind keys).bind (fun _ => blind_pure _) s o st
  | del keys =>
    refine Blind.bind (delLoop_blind keys) (fun n => ?_) s o st
    exact blind_ite ((blind_logWrite raw).bind fun _ => blind_pure _) (blind_pure _)
  | exists_ keys => exact (existsLoop_blind keys).bind (fun _ => blind_pure _) s o st

end Keyed

/-! ## Section 3: All commands -/

/-- The condition on a command that is executed outside of EXEC. -/
def BasicTold (w : World) (args : List Bytes) (s : RespSession) (st : Shared) : Prop :=
  ∀ cmd p, commandOf args = some cmd → parseKeyed args s.nowMs cmd = some p → ParsedTold w s st p

/-- The condition on a queue: it holds of every command in the state that it finds. -/
def QueueTold (w : World) : List Bytes → RespSession → Shared → Prop
  | [], _, _ => True
  | q :: rest, s, st =>
    match parseRanges q with
    | some args =>
      let x := (execBasic q args s).run w.handle st
      BasicTold w args s st ∧ QueueTold w rest x.1.2 x.2
    | none => QueueTold w rest s st

section All

open Handler

variable {w : World} {raw : Bytes} {args : List Bytes} {s : RespSession} {o : StringOutput}
  {st : Shared}

theorem discard_blind : discard.Blind w := blind_modify fun _ o => ⟨o, rfl⟩

theorem watchLoop_blind (keys : List Bytes) : (watchLoop keys).Blind w := by
  induction keys with
  | nil => exact blind_pure ()
  | cons key rest ih =>
    refine (blind_perform (.slotVersion key)).bind fun (watched : ℕ × ℕ) => ?_
    exact (blind_modify fun _ o => ⟨o, rfl⟩).bind fun _ => ih

theorem conflictLoop_blind (watches : List (ℕ × ℕ)) : (conflictLoop watches).Blind w := by
  induction watches with
  | nil => exact blind_pure false
  | cons x rest ih =>
    refine (blind_perform (.versionAt x.1)).bind fun (cur : ℕ) => ?_
    exact blind_ite (blind_pure true) ih

theorem cmdKeys_blind (pattern : Bytes) : (cmdKeys pattern).Blind w :=
  (blind_perform (.scanLive pattern)).bind fun (_ : List Bytes) => blind_pure _

theorem logBracket_blind (op : AofOp) : (logBracket op).Blind w :=
  blind_get (fun _ => blind_ite (blind_perform _) (blind_pure ())) fun _ _ => rfl

section Guards

variable {α : Type}

theorem arity2_blind {f : Bytes → Handler Bytes} (h : ∀ a, (f a).Blind w) : (arity2 args f).Blind w := by
  unfold arity2
  split
  · exact h _
  · exact blind_pure _

theorem arityMany_blind {f : List Bytes → Handler Bytes} (h : ∀ rest, (f rest).Blind w) :
    (arityMany args f).Blind w := by
  unfold arityMany
  split
  · exact h _
  · exact blind_pure _

end Guards

/-- The commands that are not key-addressed. -/
theorem execNamed_blind {cmd : CommandName} (h : ∀ nowMs, parseKeyed args nowMs cmd = none) :
    (execNamed cmd raw args).Blind w := by
  cases cmd with
  | ping => exact blind_pure _
  | echo => exact arity2_blind fun _ => blind_pure _
  | reset => exact discard_blind.bind fun _ => blind_pure _
  | dbsize => exact (blind_perform .countLive).bind fun (_ : ℕ) => blind_pure _
  | flushdb => exact (blind_perform .clear).bind fun _ => blind_pure _
  | flushall => exact (blind_perform .clear).bind fun _ => blind_pure _
  | keys => exact arity2_blind fun pattern => cmdKeys_blind pattern
  | scan =>
    exact arityMany_blind (f := fun rest => cmdScan (rest.drop 1)) fun _ =>
      (cmdKeys_blind _).bind fun _ => blind_pure _
  | multi =>
    intro s o st
    rcases s with ⟨⟨_ | _, dirty, queued, watches⟩, nowMs, replay, out, aof⟩
    · exact ⟨rfl, fun _ => rfl, fun _ => ⟨o, rfl⟩⟩
    · exact ⟨rfl, fun _ => rfl, fun _ => ⟨o, rfl⟩⟩
  | discard =>
    exact blind_get (fun _ => blind_ite (discard_blind.bind fun _ => blind_pure _) (blind_pure _))
      fun _ _ => rfl
  | watch =>
    exact arityMany_blind fun keys => blind_get (fun _ => blind_ite (blind_pure _)
      ((watchLoop_blind keys).bind fun _ => blind_pure _)) fun _ _ => rfl
  | unwatch => exact (blind_modify fun _ o => ⟨o, rfl⟩).bind fun _ => blind_pure _
  | save | bgsave =>
    refine (blind_perform .checkpoint).bind fun (result : Option Bytes) => ?_
    cases result <;> exact blind_pure _
  | lastsave => exact (blind_perform .lastSaveMs).bind fun (_ : Int64) => blind_pure _
  | quit | select | hello | command | config | client | info | bgrewriteaof | exec | subscribe
    | unsubscribe | psubscribe => exact blind_pure _
  | _ => cases h 0

theorem parseKeyed_isSome (cmd : CommandName) (nowMs nowMs' : Int64) :
    (parseKeyed args nowMs cmd).isSome = (parseKeyed args nowMs' cmd).isSome := by
  cases cmd <;> rfl

/-- A command that is executed outside of EXEC. -/
theorem execBasic_sameRun (htold : BasicTold w args s st) :
    SameRun ((execBasic raw args s).run w.handle st)
      ((execBasic raw args (s.withScratch o)).run w.handle st) := by
  unfold execBasic
  cases hcmd : commandOf args with
  | none => exact blind_pure _ s o st
  | some cmd =>
    simp only
    cases hparse : parseKeyed args s.nowMs cmd with
    | some p =>
      rw [execNamed_eq raw s hparse, execNamed_eq raw (s.withScratch o) hparse]
      exact Parsed.exec_sameRun (htold cmd p hcmd hparse)
    | none =>
      refine execNamed_blind (fun nowMs => ?_) s o st
      have hnone := @parseKeyed_isSome args cmd nowMs s.nowMs
      rw [hparse] at hnone
      exact Option.isNone_iff_eq_none.mp (by simpa using hnone)

/-- The loop of EXEC. -/
theorem execQueued_sameRun (queued : List Bytes) (htold : QueueTold w queued s st) :
    SameRun ((execQueued queued s).run w.handle st)
      ((execQueued queued (s.withScratch o)).run w.handle st) := by
  induction queued generalizing s o st with
  | nil => exact blind_pure [] s o st
  | cons q rest ih =>
    rw [QueueTold] at htold
    unfold execQueued
    cases hparse : parseRanges q with
    | none =>
      simp only [hparse] at htold
      exact sameRun_bind (blind_pure _ s o st) fun o' =>
        sameRun_bind (ih htold) fun o'' => blind_pure _ _ o'' _
    | some args =>
      simp only [hparse] at htold
      exact sameRun_bind (execBasic_sameRun htold.1) fun o' =>
        sameRun_bind (ih htold.2) fun o'' => blind_pure _ _ o'' _

/-- The watch check reads. -/
theorem conflictLoop_state (watches : List (ℕ × ℕ)) (s : RespSession) (st : Shared) :
    ∃ b, (conflictLoop watches s).run w.handle st = ((b, s), st) := by
  induction watches with
  | nil => exact ⟨false, rfl⟩
  | cons x rest ih =>
    have hload : (w.handle (.versionAt x.1) st).2 = st := by
      unfold World.handle
      split <;> rfl
    show ∃ b, ((if (w.handle (.versionAt x.1) st).1 ≠ x.2 then pure true else conflictLoop rest :
      Handler Bool) s).run w.handle (w.handle (.versionAt x.1) st).2 = ((b, s), st)
    rw [hload]
    split
    · exact ⟨true, rfl⟩
    · exact ih

/-- The session with which EXEC executes its queue. -/
def execSession (s : RespSession) : RespSession :=
  { s with txn := { s.txn with inMulti := false, queued := [], watches := [] } }

/-- The condition on EXEC: its queue, if it gets there, from the state after the first bracket. -/
def ExecTold (w : World) (s : RespSession) (st : Shared) : Prop :=
  runsQueue w.handle s st = true →
    QueueTold w s.txn.queued (execSession s)
      ((logBracket .txnStart (execSession s)).run w.handle st).2

theorem logBracket_session (op : AofOp) (s : RespSession) (st : Shared) :
    ((logBracket op s).run w.handle st).1.2 = s := by
  show (((if s.aof && !s.replay then perform (.enqueue ⟨op, s.nowMs, []⟩) else pure () :
    Handler Unit) s).run w.handle st).1.2 = s
  split <;> rfl

/-- EXEC after the watch check. -/
theorem execBody_sameRun {queued : List Bytes}
    (htold : QueueTold w queued (execSession s)
      ((logBracket .txnStart (execSession s)).run w.handle st).2) :
    SameRun ((execBody queued s).run w.handle st)
      ((execBody queued (s.withScratch o)).run w.handle st) := by
  have hlock : (w.handle (.txnLock (lockKeys queued)) st).2 = st := by
    unfold World.handle
    split <;> rfl
  -- everything from the first bracket on
  have hrest : ∀ replay o, SameRun
      (((do
        logBracket .txnStart
        let replies ← execQueued queued
        if !replay then
          let _ ← perform .txnUnlock
        logBracket .txnCommit
        return Resp.arrayHeader queued.length ++ replies : Handler Bytes) (execSession s)).run
          w.handle st)
      (((do
        logBracket .txnStart
        let replies ← execQueued queued
        if !replay then
          let _ ← perform .txnUnlock
        logBracket .txnCommit
        return Resp.arrayHeader queued.length ++ replies : Handler Bytes)
          ((execSession s).withScratch o)).run w.handle st) := by
    intro replay o
    refine sameRun_bind (logBracket_blind _ _ o _) fun o' => ?_
    rw [logBracket_session]
    refine sameRun_bind (execQueued_sameRun _ htold) fun o'' => ?_
    exact (blind_ite ((blind_perform .txnUnlock).bind fun _ => (logBracket_blind _).bind fun _ =>
      blind_pure _) ((logBracket_blind _).bind fun _ => blind_pure _) :
        Handler.Blind w (if (!replay) = true then _ else _)) _ o'' _
  show SameRun
    (((if (!s.replay) = true then perform (.txnLock (lockKeys queued)) >>= fun _ => _ else _ :
      Handler Bytes) (execSession s)).run w.handle st)
    (((if (!s.replay) = true then perform (.txnLock (lockKeys queued)) >>= fun _ => _ else _ :
      Handler Bytes) ((execSession s).withScratch o)).run w.handle st)
  by_cases hreplay : (!s.replay) = true
  · rw [if_pos hreplay, if_pos hreplay]
    refine sameRun_bind (blind_perform _ _ o _) fun o' => ?_
    show SameRun (Program.run w.handle _ (w.handle (.txnLock (lockKeys queued)) st).2)
      (Program.run w.handle _ (w.handle (.txnLock (lockKeys queued)) st).2)
    rw [hlock]
    exact hrest s.replay o'
  · rw [if_neg hreplay, if_neg hreplay]
    exact hrest s.replay o

theorem cmdExec_sameRun (htold : ExecTold w s st) :
    SameRun ((cmdExec s).run w.handle st) ((cmdExec (s.withScratch o)).run w.handle st) := by
  have hdiscard : ∀ b : Bytes, (do
      discard
      return b : Handler Bytes).Blind w := fun b => discard_blind.bind fun _ => blind_pure b
  rw [cmdExec_eq, cmdExec_eq]
  show SameRun ((execChecked s.txn s).run w.handle st)
    ((execChecked s.txn (s.withScratch o)).run w.handle st)
  unfold execChecked
  by_cases hmulti : s.txn.inMulti
  · have hin : ¬ ¬ s.txn.inMulti = true := not_not_intro hmulti
    by_cases hdirty : s.txn.dirty
    · simp only [if_neg hin, if_pos hdirty]
      exact hdiscard _ s o st
    · simp only [if_neg hin, if_neg hdirty]
      refine sameRun_bind (conflictLoop_blind _ s o st) fun o' => ?_
      obtain ⟨conflict, hcheck⟩ := conflictLoop_state (w := w) s.txn.watches s st
      rw [hcheck]
      cases conflict with
      | true => exact hdiscard _ s o' st
      | false =>
        refine execBody_sameRun (htold ?_)
        unfold runsQueue
        rw [hcheck]
        simp [hmulti, hdirty]
  · simp only [if_pos hmulti]
    exact blind_pure _ s o st

/-- The condition on a dispatched command. -/
def DispatchTold (w : World) (clock : Int64) (args : List Bytes) (s : RespSession) (st : Shared) :
    Prop :=
  if isQueued s args then True
  else if commandOf args = some .exec then ExecTold w (s.atClock clock) st
  else BasicTold w args (s.atClock clock) st

theorem atClock_withScratch (s : RespSession) (o : StringOutput) (clock : Int64) :
    (s.withScratch o).atClock clock = (s.atClock clock).withScratch o := by
  rcases s with ⟨txn, nowMs, _ | _, out, aof⟩ <;> rfl

/-- A command under its condition. -/
theorem dispatch_sameRun (clock : Int64) (raw : Bytes) (htold : DispatchTold w clock args s st) :
    SameRun ((dispatch clock raw args s).run w.handle st)
      ((dispatch clock raw args (s.withScratch o)).run w.handle st) := by
  by_cases hne : args = []
  · subst hne
    exact blind_pure _ s o st
  · unfold DispatchTold at htold
    by_cases hqueued : isQueued s args = true
    · rw [dispatch_queued hne hqueued, dispatch_queued (s := s.withScratch o) hne hqueued]
      rw [atClock_withScratch]
      cases validateQueueable (commandOf args) with
      | some err => exact ⟨rfl, fun _ => rfl, fun _ => ⟨o, rfl⟩⟩
      | none => exact ⟨rfl, fun _ => rfl, fun _ => ⟨o, rfl⟩⟩
    · have hnot : isQueued s args = false := by simpa using hqueued
      rw [if_neg hqueued] at htold
      by_cases hexec : commandOf args = some .exec
      · rw [if_pos hexec] at htold
        rw [dispatch_exec hne hnot hexec, dispatch_exec (s := s.withScratch o) hne hnot hexec,
          atClock_withScratch]
        exact sameRun_bind (f := fun b => pure (b, actionOf args)) (cmdExec_sameRun htold) fun o' =>
          blind_pure _ _ o' _
      · rw [if_neg hexec] at htold
        rw [dispatch_basic hne hnot hexec, dispatch_basic (s := s.withScratch o) hne hnot hexec,
          atClock_withScratch]
        exact sameRun_bind (f := fun b => pure (b, actionOf args)) (execBasic_sameRun htold)
          fun o' => blind_pure _ _ o' _

/-! ## Section 4: GETSET on its own -/

/-- The reply of a GETSET is what the output holds. -/
theorem KeyCommand.reply_showsAlways {c : KeyCommand} (h : c.showsAlways = true) (status : Status)
    (out : StringOutput) :
    c.reply status out = if out.hasBytes then Resp.bulk out.bytes else Resp.NULL_BULK := by
  cases c with
  | set value options => exact if_pos h
  | getset value => rfl
  | _ => cases h

theorem KeyCommand.showsAlways_op {c : KeyCommand} (h : c.showsAlways = true) (nowMs : Int64) :
    c.kind = .rmw ∧ c.clears = false ∧ ∃ keepTtl, (c.input nowMs).op = .setGet keepTtl := by
  cases c with
  | set value options =>
    have hop := SetOpts.op_of_get h
    exact ⟨by simp [kind, hop], rfl, options.keepTtl, hop⟩
  | getset value => exact ⟨rfl, rfl, false, rfl⟩
  | _ => cases h

/-- A GETSET that writes no output shows the output of an earlier command. -/
theorem KeyCommand.exec_silent {c : KeyCommand} {key : Bytes} (halways : c.showsAlways = true)
    (hlive : st.panicked = false)
    (hfits : CallFits w.geometry key (c.input s.nowMs) (st.record key))
    (hsilent : callTells (c.input s.nowMs) (w.attempts st.calls) (st.record key) = false) :
    ((c.exec raw key s).run w.handle st).1.1 =
        (if s.outScratch.hasBytes then Resp.bulk s.outScratch.bytes else Resp.NULL_BULK) ∧
      ((c.exec raw key s).run w.handle st).2.panicked = false := by
  obtain ⟨hkind, hclears, keepTtl, hop⟩ := KeyCommand.showsAlways_op halways s.nowMs
  obtain ⟨status, record, hloop⟩ := callLoop_silent _ _ hop hfits hsilent
  have hprepared : c.prepared s = s := by
    unfold KeyCommand.prepared
    rw [hclears]
    rfl
  have hanswer : c.answer w.handle key s st = ((status, s.outScratch),
      { st with record := Function.update st.record key record, calls := st.calls + 1 }) := by
    unfold KeyCommand.answer
    simp only [hkind, World.handle_live w hlive, World.perform, World.call, hloop]
  rw [KeyCommand.run_exec, hprepared, hanswer]
  refine ⟨KeyCommand.reply_showsAlways halways _ _, ?_⟩
  simp only
  split
  · rw [World.run_afterWrite_state w _ _ _ (by exact hlive)]
    exact hlive
  · exact hlive

/-! ## Section 5: The reply is that of the command and the store -/

/-- In two sessions the command is replied to alike, unless it panics, and leaves the same
    state. -/
def SameReply (w : World) (clock : Int64) (raw : Bytes) (args : List Bytes) (s₁ s₂ : RespSession)
    (st : Shared) : Prop :=
  let x := (dispatch clock raw args s₁).run w.handle st
  let y := (dispatch clock raw args s₂).run w.handle st
  y.2 = x.2 ∧ (x.2.panicked = false → y.1.1 = x.1.1)

/-- A GETSET asks for records that fit in a page. -/
def CommandFits (w : World) (nowMs : Int64) (args : List Bytes) (st : Shared) : Prop :=
  ∀ cmd key c, commandOf args = some cmd → parseKeyed args nowMs cmd = some (.one key c) →
    c.showsAlways = true → CallFits w.geometry key (c.input nowMs) (st.record key)

theorem dispatch_unlike {clock : Int64} (raw : Bytes) (hexec : commandOf args ≠ some .exec)
    (hlive : st.panicked = false) (hfits : CommandFits w (s.atClock clock).nowMs args st)
    (htold : ¬ DispatchTold w clock args s st) :
    ∃ o₁ o₂, ¬ SameReply w clock raw args (s.withScratch o₁) (s.withScratch o₂) st := by
  unfold DispatchTold at htold
  by_cases hqueued : isQueued s args = true
  · rw [if_pos hqueued] at htold
    exact absurd trivial htold
  · rw [if_neg hqueued, if_neg hexec] at htold
    have hnot : isQueued s args = false := by simpa using hqueued
    -- the command is a GETSET that writes no output
    obtain ⟨cmd, p, hcmd, hparse, hsilent⟩ : ∃ cmd p, commandOf args = some cmd ∧
        parseKeyed args (s.atClock clock).nowMs cmd = some p ∧ ¬ ParsedTold w (s.atClock clock) st p := by
      unfold BasicTold at htold
      push_neg at htold
      exact htold
    cases p with
    | one key c =>
      unfold ParsedTold at hsilent
      obtain ⟨halways, hsilent⟩ := Classical.not_imp.mp hsilent
      have hne : args ≠ [] := by
        rintro rfl
        have hnone : commandOf [] = none := by decide
        rw [hnone] at hcmd
        cases hcmd
      have hreply : ∀ o, ((dispatch clock raw args (s.withScratch o)).run w.handle st).1.1.1 =
            (if o.hasBytes then Resp.bulk o.bytes else Resp.NULL_BULK) ∧
          ((dispatch clock raw args (s.withScratch o)).run w.handle st).2.panicked = false := by
        intro o
        rw [dispatch_basic (s := s.withScratch o) hne hnot hexec, atClock_withScratch,
          Program.run_bind]
        have hexecNamed : execBasic raw args ((s.atClock clock).withScratch o) =
            c.exec raw key ((s.atClock clock).withScratch o) := by
          unfold execBasic
          rw [hcmd]
          exact execNamed_eq raw ((s.atClock clock).withScratch o) hparse
        rw [hexecNamed]
        exact KeyCommand.exec_silent halways hlive (hfits cmd key c hcmd hparse halways)
          (Bool.eq_false_iff.mpr hsilent)
      refine ⟨.default, ⟨[], true, 0, false⟩, ?_⟩
      rintro ⟨-, hvalue⟩
      have hbytes := congrArg Prod.fst (hvalue (hreply _).2)
      rw [(hreply _).1, (hreply _).1] at hbytes
      revert hbytes
      decide
    | _ => exact absurd trivial hsilent

/-- In two sessions that differ in the output scratch only, a command is replied to alike and
    leaves the same state, if every GETSET and SET with GET that it executes writes the output in
    some attempt; and for a command other than EXEC only if. -/
theorem reply_of_command_and_store (w : World) :
    (∀ (clock : Int64) (raw : Bytes) (args : List Bytes) (s : RespSession) (o : StringOutput)
      (st : Shared), DispatchTold w clock args s st →
      SameReply w clock raw args s (s.withScratch o) st) ∧
    ∀ (clock : Int64) (raw : Bytes) (args : List Bytes) (s : RespSession) (st : Shared),
      commandOf args ≠ some .exec → st.panicked = false →
      CommandFits w (s.atClock clock).nowMs args st →
      ((∀ o₁ o₂, SameReply w clock raw args (s.withScratch o₁) (s.withScratch o₂) st) ↔
        DispatchTold w clock args s st) := by
  have henough : ∀ (clock : Int64) (raw : Bytes) (args : List Bytes) (s : RespSession)
      (o : StringOutput) (st : Shared), DispatchTold w clock args s st →
      SameReply w clock raw args s (s.withScratch o) st :=
    fun clock raw args s o st htold =>
      ⟨(dispatch_sameRun clock raw htold).state, (dispatch_sameRun clock raw htold).value⟩
  refine ⟨henough, ?_⟩
  intro clock raw args s st hexec hlive hfits
  constructor
  · intro hsame
    by_contra htold
    obtain ⟨o₁, o₂, hunlike⟩ := dispatch_unlike raw hexec hlive hfits htold
    exact hunlike (hsame o₁ o₂)
  · intro htold o₁ o₂
    refine henough clock raw args (s.withScratch o₁) o₂ st ?_
    unfold DispatchTold at htold ⊢
    rw [if_neg hexec] at htold ⊢
    rw [atClock_withScratch]
    exact htold

end All

/-- GETSET of a key that is not expired, in two sessions of which one shows a GET of a key with the
    value `s` in its output. -/
theorem reply_of_command_and_store_getset :
    let args : List Bytes := [ascii "GETSET", ascii "k", ascii "v"]
    let st := Shared.holding [(ascii "k", fortyOne)]
    SameReply (.calm .frozen) 1000 [] args (.new false)
        ((RespSession.new false).withScratch ⟨ascii "s", true, 0, false⟩) st ∧
      ((∀ o₁ o₂, SameReply (.calm .frozen) 1000 [] args ((RespSession.new false).withScratch o₁)
          ((RespSession.new false).withScratch o₂) st) ↔
        DispatchTold (.calm .frozen) 1000 args (.new false) st) := by
  intro args st
  have hone : ∀ cmd p, commandOf args = some cmd → parseKeyed args 1000 cmd = some p →
      p = .one (ascii "k") (.getset (ascii "v")) := by
    intro cmd p hcmd hparse
    obtain rfl : .getset = cmd := Option.some.inj ((by decide : some .getset = commandOf args).trans hcmd)
    exact (Option.some.inj hparse).symm
  have htold : DispatchTold (.calm .frozen) 1000 args (.new false) st := by
    unfold DispatchTold
    rw [if_neg (by decide), if_neg (by decide)]
    intro cmd p hcmd hparse
    obtain rfl := hone cmd p hcmd hparse
    intro _
    decide
  refine ⟨(reply_of_command_and_store (.calm .frozen)).1 1000 [] args (.new false) _ st htold,
    (reply_of_command_and_store (.calm .frozen)).2 1000 [] args (.new false) st (by decide) rfl ?_⟩
  intro cmd key c hcmd hparse _
  obtain ⟨rfl, rfl⟩ := Parsed.one.inj (hone cmd _ hcmd hparse)
  refine ⟨by decide, ?_⟩
  intro r hr
  obtain rfl : fortyOne = r := Option.some.inj ((by decide : some fortyOne = st.record (ascii "k")).trans hr)
  decide

/-- GETSET of an expired key whose record is not in the mutable region: a fresh session gets nil,
    one that has read another key gets the value of that key. -/
theorem getset_shows_another_key :
    let st := Shared.holding [(ascii "k", fortyOne), (ascii "s", ⟨ascii "secret", 6, none, by decide,
      by decide⟩)]
    let get := dispatch 6000 [] [ascii "GET", ascii "s"]
    let getset := dispatch 6000 [] [ascii "GETSET", ascii "k", ascii "v"]
    let after := ((get (.new false)).run (World.calm .frozen).handle st).1.2
    let fresh := (getset (.new false)).run (World.calm .frozen).handle st
    let other := (getset after).run (World.calm .frozen).handle st
    after.txn = (RespSession.new false).txn ∧ fresh.2.panicked = false ∧
      fresh.1.1.1 = Resp.NULL_BULK ∧ other.1.1.1 = Resp.bulk (ascii "secret") := by
  decide +kernel

end Garnet
