import MiniGarnet.Garnet.Meaning
import MiniGarnet.Garnet.ExecQueue
import MiniGarnet.Garnet.Replay

/-! # The store that the log rebuilds

    A server dispatches the commands of its clients one after another and
    logs those that write; a restart reads the log back and runs them again.
    The server keeps `Logged`: what is seen of its store is what its log
    means.  The replay of any log, whole or cut off by a crash, leaves what
    that log means, so the two stores show the same.
-/

namespace Garnet

/-! ## Section 1: The log of a server -/

/-- A command that is not about the whole store, means what it does, and logs every change: no SETNX
    that copies an expired record. -/
structure CommandRecords (w : World) (args : List Bytes) (s : RespSession) (st : Shared) : Prop where
  keyed : isWholeStore (commandOf args) = false
  means : ∀ cmd p, commandOf args = some cmd → parseKeyed args s.nowMs cmd = some p →
    p.Means w s.nowMs st ∧ Announces w s st p

/-- The condition on a queue: it holds of every command in the state that it finds. -/
def QueueRecords (w : World) : List Bytes → RespSession → Shared → Prop
  | [], _, _ => True
  | q :: rest, s, st =>
    match parseRanges q with
    | some args =>
      let x := (execBasic q args s).run w.handle st
      CommandRecords w args s st ∧ QueueRecords w rest x.1.2 x.2
    | none => QueueRecords w rest s st

/-- The condition on a command that is dispatched. -/
def DispatchRecords (w : World) (clock : Int64) (args : List Bytes) (s : RespSession) (st : Shared) :
    Prop :=
  if isQueued s args then True
  else if commandOf args = some .exec then
    runsQueue w.handle (s.atClock clock) st = true →
      QueueRecords w s.txn.queued (execSession (s.atClock clock))
        ((logBracket .txnStart (execSession (s.atClock clock))).run w.handle st).2
  else CommandRecords w args (s.atClock clock) st

/-- The entry holds a key-addressed command, if it is not a bracket. -/
def AofEntry.Keyed (e : AofEntry) : Prop :=
  e.op = .command → ∃ args cmd p, parseRanges e.payload = some args ∧ commandOf args = some cmd ∧
    parseKeyed args e.timestampMs cmd = some p

/-- At this time and later, what is seen of the store is what its log makes of the view; the log is
    in the order of time. -/
structure Shared.Logged (base : View) (since now : Int64) (st : Shared) : Prop where
  live : st.panicked = false
  seen : st.seen now = (replayedOn base st.log).at now
  keyed : ∀ e ∈ st.log, e.Keyed
  sorted : st.log.Pairwise fun a b => a.timestampMs ≤ b.timestampMs
  since_le : since ≤ now
  since : ∀ e ∈ st.log, since ≤ e.timestampMs
  past : ∀ e ∈ st.log, e.timestampMs ≤ now

section Log

variable {w : World} {raw : Bytes} {args : List Bytes} {s : RespSession} {st st' : Shared}
  {base : View} {since now t : Int64}

theorem replayedOn_append (entries entries' : List AofEntry) :
    replayedOn base (entries ++ entries') = replayedOn (replayedOn base entries) entries' :=
  List.foldl_append

theorem replayedOn_snoc (entries : List AofEntry) (e : AofEntry) :
    replayedOn base (entries ++ [e]) = e.meaning (replayedOn base entries) := by
  unfold replayedOn
  rw [List.foldl_append]
  rfl

theorem Shared.Logged.later (h : st.Logged base since now) (hle : now ≤ t) : st.Logged base since t where
  live := h.live
  seen := by rw [← Shared.seen_at hle, h.seen, View.at_at hle]
  keyed := h.keyed
  sorted := h.sorted
  since_le := Int64.le_trans h.since_le hle
  since := h.since
  past e he := Int64.le_trans (h.past e he) hle

theorem Shared.Logged.sameKeys (h : st.Logged base since now) (hsame : st.SameKeys st') : st'.Logged base since now where
  live := hsame.live
  seen := by rw [hsame.seen, hsame.log, h.seen]
  keyed := by
    rw [hsame.log]
    exact h.keyed
  sorted := by
    rw [hsame.log]
    exact h.sorted
  since_le := h.since_le
  since := by
    rw [hsame.log]
    exact h.since
  past := by
    rw [hsame.log]
    exact h.past

/-- One more entry, at this time. -/
theorem Shared.Logged.snoc (h : st.Logged base since now) {op : AofOp} {payload : Bytes}
    (hlive : st'.panicked = false) (hlog : st'.log = st.log ++ [⟨op, now, payload⟩])
    (hkeyed : AofEntry.Keyed ⟨op, now, payload⟩)
    (hseen : st'.seen now = (AofEntry.meaning ⟨op, now, payload⟩ (replayedOn base st.log)).at now) :
    st'.Logged base since now where
  live := hlive
  seen := by rw [hlog, replayedOn_snoc, hseen]
  keyed := by
    rw [hlog]
    intro e he
    rcases List.mem_append.mp he with he | he
    · exact h.keyed e he
    · obtain rfl := List.mem_singleton.mp he
      exact hkeyed
  sorted := by
    rw [hlog, List.pairwise_append]
    refine ⟨h.sorted, List.pairwise_singleton _ _, fun a ha b hb => ?_⟩
    obtain rfl := List.mem_singleton.mp hb
    exact h.past a ha
  since_le := h.since_le
  since := by
    rw [hlog]
    intro e he
    rcases List.mem_append.mp he with he | he
    · exact h.since e he
    · obtain rfl := List.mem_singleton.mp he
      exact h.since_le
  past := by
    rw [hlog]
    intro e he
    rcases List.mem_append.mp he with he | he
    · exact h.past e he
    · obtain rfl := List.mem_singleton.mp he
      exact Int64.le_refl now

/-- A bracket means nothing. -/
theorem Shared.Logged.bracket (h : st.Logged base since s.nowMs) {op : AofOp} (hop : op ≠ .command) :
    ((logBracket op s).run w.handle st).2.Logged base since s.nowMs := by
  show (((if s.aof && !s.replay then perform (.enqueue ⟨op, s.nowMs, []⟩) else pure () :
    Handler Unit) s).run w.handle st).2.Logged base since s.nowMs
  split
  · have henqueue : (((perform (.enqueue ⟨op, s.nowMs, []⟩) : Handler Unit) s).run w.handle st).2 =
        { st with log := st.log ++ [⟨op, s.nowMs, []⟩] } := by
      show (w.handle (.enqueue ⟨op, s.nowMs, []⟩) st).2 = _
      rw [World.enqueue_state h.live]
    refine @Shared.Logged.snoc _ _ _ _ _ h op [] ?_ ?_ (fun hcommand => absurd hcommand hop) ?_
    · rw [henqueue]
      exact h.live
    · rw [henqueue]
    · rw [henqueue]
      have hmeaning : AofEntry.meaning ⟨op, s.nowMs, []⟩ (replayedOn base st.log) =
          replayedOn base st.log := by
        unfold AofEntry.meaning
        cases op with
        | command => exact absurd rfl hop
        | txnStart => rfl
        | txnCommit => rfl
      rw [hmeaning]
      exact h.seen
  · exact h

/-- A command that is executed. -/
theorem execBasic_logged (hw : w.Serves) (h : st.Logged base since s.nowMs) (hs : s.Flags true false s.nowMs)
    (hraw : parseRanges raw = some args) (hrecords : CommandRecords w args s st) :
    ((execBasic raw args s).run w.handle st).2.Logged base since s.nowMs ∧
      ((execBasic raw args s).run w.handle st).1.2.Flags true false s.nowMs := by
  cases hcmd : commandOf args with
  | none =>
    have hbasic : execBasic raw args = return unknownCommand args := by
      unfold execBasic
      rw [hcmd]
    rw [hbasic]
    exact ⟨h, hs⟩
  | some cmd =>
    cases hparse : parseKeyed args s.nowMs cmd with
    | none =>
      have hbasic : execBasic raw args = execNamed cmd raw args := by
        unfold execBasic
        rw [hcmd]
      have hwhole := hrecords.keyed
      rw [hcmd] at hwhole
      obtain ⟨hsame, hflags⟩ := World.run_idle (w := w) hw h.live
        (@idle_execNamed raw _ _ _ _ _ hparse hwhole s hs)
      rw [hbasic]
      exact ⟨h.sameKeys hsame, hflags⟩
    | some p =>
      obtain ⟨hmeans, hannounces⟩ := hrecords.means cmd p hcmd hparse
      obtain ⟨hlive, hseen⟩ := @Parsed.meant w raw args s st cmd p hcmd hparse hw h.live hmeans
      have hcontrol : isControl (commandOf args) = false := by
        rw [hcmd]
        exact isControl_of_keyed hparse
      obtain ⟨o, hsession⟩ := @execBasic_session raw args s _ w.handle st hcontrol
      refine ⟨?_, by rw [hsession]; exact ⟨hs.aof, hs.replay, rfl⟩⟩
      rcases @Parsed.recorded w raw args s st cmd p hcmd hparse hw h.live hmeans hannounces hs.aof
        hs.replay with ⟨hlog, hsame⟩ | hlog
      · refine ⟨hlive, ?_, ?_, ?_, h.since_le, ?_, ?_⟩
        · rw [hsame, hlog, h.seen]
        · rw [hlog]
          exact h.keyed
        · rw [hlog]
          exact h.sorted
        · rw [hlog]
          exact h.since
        · rw [hlog]
          exact h.past
      · refine h.snoc hlive hlog (fun _ => ⟨args, cmd, p, hraw, hcmd, hparse⟩) ?_
        rw [hseen, h.seen]
        unfold AofEntry.meaning commandMeaning
        simp only [hraw, hcmd, Option.bind_some, hparse]

/-- The queue of EXEC, by induction on the queue. -/
theorem execQueued_logged (hw : w.Serves) (queued : List Bytes) (h : st.Logged base since s.nowMs)
    (hs : s.Flags true false s.nowMs) (hrecords : QueueRecords w queued s st) :
    ((execQueued queued s).run w.handle st).2.Logged base since s.nowMs ∧
      ((execQueued queued s).run w.handle st).1.2.Flags true false s.nowMs := by
  induction queued generalizing s st with
  | nil => exact ⟨h, hs⟩
  | cons q rest ih =>
    unfold QueueRecords at hrecords
    cases hq : parseRanges q with
    | none =>
      rw [hq] at hrecords
      have hloop : execQueued (q :: rest) = (do
          let reply ← pure (Resp.error "ERR bad queued command")
          return reply ++ (← execQueued rest)) := by
        conv_lhs => unfold execQueued
        rw [hq]
      rw [hloop, run_handler_bind, run_handler_bind]
      exact ih h hs hrecords
    | some args =>
      rw [hq] at hrecords
      obtain ⟨hrecord, hrest⟩ := hrecords
      obtain ⟨hlogged, hflags⟩ := execBasic_logged hw h hs hq hrecord
      rw [execQueued_cons hq, run_handler_bind, run_handler_bind]
      have hnow := hflags.nowMs
      rw [← hnow] at hlogged hflags ⊢
      exact ih hlogged hflags hrest

/-- EXEC, whether it gets to its queue or not. -/
theorem cmdExec_logged (hw : w.Serves) (h : st.Logged base since s.nowMs) (hs : s.Flags true false s.nowMs)
    (hrecords : runsQueue w.handle s st = true →
      QueueRecords w s.txn.queued (execSession s)
        ((logBracket .txnStart (execSession s)).run w.handle st).2) :
    ((cmdExec s).run w.handle st).2.Logged base since s.nowMs ∧
      ((cmdExec s).run w.handle st).1.2.Flags true false s.nowMs := by
  rw [cmdExec_eq]
  unfold execChecked
  by_cases hmulti : s.txn.inMulti = true
  · rw [if_neg (not_not_intro hmulti)]
    by_cases hdirty : s.txn.dirty = true
    · rw [if_pos hdirty]
      exact ⟨h, hs.aof, hs.replay, rfl⟩
    · rw [if_neg hdirty]
      obtain ⟨conflict, hcheck⟩ := conflictLoop_state (w := w) s.txn.watches s st
      rw [run_handler_bind, hcheck]
      cases conflict with
      | true => exact ⟨h, hs.aof, hs.replay, rfl⟩
      | false =>
        have hruns : runsQueue w.handle s st = true := by
          unfold runsQueue
          rw [hcheck]
          simp [hmulti, hdirty]
        have hqueue := hrecords hruns
        show ((execBody s.txn.queued s).run w.handle st).2.Logged base since s.nowMs ∧
          ((execBody s.txn.queued s).run w.handle st).1.2.Flags true false s.nowMs
        rw [execBody_eq hs.replay]
        show ((execLatched s.txn.queued (execSession s)).run w.handle
            (w.handle (.txnLock _) st).2).2.Logged base since s.nowMs ∧
          ((execLatched s.txn.queued (execSession s)).run w.handle
            (w.handle (.txnLock _) st).2).1.2.Flags true false s.nowMs
        have hlock : (w.handle (.txnLock (lockKeys s.txn.queued)) st).2 = st := by
          rw [World.handle_live w h.live]
          rfl
        rw [hlock]
        -- the bracket, the queue, and the bracket
        have hstart : ((logBracket .txnStart (execSession s)).run w.handle st).2.Logged base since s.nowMs :=
          Shared.Logged.bracket (s := execSession s) h (by decide)
        obtain ⟨hdone, hflags⟩ := execQueued_logged (s := execSession s) hw s.txn.queued hstart
          ⟨hs.aof, hs.replay, rfl⟩ hqueue
        unfold execLatched
        rw [run_handler_bind, logBracket_session, run_handler_bind]
        generalize (execQueued s.txn.queued (execSession s)).run w.handle
          ((logBracket .txnStart (execSession s)).run w.handle st).2 = y at hdone hflags
        have hunlock : (w.handle .txnUnlock y.2).2 = y.2 := by
          rw [World.handle_live w hdone.live]
          rfl
        show (((logBracket .txnCommit >>= fun _ => pure _ : Handler Bytes) y.1.2).run w.handle
            (w.handle .txnUnlock y.2).2).2.Logged base since s.nowMs ∧
          (((logBracket .txnCommit >>= fun _ => pure _ : Handler Bytes) y.1.2).run w.handle
            (w.handle .txnUnlock y.2).2).1.2.Flags true false s.nowMs
        rw [hunlock, run_handler_bind]
        have hnow : y.1.2.nowMs = s.nowMs := hflags.nowMs
        refine ⟨?_, ?_⟩
        · have hdone' : y.2.Logged base since y.1.2.nowMs := by
            rw [hnow]
            exact hdone
          have hend : ((logBracket .txnCommit y.1.2).run w.handle y.2).2.Logged base since y.1.2.nowMs :=
            hdone'.bracket (by decide)
          rw [hnow] at hend
          exact hend
        · rw [logBracket_session]
          exact hflags
  · rw [if_pos hmulti]
    exact ⟨h, hs⟩

/-- A command that is dispatched. -/
theorem dispatch_logged {clock : Int64} (hw : w.Serves) (h : st.Logged base since clock)
    (hs : s.aof = true ∧ s.replay = false) (hraw : parseRanges raw = some args)
    (hrecords : DispatchRecords w clock args s st) :
    ((dispatch clock raw args s).run w.handle st).2.Logged base since clock ∧
      ((dispatch clock raw args s).run w.handle st).1.2.aof = true ∧
      ((dispatch clock raw args s).run w.handle st).1.2.replay = false := by
  have hclock : s.atClock clock = { s with nowMs := clock } := by
    unfold RespSession.atClock
    rw [hs.2]
    rfl
  have hflags : (s.atClock clock).Flags true false (s.atClock clock).nowMs := by
    rw [hclock]
    exact ⟨hs.1, hs.2, rfl⟩
  have hnow : (s.atClock clock).nowMs = clock := by rw [hclock]
  have h' : st.Logged base since (s.atClock clock).nowMs := by
    rw [hnow]
    exact h
  by_cases hne : args = []
  · subst hne
    exact ⟨h, hs⟩
  · unfold DispatchRecords at hrecords
    cases hqueued : isQueued s args with
    | true =>
      rw [dispatch_queued hne hqueued, hclock]
      refine ⟨h, ?_⟩
      cases validateQueueable (commandOf args) with
      | some err => exact hs
      | none => exact hs
    | false =>
      rw [hqueued, if_neg (by decide)] at hrecords
      by_cases hexec : commandOf args = some .exec
      · rw [if_pos hexec] at hrecords
        rw [dispatch_exec hne hqueued hexec, Program.run_bind]
        have htxn : (s.atClock clock).txn.queued = s.txn.queued := by rw [hclock]
        rw [← htxn] at hrecords
        obtain ⟨hlogged, hend⟩ := cmdExec_logged hw h' hflags hrecords
        rw [hnow] at hlogged
        exact ⟨hlogged, hend.aof, hend.replay⟩
      · rw [if_neg hexec] at hrecords
        rw [dispatch_basic hne hqueued hexec, Program.run_bind]
        obtain ⟨hlogged, hend⟩ := execBasic_logged hw h' hflags hraw hrecords
        rw [hnow] at hlogged
        exact ⟨hlogged, hend.aof, hend.replay⟩

end Log

/-! ## Section 2: Runs of a server -/

/-- A server with the log enabled: its clients' sessions, the store, and the time of the last
    command. -/
structure Server (Client : Type) where
  sessions : Client → RespSession
  shared : Shared
  clock : Int64

namespace Server

variable {Client : Type} [DecidableEq Client]

/-- The server before its first command. -/
def init (clock : Int64) : Server Client := ⟨fun _ => .new true, .holding [], clock⟩

/-- A client's command is read and executed; `none` if it runs into a panic. -/
def next (w : World) (srv : Server Client) (l : Client × Request) : Option (Server Client) :=
  (reply w.handle l.2 (srv.sessions l.1) srv.shared).map fun x =>
    ⟨Function.update srv.sessions l.1 x.2.1, x.2.2, l.2.clock⟩

/-- What the commands of a run have to meet: the clock does not go back, and they are recorded. -/
structure Records (w : World) (srv : Server Client) (l : Client × Request) : Prop where
  clock : srv.clock ≤ l.2.clock
  arrives : Arrives l.2.raw l.2.args
  records : DispatchRecords w l.2.clock l.2.args (srv.sessions l.1) srv.shared

/-- What is seen of the store is what the log means, and the sessions write to the log. -/
structure Recorded (base : View) (since : Int64) (srv : Server Client) : Prop where
  logged : srv.shared.Logged base since srv.clock
  sessions : ∀ c, (srv.sessions c).aof = true ∧ (srv.sessions c).replay = false

variable {w : World} {base : View} {since : Int64} {srv srv' : Server Client} {l : Client × Request}

omit [DecidableEq Client] in
theorem recorded_init (clock : Int64) :
    Recorded (fun _ => none) clock (init clock : Server Client) where
  logged := by
    have hnone : ∀ e, e ∉ (Shared.holding []).log := fun e he => by cases he
    exact ⟨rfl, rfl, fun e he => absurd he (hnone e), List.Pairwise.nil, Int64.le_refl clock,
      fun e he => absurd he (hnone e), fun e he => absurd he (hnone e)⟩
  sessions _ := ⟨rfl, rfl⟩

theorem Recorded.step (hw : w.Serves) (h : srv.Recorded base since) (hok : srv.Records w l)
    (hnext : srv.next w l = some srv') : srv'.Recorded base since := by
  unfold next reply at hnext
  split at hnext
  · cases hnext
  · obtain rfl := Option.some.inj hnext
    obtain ⟨hlogged, hflags⟩ := dispatch_logged hw (h.logged.later hok.clock) (h.sessions l.1)
      hok.arrives.parseRanges hok.records
    refine ⟨hlogged, fun c => ?_⟩
    show (Function.update srv.sessions l.1 _ c).aof = true ∧
      (Function.update srv.sessions l.1 _ c).replay = false
    by_cases hc : c = l.1
    · subst hc
      rw [Function.update_self]
      exact hflags
    · rw [Function.update_of_ne hc]
      exact h.sessions c

end Server

/-! ## Section 3: Replay -/

/-- The command of the entry, if it is a key-addressed one, means what it does in this state. -/
def AofEntry.Means (w : World) (e : AofEntry) (st : Shared) : Prop :=
  ∀ args cmd p, parseRanges e.payload = some args → commandOf args = some cmd →
    parseKeyed args e.timestampMs cmd = some p → p.Means w e.timestampMs st

/-- The condition on a replay: it holds of every entry in the state that it finds. -/
def ReplayMeans (w : World) : List SessionCall → RespSession → Shared → Prop
  | [], _, _ => True
  | call :: rest, s, st =>
    let x := (call.run s).run w.handle st
    (∀ e, call = .one e → e.Means w st) ∧ ReplayMeans w rest x.1.2 x.2

section Replays

variable {w : World} {s : RespSession} {st : Shared} {now t : Int64} {v : View} {e : AofEntry}

/-- The EXEC of a bracket leaves the state as it is. -/
theorem replayMultiExec_run (hs : Replaying s) :
    ∃ b s', (replayMultiExec s).run w.handle st = ((b, s'), st) ∧ Replaying s' := by
  obtain ⟨hreplay, hqueued⟩ := hs
  show ∃ b s', (cmdExec s).run w.handle st = ((b, s'), st) ∧ Replaying s'
  rw [cmdExec_eq]
  unfold execChecked
  by_cases hmulti : s.txn.inMulti = true
  · rw [if_neg (not_not_intro hmulti)]
    by_cases hdirty : s.txn.dirty = true
    · rw [if_pos hdirty]
      exact ⟨_, _, rfl, hreplay, rfl⟩
    · rw [if_neg hdirty]
      obtain ⟨conflict, hcheck⟩ := conflictLoop_state (w := w) s.txn.watches s st
      rw [run_handler_bind, hcheck]
      cases conflict with
      | true => exact ⟨_, _, rfl, hreplay, rfl⟩
      | false =>
        rw [hqueued]
        rcases s with ⟨txn, nowMs, replay, out, aof⟩
        obtain rfl : replay = true := hreplay
        cases aof <;> exact ⟨_, _, rfl, rfl, rfl⟩
  · rw [if_pos hmulti]
    exact ⟨_, _, rfl, hreplay, hqueued⟩

/-- One entry of a log. -/
theorem replayOne_seen (hw : w.Serves) (hs : Replaying s) (hlive : st.panicked = false)
    (hop : e.op = .command) (hkeyed : e.Keyed) (hmeans : e.Means w st)
    (hseen : st.seen e.timestampMs = v.at e.timestampMs) :
    ((replayOne e s).run w.handle st).2.panicked = false ∧
      ((replayOne e s).run w.handle st).2.seen e.timestampMs = (e.meaning v).at e.timestampMs ∧
      ((replayOne e s).run w.handle st).2.log = st.log ∧
      Replaying ((replayOne e s).run w.handle st).1.2 := by
  obtain ⟨args, cmd, p, hraw, hcmd, hparse⟩ := hkeyed hop
  have hmeaning : e.meaning v = p.meaning e.timestampMs (v.at e.timestampMs) := by
    unfold AofEntry.meaning commandMeaning
    simp only [hop, hraw, hcmd, Option.bind_some, hparse]
  have hcontrol := isControl_of_keyed hparse
  have hexec : commandOf args ≠ some .exec := by
    intro h
    rw [hcmd] at h
    obtain rfl := Option.some.inj h
    cases hcontrol
  have hone : replayOne e = (dispatchReplay e.payload args e.timestampMs >>= fun _ => pure ()) := by
    unfold replayOne
    rw [hraw]
  have hdispatch : (dispatchReplay e.payload args e.timestampMs s).run w.handle st =
      (execBasic e.payload args { s with nowMs := e.timestampMs }).run w.handle st := by
    unfold dispatchReplay execCommand
    rw [if_neg hexec, run_handler_bind, run_handler_bind, run_handler_bind]
    rfl
  rw [hone, run_handler_bind, hdispatch, hmeaning, ← hseen]
  obtain ⟨hlive', hseen'⟩ := @Parsed.meant w e.payload args { s with nowMs := e.timestampMs } st cmd p
    hcmd hparse hw hlive (hmeans args cmd p hraw hcmd hparse)
  have hquiet : ((execBasic e.payload args { s with nowMs := e.timestampMs }).run w.handle st).2.log =
      st.log := by
    rw [execBasic_parsed hcmd hparse]
    rcases @Parsed.exec_log w e.payload { s with nowMs := e.timestampMs } st p hw hlive
      (hmeans args cmd p hraw hcmd hparse).fits with hsame | ⟨hno, -⟩
    · exact hsame
    · exact absurd hs.1 (by rw [hno]; decide)
  refine ⟨hlive', hseen', hquiet, ?_⟩
  obtain ⟨o, hsession⟩ := @execBasic_session e.payload args { s with nowMs := e.timestampMs } _
    w.handle st (by rw [hcmd]; exact hcontrol)
  show Replaying ((execBasic e.payload args { s with nowMs := e.timestampMs }).run w.handle st).1.2
  rw [hsession]
  refine ⟨hs.1, ?_⟩
  show (txnAfter args s.txn).queued = []
  unfold txnAfter
  split <;> exact hs.2

/-- The call of a bracket leaves the state as it is. -/
theorem bracket_run {call : SessionCall} (hcall : ∀ e, call ≠ .one e) (hs : Replaying s) :
    ∃ s', (call.run s).run w.handle st = (((), s'), st) ∧ Replaying s' := by
  cases call with
  | one e => exact absurd rfl (hcall e)
  | multiBegin ts => exact ⟨_, rfl, hs.1, rfl⟩
  | multiExec =>
    obtain ⟨b, s', hrun, hs'⟩ := @replayMultiExec_run w s st hs
    refine ⟨s', ?_, hs'⟩
    show ((replayMultiExec >>= fun _ => pure () : Handler Unit) s).run w.handle st = _
    rw [run_handler_bind, hrun]
    rfl

/-- An entry of the log comes to a call, or to none. -/
theorem replayCalls_cons (inside : Bool) (e : AofEntry) (rest : List AofEntry) :
    (e.op = .command ∧ replayCalls inside (e :: rest) = .one e :: replayCalls inside rest) ∨
      e.op ≠ .command ∧ ∃ inside', replayCalls inside (e :: rest) = replayCalls inside' rest ∨
        ∃ call, (∀ e, call ≠ .one e) ∧
          replayCalls inside (e :: rest) = call :: replayCalls inside' rest := by
  cases hop : e.op with
  | command =>
    left
    cases inside <;> simp [replayCalls, hop]
  | txnStart =>
    right
    refine ⟨by decide, true, ?_⟩
    cases inside with
    | false => exact .inr ⟨.multiBegin e.timestampMs, by simp, by simp [replayCalls, hop]⟩
    | true => exact .inl (by simp [replayCalls, hop])
  | txnCommit =>
    right
    refine ⟨by decide, false, ?_⟩
    cases inside with
    | false => exact .inl (by simp [replayCalls, hop])
    | true => exact .inr ⟨.multiExec, by simp, by simp [replayCalls, hop]⟩

theorem meaning_of_bracket (hop : e.op ≠ .command) (v : View) : e.meaning v = v := by
  unfold AofEntry.meaning
  cases hcase : e.op with
  | command => exact absurd hcase hop
  | txnStart => rfl
  | txnCommit => rfl

/-- The calls of a replay, one after another. -/
theorem run_calls_cons (call : SessionCall) (rest : List SessionCall) (s : RespSession) (st : Shared) :
    (((call :: rest).forM SessionCall.run) s).run w.handle st =
      ((rest.forM SessionCall.run) ((call.run s).run w.handle st).1.2).run w.handle
        ((call.run s).run w.handle st).2 := by
  show ((call.run >>= fun _ => rest.forM SessionCall.run : Handler Unit) s).run w.handle st = _
  rw [run_handler_bind]

/-- What the replay of a log leaves, by induction on the log; `v` is what the entries before mean. -/
theorem replayCalls_seen (hw : w.Serves) (inside : Bool) (entries : List AofEntry)
    (hs : Replaying s) (hlive : st.panicked = false) (hseen : st.seen now = v.at now)
    (hkeyed : ∀ e ∈ entries, e.Keyed)
    (hsorted : entries.Pairwise fun a b => a.timestampMs ≤ b.timestampMs)
    (hlater : ∀ e ∈ entries, now ≤ e.timestampMs)
    (hmeans : ReplayMeans w (replayCalls inside entries) s st) (hnow : now ≤ t)
    (hpast : ∀ e ∈ entries, e.timestampMs ≤ t) :
    ((((replayCalls inside entries).forM SessionCall.run) s).run w.handle st).2.panicked = false ∧
      ((((replayCalls inside entries).forM SessionCall.run) s).run w.handle st).2.seen t =
        (replayedOn v entries).at t ∧
      ((((replayCalls inside entries).forM SessionCall.run) s).run w.handle st).2.log = st.log := by
  induction entries generalizing inside s st v now with
  | nil =>
    have hend : st.seen t = v.at t := by rw [← Shared.seen_at hnow, hseen, View.at_at hnow]
    cases inside with
    | false => exact ⟨hlive, hend, rfl⟩
    | true =>
      obtain ⟨s', hrun, -⟩ := @bracket_run w s st .multiExec (by simp) hs
      have hcalls : replayCalls true [] = [.multiExec] := rfl
      rw [hcalls, run_calls_cons, hrun]
      exact ⟨hlive, hend, rfl⟩
  | cons e rest ih =>
    obtain ⟨hfirst, hrest⟩ := List.pairwise_cons.mp hsorted
    have hkeyed' : ∀ e ∈ rest, e.Keyed := fun e he => hkeyed e (List.mem_cons_of_mem _ he)
    have hpast' : ∀ e ∈ rest, e.timestampMs ≤ t := fun e he => hpast e (List.mem_cons_of_mem _ he)
    rcases replayCalls_cons inside e rest with ⟨hop, hcalls⟩ | ⟨hop, inside', hcalls⟩
    · -- a command is run at its own time
      rw [hcalls] at hmeans ⊢
      have htime : now ≤ e.timestampMs := hlater e List.mem_cons_self
      have hhere : st.seen e.timestampMs = v.at e.timestampMs := by
        rw [← Shared.seen_at htime, hseen, View.at_at htime]
      obtain ⟨hlive', hseen', hquiet, hs'⟩ := replayOne_seen hw hs hlive hop (hkeyed e List.mem_cons_self)
        (hmeans.1 e rfl) hhere
      rw [run_calls_cons, ← hquiet]
      exact ih inside hs' hlive' hseen' hkeyed' hrest hfirst hmeans.2
        (hpast e List.mem_cons_self) hpast'
    · -- a bracket means nothing
      have hlater' : ∀ e ∈ rest, now ≤ e.timestampMs := fun e he =>
        hlater e (List.mem_cons_of_mem _ he)
      have hfold : replayedOn v (e :: rest) = replayedOn v rest := by
        unfold replayedOn
        rw [List.foldl_cons, meaning_of_bracket hop]
      rw [hfold]
      rcases hcalls with hcalls | ⟨call, hcall, hcalls⟩
      · rw [hcalls] at hmeans ⊢
        exact ih inside' hs hlive hseen hkeyed' hrest hlater' hmeans hnow hpast'
      · rw [hcalls] at hmeans ⊢
        obtain ⟨s', hrun, hs'⟩ := @bracket_run w s st call hcall hs
        have hmeans' := hmeans.2
        rw [hrun] at hmeans'
        rw [run_calls_cons, hrun]
        exact ih inside' hs' hlive hseen hkeyed' hrest hlater' hmeans' hnow hpast'

end Replays

/-! ## Section 4: The rebuilt store -/

/-- The log that a crash has cut to `n` bytes reads back as its whole entries. -/
theorem replay_of_cut (mode : CommitMode) {entries : List AofEntry} (n : ℕ)
    (hfits : ∀ e ∈ entries, e.Fits) :
    (Aof.open ((encodeAll entries).take n) mode).replay = wholeIn n entries := by
  obtain ⟨k, hk, -⟩ := wholeIn_eq_take n entries
  obtain ⟨torn, htake, htorn⟩ := take_encodeAll entries n
  have hwhole : ∀ e ∈ wholeIn n entries, e.Fits := by
    intro e he
    rw [hk] at he
    exact hfits e (List.mem_of_mem_take he)
  have hscan := Aof.replayLoop_encodeAll 0 (wholeIn n entries) torn hwhole
  simp only [Nat.zero_add] at hscan
  rw [Aof.replay_open, htake, hscan]
  rcases htorn with rfl | ⟨e, j, he, -, hj, rfl⟩
  · rw [List.length_nil, Nat.add_zero, Aof.replayLoop_end, List.append_nil]
  · rw [replayLoop_piece (hfits e he) _ hj, List.append_nil]

/-- What `recover` finds: the records of the checkpoint, and the log. -/
def Shared.restored (snapshot : Bytes → Option RecordPtr) (entries : List AofEntry) : Shared :=
  { Shared.holding [] with record := snapshot, log := entries }

/-- The store after `recover`. -/
def recovered (w : World) (snapshot : Bytes → Option RecordPtr) (entries : List AofEntry) : Shared :=
  ((replayEntries entries .replaying).run w.handle (.restored snapshot entries)).2

/-- What is left of a log is rebuilt over a checkpoint that shows `v`, and it is the log again. -/
theorem Shared.Logged.rebuilt {w : World} (hw : w.Serves) {base v : View} {since now : Int64}
    {st : Shared} (h : st.Logged base since now) {kept : List AofEntry} (hkept : kept <+: st.log)
    {snapshot : Bytes → Option RecordPtr}
    (hsnapshot : (Shared.restored snapshot kept).seen since = v.at since)
    (hmeans : ReplayMeans w (replayCalls false kept) .replaying (.restored snapshot kept)) :
    (recovered w snapshot kept).log = kept ∧ (recovered w snapshot kept).Logged v since now := by
  have hmem : ∀ e ∈ kept, e ∈ st.log := fun e he => hkept.subset he
  have hkeyed : ∀ e ∈ kept, e.Keyed := fun e he => h.keyed e (hmem e he)
  have hsorted : kept.Pairwise fun a b => a.timestampMs ≤ b.timestampMs := h.sorted.sublist hkept.sublist
  have hsince : ∀ e ∈ kept, since ≤ e.timestampMs := fun e he => h.since e (hmem e he)
  have hpast : ∀ e ∈ kept, e.timestampMs ≤ now := fun e he => h.past e (hmem e he)
  obtain ⟨hlive, hseen, hlog⟩ : (recovered w snapshot kept).panicked = false ∧
      (recovered w snapshot kept).seen now = (replayedOn v kept).at now ∧
      (recovered w snapshot kept).log = kept :=
    replayCalls_seen (s := .replaying) hw false kept ⟨rfl, rfl⟩ rfl hsnapshot hkeyed hsorted hsince
      hmeans h.since_le hpast
  refine ⟨hlog, hlive, ?_, ?_, ?_, h.since_le, ?_, ?_⟩ <;> rw [hlog]
  · exact hseen
  · exact hkeyed
  · exact hsorted
  · exact hsince
  · exact hpast

end Garnet
