import MiniGarnet.Garnet.Replies

/-! # Pipelined commands

    The commands of a connection are dispatched one after another and their
    replies concatenated.  A reader of the concatenation recovers exactly one
    value per command as long as no executed command is unknown under a name
    with a CRLF in it, or GETEX without a key.

    A handler that panics ends the connection's thread before its reply is
    complete; the result of such a command is `none`.
-/

namespace Garnet

open Resp

/-! ## Section 1: Commands that arrive -/

/-- The bytes `raw` are those of a command that `parse_command` finds in a receive buffer, with
    the arguments `args`. -/
def Arrives (raw : Bytes) (args : List Bytes) : Prop :=
  ∃ buf pos slices next, buf.length < 2 ^ 63 ∧
    parseCommand buf pos = .ok (some (slices, next)) ∧
    raw = (buf.take next).drop pos ∧ args = slices.map fun a => a.bytes buf

section Arriving

variable {buf raw : Bytes} {args : List Bytes}

theorem parseBulks_count {n cur next : ℕ} {acc slices : List ArgSlice}
    (h : parseBulks buf n cur acc = .ok (some (slices, next))) :
    slices.length = acc.length + n := by
  induction n generalizing cur acc with
  | zero =>
    simp only [parseBulks, Except.ok.injEq, Option.some.injEq, Prod.mk.injEq] at h
    obtain ⟨rfl, -⟩ := h
    rfl
  | succ n ih =>
    rw [parseBulks] at h
    -- the only way to go on is past a complete bulk string
    repeat' split at h
    all_goals first
      | cases h
      | skip
    simp only at h
    repeat' split at h
    all_goals first
      | cases h
      | skip
    rw [ih h, List.length_append, List.length_singleton]
    omega

theorem inlineArgs_count (l : Bytes) (i : ℕ) (start : Option ℕ) :
    (inlineArgs l i start).length ≤ l.length + 1 := by
  induction l generalizing i start with
  | nil =>
    cases start with
    | none => exact Nat.zero_le _
    | some s => exact Nat.le_refl _
  | cons c l ih =>
    rw [List.length_cons]
    cases start with
    | none =>
      rw [inlineArgs]
      split
      · exact Nat.le_succ_of_le (ih _ _)
      · exact Nat.le_succ_of_le (ih _ _)
    | some s =>
      rw [inlineArgs]
      split
      · rw [List.length_cons]
        exact Nat.succ_le_succ (ih _ _)
      · exact Nat.le_succ_of_le (ih _ _)

theorem parseCommand_count {pos next : ℕ} {slices : List ArgSlice}
    (h : parseCommand buf pos = .ok (some (slices, next))) :
    slices.length ≤ 1024 * 1024 ∨ slices.length ≤ buf.length := by
  unfold parseCommand at h
  split at h
  · cases h
  · split at h
    · unfold parseArray at h
      split at h
      · cases h
      · split at h
        · cases h
        · split at h
          · cases h
          · split at h
            · cases h
            · rename_i hbig
              left
              have hcount := parseBulks_count h
              rw [List.length_nil] at hcount
              omega
    · unfold parseInline at h
      split at h
      · cases h
      · rename_i cr hcr
        obtain ⟨-, hle, hlen⟩ := findCrlf_append hcr []
        simp only [Except.ok.injEq, Option.some.injEq, Prod.mk.injEq] at h
        obtain ⟨rfl, -⟩ := h
        right
        have hcount := inlineArgs_count ((buf.take cr).drop pos) pos none
        rw [List.length_drop, List.length_take] at hcount
        omega

/-- Arguments that arrive are byte strings in a vector. -/
theorem Arrives.argsOk (h : Arrives raw args) : ArgsOk args := by
  obtain ⟨buf, pos, slices, next, hbuf, hparse, -, rfl⟩ := h
  constructor
  · rw [List.length_map]
    rcases parseCommand_count hparse with hcount | hcount
    · exact Nat.lt_of_le_of_lt hcount (by decide)
    · exact Nat.lt_of_le_of_lt hcount hbuf
  · intro a ha
    obtain ⟨slice, -, rfl⟩ := List.mem_map.mp ha
    have hle : (slice.bytes buf).length ≤ buf.length := by
      unfold ArgSlice.bytes
      rw [List.length_drop, List.length_take]
      omega
    exact Nat.lt_of_le_of_lt hle hbuf

/-- Parsed again on their own, the bytes of a command give the same arguments. -/
theorem Arrives.parseRanges (h : Arrives raw args) : parseRanges raw = some args := by
  obtain ⟨buf, pos, slices, next, -, hparse, rfl, rfl⟩ := h
  obtain ⟨hpos, hlen, hstop⟩ := parseCommand_bounds hparse
  have hhead : pos ≤ (buf.take next).length := by
    rw [List.length_take]
    omega
  have hshift := parseCommand_at hhead
  rw [parseCommand_take hparse] at hshift
  unfold Garnet.parseRanges
  unfold shiftResult at hshift
  split
  · rename_i own ownNext heq
    rw [heq] at hshift
    simp only [Except.map, Option.map_some, Except.ok.injEq, Option.some.injEq,
      Prod.mk.injEq] at hshift
    obtain ⟨rfl, -⟩ := hshift
    rw [List.map_map]
    refine congrArg some (List.map_congr_left fun a ha => ?_)
    rw [← bytes_shift pos hhead a]
    -- the range ends before the command does
    have hend := hstop _ (List.mem_map_of_mem ha)
    show ((buf.take next).take (a.shift pos).stop).drop _ = (buf.take (a.shift pos).stop).drop _
    rw [List.take_take, Nat.min_eq_left hend]
  · rename_i hnone
    generalize parseCommand ((buf.take next).drop pos) 0 = r at hshift hnone
    rcases r with e | o
    · cases hshift
    · rcases o with - | x
      · cases hshift
      · exact absurd rfl (hnone x.1 x.2)

end Arriving

/-! ## Section 2: Serving commands -/

/-- A command as it is dispatched: the clock, its bytes and its arguments. -/
structure Request where
  clock : Int64
  raw : Bytes
  args : List Bytes
  deriving DecidableEq, Repr

/-- In MULTI, and not one of the commands that are executed there. -/
def isQueued (s : RespSession) (args : List Bytes) : Bool :=
  s.txn.inMulti && !isControl (commandOf args)

section Serving

variable {σ : Type} (handle : (e : Effect) → σ → e.Result × σ)

/-- Does EXEC get to the queue? -/
def runsQueue (s : RespSession) (st : σ) : Bool :=
  s.txn.inMulti && !s.txn.dirty && !((conflictLoop s.txn.watches s).run handle st).1.1

/-- The queue holds a command that panics. -/
def queuePanics (queued : List Bytes) : Bool :=
  queued.any fun q => ((parseRanges q).map panics).getD false

/-- Does dispatching the command run into the panic? -/
def dispatchPanics (s : RespSession) (st : σ) (args : List Bytes) : Bool :=
  if isQueued s args then false
  else if commandOf args = some .exec then runsQueue handle s st && queuePanics s.txn.queued
  else panics args

/-- The reply to a request, with the session and the shared state after it. -/
def reply (req : Request) (s : RespSession) (st : σ) : Option (Bytes × RespSession × σ) :=
  if dispatchPanics handle s st req.args then none
  else
    let x := (dispatch req.clock req.raw req.args s).run handle st
    some (x.1.1.1, x.1.2, x.2)

/-- The replies to the requests of a connection, one after another. -/
def serve : List Request → RespSession → σ → Option (List Bytes)
  | [], _, _ => some []
  | req :: rest, s, st =>
    match reply handle req s st with
    | none => none
    | some (b, s', st') => (serve rest s' st').map (b :: ·)

/-- What a request has to meet in the state it finds: an executed command has a clean name, and
    so have those of the queue that EXEC executes. -/
def Clean (s : RespSession) (st : σ) (args : List Bytes) : Prop :=
  if isQueued s args then True
  else if commandOf args = some .exec then
    runsQueue handle s st = true →
      ∀ q ∈ s.txn.queued, ∀ qargs, parseRanges q = some qargs → CleanName qargs
  else CleanName args

/-- Every request of the run meets the condition in the state it finds. -/
def CleanRun : List Request → RespSession → σ → Prop
  | [], _, _ => True
  | req :: rest, s, st =>
    Clean handle s st req.args ∧
      ∀ b s' st', reply handle req s st = some (b, s', st') → CleanRun rest s' st'

end Serving

/-- A queue of at most `n` commands that have arrived. -/
def QueueOk (n : ℕ) (queued : List Bytes) : Prop :=
  queued.length ≤ n ∧ ∀ q ∈ queued, ∃ args, Arrives q args

section Dispatching

open Handler

variable {σ : Type} {handle : (e : Effect) → σ → e.Result × σ}
  {s : RespSession} {st : σ} {req : Request} {n : ℕ}

theorem SessionOk.queue (h : SessionOk (QueueOk n) s) : QueueOk n s.txn.queued := by
  rcases h.2 with hnil | hqueue
  · rw [hnil]
    exact ⟨Nat.zero_le n, by simp⟩
  · exact hqueue

theorem SessionOk.mono {m : ℕ} (h : SessionOk (QueueOk n) s) (hle : n ≤ m) :
    SessionOk (QueueOk m) s :=
  ⟨h.1, .inr ⟨Nat.le_trans h.queue.1 hle, h.queue.2⟩⟩

/-- The session when the command has been read: the clock is set. -/
def RespSession.atClock (s : RespSession) (clock : Int64) : RespSession :=
  if s.replay then s else { s with nowMs := clock }

@[simp] theorem RespSession.atClock_txn (clock : Int64) : (s.atClock clock).txn = s.txn := by
  unfold RespSession.atClock
  split <;> rfl

@[simp] theorem RespSession.atClock_outScratch (clock : Int64) :
    (s.atClock clock).outScratch = s.outScratch := by
  unfold RespSession.atClock
  split <;> rfl

/-- Dispatch after the clock has been set. -/
theorem dispatch_eq {clock : Int64} {raw : Bytes} {args : List Bytes} (hne : args ≠ []) :
    dispatch clock raw args s = (if isQueued s args then
        (match validateQueueable (commandOf args) with
        | some err => do
          set { s.atClock clock with txn := { s.txn with dirty := true } }
          return (Resp.error err, .continue_)
        | none => do
          set { s.atClock clock with txn := { s.txn with queued := s.txn.queued ++ [raw] } }
          return (Resp.QUEUED, .continue_) : Handler (Bytes × Action))
      else execCommand raw args) (s.atClock clock) := by
  have htxn := RespSession.atClock_txn (s := s) clock
  unfold dispatch isQueued
  rw [if_neg hne, ← htxn]
  rfl

theorem dispatch_queued {clock : Int64} {raw : Bytes} {args : List Bytes} (hne : args ≠ [])
    (h : isQueued s args = true) :
    dispatch clock raw args s = .ret (match validateQueueable (commandOf args) with
      | some err => ((Resp.error err, .continue_),
          { s.atClock clock with txn := { s.txn with dirty := true } })
      | none => ((Resp.QUEUED, .continue_),
          { s.atClock clock with txn := { s.txn with queued := s.txn.queued ++ [raw] } })) := by
  rw [dispatch_eq hne, if_pos h]
  cases validateQueueable (commandOf args) with
  | some err => rfl
  | none => rfl

theorem dispatch_exec {clock : Int64} {raw : Bytes} {args : List Bytes} (hne : args ≠ [])
    (h : isQueued s args = false) (hexec : commandOf args = some .exec) :
    dispatch clock raw args s =
      cmdExec (s.atClock clock) >>= fun x => .ret ((x.1, actionOf args), x.2) := by
  rw [dispatch_eq hne, if_neg (by simp [h])]
  unfold execCommand
  rw [if_pos hexec]
  rfl

theorem dispatch_basic {clock : Int64} {raw : Bytes} {args : List Bytes} (hne : args ≠ [])
    (h : isQueued s args = false) (hexec : commandOf args ≠ some .exec) :
    dispatch clock raw args s =
      execBasic raw args (s.atClock clock) >>= fun x => .ret ((x.1, actionOf args), x.2) := by
  rw [dispatch_eq hne, if_neg (by simp [h])]
  unfold execCommand
  rw [if_neg hexec]
  rfl

theorem validateQueueable_error {cmd : Option CommandName} {err : String}
    (h : validateQueueable cmd = some err) : HasCrlf (ascii err) = false := by
  unfold validateQueueable at h
  split at h
  all_goals first
    | (obtain rfl := Option.some.inj h; decide)
    | cases h

theorem oneReply_queued : OneReply QUEUED :=
  ⟨.simple (ascii "QUEUED"), .simple (by decide), by decide⟩

/-- The watch check does not look at the session. -/
theorem conflictLoop_run (watches : List (ℕ × ℕ)) (s s' : RespSession) (st : σ) :
    ((conflictLoop watches s).run handle st).1.1 = ((conflictLoop watches s').run handle st).1.1 := by
  induction watches generalizing st with
  | nil => rfl
  | cons w rest ih =>
    show ((if (handle (.versionAt w.1) st).1 ≠ w.2 then pure true else conflictLoop rest :
        Handler Bool) s |>.run handle (handle (.versionAt w.1) st).2).1.1 =
      ((if (handle (.versionAt w.1) st).1 ≠ w.2 then pure true else conflictLoop rest :
        Handler Bool) s' |>.run handle (handle (.versionAt w.1) st).2).1.1
    split
    · rfl
    · exact ih _

theorem runsQueue_atClock (clock : Int64) :
    runsQueue handle (s.atClock clock) st = runsQueue handle s st := by
  unfold runsQueue
  rw [RespSession.atClock_txn, conflictLoop_run _ (s.atClock clock) s]

section Answering

variable (hans : ∀ e st, Effect.Answers e (handle e st).1)
include hans

/-- EXEC replies with one value when the queue it gets to is clean. -/
theorem cmdExec_reply (hs : SessionOk (QueueOk n) s) (hn : n < 2 ^ 63)
    (hclean : runsQueue handle s st = true →
      ∀ q ∈ s.txn.queued, ∀ qargs, parseRanges q = some qargs → CleanName qargs) :
    OneReply ((cmdExec s).run handle st).1.1 ∧
      SessionOk (QueueOk n) ((cmdExec s).run handle st).1.2 := by
  have hdiscard : ∀ {b : Bytes}, OneReply b → Replies1 (QueueOk n) (do
      discard
      return b) := fun hb => runs_discard.bind fun _ _ => ensures_pure hb
  have hone {h : Handler Bytes} (hh : Replies1 (QueueOk n) h) {s : RespSession}
      (hs : SessionOk (QueueOk n) s) (st : σ) :
      OneReply ((h s).run handle st).1.1 ∧ SessionOk (QueueOk n) ((h s).run handle st).1.2 :=
    (hh s hs).run handle hans st
  by_cases hmulti : s.txn.inMulti
  · by_cases hdirty : s.txn.dirty
    · rw [cmdExec_eq]
      unfold execChecked
      rw [if_neg (by simp [hmulti]), if_pos hdirty]
      exact hone (hdiscard (oneReply_error (by decide))) hs st
    · rw [cmdExec_eq]
      unfold execChecked
      rw [if_neg (by simp [hmulti]), if_neg hdirty]
      -- what the watch check answers decides whether the queue is executed
      have hcheck := (runs_conflictLoop s.txn.watches s hs).run handle hans st
      have hrun := Program.run_bind handle (conflictLoop s.txn.watches s) (fun x =>
        (if x.1 then (do discard; return NULL_ARRAY) else execBody s.txn.queued : Handler Bytes) x.2)
        st
      have hrest : Replies1 (QueueOk n)
          (if ((conflictLoop s.txn.watches s).run handle st).1.1 then (do discard; return NULL_ARRAY)
            else execBody s.txn.queued) := by
        refine ensures_ite (fun _ => hdiscard ⟨.nullArray, .nullArray, rfl⟩) fun hpass => ?_
        have hruns : runsQueue handle s st = true := by
          unfold runsQueue
          simp [hmulti, hdirty, hpass]
        refine replies_execBody ?_ (Nat.lt_of_le_of_lt hs.queue.1 hn)
        intro q hq qargs hparse
        obtain ⟨args, harr⟩ := hs.queue.2 q hq
        obtain rfl := Option.some.inj (harr.parseRanges.symm.trans hparse)
        exact ⟨hclean hruns q hq args hparse, harr.argsOk⟩
      have hdone := hone hrest hcheck.2 ((conflictLoop s.txn.watches s).run handle st).2
      rw [← hrun] at hdone
      exact hdone
  · rw [cmdExec_eq]
    unfold execChecked
    rw [if_pos (by simpa using hmulti)]
    exact ⟨oneReply_error (by decide), hs⟩

/-- A request that meets the condition is replied to with one value. -/
theorem reply_clean (hs : SessionOk (QueueOk n) s) (hn : n < 2 ^ 63)
    (harr : Arrives req.raw req.args) (hne : req.args ≠ []) (hclean : Clean handle s st req.args) :
    ∃ b s' st', reply handle req s st = some (b, s', st') ∧ OneReply b ∧
      SessionOk (QueueOk (n + 1)) s' := by
  have hs' : SessionOk (QueueOk n) (s.atClock req.clock) := by
    unfold SessionOk
    rw [RespSession.atClock_txn, RespSession.atClock_outScratch]
    exact hs
  have hpanic : dispatchPanics handle s st req.args = false := by
    unfold Clean at hclean
    unfold dispatchPanics
    split
    · rfl
    · rename_i hqueued
      rw [if_neg hqueued] at hclean
      split
      · rename_i hexec
        rw [if_pos hexec] at hclean
        by_cases hruns : runsQueue handle s st = true
        · rw [hruns, Bool.true_and]
          apply List.any_eq_false.mpr
          intro q hq
          obtain ⟨args, hq'⟩ := hs.queue.2 q hq
          rw [hq'.parseRanges]
          simpa using (hclean hruns q hq args hq'.parseRanges).2
        · simp [hruns]
      · rename_i hexec
        rw [if_neg hexec] at hclean
        exact hclean.2
  refine ⟨_, _, _, by unfold reply; rw [if_neg (by simp [hpanic])], ?_⟩
  by_cases hqueued : isQueued s req.args = true
  · rw [dispatch_queued hne hqueued]
    have hmore : QueueOk (n + 1) s.txn.queued := (hs.mono (Nat.le_succ n)).queue
    have hpush : QueueOk (n + 1) (s.txn.queued ++ [req.raw]) := by
      refine ⟨?_, ?_⟩
      · rw [List.length_append, List.length_singleton]
        exact Nat.succ_le_succ hs.queue.1
      · intro q hq
        rcases List.mem_append.mp hq with hq | hq
        · exact hs.queue.2 q hq
        · obtain rfl := List.mem_singleton.mp hq
          exact ⟨req.args, harr⟩
    cases hvalid : validateQueueable (commandOf req.args) with
    | some err => exact ⟨oneReply_error (validateQueueable_error hvalid), hs'.1, .inr hmore⟩
    | none => exact ⟨oneReply_queued, hs'.1, .inr hpush⟩
  · have hnot : isQueued s req.args = false := by simpa using hqueued
    unfold Clean at hclean
    rw [if_neg hqueued] at hclean
    by_cases hexec : commandOf req.args = some .exec
    · rw [dispatch_exec hne hnot hexec, Program.run_bind]
      rw [if_pos hexec] at hclean
      have hdone := @cmdExec_reply _ _ _ st _ hans hs' hn (by
        rw [RespSession.atClock_txn]
        intro hruns
        rw [runsQueue_atClock] at hruns
        exact hclean hruns)
      exact ⟨hdone.1, hdone.2.mono (Nat.le_succ n)⟩
    · rw [dispatch_basic hne hnot hexec, Program.run_bind]
      rw [if_neg hexec] at hclean
      have hdone := (@replies_execBasic _ req.raw _ hclean.1 harr.argsOk _ hs').run handle hans st
      exact ⟨hdone.1, hdone.2.mono (Nat.le_succ n)⟩

omit hans in
/-- A request outside of the condition, apart from EXEC, is not replied to with one value. -/
theorem reply_unclean (hne : req.args ≠ []) (hexec : commandOf req.args ≠ some .exec)
    (hclean : ¬ Clean handle s st req.args) {b : Bytes} {s' : RespSession} {st' : σ}
    (hreply : reply handle req s st = some (b, s', st')) : ¬ OneReply b := by
  unfold Clean at hclean
  by_cases hqueued : isQueued s req.args = true
  · rw [if_pos hqueued] at hclean
    exact absurd trivial hclean
  · rw [if_neg hqueued, if_neg hexec] at hclean
    have hnot : isQueued s req.args = false := by simpa using hqueued
    unfold reply dispatchPanics at hreply
    rw [if_neg hqueued, if_neg hexec] at hreply
    split at hreply
    · cases hreply
    · rename_i hpanic
      -- the handler returns, so it is the name that has a CRLF, and the command is unknown
      have hcrlf : HasCrlf (req.args.headD []) ≠ false := by
        intro hname
        exact hclean ⟨hname, by simpa using hpanic⟩
      have hunknown : commandOf req.args = none := by
        cases hcmd : commandOf req.args with
        | none => rfl
        | some cmd => exact absurd (hasCrlf_of_commandOf hcmd) hcrlf
      have hexecBasic : execBasic req.raw req.args = pure (unknownCommand req.args) := by
        unfold execBasic
        rw [hunknown]
      rw [dispatch_basic hne hnot hexec, hexecBasic] at hreply
      have hb : unknownCommand req.args = b := congrArg Prod.fst (Option.some.inj hreply)
      rw [← hb, oneReply_unknownCommand_iff]
      exact hcrlf

omit hans in
theorem Clean.of_name {args : List Bytes} (hexec : commandOf args ≠ some .exec)
    (hname : CleanName args) : Clean handle s st args := by
  unfold Clean
  by_cases hqueued : isQueued s args = true
  · rw [if_pos hqueued]
    trivial
  · rw [if_neg hqueued, if_neg hexec]
    exact hname

omit hans in
theorem CleanRun.cons {rest : List Request} {b : Bytes} {s' : RespSession} {st' : σ}
    (hclean : Clean handle s st req.args) (hreply : reply handle req s st = some (b, s', st'))
    (hrest : CleanRun handle rest s' st') : CleanRun handle (req :: rest) s st := by
  refine ⟨hclean, ?_⟩
  intro b₂ s₂ st₂ h
  rw [hreply] at h
  cases h
  exact hrest

/-- The replies to a run that meets the condition are one value for each request. -/
theorem serve_clean (reqs : List Request) (hn : n + reqs.length < 2 ^ 63)
    (hs : SessionOk (QueueOk n) s)
    (harr : ∀ req ∈ reqs, Arrives req.raw req.args ∧ req.args ≠ [])
    (hclean : CleanRun handle reqs s st) :
    ∃ vs : List Value, serve handle reqs s st = some (vs.map Value.encode) ∧
      vs.length = reqs.length ∧ ∀ v ∈ vs, v.Wf := by
  induction reqs generalizing n s st with
  | nil => exact ⟨[], rfl, rfl, by simp⟩
  | cons req rest ih =>
    rw [List.length_cons] at hn
    obtain ⟨hreq, hne⟩ := harr req List.mem_cons_self
    obtain ⟨b, s', st', hreply, ⟨v, hv, rfl⟩, hs'⟩ :=
      reply_clean hans hs (by omega) hreq hne hclean.1
    obtain ⟨vs, hserve, hlen, hvs⟩ := ih (by omega) hs'
      (fun r hr => harr r (List.mem_cons_of_mem _ hr)) (hclean.2 _ _ _ hreply)
    refine ⟨v :: vs, ?_, by rw [List.length_cons, List.length_cons, hlen], ?_⟩
    · unfold serve
      rw [hreply]
      simp only [hserve, Option.map_some, List.map_cons]
    · intro w hw
      rcases List.mem_cons.mp hw with rfl | hw
      · exact hv
      · exact hvs w hw

end Answering

end Dispatching

/-! ## Section 3: One value per command -/

/-- Whatever the shared state is and answers: a request other than EXEC is replied to with
    exactly one value if and only if it meets the condition, and in every run whose requests all
    meet it, EXEC included, a reader of the concatenated replies recovers one value for each
    request, in order. -/
theorem one_value_per_command {σ : Type} (handle : (e : Effect) → σ → e.Result × σ)
    (hans : ∀ e st, Effect.Answers e (handle e st).1) :
    (∀ (req : Request) (s : RespSession) (st : σ) (n : ℕ), n < 2 ^ 63 →
      SessionOk (QueueOk n) s → Arrives req.raw req.args → req.args ≠ [] →
      commandOf req.args ≠ some .exec →
      ((∃ b s' st', reply handle req s st = some (b, s', st') ∧ OneReply b) ↔
        Clean handle s st req.args)) ∧
    ∀ (reqs : List Request) (s : RespSession) (st : σ) (n : ℕ), n + reqs.length < 2 ^ 63 →
      SessionOk (QueueOk n) s → (∀ req ∈ reqs, Arrives req.raw req.args ∧ req.args ≠ []) →
      CleanRun handle reqs s st →
      ∃ vs : List Value, serve handle reqs s st = some (vs.map Value.encode) ∧
        vs.length = reqs.length ∧
        readReplies reqs.length (vs.map Value.encode).flatten = some vs := by
  refine ⟨?_, ?_⟩
  · intro req s st n hn hs harr hne hexec
    constructor
    · rintro ⟨b, s', st', hreply, hone⟩
      by_contra hclean
      exact reply_unclean hne hexec hclean hreply hone
    · intro hclean
      obtain ⟨b, s', st', hreply, hone, -⟩ := reply_clean hans hs hn harr hne hclean
      exact ⟨b, s', st', hreply, hone⟩
  · intro reqs s st n hn hs harr hclean
    obtain ⟨vs, hserve, hlen, hvs⟩ := serve_clean hans reqs hn hs harr hclean
    refine ⟨vs, hserve, hlen, ?_⟩
    rw [← hlen]
    exact readReplies_encode hvs

/-- A shared state that holds no key. -/
def emptyState : (e : Effect) → Unit → e.Result × Unit
  | .read _ _ out, _ => ((.notFound, out), ())
  | .upsert _ _ out, _ => ((.created, out), ())
  | .rmw _ _ out, _ => ((.notFound, out), ())
  | .delete _, _ => (.notFound, ())
  | .bump _, _ | .enqueue _, _ | .txnLock _, _ | .txnUnlock, _ | .clear, _ => ((), ())
  | .slotVersion key, _ => ((watchSlot key, 0), ())
  | .versionAt _, _ => (0, ())
  | .countLive, _ => (0, ())
  | .scanLive _, _ => ([], ())
  | .checkpoint, _ => (none, ())
  | .lastSaveMs, _ => (0, ())

theorem emptyState_answers (e : Effect) (st : Unit) : Effect.Answers e (emptyState e st).1 := by
  cases e with
  | read key input out => exact id
  | upsert key input out => exact id
  | rmw key input out => exact id
  | scanLive pattern => exact ⟨Nat.two_pow_pos 63, by simp [emptyState]⟩
  | checkpoint => exact nofun
  | _ => exact trivial

theorem one_value_per_command_multi :
    let reqs : List Request :=
      [⟨0, ascii "MULTI" ++ CRLF, [ascii "MULTI"]⟩,
       ⟨0, ascii "GET k" ++ CRLF, [ascii "GET", ascii "k"]⟩,
       ⟨0, ascii "EXEC" ++ CRLF, [ascii "EXEC"]⟩]
    ∃ vs : List Value, serve emptyState reqs (.new false) () = some (vs.map Value.encode) ∧
      vs.length = 3 ∧ readReplies 3 (vs.map Value.encode).flatten = some vs := by
  intro reqs
  refine (one_value_per_command emptyState emptyState_answers).2 reqs _ () 0 (by decide)
    ⟨by decide, .inl rfl⟩ ?_ ?_
  · have harr : ∀ line args, parseCommand line 0 = .ok (some (args, line.length)) →
        line.length < 2 ^ 63 → Arrives line (args.map fun a => a.bytes line) := by
      intro line args hparse hlen
      exact ⟨line, 0, args, line.length, hlen, hparse, by simp, rfl⟩
    simp only [reqs, List.mem_cons, List.not_mem_nil, or_false, forall_eq_or_imp, forall_eq]
    refine ⟨⟨harr _ [⟨0, 5⟩] ?_ ?_, ?_⟩, ⟨harr _ [⟨0, 3⟩, ⟨4, 5⟩] ?_ ?_, ?_⟩,
      harr _ [⟨0, 4⟩] ?_ ?_, ?_⟩
    all_goals decide
  · -- GET is queued, and then executed by EXEC
    let s₁ : RespSession := { RespSession.new false with txn := ⟨true, false, [], []⟩ }
    let s₂ : RespSession :=
      { RespSession.new false with txn := ⟨true, false, [ascii "GET k" ++ CRLF], []⟩ }
    have hmulti : reply emptyState ⟨0, ascii "MULTI" ++ CRLF, [ascii "MULTI"]⟩ (.new false) () =
        some (OK, s₁, ()) := by decide +kernel
    have hget : reply emptyState ⟨0, ascii "GET k" ++ CRLF, [ascii "GET", ascii "k"]⟩ s₁ () =
        some (QUEUED, s₂, ()) := by decide +kernel
    have hexec : reply emptyState ⟨0, ascii "EXEC" ++ CRLF, [ascii "EXEC"]⟩ s₂ () =
        some (arrayHeader 1 ++ NULL_BULK, .new false, ()) := by decide +kernel
    refine .cons (.of_name (by decide) (by decide)) hmulti ?_
    refine .cons (.of_name (by decide) (by decide)) hget ?_
    refine .cons ?_ hexec trivial
    show runsQueue emptyState s₂ () = true → ∀ q ∈ [ascii "GET k" ++ CRLF], _
    intro _ q hq qargs hparse
    obtain rfl := List.mem_singleton.mp hq
    obtain rfl : [ascii "GET", ascii "k"] = qargs := Option.some.inj hparse
    decide

/-- An unknown command whose name is `A\r\n+B` gets a reply that is two values to a reader, and
    GETEX on its own gets none. -/
theorem reply_of_crlf_name :
    let req : Request :=
      ⟨0, ascii "*1" ++ CRLF ++ ascii "$5" ++ CRLF ++ ascii "A" ++ CRLF ++ ascii "+B" ++ CRLF,
        [ascii "A" ++ CRLF ++ ascii "+B"]⟩
    let bare : Request := ⟨0, ascii "GETEX" ++ CRLF, [ascii "GETEX"]⟩
    (Arrives req.raw req.args ∧ ∃ b s' st', reply emptyState req (.new false) () = some (b, s', st') ∧
      ¬ OneReply b ∧ (readReplies 2 b).map List.length = some 2) ∧
    Arrives bare.raw bare.args ∧ reply emptyState bare (.new false) () = none := by
  intro req bare
  refine ⟨⟨?_, unknownCommand req.args, .new false, (), by decide +kernel, ?_, by decide +kernel⟩,
    ?_, by decide +kernel⟩
  · exact ⟨req.raw, 0, [⟨8, 13⟩], 15, by decide, by decide, by decide, by decide⟩
  · rw [oneReply_unknownCommand_iff]
    decide
  · exact ⟨bare.raw, 0, [⟨0, 5⟩], 7, by decide, by decide, by decide, by decide⟩

end Garnet
