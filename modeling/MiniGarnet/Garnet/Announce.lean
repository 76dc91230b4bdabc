import MiniGarnet.Garnet.Answers

/-! # Changes are announced

    A write is bookkept from the status of its store call: the version of the
    key in the watch table is bumped and the command is logged if the handler
    takes the status for that of a write.  It has to, whenever a later read
    can see a change.  All handlers do but that of SETNX, which takes
    `Created` for the only status of a write: where the record of the key is
    expired and must not be changed in place, the store writes the value to a
    copy of it and answers `CopyUpdated`.
-/

namespace Garnet

open Tsavorite (Status)
open StringFunctions

/-! ## Section 1: SETNX on the copy path -/

/-- The RMW of a SETNX copies the record: it is expired, and the first attempt that gets a new
    record into the chain must not change it in place.  An attempt that may turns the record into
    a tombstone. -/
def setnxCopies (g : Tsavorite.Geometry) (key : Bytes) (input : StringInput) :
    List Attempt → Option RecordPtr → Bool
  | a :: attempts, some r =>
    if ¬ a.enters then setnxCopies g key input attempts (some r)
    else
      match a.place with
      | .mutable_ => false
      | .frozen =>
        r.expired input.nowMs && decide (FitsInPage g (copySize key input r)) &&
          (a.allocates && a.links || setnxCopies g key input attempts (some r))
      | .lost =>
        decide (FitsInPage g (initialSize key input)) && !(a.allocates && a.links) &&
          setnxCopies g key input attempts (some r)
  | _, _ => false

section SetNx

variable {g : Tsavorite.Geometry} {key : Bytes} {input : StringInput} {a : Attempt}
  {record : Option RecordPtr} {out : StringOutput}

/-- Does the call end with a copy? -/
def Outcome.copies : Outcome → Bool
  | .done .copyUpdated _ _ => true
  | _ => false

theorem needInitialUpdate_setNx (hop : input.op = .setNx) : needInitialUpdate input = true := by
  unfold needInitialUpdate
  rw [hop]

/-- A SETNX copies a record if it is expired. -/
theorem needCopyUpdate_setNx (hop : input.op = .setNx) (r : RecordPtr) (out : StringOutput) :
    needCopyUpdate input r out = (if r.expired input.nowMs then .copy else .cancel, out) := by
  unfold needCopyUpdate
  rw [hop]
  split <;> rfl

theorem initialUpdater_setNx (hop : input.op = .setNx) {new : RecordPtr}
    (hcap : new.valueCap = (initialSize key input).valueCap) (out : StringOutput) :
    (initialUpdater input new out).isSome := by
  unfold initialSize at hcap
  simp only [hop] at hcap
  obtain ⟨r, hwrite, -⟩ := RecordPtr.writeVal_spec (r := new) (Nat.le_of_eq hcap.symm)
  unfold initialUpdater initialValue
  simp only [hop, hwrite, Option.bind_eq_bind, Option.bind_some, Option.pure_def]
  split <;> rfl

theorem copyUpdater_setNx_isSome (hop : input.op = .setNx) {old new : RecordPtr}
    (hcap : new.valueCap = (copySize key input old).valueCap) (out : StringOutput) :
    (copyUpdater input old new out).isSome := by
  unfold copySize at hcap
  simp only [hop] at hcap
  obtain ⟨r, hwrite, -⟩ := RecordPtr.writeVal_spec (r := new) (Nat.le_of_eq hcap.symm)
  unfold copyUpdater copyValue
  simp only [hop, hwrite, Option.bind_eq_bind, Option.bind_some, Option.pure_def]
  split <;> rfl

/-- A SETNX that finds no record makes no copy. -/
theorem callLoop_copies_none (hop : input.op = .setNx) (attempts : List Attempt) :
    (callLoop (attemptRmw g key input) attempts none out).copies = false := by
  have hmeets : (callLoop (attemptRmw g key input) attempts none out).Meets
      (fun status _ _ => status ≠ .copyUpdated) fun _ _ => False := by
    refine callLoop_meets (R := fun record _ => record = none) ?_ (fun _ _ _ => nofun) attempts rfl
    rintro a record out rfl
    cases henters : a.enters with
    | true =>
      rw [attemptRmw_none henters, attemptInitial, if_pos (needInitialUpdate_setNx hop)]
      exact attemptLink_meets (fun _ _ _ _ _ => nofun) fun _ => rfl
    | false =>
      rw [attemptRmw_skip henters]
      rfl
  revert hmeets
  cases callLoop (attemptRmw g key input) attempts none out with
  | done status record out =>
    intro hne
    cases status <;> first | rfl | exact absurd rfl hne
  | _ => intro _; rfl

theorem setnxCopies_eq (hop : input.op = .setNx) (attempts : List Attempt)
    (record : Option RecordPtr) (out : StringOutput) :
    (callLoop (attemptRmw g key input) attempts record out).copies =
      setnxCopies g key input attempts record := by
  induction attempts generalizing record out with
  | nil =>
    cases record <;> rfl
  | cons a attempts ih =>
    cases record with
    | none => exact callLoop_copies_none hop _
    | some r =>
      unfold setnxCopies
      cases henters : a.enters with
      | false =>
        rw [callLoop, attemptRmw_skip henters]
        exact ih (some r) out
      | true =>
        simp only [not_true_eq_false, if_false]
        cases hplace : a.place with
        | mutable_ =>
          cases hexp : r.expired input.nowMs with
          | true =>
            -- the rest of the call is that of a key without a record
            have hnone := @callLoop_copies_none g key input out hop (a :: attempts)
            rw [callLoop, attemptRmw_none henters] at hnone
            rw [callLoop, attemptRmw_expired henters hplace hexp]
            exact hnone
          | false =>
            rw [callLoop, attemptRmw]
            simp only [henters, hplace, not_true_eq_false, if_false]
            rcases inPlaceUpdater_alive input r hexp with hnone | ⟨res, r', p, hsome, hok⟩
            · rw [hnone]
              rfl
            · obtain rfl := hok.setNx hop
              rw [hsome]
              rfl
        | frozen =>
          rw [callLoop, attemptRmw_frozen henters hplace, attemptCopy, needCopyUpdate_setNx hop]
          cases hexp : r.expired input.nowMs with
          | false => rfl
          | true =>
            simp only [if_true, Bool.true_and]
            rcases attemptLink_eq .copyUpdated (some r) out
              fun new hnew => copyUpdater_setNx_isSome hop (allocateRecord_cap hnew) out with
              ⟨hpanic, hfits⟩ | ⟨hfits, hlink⟩
            · rw [hpanic]
              simp [hfits, Outcome.copies]
            · rw [decide_eq_true hfits, Bool.true_and]
              cases hdone : a.allocates && a.links with
              | true =>
                rw [if_pos hdone] at hlink
                obtain ⟨r', out', hlink⟩ := hlink
                rw [hlink]
                rfl
              | false =>
                rw [if_neg (by simp [hdone])] at hlink
                obtain ⟨out', hlink⟩ := hlink
                rw [hlink, Bool.false_or]
                exact ih (some r) out'
        | lost =>
          rw [callLoop, attemptRmw_lost henters hplace, attemptInitial,
            if_pos (needInitialUpdate_setNx hop)]
          rcases attemptLink_eq .created (some r) out
            fun new hnew => initialUpdater_setNx hop (allocateRecord_cap hnew) out with
            ⟨hpanic, hfits⟩ | ⟨hfits, hlink⟩
          · rw [hpanic]
            simp [hfits, Outcome.copies]
          · rw [decide_eq_true hfits, Bool.true_and]
            cases hdone : a.allocates && a.links with
            | true =>
              rw [if_pos hdone] at hlink
              obtain ⟨r', out', hlink⟩ := hlink
              rw [hlink]
              rfl
            | false =>
              rw [if_neg (by simp [hdone])] at hlink
              obtain ⟨out', hlink⟩ := hlink
              rw [hlink, Bool.not_false, Bool.true_and]
              exact ih (some r) out'

end SetNx

/-! ## Section 2: Commands on one key -/

section Commands

variable {w : World} {key raw : Bytes} {s : RespSession} {st : Shared} {c : KeyCommand} {now : Int64}

/-- A handler that does no bookkeeping has left the record, unless it is that of SETNX. -/
theorem KeyCommand.writes_or_left {before after : Option RecordPtr} {status : Status}
    {out : StringOutput} (h : c.AnswerOk now before status after out)
    (hquiet : c.writes status out = false) :
    LeftAlone now before after ∨ ∃ value, c = .setnx value ∧ status = .copyUpdated := by
  have hidle : status.isUpdated = false → LeftAlone now before after := by
    intro hidle
    unfold AnswerOk at h
    cases hkind : c.kind with
    | read =>
      rw [hkind] at h
      exact .inl h.same
    | upsert =>
      rw [hkind] at h
      exact .inl (UpsertOk.idle h hidle)
    | rmw =>
      rw [hkind] at h
      have hleft := RmwOk.idle h hidle
      rwa [c.input_nowMs] at hleft
  cases c with
  | get => exact .inl (.inl (ReadOk.same h))
  | strlen => exact .inl (.inl (ReadOk.same h))
  | getrange start stop => exact .inl (.inl (ReadOk.same h))
  | ttl ms => exact .inl (.inl (ReadOk.same h))
  | type => exact .inl (.inl (ReadOk.same h))
  | setnx value =>
    cases hupdated : status.isUpdated with
    | false => exact .inl (hidle hupdated)
    | true =>
      rcases RmwOk.setNx h rfl rfl hupdated with rfl | ⟨rfl, -⟩
      · cases hquiet
      · exact .inr ⟨value, rfl, rfl⟩
  | setex value expiration => cases hquiet
  | getset value => cases hquiet
  | getdel =>
    cases hupdated : status.isUpdated with
    | false => exact .inl (hidle hupdated)
    | true =>
      obtain rfl := RmwOk.getDel h rfl hupdated
      cases hquiet
  | persist =>
    cases hupdated : status.isUpdated with
    | false => exact .inl (hidle hupdated)
    | true =>
      obtain ⟨hhas, hone⟩ := RmwOk.persist h rfl hupdated
      simp [writes, hupdated, hhas, hone] at hquiet
  | _ => exact .inl (hidle hquiet)

/-- Every change of a key that a later read can see is announced: its version in the watch table
    has grown, and the command is the one new entry of the log. -/
def Announced (s : RespSession) (raw : Bytes) (st st' : Shared) : Prop :=
  ∀ key, ¬ SeenAlike s.nowMs (st.record key) (st'.record key) →
    st'.log = st.log ++ [⟨.command, s.nowMs, raw⟩] ∧
      st.version (watchSlot key) < st'.version (watchSlot key)

theorem Announced.of_same {st' : Shared}
    (h : ∀ key, SeenAlike s.nowMs (st.record key) (st'.record key)) : Announced s raw st st' :=
  fun key hchanged => absurd (h key) hchanged

/-- A change of one record only. -/
theorem seenAlike_update {after : Option RecordPtr} {k : Bytes} (hk : k ≠ key) :
    SeenAlike now (st.record k) (Function.update st.record key after k) := by
  rw [Function.update_of_ne hk]
  exact .refl _ _

/-- The SETNX of a command stores its value by a copy. -/
def KeyCommand.copiesUnseen (w : World) (now : Int64) (st : Shared) (key : Bytes) : KeyCommand → Bool
  | .setnx value =>
    setnxCopies w.geometry key (.simple .setNx value now) (w.attempts st.calls) (st.record key)
  | _ => false

/-- A SETNX that copies answers `CopyUpdated`, and only that. -/
theorem KeyCommand.copiesUnseen_iff (key : Bytes) (hlive : st.panicked = false) (value : Bytes) :
    copiesUnseen w s.nowMs st key (.setnx value) = true ↔
      ((KeyCommand.setnx value).answer w.handle key s st).1.1 = .copyUpdated := by
  have hloop := @setnxCopies_eq w.geometry key (.simple .setNx value s.nowMs) rfl
    (w.attempts st.calls) (st.record key) s.outScratch
  have hanswer : (KeyCommand.setnx value).answer w.handle key s st =
      w.call key (attemptRmw w.geometry key (.simple .setNx value s.nowMs)) s.outScratch st := by
    show w.handle (.rmw key (.simple .setNx value s.nowMs) s.outScratch) st = _
    rw [World.handle_live w hlive]
    rfl
  show setnxCopies _ _ _ _ _ = true ↔ _
  rw [← hloop, hanswer, World.call]
  cases callLoop (attemptRmw w.geometry key (.simple .setNx value s.nowMs)) (w.attempts st.calls)
    (st.record key) s.outScratch with
  | done status after out => cases status <;> simp [Outcome.copies]
  | retry after out => simp [Outcome.copies]
  | panic => simp [Outcome.copies]

theorem KeyCommand.exec_announced (c : KeyCommand) (key raw : Bytes) (hlive : st.panicked = false)
    (haof : s.aof = true) (hreplay : s.replay = false) :
    Announced s raw st ((c.exec raw key s).run w.handle st).2 ↔
      c.copiesUnseen w s.nowMs st key = false := by
  have hprepared : (c.prepared s).aof = s.aof ∧ (c.prepared s).replay = s.replay := by
    unfold KeyCommand.prepared
    split <;> exact ⟨rfl, rfl⟩
  -- only the preparation of GETDEL and GETEX changes the session
  have hcopies : c.copiesUnseen w s.nowMs st key = true ↔ ∃ value, c = .setnx value ∧
      (c.answer w.handle key (c.prepared s) st).1.1 = .copyUpdated := by
    cases c with
    | setnx value =>
      rw [KeyCommand.copiesUnseen_iff key hlive value]
      exact ⟨fun h => ⟨value, rfl, h⟩, fun ⟨_, _, h⟩ => h⟩
    | _ => exact ⟨fun h => (by cases h), fun ⟨_, h, _⟩ => (by cases h)⟩
  rw [KeyCommand.run_exec]
  rcases c.answer_cases (w := w) key (c.prepared s) hlive with
    ⟨status, after, out, hok, hanswer⟩ | hpanic
  · rw [c.prepared_nowMs] at hok
    rw [hanswer] at hcopies ⊢
    simp only
    cases hwrites : c.writes status out with
    | true =>
      rw [if_pos rfl, World.run_afterWrite_state w _ _ _ (by exact hlive)]
      refine iff_of_true ?_ ?_
      · intro k hchanged
        by_cases hk : k = key
        · subst hk
          constructor
          · show (if !(c.prepared s).replay && (c.prepared s).aof then _ else st.log) = _
            rw [hprepared.1, hprepared.2, haof, hreplay, c.prepared_nowMs]
            rfl
          · show _ < Function.update st.version _ _ _
            rw [Function.update_self]
            exact Nat.lt_succ_self _
        · exact absurd (seenAlike_update hk) hchanged
      · rw [← Bool.not_eq_true, hcopies]
        rintro ⟨value, rfl, hstatus⟩
        obtain rfl : status = .copyUpdated := hstatus
        cases hwrites
    | false =>
      rw [if_neg (by simp)]
      cases hcopy : c.copiesUnseen w s.nowMs st key with
      | true =>
        obtain ⟨value, rfl, hstatus⟩ := hcopies.mp hcopy
        obtain rfl : status = .copyUpdated := hstatus
        refine iff_of_false (fun hannounced => ?_) (by simp)
        -- the value that is seen now has not been logged
        obtain h | ⟨-, hbefore, hafter⟩ := RmwOk.setNx hok rfl rfl rfl
        · cases h
        · have hlog := (hannounced key fun hsame => hafter ?_).1
          · simp at hlog
          · have hnow := hsame s.nowMs (Int64.le_refl _)
            simp only [Function.update_self] at hnow
            exact hnow.symm.trans hbefore
      | false =>
        refine iff_of_true (.of_same fun k => ?_) rfl
        rcases KeyCommand.writes_or_left hok hwrites with hleft | ⟨value, rfl, rfl⟩
        · by_cases hk : k = key
          · subst hk
            show SeenAlike _ _ (Function.update st.record _ _ _)
            rw [Function.update_self]
            exact hleft.seen
          · exact seenAlike_update hk
        · rw [hcopies.mpr ⟨value, rfl, rfl⟩] at hcopy
          cases hcopy
  · rw [hpanic] at hcopies ⊢
    have hstay : ∀ b : Bool, (if b = true then ((afterWrite key raw
        { c.prepared s with outScratch := (c.prepared s).outScratch }).run w.handle
        { st with calls := st.calls + 1, panicked := true }).2
        else { st with calls := st.calls + 1, panicked := true }).record = st.record := by
      intro b
      split
      · rw [World.run_panicked w rfl]
      · rfl
    refine iff_of_true (.of_same fun k => ?_) ?_
    · show SeenAlike _ _ (Shared.record _ k)
      rw [hstay]
      exact .refl _ _
    · rw [← Bool.not_eq_true, hcopies]
      rintro ⟨_, _, h⟩
      cases h

end Commands

/-! ## Section 3: Commands on several keys -/

/-- The handler leaves all records. -/
def Handler.Reads (w : World) {α : Type} (h : Handler α) : Prop :=
  ∀ (s : RespSession) (st : Shared), ((h s).run w.handle st).2.record = st.record

section Keys

variable {w : World} {key raw : Bytes} {s : RespSession} {st : Shared} {now : Int64}

theorem Handler.reads_pure {α : Type} (a : α) : (pure a : Handler α).Reads w := fun _ _ => rfl

theorem Handler.Reads.bind {α β : Type} {h : Handler α} {f : α → Handler β} (hh : h.Reads w)
    (hf : ∀ a, (f a).Reads w) : (h >>= f).Reads w := by
  intro s st
  rw [run_handler_bind, hf, hh]

theorem KeyCommand.answer_reads {c : KeyCommand} (hkind : c.kind = .read) (key : Bytes)
    (s : RespSession) (st : Shared) : (c.answer w.handle key s st).2.record = st.record := by
  cases hpanic : st.panicked with
  | true =>
    unfold KeyCommand.answer World.handle
    simp only [hkind, hpanic, if_true]
  | false =>
    rcases c.answer_cases (w := w) key s hpanic with ⟨status, after, out, hok, hanswer⟩ | hanswer
    · rw [hanswer]
      unfold KeyCommand.AnswerOk at hok
      rw [hkind] at hok
      rw [hok.same]
      exact Function.update_eq_self _ _
    · rw [hanswer]

theorem KeyCommand.call_reads {c : KeyCommand} (hkind : c.kind = .read) (key : Bytes) :
    (c.call key).Reads w := by
  intro s st
  rw [KeyCommand.run_call]
  exact KeyCommand.answer_reads hkind key s st

theorem cmdGet_reads (key : Bytes) : (cmdGet key).Reads w := by
  intro s st
  rw [cmdGet_eq [], KeyCommand.run_exec]
  exact KeyCommand.answer_reads rfl key _ st

theorem mgetLoop_reads (keys : List Bytes) : (mgetLoop keys).Reads w := by
  induction keys with
  | nil => exact Handler.reads_pure []
  | cons key rest ih =>
    exact (cmdGet_reads key).bind fun _ => ih.bind fun _ => Handler.reads_pure _

theorem existsLoop_reads (keys : List Bytes) : (existsLoop keys).Reads w := by
  induction keys with
  | nil => exact Handler.reads_pure 0
  | cons key rest ih =>
    exact (KeyCommand.call_reads (c := .type) rfl key).bind fun status => ih.bind fun n =>
      Handler.reads_pure (if status = .found then n + 1 else n)

/-- What the loops of MSET and DEL do to the state: no log entry, and a new version for every key
    that a later read sees changed. -/
structure Bumped (now : Int64) (st st' : Shared) : Prop where
  live : st'.panicked = false
  log : st'.log = st.log
  version : ∀ slot, st.version slot ≤ st'.version slot
  changed : ∀ key, ¬ SeenAlike now (st.record key) (st'.record key) →
    st.version (watchSlot key) < st'.version (watchSlot key)

theorem Bumped.refl (hlive : st.panicked = false) : Bumped now st st :=
  ⟨hlive, rfl, fun _ => Nat.le_refl _, fun _ h => absurd (.refl _ _) h⟩

theorem Bumped.trans {st' st'' : Shared} (h : Bumped now st st') (h' : Bumped now st' st'') :
    Bumped now st st'' where
  live := h'.live
  log := h'.log.trans h.log
  version slot := Nat.le_trans (h.version slot) (h'.version slot)
  changed key hchanged := by
    by_cases hfirst : SeenAlike now (st.record key) (st'.record key)
    · refine Nat.lt_of_le_of_lt (h.version _) (h'.changed key fun hsecond => ?_)
      exact hchanged (hfirst.trans hsecond)
    · exact Nat.lt_of_lt_of_le (h.changed key hfirst) (h'.version _)

/-- The log entry after the loop. -/
theorem Bumped.announced {st' st'' : Shared} (h : Bumped s.nowMs st st')
    (hlog : st''.log = st'.log ++ [⟨.command, s.nowMs, raw⟩]) (hversion : st''.version = st'.version)
    (hrecord : st''.record = st'.record) : Announced s raw st st'' := by
  intro key hchanged
  rw [hrecord] at hchanged
  rw [hlog, h.log, hversion]
  exact ⟨rfl, h.changed key hchanged⟩

/-- A call that cannot panic. -/
theorem callLoop_ne_panic {attempt : Attempt → Option RecordPtr → StringOutput → Outcome}
    (h : ∀ a record out, attempt a record out ≠ .panic) (attempts : List Attempt)
    (record : Option RecordPtr) (out : StringOutput) :
    ∃ status after out', callLoop attempt attempts record out = .done status after out' := by
  induction attempts generalizing record out with
  | nil => exact ⟨.error, record, out, rfl⟩
  | cons a attempts ih =>
    rw [callLoop]
    cases hattempt : attempt a record out with
    | done status after out' => exact ⟨status, after, out', rfl⟩
    | retry after out' => exact ih after out'
    | panic => exact absurd hattempt (h a record out)

theorem initialWriter_isSome {g : Tsavorite.Geometry} {input : StringInput} {mem : ℕ → UInt8}
    {new : RecordPtr} (h : allocateRecord g (upsertSize key input) mem = some new) :
    (initialWriter input new).isSome := by
  have hcap : new.valueCap = input.operand.length := allocateRecord_cap h
  obtain ⟨r, hwrite, -⟩ := RecordPtr.writeVal_spec (r := new) (Nat.le_of_eq hcap.symm)
  unfold initialWriter
  simp [hwrite]

theorem attemptUpsert_ne_panic {g : Tsavorite.Geometry} {input : StringInput}
    (hfits : FitsInPage g (upsertSize key input)) (a : Attempt) (record : Option RecordPtr)
    (out : StringOutput) : attemptUpsert g key input a record out ≠ .panic := by
  have hwrite : attemptLink g a (upsertSize key input)
      (fun new => (initialWriter input new).map fun r => (r, out)) .created record out ≠ .panic := by
    intro hpanic
    have hfill : ∀ new, allocateRecord g (upsertSize key input) a.mem = some new →
        ((initialWriter input new).map fun r => (r, out)).isSome := by
      intro new hnew
      rw [Option.isSome_map]
      exact initialWriter_isSome hnew
    rcases attemptLink_eq .created record out hfill with ⟨-, hnot⟩ | ⟨-, hlink⟩
    · exact hnot hfits
    · rw [hpanic] at hlink
      split at hlink
      · obtain ⟨_, _, h⟩ := hlink
        cases h
      · obtain ⟨_, h⟩ := hlink
        cases h
  unfold attemptUpsert
  by_cases henters : a.enters
  · simp only [henters, not_true_eq_false, if_false]
    cases record with
    | none => exact hwrite
    | some r =>
      by_cases hplace : a.place = .mutable_
      · simp only [if_pos hplace]
        cases inPlaceWriter input r with
        | none => exact hwrite
        | some r' => nofun
      · simp only [if_neg hplace]
        exact hwrite
  · simp only [henters]
    nofun

theorem attemptDelete_ne_panic {g : Tsavorite.Geometry} (hfits : FitsInPage g ⟨key.length, 0, false⟩)
    (a : Attempt) (record : Option RecordPtr) (out : StringOutput) :
    attemptDelete g key a record out ≠ .panic := by
  unfold attemptDelete
  by_cases henters : a.enters
  · simp only [henters, not_true_eq_false, if_false]
    cases record with
    | none => nofun
    | some r =>
      cases a.place with
      | lost => nofun
      | mutable_ => nofun
      | frozen =>
        obtain ⟨new, hnew, -⟩ := allocateRecord_spec hfits a.mem
        simp only [attemptTombstone, hnew]
        split <;> nofun
  · simp only [henters]
    nofun

/-- The state after a bump. -/
def bumpedState (key : Bytes) (st : Shared) : Shared :=
  { st with version := Function.update st.version (watchSlot key) (st.version (watchSlot key) + 1) }

/-- A call on a key, and the bump of its version. -/
theorem bumped_call (hlive : st.panicked = false) (after : Option RecordPtr) :
    Bumped now st (bumpedState key
      { st with record := Function.update st.record key after, calls := st.calls + 1 }) where
  live := hlive
  log := rfl
  version slot := by
    show _ ≤ Function.update st.version _ _ slot
    by_cases hslot : slot = watchSlot key
    · subst hslot
      rw [Function.update_self]
      exact Nat.le_succ _
    · rw [Function.update_of_ne hslot]
  changed k hchanged := by
    by_cases hk : k = key
    · subst hk
      show _ < Function.update st.version _ _ _
      rw [Function.update_self]
      exact Nat.lt_succ_self _
    · exact absurd (seenAlike_update hk) hchanged

/-- Every pair of an MSET asks for a record that fits in a page. -/
def PairsFit (g : Tsavorite.Geometry) : List Bytes → Prop
  | key :: value :: rest => FitsInPage g ⟨key.length, value.length, false⟩ ∧ PairsFit g rest
  | _ => True

/-- An upsert whose record fits in a page has an answer. -/
theorem World.upsert_answers {input : StringInput}
    (hfits : FitsInPage w.geometry (upsertSize key input)) (out : StringOutput)
    (hlive : st.panicked = false) :
    ∃ status after out', w.handle (.upsert key input out) st = ((status, out'),
      { st with record := Function.update st.record key after, calls := st.calls + 1 }) := by
  obtain ⟨status, after, out', hloop⟩ := callLoop_ne_panic (attemptUpsert_ne_panic hfits)
    (w.attempts st.calls) (st.record key) out
  refine ⟨status, after, out', ?_⟩
  rw [World.handle_live w hlive]
  show w.call key _ out st = _
  rw [World.call, hloop]

theorem World.bump_state (hlive : st.panicked = false) (key : Bytes) :
    w.handle (.bump key) st = ((), bumpedState key st) := by
  rw [World.handle_live w hlive]
  rfl

/-- The loop of MSET, by induction on the pairs. -/
theorem msetLoop_bumped (pairs : List Bytes) (hfits : PairsFit w.geometry pairs)
    (hlive : st.panicked = false) :
    Bumped s.nowMs st ((msetLoop pairs s).run w.handle st).2 ∧
      ∃ o, ((msetLoop pairs s).run w.handle st).1.2 = s.withScratch o := by
  fun_induction everyOther pairs generalizing s st with
  | case1 key value rest ih =>
    obtain ⟨status, after, out, hanswer⟩ := World.upsert_answers (w := w)
      (show FitsInPage w.geometry (upsertSize key (.simple .set value s.nowMs)) from hfits.1)
      s.outScratch hlive
    have hpair : (msetLoop (key :: value :: rest) s).run w.handle st =
        (msetLoop rest (s.withScratch out)).run w.handle (bumpedState key
          { st with record := Function.update st.record key after, calls := st.calls + 1 }) := by
      show ((msetLoop rest { s with outScratch := (w.handle (.upsert key _ s.outScratch) st).1.2 }).run
        w.handle (w.handle (.bump key) (w.handle (.upsert key _ s.outScratch) st).2).2) = _
      rw [hanswer, World.bump_state (by exact hlive)]
      rfl
    rw [hpair]
    have hlive' : (bumpedState key { st with
        record := Function.update st.record key after, calls := st.calls + 1 }).panicked = false := hlive
    obtain ⟨hrest, o, hsession⟩ := ih (s := s.withScratch out) hfits.2 hlive'
    exact ⟨(bumped_call hlive after).trans hrest, o, hsession⟩
  | case2 key => exact ⟨.refl hlive, s.outScratch, rfl⟩
  | case3 => exact ⟨.refl hlive, s.outScratch, rfl⟩

theorem World.enqueue_state (hlive : st.panicked = false) (entry : AofEntry) :
    w.handle (.enqueue entry) st = ((), { st with log := st.log ++ [entry] }) := by
  rw [World.handle_live w hlive]
  rfl

/-- Outside of a replay, and with the log enabled, `log_write` appends an entry. -/
theorem run_logWrite_state (hlive : st.panicked = false) (haof : s.aof = true)
    (hreplay : s.replay = false) :
    (logWrite raw s).run w.handle st =
      (((), s), { st with log := st.log ++ [⟨.command, s.nowMs, raw⟩] }) := by
  have hlog : logWrite raw s = perform (.enqueue ⟨.command, s.nowMs, raw⟩) s := by
    show (if s.replay then pure () else
      if s.aof then perform (.enqueue ⟨.command, s.nowMs, raw⟩) else pure () : Handler Unit) s = _
    rw [hreplay, haof]
    rfl
  rw [hlog]
  show (((w.handle (.enqueue _) st).1, s), (w.handle (.enqueue _) st).2) = _
  rw [World.enqueue_state hlive]

theorem cmdMset_announced (pairs : List Bytes) (hfits : PairsFit w.geometry pairs)
    (hlive : st.panicked = false) (haof : s.aof = true) (hreplay : s.replay = false) :
    Announced s raw st ((cmdMset raw pairs s).run w.handle st).2 := by
  obtain ⟨hbumped, o, hsession⟩ := msetLoop_bumped (s := s) pairs hfits hlive
  unfold cmdMset
  rw [run_handler_bind, hsession, run_handler_bind,
    run_logWrite_state (s := s.withScratch o) hbumped.live haof hreplay]
  exact hbumped.announced rfl rfl rfl

/-- The loop of DEL, by induction on the keys. -/
theorem delLoop_bumped (keys : List Bytes)
    (hfits : ∀ key ∈ keys, FitsInPage w.geometry ⟨key.length, 0, false⟩)
    (hlive : st.panicked = false) :
    Bumped s.nowMs st ((delLoop keys s).run w.handle st).2 ∧
      ((delLoop keys s).run w.handle st).1.2 = s ∧
      (((delLoop keys s).run w.handle st).1.1 = 0 →
        ((delLoop keys s).run w.handle st).2.record = st.record) := by
  induction keys generalizing st with
  | nil => exact ⟨.refl hlive, rfl, fun _ => rfl⟩
  | cons key rest ih =>
    obtain ⟨status, after, out, hloop⟩ := callLoop_ne_panic
      (attemptDelete_ne_panic (hfits key (List.mem_cons_self ..))) (w.attempts st.calls)
      (st.record key) .default
    have hok := @deleteLoop_ok key w.geometry (w.attempts st.calls) (st.record key) .default
    rw [hloop] at hok
    have hdelete : w.handle (.delete key) st = (status,
        { st with record := Function.update st.record key after, calls := st.calls + 1 }) := by
      rw [World.handle_live w hlive]
      show ((w.call key _ _ st).1.1, (w.call key _ _ st).2) = _
      rw [World.call, hloop]
    have hrun : (delLoop (key :: rest) s).run w.handle st =
        ((if status = .deleted then do
            let _ ← perform (.bump key)
            return (← delLoop rest) + 1
          else delLoop rest : Handler ℕ) s).run w.handle
          { st with record := Function.update st.record key after, calls := st.calls + 1 } := by
      show Program.run w.handle ((if (w.handle (.delete key) st).1 = .deleted then _ else _ :
        Handler ℕ) s) (w.handle (.delete key) st).2 = _
      rw [hdelete]
    rw [hrun]
    have hrest := fun k hk => hfits k (List.mem_cons_of_mem _ hk)
    by_cases hdeleted : status = .deleted
    · rw [if_pos hdeleted]
      have hlive' : (bumpedState key { st with
          record := Function.update st.record key after, calls := st.calls + 1 }).panicked = false :=
        hlive
      obtain ⟨hbumped, hsession, -⟩ := ih hrest hlive'
      have hbump : ((do
            let _ ← perform (.bump key)
            return (← delLoop rest) + 1 : Handler ℕ) s).run w.handle
          { st with record := Function.update st.record key after, calls := st.calls + 1 } =
          ((delLoop rest >>= fun n => pure (n + 1) : Handler ℕ) s).run w.handle (bumpedState key
            { st with record := Function.update st.record key after, calls := st.calls + 1 }) := by
        show Program.run w.handle ((delLoop rest >>= fun n => pure (n + 1) : Handler ℕ) s)
          (w.handle (.bump key) _).2 = _
        rw [World.bump_state (by exact hlive)]
      rw [hbump, run_handler_bind]
      exact ⟨(bumped_call hlive after).trans hbumped, hsession, fun h => by cases h⟩
    · rw [if_neg hdeleted]
      have hleft : after = st.record key := hok.left hdeleted
      rw [hleft, Function.update_eq_self]
      obtain ⟨hbumped, hsession, hzero⟩ := @ih { st with calls := st.calls + 1 } hrest hlive
      -- the call has only been counted
      exact ⟨⟨hbumped.live, hbumped.log, hbumped.version, hbumped.changed⟩, hsession, hzero⟩

theorem cmdDel_announced (keys : List Bytes)
    (hfits : ∀ key ∈ keys, FitsInPage w.geometry ⟨key.length, 0, false⟩)
    (hlive : st.panicked = false) (haof : s.aof = true) (hreplay : s.replay = false) :
    Announced s raw st ((cmdDel raw keys s).run w.handle st).2 := by
  obtain ⟨hbumped, hsession, hzero⟩ := @delLoop_bumped w s st keys hfits hlive
  unfold cmdDel
  rw [run_handler_bind, hsession]
  by_cases hn : 0 < ((delLoop keys s).run w.handle st).1.1
  · rw [if_pos hn, run_handler_bind, run_logWrite_state hbumped.live haof hreplay]
    exact hbumped.announced rfl rfl rfl
  · rw [if_neg hn]
    refine .of_same fun key => ?_
    show SeenAlike _ _ (((delLoop keys s).run w.handle st).2.record key)
    rw [hzero (by omega)]
    exact .refl _ _

end Keys

/-! ## Section 4: All key-addressed commands -/

/-- The condition on a command: no SETNX stores its value by a copy, and no record of an MSET or a
    DEL is larger than a page, so that none of their calls panics after another has changed the
    store. -/
def Announces (w : World) (s : RespSession) (st : Shared) : Parsed → Prop
  | .one key c => c.copiesUnseen w s.nowMs st key = false
  | .mset pairs => PairsFit w.geometry pairs
  | .del keys => ∀ key ∈ keys, FitsInPage w.geometry ⟨key.length, 0, false⟩
  | .reply _ | .mget _ | .exists_ _ => True

/-- The commands on one key, and those that only read. -/
def Parsed.atMostOneWrite : Parsed → Bool
  | .mset _ | .del _ => false
  | _ => true

section All

variable {w : World} {raw : Bytes} {args : List Bytes} {s : RespSession} {st : Shared} {p : Parsed}

theorem Announced.of_reads {h : Handler Bytes} (hreads : h.Reads w) :
    Announced s raw st ((h s).run w.handle st).2 :=
  .of_same fun key => by
    rw [hreads s st]
    exact .refl _ _

theorem Parsed.exec_announced (hlive : st.panicked = false) (haof : s.aof = true)
    (hreplay : s.replay = false) :
    (Announces w s st p → Announced s raw st ((p.exec raw s).run w.handle st).2) ∧
      (p.atMostOneWrite = true →
        (Announced s raw st ((p.exec raw s).run w.handle st).2 ↔ Announces w s st p)) := by
  have hiff {q : Parsed} (h : Announced s raw st ((q.exec raw s).run w.handle st).2 ↔
      Announces w s st q) :
      (Announces w s st q → Announced s raw st ((q.exec raw s).run w.handle st).2) ∧
        (q.atMostOneWrite = true →
          (Announced s raw st ((q.exec raw s).run w.handle st).2 ↔ Announces w s st q)) :=
    ⟨h.mpr, fun _ => h⟩
  cases p with
  | reply b => exact hiff (iff_of_true (.of_same fun _ => .refl _ _) trivial)
  | one key c => exact hiff (c.exec_announced key raw hlive haof hreplay)
  | mset pairs => exact ⟨fun hfits => cmdMset_announced pairs hfits hlive haof hreplay, nofun⟩
  | mget keys =>
    exact hiff (iff_of_true (.of_reads ((mgetLoop_reads keys).bind fun _ => Handler.reads_pure _))
      trivial)
  | del keys => exact ⟨fun hfits => cmdDel_announced keys hfits hlive haof hreplay, nofun⟩
  | exists_ keys =>
    exact hiff (iff_of_true (.of_reads ((existsLoop_reads keys).bind fun _ => Handler.reads_pure _))
      trivial)

end All

end Garnet
