import MiniGarnet.Garnet.Announce
import MiniGarnet.Garnet.Pipelining

/-! # Records that are too large

    The allocator asserts that a record fits in a page.  The sizes come from
    the callbacks, and these from the lengths and the offset that the client
    sends; nothing in between compares them with the page, and there is no
    error reply.  It is said here for every operation which size it asks for,
    and that a run of commands fails, by the assertion or anything else in
    the callbacks, if and only if it asks for a record that does not fit.
-/

namespace Garnet

open Tsavorite (RecordSizeInfo Geometry Status)
open StringFunctions

/-! ## Section 1: Callbacks that do not fail -/

section Fill

variable {g : Geometry} {key : Bytes} {input : StringInput} {mem : ℕ → UInt8} {r old new : RecordPtr}
  {out : StringOutput}

theorem initialUpdater_isSome (h : allocateRecord g (initialSize key input) mem = some new) :
    (initialUpdater input new out).isSome := by
  have hcap := allocateRecord_cap h
  unfold initialSize at hcap
  have hvalue : (initialValue input new out).isSome := by
    have hwrite (hlen : new.valueCap = input.operand.length) : (new.writeVal input.operand).isSome := by
      obtain ⟨r, hr, -⟩ := RecordPtr.writeVal_spec (r := new) (Nat.le_of_eq hlen.symm)
      simp [hr]
    unfold initialValue
    cases hop : input.op with
    | incrBy =>
      simp only [hop] at hcap
      obtain ⟨r, hr, -⟩ := RecordPtr.writeVal_spec (r := new) (v := Resp.fmtI64 input.delta)
        (by rw [Resp.length_fmtI64, hcap])
      simp [hr]
    | setRange offset =>
      simp only [hop] at hcap
      have hn : offset + input.operand.length ≤ new.valueCap := Nat.le_of_eq hcap.symm
      obtain ⟨buf₁, hfill, hlen₁, -⟩ :=
        Slice.fill_spec new.valueBuf 0 (Nat.zero_le offset) (Nat.le_trans (by omega) hn)
      obtain ⟨buf₂, hcopy, hlen₂, -⟩ :=
        Slice.copyFrom_spec buf₁ input.operand (Nat.le_add_right offset input.operand.length)
          (by rw [hlen₁]; exact hn) (by omega)
      obtain ⟨r', hwith, -⟩ := RecordPtr.withValue_spec (hlen₂.trans hlen₁) hn
      simp [hfill, hcopy, hwith]
    | _ =>
      simp only [hop] at hcap
      obtain ⟨r, hr⟩ := Option.isSome_iff_exists.mp (hwrite hcap)
      simp [hr]
  obtain ⟨x, hx⟩ := Option.isSome_iff_exists.mp hvalue
  unfold initialUpdater
  rw [hx]
  show (if input.expiration ≠ 0 then _ else _ : Option (RecordPtr × StringOutput)).isSome
  split <;> rfl

theorem copyUpdater_isSome (h : allocateRecord g (copySize key input old) mem = some new) :
    (copyUpdater input old new out).isSome := by
  have hcap := allocateRecord_cap h
  unfold copySize at hcap
  have hvalue : (copyValue input old new out).isSome := by
    have hwrite {v : Bytes} (hlen : new.valueCap = v.length) : (new.writeVal v).isSome := by
      obtain ⟨r, hr, -⟩ := RecordPtr.writeVal_spec (r := new) (Nat.le_of_eq hlen.symm)
      simp [hr]
    unfold copyValue
    cases hop : input.op with
    | incrBy =>
      simp only [hop] at hcap
      obtain ⟨r, hr, -⟩ := RecordPtr.writeVal_spec (r := new)
        (v := Resp.fmtI64 (oldNumber input old + input.delta)) (by rw [Resp.length_fmtI64, hcap])
      simp [hr]
    | append =>
      simp only [hop] at hcap
      obtain ⟨buf₁, buf₂, r', hcopy₁, hcopy₂, hwith, -⟩ :=
        copyAppend_spec (r := new) (Nat.le_of_eq hcap.symm)
      simp [hcopy₁, hcopy₂, hwith]
    | setRange offset =>
      simp only [hop] at hcap
      obtain ⟨buf₁, buf₂, buf₃, r', hfill, hcopy₂, hcopy₃, hwith, -⟩ :=
        copySetRange_spec (r := new) (Nat.le_of_eq hcap.symm)
      simp [hfill, hcopy₂, hcopy₃, hwith]
    | _ =>
      simp only [hop] at hcap
      obtain ⟨r, hr⟩ := Option.isSome_iff_exists.mp (hwrite hcap)
      simp [hr]
  obtain ⟨x, hx⟩ := Option.isSome_iff_exists.mp hvalue
  unfold copyUpdater
  rw [hx]
  show (if x.1.hasExpirationSlot then _ else _ : Option (RecordPtr × StringOutput)).isSome
  split <;> rfl

theorem setInPlace_isSome (hfits : input.operand.length ≤ r.valueCap) :
    (setInPlace input r out).isSome := by
  -- the deadline does not touch the room for the value
  have hset (ts : Int64) : (r.setExpiration ts).1.valueCap = r.valueCap := by
    unfold RecordPtr.setExpiration
    split <;> rfl
  have hcap : (applyTtlInPlace r input).1.valueCap = r.valueCap := by
    unfold applyTtlInPlace
    repeat' split
    all_goals first | rfl | exact hset _
  unfold setInPlace
  obtain ⟨r', done, happly⟩ : ∃ r' done, applyTtlInPlace r input = (r', done) := ⟨_, _, rfl⟩
  rw [happly] at hcap ⊢
  cases done with
  | false => rfl
  | true =>
    obtain ⟨r'', hr, -⟩ := RecordPtr.writeVal_spec (r := r') (v := input.operand)
      (by rw [hcap]; exact hfits)
    simp [hr]

theorem inPlaceUpdater_isSome (input : StringInput) (r : RecordPtr) (out : StringOutput) :
    (inPlaceUpdater input r out).isSome := by
  unfold inPlaceUpdater
  by_cases hexp : r.expired input.nowMs = true
  · rw [if_pos hexp]
    rfl
  rw [if_neg hexp]
  cases hop : input.op with
  | setXx | set | setKeepTtl | setGet keep =>
    simp only
    split
    · rfl
    · rename_i hroom
      exact setInPlace_isSome (Nat.le_of_not_lt hroom)
  | incrBy =>
    simp only [incrInPlace]
    split
    · rfl
    · split
      · rfl
      · split
        · rfl
        · rename_i n _ hroom
          obtain ⟨r', hr, -⟩ := RecordPtr.writeVal_spec (r := r) (v := Resp.fmtI64 n)
            (Nat.le_of_not_lt hroom)
          simp [hr]
  | append =>
    by_cases hroom : r.valueCap < r.valueLen + input.operand.length
    · simp [appendInPlace, hroom]
    · obtain ⟨r', happend, -⟩ := appendInPlace_spec out hroom
      simp [happend]
  | setRange offset =>
    by_cases hroom : r.valueCap < max (offset + input.operand.length) r.valueLen
    · simp only [setRangeInPlace, if_pos hroom]
      rfl
    · obtain ⟨r', hset, -⟩ := setRangeInPlace_spec out hroom
      simp [hset]
  | expire | persist =>
    simp only
    split <;> rfl
  | _ => rfl

end Fill

/-! ## Section 2: What an operation asks for -/

section Asks

variable (key : Bytes) (input : StringInput)

/-- The size `rmw_initial` asks for. -/
def initialAsks : Option RecordSizeInfo :=
  if needInitialUpdate input then some (initialSize key input) else none

/-- The size `rmw_copy` asks for: that of the copy, or of a tombstone. -/
def copyAsks (old : RecordPtr) (out : StringOutput) : Option RecordSizeInfo :=
  match (needCopyUpdate input old out).1 with
  | .cancel => none
  | .delete => some ⟨key.length, 0, false⟩
  | .copy => some (copySize key input old)

def rmwAsks (a : Attempt) (record : Option RecordPtr) (out : StringOutput) : Option RecordSizeInfo :=
  if ¬ a.enters then none
  else
    match record with
    | none => initialAsks key input
    | some r =>
      match a.place with
      | .lost => initialAsks key input
      | .frozen => copyAsks key input r out
      | .mutable_ =>
        match inPlaceUpdater input r out with
        | some (.expired, _, _) => initialAsks key input
        | some (.needCopy, r, out) => copyAsks key input r out
        | _ => none

def upsertAsks (a : Attempt) (record : Option RecordPtr) : Option RecordSizeInfo :=
  if ¬ a.enters then none
  else if a.place = .mutable_ ∧ (record.bind fun r => inPlaceWriter input r).isSome then none
  else some (upsertSize key input)

def deleteAsks (a : Attempt) (record : Option RecordPtr) : Option RecordSizeInfo :=
  if a.enters ∧ record ≠ none ∧ a.place = .frozen then some ⟨key.length, 0, false⟩ else none

end Asks

section Attempts

variable {g : Geometry} {key : Bytes} {input : StringInput} {a : Attempt}
  {record : Option RecordPtr} {out : StringOutput}

/-- A link fails just by the assertion, if the callback that fills the record does not fail. -/
theorem attemptLink_panic_iff {size : RecordSizeInfo}
    {fill : RecordPtr → Option (RecordPtr × StringOutput)} (status : Status)
    (hfill : ∀ new, allocateRecord g size a.mem = some new → (fill new).isSome) :
    attemptLink g a size fill status record out = .panic ↔ ¬ FitsInPage g size := by
  rcases attemptLink_eq status record out hfill with ⟨hpanic, hnot⟩ | ⟨hfits, hlink⟩
  · exact iff_of_true hpanic hnot
  · refine iff_of_false (fun hpanic => ?_) fun hnot => hnot hfits
    rw [hpanic] at hlink
    split at hlink
    · obtain ⟨_, _, h⟩ := hlink
      cases h
    · obtain ⟨_, h⟩ := hlink
      cases h

theorem attemptInitial_panic_iff :
    attemptInitial g key input a record out = .panic ↔
      ∃ size ∈ initialAsks key input, ¬ FitsInPage g size := by
  unfold attemptInitial initialAsks
  by_cases hneed : needInitialUpdate input = true
  · rw [if_pos hneed, if_pos hneed, attemptLink_panic_iff _ fun new hnew => initialUpdater_isSome hnew]
    simp
  · simp [hneed]

theorem attemptTombstone_panic_iff :
    attemptTombstone g key a record out = .panic ↔ ¬ FitsInPage g ⟨key.length, 0, false⟩ := by
  unfold attemptTombstone
  cases halloc : allocateRecord g ⟨key.length, 0, false⟩ a.mem with
  | none => exact iff_of_true rfl (allocateRecord_none halloc)
  | some new =>
    have hfits : FitsInPage g ⟨key.length, 0, false⟩ := by
      by_contra hnot
      simp [allocateRecord, hnot] at halloc
    refine iff_of_false (fun hpanic => ?_) fun hnot => hnot hfits
    simp only at hpanic
    split at hpanic <;> cases hpanic

theorem attemptCopy_panic_iff (r : RecordPtr) :
    attemptCopy g key input a r out = .panic ↔
      ∃ size ∈ copyAsks key input r out, ¬ FitsInPage g size := by
  unfold attemptCopy copyAsks
  obtain ⟨decision, out', hneed⟩ : ∃ decision out', needCopyUpdate input r out = (decision, out') :=
    ⟨_, _, rfl⟩
  rw [hneed]
  cases decision with
  | cancel => simp
  | delete => simp [attemptTombstone_panic_iff]
  | copy =>
    simp only
    rw [attemptLink_panic_iff _ fun new hnew => copyUpdater_isSome hnew]
    simp

theorem attemptRmw_panic_iff :
    attemptRmw g key input a record out = .panic ↔
      ∃ size ∈ rmwAsks key input a record out, ¬ FitsInPage g size := by
  unfold attemptRmw rmwAsks
  cases a.enters with
  | false => simp
  | true =>
    simp only [not_true_eq_false, if_false]
    cases record with
    | none => exact attemptInitial_panic_iff
    | some r =>
      cases a.place with
      | lost => exact attemptInitial_panic_iff
      | frozen => exact attemptCopy_panic_iff r
      | mutable_ =>
        obtain ⟨⟨result, r', out'⟩, hupdate⟩ :=
          Option.isSome_iff_exists.mp (inPlaceUpdater_isSome input r out)
        simp only [hupdate]
        cases result with
        | updated | cancel | delete => simp
        | expired => exact attemptInitial_panic_iff
        | needCopy => exact attemptCopy_panic_iff r'

theorem attemptUpsert_panic_iff :
    attemptUpsert g key input a record out = .panic ↔
      ∃ size ∈ upsertAsks key input a record, ¬ FitsInPage g size := by
  have hlink : attemptLink g a (upsertSize key input)
      (fun new => (initialWriter input new).map fun r => (r, out)) .created record out = .panic ↔
        ∃ size ∈ some (upsertSize key input), ¬ FitsInPage g size := by
    rw [attemptLink_panic_iff _ fun new hnew => by
      rw [Option.isSome_map]
      exact initialWriter_isSome hnew]
    simp
  unfold attemptUpsert upsertAsks
  cases a.enters with
  | false => simp
  | true =>
    simp only [not_true_eq_false, if_false]
    cases record with
    | none => simpa using hlink
    | some r =>
      by_cases hplace : a.place = .mutable_
      · cases hwrite : inPlaceWriter input r with
        | none => simpa [hplace, hwrite] using hlink
        | some r' => simp [hplace, hwrite]
      · simpa [hplace] using hlink

theorem attemptDelete_panic_iff :
    attemptDelete g key a record out = .panic ↔
      ∃ size ∈ deleteAsks key a record, ¬ FitsInPage g size := by
  unfold attemptDelete deleteAsks
  cases henters : a.enters with
  | false => simp
  | true =>
    cases record with
    | none => simp
    | some r => cases hplace : a.place <;> simp [attemptTombstone_panic_iff]

end Attempts

/-! ## Section 3: Runs -/

/-- All sizes that the attempts of a call ask for fit in a page. -/
def AttemptsFit (g : Geometry) (attempt : Attempt → Option RecordPtr → StringOutput → Outcome)
    (asks : Attempt → Option RecordPtr → StringOutput → Option RecordSizeInfo) :
    List Attempt → Option RecordPtr → StringOutput → Prop
  | [], _, _ => True
  | a :: attempts, record, out =>
    (∀ size ∈ asks a record out, FitsInPage g size) ∧
      ∀ record' out', attempt a record out = .retry record' out' →
        AttemptsFit g attempt asks attempts record' out'

/-- All sizes that an operation asks for fit in a page. -/
def Effect.Fits (w : World) (e : Effect) (st : Shared) : Prop :=
  match e with
  | .upsert key input out =>
    AttemptsFit w.geometry (attemptUpsert w.geometry key input)
      (fun a record _ => upsertAsks key input a record) (w.attempts st.calls) (st.record key) out
  | .rmw key input out =>
    AttemptsFit w.geometry (attemptRmw w.geometry key input) (rmwAsks key input)
      (w.attempts st.calls) (st.record key) out
  | .delete key =>
    AttemptsFit w.geometry (attemptDelete w.geometry key)
      (fun a record _ => deleteAsks key a record) (w.attempts st.calls) (st.record key) .default
  | _ => True

/-- Every operation that the program performs asks for records that fit. -/
def RunFits (w : World) {α : Type} : Program Effect Effect.Result α → Shared → Prop
  | .ret _, _ => True
  | .op e k, st => e.Fits w st ∧ RunFits w (k (w.handle e st).1) (w.handle e st).2

/-- The requests of a connection, one after another. -/
def World.serveAll (w : World) : List Request → RespSession → Shared → RespSession × Shared
  | [], s, st => (s, st)
  | req :: rest, s, st =>
    let x := (dispatch req.clock req.raw req.args s).run w.handle st
    w.serveAll rest x.1.2 x.2

/-- No command of the run trips the assertion; one that would ask for a record that does not fit is
    answered with an error and leaves the keys alone, as EXEC does with the other commands. -/
def World.Withstands (w : World) : List Request → RespSession → Shared → Prop
  | [], _, _ => True
  | req :: rest, s, st =>
    let x := (dispatch req.clock req.raw req.args s).run w.handle st
    x.2.panicked = false ∧
      (¬ RunFits w (dispatch req.clock req.raw req.args s) st →
        (∃ text, Resp.error text <:+: x.1.1.1) ∧
          (commandOf req.args ≠ some .exec → x.2.record = st.record)) ∧
      w.Withstands rest x.1.2 x.2

/-- All of their operations ask for records that fit. -/
def World.AllFit (w : World) : List Request → RespSession → Shared → Prop
  | [], _, _ => True
  | req :: rest, s, st =>
    let x := (dispatch req.clock req.raw req.args s).run w.handle st
    RunFits w (dispatch req.clock req.raw req.args s) st ∧ w.AllFit rest x.1.2 x.2

section Runs

variable {w : World} {g : Geometry} {st : Shared} {record : Option RecordPtr} {out : StringOutput}
  {attempt : Attempt → Option RecordPtr → StringOutput → Outcome}
  {asks : Attempt → Option RecordPtr → StringOutput → Option RecordSizeInfo}

/-- A call fails just if one of its attempts asks for too much, by induction on the attempts. -/
theorem callLoop_panic_iff
    (h : ∀ a record out, attempt a record out = .panic ↔
      ∃ size ∈ asks a record out, ¬ FitsInPage g size) (attempts : List Attempt) :
    callLoop attempt attempts record out = .panic ↔ ¬ AttemptsFit g attempt asks attempts record out := by
  induction attempts generalizing record out with
  | nil => simp [callLoop, AttemptsFit]
  | cons a attempts ih =>
    have hfirst : (∀ size ∈ asks a record out, FitsInPage g size) ↔ attempt a record out ≠ .panic := by
      rw [ne_eq, h]
      push Not
      rfl
    rw [callLoop, AttemptsFit, hfirst]
    cases hattempt : attempt a record out with
    | done status after out' => simp
    | retry after out' => simp [ih]
    | panic => simp

theorem callLoop_ne_retry (attempts : List Attempt) (after : Option RecordPtr) (out' : StringOutput) :
    callLoop attempt attempts record out ≠ .retry after out' := by
  induction attempts generalizing record out with
  | nil => simp [callLoop]
  | cons a attempts ih =>
    rw [callLoop]
    split
    · simp
    · exact ih
    · simp

/-- A call goes on living just if all of its attempts ask for records that fit. -/
theorem World.call_live_iff (hlive : st.panicked = false) {key : Bytes}
    (h : ∀ a record out, attempt a record out = .panic ↔
      ∃ size ∈ asks a record out, ¬ FitsInPage w.geometry size) :
    (w.call key attempt out st).2.panicked = false ↔
      AttemptsFit w.geometry attempt asks (w.attempts st.calls) (st.record key) out := by
  have hpanic := @callLoop_panic_iff w.geometry (st.record key) out attempt asks h
    (w.attempts st.calls)
  unfold World.call
  cases hloop : callLoop attempt (w.attempts st.calls) (st.record key) out with
  | done status after out' =>
    rw [hloop] at hpanic
    refine iff_of_true hlive ?_
    by_contra hno
    cases hpanic.mpr hno
  | retry after out' => exact absurd hloop (callLoop_ne_retry _ _ _)
  | panic =>
    rw [hloop] at hpanic
    exact iff_of_false nofun (hpanic.mp rfl)

/-- An operation goes on living just if it asks for records that fit. -/
theorem World.handle_live_iff (hlive : st.panicked = false) (e : Effect) :
    (w.handle e st).2.panicked = false ↔ e.Fits w st := by
  rw [World.handle_live w hlive]
  cases e with
  | upsert key input out => exact World.call_live_iff hlive fun _ _ _ => attemptUpsert_panic_iff
  | rmw key input out => exact World.call_live_iff hlive fun _ _ _ => attemptRmw_panic_iff
  | delete key => exact World.call_live_iff hlive fun _ _ _ => attemptDelete_panic_iff
  | read key input out =>
    refine iff_of_true ?_ trivial
    -- a read asks for nothing
    have hread : ∀ a record out, attemptRead input a record out = .panic ↔
        ∃ size ∈ (none : Option RecordSizeInfo), ¬ FitsInPage w.geometry size := by
      intro a record out
      refine iff_of_false ?_ (by simp)
      unfold attemptRead
      split
      · nofun
      · cases record with
        | none => nofun
        | some r =>
          simp only
          split
          · nofun
          · split <;> nofun
    have hfits : ∀ attempts record out, AttemptsFit w.geometry (attemptRead input)
        (fun _ _ _ => none) attempts record out := by
      intro attempts
      induction attempts with
      | nil => exact fun _ _ => trivial
      | cons a attempts ih => exact fun _ _ => ⟨nofun, fun record' out' _ => ih record' out'⟩
    exact (World.call_live_iff hlive hread).mpr (hfits _ _ _)
  | _ => exact iff_of_true hlive trivial

/-- A program goes on living just if all of its operations ask for records that fit. -/
theorem World.run_live_iff {α : Type} (p : Program Effect Effect.Result α)
    (hlive : st.panicked = false) :
    (p.run w.handle st).2.panicked = false ↔ RunFits w p st := by
  induction p generalizing st with
  | ret a => exact iff_of_true hlive trivial
  | op e k ih =>
    show ((k (w.handle e st).1).run w.handle (w.handle e st).2).2.panicked = false ↔
      e.Fits w st ∧ RunFits w (k (w.handle e st).1) (w.handle e st).2
    rw [← World.handle_live_iff hlive]
    cases hstep : (w.handle e st).2.panicked with
    | false =>
      rw [ih _ hstep]
      simp
    | true =>
      rw [World.run_panicked w hstep, hstep]
      simp

/-- After a panic nothing is dispatched. -/
theorem World.serveAll_panicked (reqs : List Request) (s : RespSession) (h : st.panicked = true) :
    (w.serveAll reqs s st).2.panicked = true := by
  induction reqs generalizing s st with
  | nil => exact h
  | cons req rest ih =>
    apply ih
    rw [World.run_panicked w h]
    exact h

/-- A sequence of commands does not fail, by the assertion or anywhere else in the callbacks, just if
    all of its operations ask for records that fit. -/
theorem World.serveAll_live_iff (reqs : List Request) (s : RespSession) (hlive : st.panicked = false) :
    (w.serveAll reqs s st).2.panicked = false ↔ w.AllFit reqs s st := by
  induction reqs generalizing s st with
  | nil => exact iff_of_true hlive trivial
  | cons req rest ih =>
    rw [World.serveAll, World.AllFit, ← World.run_live_iff _ hlive]
    cases hfirst : ((dispatch req.clock req.raw req.args s).run w.handle st).2.panicked with
    | false =>
      rw [ih _ hfirst]
      simp
    | true => simp [World.serveAll_panicked rest _ hfirst]

end Runs

/-- **Records that are too large.**  In a sequence of commands, from any session and whatever the
    attempts of its operations meet, the assertion is never tripped, and a record that does not
    fit refused with an error, if and only if no operation asks for a record that does not fit. -/
theorem record_size_iff (w : World) (reqs : List Request) (s : RespSession) {st : Shared}
    (hlive : st.panicked = false) : w.Withstands reqs s st ↔ w.AllFit reqs s st := by
  induction reqs generalizing s st with
  | nil => exact Iff.rfl
  | cons req rest ih =>
    rw [World.Withstands, World.AllFit]
    constructor
    · rintro ⟨hfirst, -, hrest⟩
      exact ⟨(World.run_live_iff _ hlive).mp hfirst, (ih _ hfirst).mp hrest⟩
    · rintro ⟨hfits, hrest⟩
      have hfirst := (World.run_live_iff _ hlive).mpr hfits
      exact ⟨hfirst, fun hno => absurd hfits hno, (ih _ hfirst).mpr hrest⟩

/-- The requests of a client, at the clock 4000. -/
def requestsOf (commands : List (List String)) : List Request :=
  commands.map fun args => ⟨4000, Resp.arrayHeader args.length ++
    (args.map fun arg => Resp.bulk (ascii arg)).flatten, args.map ascii⟩

/-- A transaction that lets a value grow. -/
theorem record_size_iff_append :
    (World.calm .frozen).Withstands
      (requestsOf [["SET", "k", "v"], ["MULTI"], ["APPEND", "k", "w"], ["SETRANGE", "k", "40", "x"],
        ["EXEC"]]) (.new true) (.holding []) :=
  (record_size_iff (World.calm .frozen) _ (.new true) rfl).mpr
    ((World.serveAll_live_iff _ (.new true) rfl).mp (by decide +kernel))

/-- SETRANGE past the end of a page of a megabyte: the command panics, and nothing is answered any
    more. -/
theorem setrange_trips_assertion :
    let w : World := { World.calm .mutable_ with geometry := .twoPages 20 (by decide) }
    let reqs := requestsOf [["SETRANGE", "k", "10000000", "x"]]
    (w.serveAll reqs (.new true) (.holding [])).2.panicked = true ∧
      ¬ w.Withstands reqs (.new true) (.holding []) := by
  intro w reqs
  have hpanic : (w.serveAll reqs (.new true) (.holding [])).2.panicked = true := by decide +kernel
  refine ⟨hpanic, fun hwithstands => ?_⟩
  have hlive : (w.serveAll reqs (.new true) (.holding [])).2.panicked = false := hwithstands.1
  rw [hpanic] at hlive
  cases hlive

/-! ## Section 4: Sizes and writers

    The size callbacks and the writers go through the operations in separate
    matches.  A record allocated for a size has room for what the writer puts
    into it, and a slot where the writer has a deadline to store.
-/

section Suffice

variable {g : Geometry} {key : Bytes} {input : StringInput} {old new r r' : RecordPtr}
  {out out' : StringOutput}

theorem RecordPtr.withValue_cap {buf : Bytes} {n : ℕ} (h : r.withValue buf n = some r') :
    r'.valueCap = r.valueCap := by
  unfold RecordPtr.withValue at h
  split at h
  · next hlen =>
    obtain rfl := Option.some.inj h
    exact hlen.1
  · cases h

theorem RecordPtr.writeVal_cap {v : Bytes} (h : r.writeVal v = some r') :
    r'.valueCap = r.valueCap := by
  unfold RecordPtr.writeVal at h
  obtain ⟨buf, -, hwith⟩ := Option.bind_eq_some_iff.mp h
  exact RecordPtr.withValue_cap hwith

@[simp] theorem RecordPtr.setExpiration_len (r : RecordPtr) (ts : Int64) :
    (r.setExpiration ts).1.valueLen = r.valueLen := by
  unfold RecordPtr.setExpiration
  split <;> rfl

/-- Whatever `initial_updater` writes, the capacity and the slot are those of the new record. -/
theorem initialValue_same (h : initialValue input new out = some (r, out')) :
    r.valueCap = new.valueCap ∧ r.expirationSlot = new.expirationSlot := by
  unfold initialValue at h
  cases hop : input.op with
  | setRange offset =>
    simp only [hop, Option.bind_eq_bind, Option.pure_def, Option.bind_eq_some_iff] at h
    obtain ⟨buf₁, hfill, buf₂, hcopy, r₂, hwith, h⟩ := h
    obtain ⟨rfl, rfl⟩ := Prod.mk.inj (Option.some.inj h)
    exact ⟨RecordPtr.withValue_cap hwith, (RecordPtr.withValue_len hwith).2⟩
  | _ =>
    simp only [hop, Option.bind_eq_bind, Option.pure_def, Option.bind_eq_some_iff] at h
    obtain ⟨r₂, hwrite, h⟩ := h
    obtain ⟨rfl, rfl⟩ := Prod.mk.inj (Option.some.inj h)
    exact ⟨RecordPtr.writeVal_cap hwrite, (RecordPtr.writeVal_value hwrite).2⟩

theorem copyValue_cap (h : copyValue input old new out = some (r, out')) :
    r.valueCap = new.valueCap := by
  unfold copyValue at h
  cases hop : input.op with
  | setRange offset =>
    simp only [hop, Option.bind_eq_bind, Option.pure_def, Option.bind_eq_some_iff] at h
    obtain ⟨buf₁, -, buf₂, -, buf₃, -, r₂, hwith, h⟩ := h
    obtain ⟨rfl, rfl⟩ := Prod.mk.inj (Option.some.inj h)
    exact RecordPtr.withValue_cap hwith
  | append =>
    simp only [hop, Option.bind_eq_bind, Option.pure_def, Option.bind_eq_some_iff] at h
    obtain ⟨buf₁, -, buf₂, -, r₂, hwith, h⟩ := h
    obtain ⟨rfl, rfl⟩ := Prod.mk.inj (Option.some.inj h)
    exact RecordPtr.withValue_cap hwith
  | _ =>
    simp only [hop, Option.bind_eq_bind, Option.pure_def, Option.bind_eq_some_iff] at h
    obtain ⟨r₂, hwrite, h⟩ := h
    obtain ⟨rfl, rfl⟩ := Prod.mk.inj (Option.some.inj h)
    exact RecordPtr.writeVal_cap hwrite

/-- Where the copy has a deadline to store, its size asks for a slot. -/
theorem copySize_slot_of_ttl (h : copyTtl input old ≠ 0) :
    (copySize key input old).hasExpiration = true := by
  unfold copyTtl at h
  unfold copySize
  by_cases hexp : input.expiration = 0
  · -- only a carried deadline is left, and it comes from a slot
    cases hop : input.op <;> simp_all
  · cases hop : input.op <;> simp_all

/-- A record allocated for `size` is enough for a writer with this deadline: no slice of it is out
    of range, the value fits, and the deadline is not dropped for lack of a slot. -/
def Sufficient (g : Geometry) (size : RecordSizeInfo) (deadline : Int64)
    (write : RecordPtr → Option RecordPtr) : Prop :=
  FitsInPage g size → ∀ mem, ∃ new r, allocateRecord g size mem = some new ∧ write new = some r ∧
    r.valueLen ≤ new.valueCap ∧ (deadline ≠ 0 → new.hasExpirationSlot = true) ∧
    r.expiration = deadline

/-- The deadline is stored where there is a slot, and there is one if it is not zero. -/
theorem setExpiration_stored {deadline : Int64} (hslot : deadline ≠ 0 → r.hasExpirationSlot = true) :
    (r.setExpiration deadline).1.expiration = deadline := by
  cases hhas : r.hasExpirationSlot with
  | true => rw [RecordPtr.setExpiration_of_slot hhas]; rfl
  | false =>
    rw [RecordPtr.setExpiration_of_no_slot hhas, RecordPtr.expiration_of_no_slot hhas]
    by_contra hne
    rw [hslot (Ne.symm hne)] at hhas
    cases hhas

theorem upsertSize_sufficient (g : Geometry) (key : Bytes) (input : StringInput) :
    Sufficient g (upsertSize key input) input.expiration (initialWriter input) := by
  intro hfits mem
  obtain ⟨new, halloc, hcap, -⟩ := allocateRecord_spec hfits mem
  have hhas := allocateRecord_slot halloc
  obtain ⟨r, hr⟩ := Option.isSome_iff_exists.mp (initialWriter_isSome halloc)
  obtain ⟨hvalue, hexp⟩ := initialWriter_written hhas hr
  refine ⟨new, r, halloc, hr, ?_, fun hne => ?_, hexp⟩
  · rw [← RecordPtr.length_value, hvalue, hcap]
    exact Nat.le_refl _
  · rw [hhas]
    exact decide_eq_true hne

theorem initialSize_sufficient (g : Geometry) (key : Bytes) (input : StringInput)
    (out : StringOutput) : Sufficient g (initialSize key input) input.expiration fun new =>
      (initialUpdater input new out).map Prod.fst := by
  intro hfits mem
  obtain ⟨new, halloc, -, hfresh⟩ := allocateRecord_spec hfits mem
  have hslot : input.expiration ≠ 0 → new.hasExpirationSlot = true := by
    rw [allocateRecord_slot halloc]
    exact decide_eq_true
  have hsome : (initialUpdater input new out).isSome := initialUpdater_isSome halloc
  obtain ⟨⟨r, out'⟩, hr⟩ := Option.isSome_iff_exists.mp hsome
  refine ⟨new, r, halloc, congrArg (Option.map Prod.fst) hr, ?_⟩
  unfold initialUpdater at hr
  obtain ⟨⟨r₁, out₁⟩, hvalue, hr⟩ := Option.bind_eq_some_iff.mp hr
  obtain ⟨hcap, hsame⟩ := initialValue_same hvalue
  simp only at hr
  have hhas : r₁.hasExpirationSlot = new.hasExpirationSlot := by
    unfold RecordPtr.hasExpirationSlot
    rw [hsame]
  by_cases hexp : input.expiration = 0
  · rw [if_neg (not_not.mpr hexp)] at hr
    obtain ⟨rfl, rfl⟩ := Prod.mk.inj (Option.some.inj hr)
    refine ⟨hcap ▸ r₁.len_le, hslot, ?_⟩
    rw [RecordPtr.expiration, hsame, hfresh, hexp]
    split <;> rfl
  · rw [if_pos hexp] at hr
    obtain ⟨rfl, rfl⟩ := Prod.mk.inj (Option.some.inj hr)
    refine ⟨?_, hslot, setExpiration_stored fun hne => hhas.trans (hslot hne)⟩
    rw [RecordPtr.setExpiration_len, ← hcap]
    exact r₁.len_le

theorem copySize_sufficient (g : Geometry) (key : Bytes) (input : StringInput) (old : RecordPtr)
    (out : StringOutput) : Sufficient g (copySize key input old) (copyTtl input old) fun new =>
      (copyUpdater input old new out).map Prod.fst := by
  intro hfits mem
  obtain ⟨new, halloc, -, hfresh⟩ := allocateRecord_spec hfits mem
  have hslot : copyTtl input old ≠ 0 → new.hasExpirationSlot = true := by
    rw [allocateRecord_slot halloc]
    exact copySize_slot_of_ttl
  have hsome : (copyUpdater input old new out).isSome := copyUpdater_isSome halloc
  obtain ⟨⟨r, out'⟩, hr⟩ := Option.isSome_iff_exists.mp hsome
  refine ⟨new, r, halloc, congrArg (Option.map Prod.fst) hr, ?_⟩
  unfold copyUpdater at hr
  obtain ⟨⟨r₁, out₁⟩, hvalue, hr⟩ := Option.bind_eq_some_iff.mp hr
  have hcap := copyValue_cap hvalue
  simp only at hr
  have hhas : r₁.hasExpirationSlot = new.hasExpirationSlot := by
    unfold RecordPtr.hasExpirationSlot
    rw [(copyValue_written hvalue).1]
  have hstored := setExpiration_stored (r := r₁) fun hne => hhas.trans (hslot hne)
  cases hone : r₁.hasExpirationSlot with
  | true =>
    rw [if_pos hone] at hr
    obtain ⟨rfl, rfl⟩ := Prod.mk.inj (Option.some.inj hr)
    refine ⟨?_, hslot, hstored⟩
    rw [RecordPtr.setExpiration_len, ← hcap]
    exact r₁.len_le
  | false =>
    rw [if_neg (by rw [hone]; exact Bool.false_ne_true)] at hr
    obtain ⟨rfl, rfl⟩ := Prod.mk.inj (Option.some.inj hr)
    rw [RecordPtr.setExpiration_of_no_slot hone] at hstored
    exact ⟨hcap ▸ r₁.len_le, hslot, hstored⟩

/-- **Size callbacks are sufficient.**  Whatever the input, the key, the output so far and the old
    record, expired or not and with or without a slot: where the new record fits in a page, it is
    enough for its writer. -/
theorem size_callbacks_sufficient (g : Geometry) (key : Bytes) (input : StringInput)
    (old : RecordPtr) (out : StringOutput) :
    Sufficient g (upsertSize key input) input.expiration (initialWriter input) ∧
      Sufficient g (initialSize key input) input.expiration
        (fun new => (initialUpdater input new out).map Prod.fst) ∧
      Sufficient g (copySize key input old) (copyTtl input old)
        (fun new => (copyUpdater input old new out).map Prod.fst) :=
  ⟨upsertSize_sufficient g key input, initialSize_sufficient g key input out,
    copySize_sufficient g key input old out⟩

end Suffice

end Garnet
