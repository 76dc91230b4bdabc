import MiniGarnet.Garnet.Deadlines

/-! # Options of SET

    SET takes NX, XX, GET, KEEPTTL and expiry options in any order, and makes
    one operation of them by a chain of priorities: GET goes before NX and XX,
    and XX before KEEPTTL.  What goes before hides what comes after, and the
    operations that may clear or keep a deadline do it differently in place
    and in a copy.  It is said here for every list of options when SET does
    what its options mean together.
-/

namespace Garnet

open Tsavorite (Status)
open StringFunctions

/-! ## Section 1: What the options mean -/

/-- The key is to be written: not a key that is there with NX, nor one that is missing with XX. -/
def MeansWrite (opts : List Bytes) (now : Int64) (before : Option RecordPtr) : Prop :=
  (HasOption "NX" opts → seenAt now before = none) ∧ (HasOption "XX" opts → seenAt now before ≠ none)

/-- The deadline of a record, if it has one. -/
def RecordPtr.deadline (r : RecordPtr) : Option Int64 :=
  if r.expiration = 0 then none else some r.expiration

/-- The deadline the key is to have: the given one, the old one with KEEPTTL, or none. -/
structure MeansTtl (opts : List Bytes) (now : Int64) (before : Option RecordPtr)
    (deadline : Option Int64) : Prop where
  given : ∀ keyword t, IsLastExpiry opts keyword t → deadline = some (expireAtMs keyword t now)
  kept : NoExpiry opts → HasOption "KEEPTTL" opts →
    deadline = (aliveRecord now before).bind fun r => r.deadline
  cleared : NoExpiry opts → ¬ HasOption "KEEPTTL" opts → deadline = none

/-- The old value, or nil. -/
def oldValueReply (now : Int64) (before : Option RecordPtr) : Bytes :=
  match shownValue now before with
  | some v => Resp.bulk v
  | none => Resp.NULL_BULK

/-- What the call of a SET and its reply are to be. -/
structure SetMeans (opts : List Bytes) (value : Bytes) (now : Int64) (call : KeyCall)
    (reply : Bytes) : Prop where
  writes : call.status.isUpdated = true ↔ MeansWrite opts now call.before
  written : call.status.isUpdated = true → ∃ r, call.after = some r ∧ r.value = value ∧
    MeansTtl opts now call.before r.deadline
  alone : call.status.isUpdated = false → SeenAlike now call.before call.after
  shows : HasOption "GET" opts → reply = oldValueReply now call.before

/-! ## Section 2: Where the code differs -/

/-- An expiry option gives the deadline 0, which stands for none. -/
def GivesZero (opts : List Bytes) (o : SetOpts) : Prop := ¬ NoExpiry opts ∧ o.expiration = 0

/-- The deadline of a key that is there is not the one meant: in place XX hides KEEPTTL, and
    KEEPTTL a deadline that is given; and a copy keeps the old deadline without KEEPTTL. -/
def TtlSlips (o : SetOpts) (input : StringInput) (place : Place) (r : RecordPtr) : Prop :=
  if FitsInPlace input place r then
    o.keepTtl = true ∧
      if o.xx = true ∧ o.get = false then o.expiration = 0 ∧ r.expiration ≠ 0
      else o.expiration ≠ 0 ∧ r.expiration ≠ o.expiration
  else (o.get = true ∨ o.xx = true) ∧ o.keepTtl = false ∧ o.expiration = 0 ∧ r.expiration ≠ 0

/-- The command does not do what its options mean: GET hides NX and XX, and refuses to create a key
    whose expired record must be copied, when its reply is what an earlier command has put out. -/
def SetSlips (opts : List Bytes) (o : SetOpts) (input : StringInput) (place : Place)
    (before : Option RecordPtr) (out : StringOutput) : Prop :=
  match aliveRecord input.nowMs before with
  | none =>
    (o.get = true ∧ Lingers place before ∧ (o.xx = false ∨ out.hasBytes = true)) ∨
      (o.get = true ∧ ¬ Lingers place before ∧ (o.xx = true ∨ GivesZero opts o)) ∨
      (o.get = false ∧ o.xx = false ∧ GivesZero opts o)
  | some r =>
    if o.nx = true then o.get = true else GivesZero opts o ∨ TtlSlips o input place r

section Options

variable {opts : List Bytes} {now : Int64} {o : SetOpts} {value : Bytes} {place : Place}
  {before : Option RecordPtr} {r : RecordPtr}

/-- A list of options that is accepted names an expiry option or none. -/
theorem setOptsLoop_expiry {o o' : SetOpts} (h : setOptsLoop now opts o = .ok o') :
    NoExpiry opts ∨ ∃ keyword t, IsLastExpiry opts keyword t := by
  have hcons {opt : Bytes} {rest : List Bytes} (hopt : isExpiryKeyword opt = false)
      (ih : NoExpiry rest ∨ ∃ keyword t, IsLastExpiry rest keyword t) :
      NoExpiry (opt :: rest) ∨ ∃ keyword t, IsLastExpiry (opt :: rest) keyword t := by
    rcases ih with hno | ⟨keyword, t, front, arg, back, rfl, hrest⟩
    · exact .inl (List.forall_mem_cons.mpr ⟨hopt, hno⟩)
    · exact .inr ⟨keyword, t, opt :: front, arg, back, rfl, hrest⟩
  fun_induction setOptsLoop now opts o with
  | case1 o =>
    left
    intro opt hopt
    cases hopt
  | case2 opt rest o hnx ih =>
    exact hcons (isExpiryKeyword_word hnx (by decide) (by decide) (by decide) (by decide)) (ih h)
  | case3 opt rest o _ hxx ih =>
    exact hcons (isExpiryKeyword_word hxx (by decide) (by decide) (by decide) (by decide)) (ih h)
  | case4 opt rest o _ _ hget ih =>
    exact hcons (isExpiryKeyword_word hget (by decide) (by decide) (by decide) (by decide)) (ih h)
  | case5 opt rest o _ _ _ hkeep ih =>
    exact hcons (isExpiryKeyword_word hkeep (by decide) (by decide) (by decide) (by decide)) (ih h)
  | case6 => cases h
  | case7 => cases h
  | case8 opt o _ _ _ _ hkeyword arg rest t harg ih =>
    rcases ih h with hno | ⟨keyword, t', front, arg', back, rfl, hrest⟩
    · exact .inr ⟨opt, t, [], arg, rest, rfl, hkeyword, harg, hno⟩
    · exact .inr ⟨keyword, t', opt :: arg :: front, arg', back, rfl, hrest⟩
  | case9 => cases h

/-- What is known of the options of a list that is accepted. -/
structure OptionsAccepted (now : Int64) (opts : List Bytes) (o : SetOpts) : Prop where
  nx : o.nx = true ↔ HasOption "NX" opts
  xx : o.xx = true ↔ HasOption "XX" opts
  get : o.get = true ↔ HasOption "GET" opts
  keepTtl : o.keepTtl = true ↔ HasOption "KEEPTTL" opts
  one : ¬ (o.nx = true ∧ o.xx = true)
  expiry : (NoExpiry opts ∧ o.expiration = 0) ∨
    (¬ NoExpiry opts ∧ ∃ keyword t, IsLastExpiry opts keyword t)
  given : ∀ keyword t, IsLastExpiry opts keyword t → o.expiration = expireAtMs keyword t now

theorem IsLastExpiry.not_noExpiry {keyword : Bytes} {t : Int64} (h : IsLastExpiry opts keyword t) :
    ¬ NoExpiry opts := by
  obtain ⟨front, arg, back, rfl, hkeyword, -⟩ := h
  intro hno
  have hno' := hno keyword (by simp)
  rw [hkeyword] at hno'
  cases hno'

theorem parseSetOpts_accepted (h : parseSetOpts opts now = .ok o) : OptionsAccepted now opts o := by
  unfold parseSetOpts at h
  cases hloop : setOptsLoop now opts ⟨0, false, false, false, false⟩ with
  | error e =>
    rw [hloop] at h
    cases h
  | ok o' =>
    rw [hloop] at h
    simp only at h
    split at h
    · cases h
    · rename_i hboth
      obtain rfl := Except.ok.inj h
      have hread := setOptsLoop_read hloop
      refine ⟨?_, ?_, ?_, ?_, ?_, ?_, hread.expiry⟩
      · simpa using hread.nx
      · simpa using hread.xx
      · simpa using hread.get
      · simpa using hread.keepTtl
      · simpa using hboth
      · rcases setOptsLoop_expiry hloop with hno | ⟨keyword, t, hlast⟩
        · exact .inl ⟨hno, hread.noExpiry hno⟩
        · exact .inr ⟨hlast.not_noExpiry, keyword, t, hlast⟩

theorem meansTtl_iff (hacc : OptionsAccepted now opts o) {deadline : Option Int64} :
    MeansTtl opts now before deadline ↔
      (NoExpiry opts → deadline =
        if o.keepTtl = true then (aliveRecord now before).bind fun r => r.deadline else none) ∧
      (¬ NoExpiry opts → deadline = some o.expiration) := by
  constructor
  · intro h
    refine ⟨fun hno => ?_, fun hexpiry => ?_⟩
    · by_cases hkeep : o.keepTtl = true
      · rw [if_pos hkeep]
        exact h.kept hno (hacc.keepTtl.mp hkeep)
      · rw [if_neg hkeep]
        exact h.cleared hno fun hopt => hkeep (hacc.keepTtl.mpr hopt)
    · rcases hacc.expiry with ⟨hno, -⟩ | ⟨-, keyword, t, hlast⟩
      · exact absurd hno hexpiry
      · rw [hacc.given keyword t hlast]
        exact h.given keyword t hlast
  · rintro ⟨hno, hexpiry⟩
    refine ⟨fun keyword t hlast => ?_, fun h hkeep => ?_, fun h hkeep => ?_⟩
    · rw [← hacc.given keyword t hlast]
      exact hexpiry hlast.not_noExpiry
    · rw [hno h, if_pos (hacc.keepTtl.mpr hkeep)]
    · rw [hno h, if_neg fun hk => hkeep (hacc.keepTtl.mp hk)]

theorem deadline_eq_none : r.deadline = none ↔ r.expiration = 0 := by
  unfold RecordPtr.deadline
  split <;> simp_all

theorem deadline_eq_some {d : Int64} : r.deadline = some d ↔ r.expiration = d ∧ d ≠ 0 := by
  unfold RecordPtr.deadline
  split
  · simp_all
  · rename_i hne
    rw [Option.some_inj]
    exact ⟨fun h => ⟨h, h ▸ hne⟩, fun h => h.1⟩

theorem deadline_inj {r' : RecordPtr} : r.deadline = r'.deadline ↔ r.expiration = r'.expiration := by
  constructor
  · intro h
    cases hd : r'.deadline with
    | none => rw [deadline_eq_none.mp (h.trans hd), deadline_eq_none.mp hd]
    | some d => rw [(deadline_eq_some.mp (h.trans hd)).1, (deadline_eq_some.mp hd).1]
  · intro h
    unfold RecordPtr.deadline
    rw [h]

/-- Without an expiry option no deadline is given. -/
theorem OptionsAccepted.expiration_zero (hacc : OptionsAccepted now opts o) (h : NoExpiry opts) :
    o.expiration = 0 := by
  rcases hacc.expiry with ⟨-, hzero⟩ | ⟨hexpiry, -⟩
  · exact hzero
  · exact absurd h hexpiry

/-- The deadline given to a key that is missing is the one meant, unless it is 0. -/
theorem meansTtl_missing (hacc : OptionsAccepted now opts o)
    (hmissing : aliveRecord now before = none) (hexp : r.expiration = o.expiration) :
    MeansTtl opts now before r.deadline ↔ ¬ GivesZero opts o := by
  rw [meansTtl_iff hacc, hmissing]
  unfold GivesZero
  by_cases hno : NoExpiry opts
  · have hzero := hacc.expiration_zero hno
    simp [hno, deadline_eq_none, hexp, hzero]
  · simp [hno, deadline_eq_some, hexp]

/-- Where the deadline of a key that is there is kept. -/
theorem keepsTtl_set (hnx : o.nx = false) :
    KeepsTtl ((KeyCommand.set value o).input now) place r ↔
      if FitsInPlace ((KeyCommand.set value o).input now) place r then
        o.keepTtl = true ∧ ¬ (o.xx = true ∧ o.get = false)
      else o.expiration = 0 ∧ (o.get = true ∨ o.xx = true ∨ o.keepTtl = true) := by
  have hop : ((KeyCommand.set value o).input now).op = o.op := rfl
  have hexp : ((KeyCommand.set value o).input now).expiration = o.expiration := rfl
  unfold KeepsTtl
  rw [hop, hexp]
  by_cases hfits : FitsInPlace ((KeyCommand.set value o).input now) place r <;>
    cases hget : o.get <;> cases hxx : o.xx <;> cases hkeep : o.keepTtl <;>
    simp [SetOpts.op, hnx, hget, hxx, hkeep, hfits]

/-- The deadline left on a key that is there is the one meant, but for the slips. -/
theorem meansTtl_alive (hacc : OptionsAccepted now opts o) (hnx : o.nx = false)
    (halive : aliveRecord now before = some r) {r' : RecordPtr}
    (hexp : r'.expiration = takenTtl ((KeyCommand.set value o).input now) place before) :
    MeansTtl opts now before r'.deadline ↔
      ¬ (GivesZero opts o ∨ TtlSlips o ((KeyCommand.set value o).input now) place r) := by
  have htaken : takenTtl ((KeyCommand.set value o).input now) place before =
      if KeepsTtl ((KeyCommand.set value o).input now) place r then r.expiration
      else o.expiration := by
    unfold takenTtl
    have halive' : aliveRecord ((KeyCommand.set value o).input now).nowMs before = some r := halive
    rw [halive']
    rfl
  rw [htaken] at hexp
  have hkeeps := @keepsTtl_set now o value place r hnx
  rw [meansTtl_iff hacc, halive, Option.bind_some]
  unfold GivesZero TtlSlips
  by_cases hno : NoExpiry opts
  · -- no deadline is given
    have hzero := hacc.expiration_zero hno
    have hsymm : 0 = r.expiration ↔ r.expiration = 0 := eq_comm
    simp only [hno, not_true_eq_false, false_and, false_or, true_implies, false_implies, and_true]
    by_cases hfits : FitsInPlace ((KeyCommand.set value o).input now) place r <;>
      by_cases he : r.expiration = 0 <;>
      cases hget : o.get <;> cases hxx : o.xx <;> cases hkeep : o.keepTtl <;>
      simp_all [deadline_inj, deadline_eq_none]
  · simp only [hno, not_false_eq_true, true_and, false_implies, true_implies]
    by_cases hzero : o.expiration = 0
    · simp [hzero, deadline_eq_some]
    · rw [deadline_eq_some]
      by_cases hfits : FitsInPlace ((KeyCommand.set value o).input now) place r <;>
        cases hget : o.get <;> cases hxx : o.xx <;> cases hkeep : o.keepTtl <;>
        simp_all

end Options

/-! ## Section 3: SET against its options -/

section Means

variable {opts : List Bytes} {now : Int64} {o : SetOpts} {value key : Bytes} {place : Place}
  {before : Option RecordPtr} {out : StringOutput} {res : RmwResult}

/-- The call of a SET. -/
def RmwResult.toCall (res : RmwResult) (key : Bytes) (before : Option RecordPtr) : KeyCall :=
  ⟨key, before, res.status, res.record, res.out⟩

theorem reply_get (hget : o.get = true) :
    (KeyCommand.set value o).reply res.status res.out =
      if res.out.hasBytes then Resp.bulk res.out.bytes else Resp.NULL_BULK := if_pos hget

/-- A SET that is to write and does. -/
theorem setMeans_of_stored (hacc : OptionsAccepted now opts o) {v : Bytes} {ttl : Int64}
    {out' : StringOutput} (hmeans : MeansWrite opts now before) (hstored : res.Stored v ttl out')
    (hv : v = value)
    (hshows : o.get = true → (if out'.hasBytes then Resp.bulk out'.bytes else Resp.NULL_BULK) =
      oldValueReply now before) :
    SetMeans opts value now (res.toCall key before) ((KeyCommand.set value o).reply res.status res.out) ↔
      ∃ r, res.record = some r ∧ MeansTtl opts now before r.deadline := by
  obtain ⟨hupdated, ⟨r, hr, hvalue, -⟩, hout⟩ := hstored
  constructor
  · intro h
    obtain ⟨r', hr', -, httl⟩ := h.written hupdated
    exact ⟨r', hr', httl⟩
  · rintro ⟨r', hr', httl⟩
    obtain rfl := Option.some.inj (hr.symm.trans hr')
    refine ⟨iff_of_true hupdated hmeans, fun _ => ⟨r, hr, hvalue.trans hv, httl⟩, fun hidle => ?_,
      fun hget => ?_⟩
    · rw [show (res.toCall key before).status = res.status from rfl, hupdated] at hidle
      cases hidle
    · have hget' := hacc.get.mpr hget
      rw [reply_get hget', hout]
      exact hshows hget'

/-- A SET that leaves the key alone. -/
theorem setMeans_of_left (hacc : OptionsAccepted now opts o) (hidle : res.status.isUpdated = false)
    (hleft : LeftAlone now before res.record) (hout : res.out = out) :
    SetMeans opts value now (res.toCall key before) ((KeyCommand.set value o).reply res.status res.out) ↔
      ¬ MeansWrite opts now before ∧
        (o.get = true → (if out.hasBytes then Resp.bulk out.bytes else Resp.NULL_BULK) =
          oldValueReply now before) := by
  constructor
  · intro h
    refine ⟨fun hmeans => ?_, fun hget => ?_⟩
    · have hupdated : res.status.isUpdated = true := h.writes.mpr hmeans
      rw [hidle] at hupdated
      cases hupdated
    · rw [← hout, ← reply_get hget]
      exact h.shows (hacc.get.mp hget)
  · rintro ⟨hno, hshows⟩
    refine ⟨iff_of_false ?_ hno, fun hupdated => ?_, fun _ => hleft.seen, fun hget => ?_⟩
    · show ¬ res.status.isUpdated = true
      simp [hidle]
    · rw [show (res.toCall key before).status = res.status from rfl, hidle] at hupdated
      cases hupdated
    · have hget' := hacc.get.mpr hget
      rw [reply_get hget', hout]
      exact hshows hget'

/-- SET of a key that is missing. -/
theorem setMeans_missing (hacc : OptionsAccepted now opts o)
    (hmissing : aliveRecord now before = none)
    (hres : res.Sets ((KeyCommand.set value o).input now) place before out) :
    SetMeans opts value now (res.toCall key before) ((KeyCommand.set value o).reply res.status res.out) ↔
      ¬ SetSlips opts o ((KeyCommand.set value o).input now) place before out := by
  have hmissing' : aliveRecord ((KeyCommand.set value o).input now).nowMs before = none := hmissing
  have hseen := aliveRecord_eq_none.mp hmissing
  have hmeans : MeansWrite opts now before ↔ o.xx = false := by
    unfold MeansWrite
    rw [← hacc.xx]
    simp [hseen]
  have hold : oldValueReply now before = Resp.NULL_BULK := by
    unfold oldValueReply shownValue
    rw [hseen]
    rfl
  have hop : ((KeyCommand.set value o).input now).op = o.op := rfl
  have htakes : ((KeyCommand.set value o).input now).op.Takes
      ((KeyCommand.set value o).input now).nowMs place before ↔
        if o.get = true then ¬ Lingers place before else o.xx = false := by
    unfold StringOp.Takes
    rw [hmissing', hop]
    have hone := hacc.one
    cases hget : o.get <;> cases hnx : o.nx <;> cases hxx : o.xx <;> cases hkeep : o.keepTtl <;>
      simp_all [SetOpts.op, StringOp.Revives]
  have hslips : SetSlips opts o ((KeyCommand.set value o).input now) place before out ↔
      (o.get = true ∧ Lingers place before ∧ (o.xx = false ∨ out.hasBytes = true)) ∨
        (o.get = true ∧ ¬ Lingers place before ∧ (o.xx = true ∨ GivesZero opts o)) ∨
        (o.get = false ∧ o.xx = false ∧ GivesZero opts o) := by
    unfold SetSlips
    rw [hmissing']
  have hstoredTtl : ∀ {v : Bytes} {out' : StringOutput}, res.Stored v o.expiration out' →
      ((∃ r, res.record = some r ∧ MeansTtl opts now before r.deadline) ↔ ¬ GivesZero opts o) := by
    rintro v out' ⟨-, ⟨r, hr, -, hexp⟩, -⟩
    rw [← meansTtl_missing hacc hmissing hexp, hr]
    simp
  rw [hslips]
  by_cases htaken : ((KeyCommand.set value o).input now).op.Takes
      ((KeyCommand.set value o).input now).nowMs place before
  · have hstored := hres.takes htaken
    simp only [takenValue, takenTtl, takenOut, hmissing', revivedValue, revivedOut, hop] at hstored
    rw [htakes] at htaken
    cases hget : o.get with
    | true =>
      rw [if_pos hget] at htaken
      rw [SetOpts.op_of_get hget] at hstored
      cases hxx : o.xx with
      | true =>
        -- written, against XX
        refine iff_of_false (fun h => ?_) (by simp [htaken])
        have hwanted := hmeans.mp (h.writes.mp hstored.updated)
        rw [hxx] at hwanted
        cases hwanted
      | false =>
        have hcreated : res.Stored value o.expiration { out with hasBytes := false } := hstored
        have hcreate := @setMeans_of_stored opts now o value key before res hacc _ _ _
          (hmeans.mpr hxx) hcreated rfl fun _ => hold.symm
        rw [hcreate, hstoredTtl hcreated]
        simp [htaken]
    | false =>
      rw [if_neg (by simp [hget])] at htaken
      have hcreate := @setMeans_of_stored opts now o value key before res hacc _ _ _
        (hmeans.mpr htaken) hstored (by rcases o.op_cases with h | h | h | h | h <;> rw [h] <;> rfl)
        fun h => by rw [hget] at h; cases h
      rw [hcreate, hstoredTtl hstored]
      simp [htaken]
  · obtain ⟨hidle, hleft, hout⟩ := hres.leaves htaken
    rw [setMeans_of_left hacc hidle hleft hout, hmeans, hold]
    rw [htakes] at htaken
    have hshow : (if out.hasBytes then Resp.bulk out.bytes else Resp.NULL_BULK) = Resp.NULL_BULK ↔
        out.hasBytes = false := by
      cases out.hasBytes <;> simp [Resp.bulk_ne_nullBulk]
    rw [hshow]
    cases hget : o.get <;> cases hxx : o.xx <;> simp_all

/-- SET of a key that is there. -/
theorem setMeans_alive {r : RecordPtr} (hacc : OptionsAccepted now opts o)
    (halive : aliveRecord now before = some r)
    (hres : res.Sets ((KeyCommand.set value o).input now) place before out) :
    SetMeans opts value now (res.toCall key before) ((KeyCommand.set value o).reply res.status res.out) ↔
      ¬ SetSlips opts o ((KeyCommand.set value o).input now) place before out := by
  have halive' : aliveRecord ((KeyCommand.set value o).input now).nowMs before = some r := halive
  obtain ⟨hr, hexp⟩ := aliveRecord_eq_some halive
  have hseen : seenAt now before = some (r.value, r.expiration) := by
    rw [hr]
    exact seenAt_alive hexp
  have hmeans : MeansWrite opts now before ↔ o.nx = false := by
    unfold MeansWrite
    rw [← hacc.nx]
    simp [hseen]
  have hold : oldValueReply now before = Resp.bulk r.value := by
    unfold oldValueReply shownValue
    rw [hseen]
    rfl
  have hop : ((KeyCommand.set value o).input now).op = o.op := rfl
  have hslips : SetSlips opts o ((KeyCommand.set value o).input now) place before out ↔
      if o.nx = true then o.get = true
      else GivesZero opts o ∨ TtlSlips o ((KeyCommand.set value o).input now) place r := by
    unfold SetSlips
    rw [halive']
  have htakes : ((KeyCommand.set value o).input now).op.Takes
      ((KeyCommand.set value o).input now).nowMs place before ↔ ¬ (o.nx = true ∧ o.get = false) := by
    unfold StringOp.Takes
    rw [halive', hop]
    cases hget : o.get <;> cases hnx : o.nx <;> cases hxx : o.xx <;> cases hkeep : o.keepTtl <;>
      simp [SetOpts.op, hget, hnx, hxx, hkeep]
  rw [hslips]
  by_cases htaken : ((KeyCommand.set value o).input now).op.Takes
      ((KeyCommand.set value o).input now).nowMs place before
  · have hstored := hres.takes htaken
    rw [htakes] at htaken
    cases hnx : o.nx with
    | true =>
      -- written, against NX
      have hget : o.get = true := by
        cases hget : o.get with
        | true => rfl
        | false => exact absurd ⟨hnx, hget⟩ htaken
      refine iff_of_false (fun h => ?_) (by simp [hget])
      have hwanted := hmeans.mp (h.writes.mp hstored.updated)
      rw [hnx] at hwanted
      cases hwanted
    | false =>
      have hvalue : takenValue ((KeyCommand.set value o).input now) before = value := by
        simp only [takenValue, halive', newValue, hop]
        rcases o.op_cases with h | h | h | h | h <;> rw [h] <;> rfl
      have hcreate := @setMeans_of_stored opts now o value key before res hacc _ _ _
        (hmeans.mpr hnx) hstored hvalue fun hget => by
          rw [hold]
          simp only [takenOut, halive', newOut, hop, SetOpts.op_of_get hget]
          rfl
      rw [hcreate, if_neg (by simp)]
      obtain ⟨-, ⟨r', hr', -, httl⟩, -⟩ := hstored
      rw [← meansTtl_alive hacc hnx halive httl, hr']
      simp
  · obtain ⟨hidle, hleft, hout⟩ := hres.leaves htaken
    rw [setMeans_of_left hacc hidle hleft hout, hmeans]
    rw [htakes] at htaken
    have hboth : o.nx = true ∧ o.get = false := by
      by_contra h
      exact htaken h
    simp [hboth.1, hboth.2]

end Means

/-- **Options of SET.**  In a store that serves the command, SET does what its options mean
    together, for every list of options that is accepted, just where it does not slip. -/
theorem set_means_iff (w : World) (raw name key value : Bytes) {opts : List Bytes} {o : SetOpts}
    {s : RespSession} {st : Shared} (hcmd : commandOf (name :: key :: value :: opts) = some .set)
    (hopts : parseSetOpts opts s.nowMs = .ok o) (hw : w.Serves) (hlive : st.panicked = false)
    (hfit : (KeyCommand.set value o).Fits w.geometry key s.nowMs (st.record key)) :
    ∃ call, (execBasic raw (name :: key :: value :: opts)).keyCalls w s st = [call] ∧
      call.before = st.record key ∧
      call.after = ((execBasic raw (name :: key :: value :: opts) s).run w.handle st).2.record key ∧
      (SetMeans opts value s.nowMs call
          ((execBasic raw (name :: key :: value :: opts) s).run w.handle st).1.1 ↔
        ¬ SetSlips opts o ((KeyCommand.set value o).input s.nowMs) (w.placeAt st.calls)
          (st.record key) s.outScratch) := by
  have hparse : parseKeyed (name :: key :: value :: opts) s.nowMs .set =
      some (.one key (.set value o)) := by
    show some (parsedSet (name :: key :: value :: opts) s.nowMs) = _
    unfold parsedSet
    simp only [hopts]
  have hacc := parseSetOpts_accepted hopts
  obtain ⟨res, hran, hres⟩ := @KeyCommand.ran_sets w raw key _ s st _ .set hcmd hparse trivial hw
    hlive hfit
  refine ⟨res.toCall key (st.record key), hran.calls, rfl, ?_, ?_⟩
  · rw [hran.record, Function.update_self]
    rfl
  · rw [hran.reply]
    cases halive : aliveRecord s.nowMs (st.record key) with
    | none => exact setMeans_missing hacc halive hres
    | some r => exact setMeans_alive hacc halive hres

/-- SET XX of a key whose record must be copied, with a new deadline. -/
theorem set_means_iff_xx :
    let s : RespSession := { RespSession.new true with nowMs := 4000 }
    let st := Shared.holding [([107], fortyOne)]
    let opts : List Bytes := [ascii "XX", ascii "EX", ascii "10"]
    let args : List Bytes := ascii "SET" :: [107] :: [118] :: opts
    let x := (execBasic [] args s).run (World.calm .frozen).handle st
    ∃ call, (execBasic [] args).keyCalls (World.calm .frozen) s st = [call] ∧
      SetMeans opts [118] 4000 call x.1.1 := by
  intro s st opts args x
  have hopts : parseSetOpts opts 4000 = .ok ⟨14000, false, true, false, false⟩ := by decide
  obtain ⟨call, hcall, -, -, hiff⟩ := @set_means_iff (World.calm .frozen) [] (ascii "SET") [107] [118]
    opts _ s st (by decide) hopts (World.calm_serves nofun) rfl
    (.of_some (by decide) (by decide) (by decide))
  refine ⟨call, hcall, hiff.mpr ?_⟩
  rintro (⟨-, hzero⟩ | hslips)
  · exact absurd hzero (by decide)
  · have hplace : (World.calm .frozen).placeAt st.calls = .frozen := rfl
    rw [hplace, TtlSlips, if_neg fun h => by cases h.1] at hslips
    exact absurd hslips.2.2.1 (by decide)

/-- SET NX GET writes to a key that is there; SET EX KEEPTTL leaves the old deadline in place; and
    SET XX of a record that must be copied does not clear it. -/
theorem set_options_slip :
    let s : RespSession := { RespSession.new true with nowMs := 4000 }
    let st := Shared.holding [([107], fortyOne)]
    let run (w : World) (opts : List Bytes) :=
      (execBasic [] (ascii "SET" :: [107] :: [118] :: opts) s).run w.handle st
    let calls (w : World) (opts : List Bytes) :=
      (execBasic [] (ascii "SET" :: [107] :: [118] :: opts)).keyCalls w s st
    let seen (w : World) (opts : List Bytes) := seenAt 4000 ((run w opts).2.record [107])
    let nxGet : List Bytes := [ascii "NX", ascii "GET"]
    seen (World.calm .mutable_) nxGet = some ([118], 0) ∧
      (∀ call ∈ calls (World.calm .mutable_) nxGet,
        ¬ SetMeans nxGet [118] 4000 call (run (World.calm .mutable_) nxGet).1.1) ∧
      seen (World.calm .mutable_) [ascii "KEEPTTL", ascii "EX", ascii "10"] = some ([118], 5000) ∧
      seen (World.calm .frozen) [ascii "XX"] = some ([118], 5000) := by
  intro s st run calls seen nxGet
  refine ⟨by decide +kernel, fun call hmem hmeans => ?_, by decide +kernel, by decide +kernel⟩
  have hcalls : (calls (World.calm .mutable_) nxGet).map (fun call => (call.before, call.status)) =
      [(some fortyOne, .inPlaceUpdated)] := by decide +kernel
  have hmem' := List.mem_map_of_mem (f := fun call => (call.before, call.status)) hmem
  rw [hcalls, List.mem_singleton] at hmem'
  obtain ⟨hbefore, hstatus⟩ := Prod.mk.inj hmem'
  have hwrite := hmeans.writes.mp (by rw [hstatus]; rfl)
  have hnone := hwrite.1 ⟨ascii "NX", List.mem_cons_self, by decide⟩
  rw [hbefore] at hnone
  exact absurd hnone (by decide)

end Garnet
