import MiniGarnet.Garnet.Callbacks

/-! # Replies and the output scratch

    One `StringOutput` serves all commands of a connection.  A callback writes
    some of its fields and leaves the others as earlier commands left them.
    What a reply shows has been written by the call the reply is about, with
    one exception: GETSET and SET with GET show the output whatever the status
    is.
-/

namespace Garnet

open Tsavorite (Status)
open StringFunctions

/-! ## Section 1: Attempts and calls -/

/-- The reply to an RMW with this status shows the output. -/
def StringOp.shows (op : StringOp) (status : Status) : Prop :=
  match op with
  | .incrBy | .append | .setRange _ | .setGet _ | .getEx | .persist => status.isUpdated = true
  | .getDel => status = .deleted
  | _ => False

/-- Two attempts from outputs about which `agreed` is known end alike: the outputs agree where
    they did before, and where the status is one that is shown. -/
inductive Outcome.Rel (op : StringOp) (shown : Status → Prop) (agreed : Prop) :
    Outcome → Outcome → Prop where
  | panic : Outcome.Rel op shown agreed .panic .panic
  | retry {record : Option RecordPtr} {q₁ q₂ : StringOutput} (hkept : agreed → Agree op q₁ q₂) :
    Outcome.Rel op shown agreed (.retry record q₁) (.retry record q₂)
  | done {status : Status} {record : Option RecordPtr} {q₁ q₂ : StringOutput}
      (hkept : agreed → Agree op q₁ q₂) (hshown : shown status → Agree op q₁ q₂) :
    Outcome.Rel op shown agreed (.done status record q₁) (.done status record q₂)

section Attempts

variable {g : Tsavorite.Geometry} {key : Bytes} {input : StringInput} {a : Attempt}
  {o₁ o₂ : StringOutput} {agreed : Prop}

theorem attemptLink_rel {size : Tsavorite.RecordSizeInfo} {status : Status}
    {record : Option RecordPtr} {op : StringOp}
    (fill : RecordPtr → StringOutput → Option (RecordPtr × StringOutput)) (hfill : ∀ new, Uniform (fill new) fun _ p => op.shows status → p.Covers op)
    (hagree : agreed → Agree op o₁ o₂) :
    Outcome.Rel op op.shows agreed (attemptLink g a size (fun new => fill new o₁) status record o₁)
      (attemptLink g a size (fun new => fill new o₂) status record o₂) := by
  unfold attemptLink
  cases allocateRecord g size a.mem with
  | none => exact .panic
  | some new =>
    simp only
    by_cases halloc : a.allocates
    · simp only [if_pos halloc]
      rcases hfill new with hnone | ⟨r, p, hsome, hcovers⟩
      · simp only [hnone]
        exact .panic
      · simp only [hsome]
        by_cases hlink : a.links
        · simp only [if_pos hlink]
          exact .done (fun h => (hagree h).patch p) fun h => (hcovers h).agree
        · simp only [if_neg hlink]
          exact .retry fun h => (hagree h).patch p
    · simp only [if_neg halloc]
      exact .retry hagree

theorem attemptInitial_rel (record : Option RecordPtr) (hagree : agreed → Agree input.op o₁ o₂) :
    Outcome.Rel input.op input.op.shows agreed (attemptInitial g key input a record o₁)
      (attemptInitial g key input a record o₂) := by
  unfold attemptInitial
  by_cases hneed : needInitialUpdate input
  · simp only [if_pos hneed]
    refine attemptLink_rel (initialUpdater input) (fun new => ?_) hagree
    refine (initialUpdater_uniform input new).imp fun _ p hcovers hshown => hcovers ?_
    unfold needInitialUpdate at hneed
    revert hneed hshown
    cases input.op <;> simp [StringOp.shows, StringOp.initialShows]
  · simp only [if_neg hneed]
    refine .done hagree fun hshown => ?_
    revert hshown
    cases input.op <;> simp [StringOp.shows, Status.isUpdated]

theorem attemptTombstone_rel (record : Option RecordPtr) {op : StringOp}
    (hagree : agreed → Agree op o₁ o₂) (hshown : op.shows .deleted → Agree op o₁ o₂) :
    Outcome.Rel op op.shows agreed (attemptTombstone g key a record o₁) (attemptTombstone g key a record o₂) := by
  unfold attemptTombstone
  cases allocateRecord g ⟨key.length, 0, false⟩ a.mem with
  | none => exact .panic
  | some new =>
    simp only
    by_cases hdone : (a.allocates && a.links) = true
    · simp only [if_pos hdone]
      exact .done hagree hshown
    · simp only [if_neg hdone]
      exact .retry hagree

theorem attemptCopy_rel (old : RecordPtr) (hagree : agreed → Agree input.op o₁ o₂) :
    Outcome.Rel input.op input.op.shows agreed (attemptCopy g key input a old o₁)
      (attemptCopy g key input a old o₂) := by
  obtain ⟨d, p, hdecision, hcovers⟩ := needCopyUpdate_uniform input old
  unfold attemptCopy
  rw [hdecision, hdecision]
  have hkept : agreed → Agree input.op (p.apply o₁) (p.apply o₂) := fun h => (hagree h).patch p
  cases d with
  | cancel =>
    refine .done hkept fun hshown => ?_
    revert hshown
    cases input.op <;> simp [StringOp.shows, Status.isUpdated]
  | delete => exact attemptTombstone_rel _ hkept fun _ => (hcovers rfl).agree
  | copy =>
    refine attemptLink_rel (copyUpdater input old) (fun new => ?_) hkept
    refine (copyUpdater_uniform input old new).imp fun _ p hcovers hshown => hcovers ?_
    revert hshown
    cases input.op <;> simp [StringOp.shows, StringOp.copyShows]

/-- One attempt of an RMW from two outputs. -/
theorem attemptRmw_rel (record : Option RecordPtr) (hagree : agreed → Agree input.op o₁ o₂) :
    Outcome.Rel input.op input.op.shows agreed (attemptRmw g key input a record o₁)
      (attemptRmw g key input a record o₂) := by
  unfold attemptRmw
  by_cases henters : a.enters
  · simp only [henters, not_true_eq_false, if_false]
    cases record with
    | none => exact attemptInitial_rel none hagree
    | some r =>
      cases hplace : a.place with
      | lost => exact attemptInitial_rel (some r) hagree
      | frozen => exact attemptCopy_rel r hagree
      | mutable_ =>
        simp only
        cases hexp : r.expired input.nowMs with
        | true =>
          simp only [inPlaceUpdater_expired input r hexp]
          exact attemptInitial_rel none hagree
        | false =>
        rcases inPlaceUpdater_alive input r hexp with hnone | ⟨res, r', p, hsome, hok⟩
        · simp only [hnone]
          exact .panic
        · simp only [hsome]
          have hkept : agreed → Agree input.op (p.apply o₁) (p.apply o₂) := fun h => (hagree h).patch p
          cases res with
          | updated =>
            refine .done hkept fun hshown => (hok.covers (.inl rfl) ?_).agree
            revert hshown
            cases input.op <;> simp [StringOp.shows, StringOp.inPlaceShows]
          | cancel =>
            refine .done hkept fun hshown => ?_
            revert hshown
            cases input.op <;> simp [StringOp.shows, Status.isUpdated]
          | expired => exact absurd rfl hok.alive
          | delete =>
            refine .done hkept fun hshown => (hok.covers (.inr rfl) ?_).agree
            revert hshown
            cases input.op <;> simp [StringOp.shows, StringOp.inPlaceShows]
          | needCopy => exact attemptCopy_rel r' hkept
  · simp only [henters]
    exact .retry hagree

/-- A whole RMW call from two outputs. -/
theorem callLoop_rel (attempts : List Attempt) (record : Option RecordPtr)
    (hagree : agreed → Agree input.op o₁ o₂) :
    Outcome.Rel input.op input.op.shows agreed (callLoop (attemptRmw g key input) attempts record o₁)
      (callLoop (attemptRmw g key input) attempts record o₂) := by
  induction attempts generalizing record o₁ o₂ with
  | nil =>
    refine .done hagree fun hshown => ?_
    revert hshown
    cases input.op <;> simp [StringOp.shows, Status.isUpdated]
  | cons a attempts ih =>
    have hattempt := @attemptRmw_rel g key input a o₁ o₂ agreed record hagree
    unfold callLoop
    generalize attemptRmw g key input a record o₁ = r₁ at hattempt ⊢
    generalize attemptRmw g key input a record o₂ = r₂ at hattempt ⊢
    cases hattempt with
    | panic => exact .panic
    | retry hkept => exact ih _ hkept
    | done hkept hshown => exact .done hkept hshown

end Attempts

/-! ## Section 2: Calls that tell -/

/-- An attempt of a GETSET, on the record it finds, writes the output: it has found an old value
    that is not expired, or no value and room for a new one. -/
def attemptTells (input : StringInput) (a : Attempt) (record : Option RecordPtr) : Bool :=
  match record with
  | none => a.allocates
  | some r =>
    match a.place with
    | .lost => a.allocates
    | .mutable_ =>
      a.allocates || (!r.expired input.nowMs && decide (input.operand.length ≤ r.valueCap))
    | .frozen => a.allocates && !r.expired input.nowMs

/-- Some attempt of the call writes the output.  An attempt that finds an expired record cancels
    the call if the record is frozen, and else deletes it. -/
def callTells (input : StringInput) : List Attempt → Option RecordPtr → Bool
  | [], _ => false
  | a :: attempts, record =>
    if ¬ a.enters then callTells input attempts record
    else if attemptTells input a record then true
    else if record.any fun r => r.expired input.nowMs then
      match a.place with
      | .frozen => false
      | .mutable_ => callTells input attempts none
      | .lost => callTells input attempts record
    else callTells input attempts record

/-- A GETSET or a SET with GET that is not cancelled, and of which some attempt gets far enough
    to write the output. -/
def Told (w : World) (e : Effect) (st : Shared) : Prop :=
  match e with
  | .rmw key input _ =>
    match input.op with
    | .setGet _ => callTells input (w.attempts st.calls) (st.record key) = true
    | _ => True
  | _ => True

section Telling

variable {g : Tsavorite.Geometry} {key : Bytes} {input : StringInput} {keepTtl : Bool}
  {o₁ o₂ : StringOutput}

theorem attemptLink_tells {a : Attempt} {size : Tsavorite.RecordSizeInfo} {status : Status}
    {record : Option RecordPtr} {op : StringOp} (halloc : a.allocates = true)
    (fill : RecordPtr → StringOutput → Option (RecordPtr × StringOutput))
    (hfill : ∀ new, Uniform (fill new) fun _ p => p.Covers op) :
    Outcome.Rel op op.shows True (attemptLink g a size (fun new => fill new o₁) status record o₁)
      (attemptLink g a size (fun new => fill new o₂) status record o₂) := by
  unfold attemptLink
  cases allocateRecord g size a.mem with
  | none => exact .panic
  | some new =>
    simp only [if_pos halloc]
    rcases hfill new with hnone | ⟨r, p, hsome, hcovers⟩
    · simp only [hnone]
      exact .panic
    · simp only [hsome]
      by_cases hlink : a.links
      · simp only [if_pos hlink]
        exact .done (fun _ => hcovers.agree) fun _ => hcovers.agree
      · simp only [if_neg hlink]
        exact .retry fun _ => hcovers.agree

theorem attemptInitial_tells {a : Attempt} (record : Option RecordPtr)
    (hop : input.op = .setGet keepTtl) (halloc : a.allocates = true) :
    Outcome.Rel input.op input.op.shows True (attemptInitial g key input a record o₁)
      (attemptInitial g key input a record o₂) := by
  unfold attemptInitial
  have hneed : needInitialUpdate input = true := by
    unfold needInitialUpdate
    rw [hop]
  rw [if_pos hneed, if_pos hneed]
  refine attemptLink_tells halloc (initialUpdater input) fun new => ?_
  refine (initialUpdater_uniform input new).imp fun _ p hcovers => hcovers ?_
  rw [hop]
  trivial

/-- A GETSET copies a record unless it is expired. -/
theorem needCopyUpdate_setGet (hop : input.op = .setGet keepTtl) (r : RecordPtr)
    (out : StringOutput) :
    needCopyUpdate input r out = (if r.expired input.nowMs then .cancel else .copy, out) := by
  unfold needCopyUpdate
  rw [hop]
  split <;> rfl

theorem attemptCopy_tells {a : Attempt} (r : RecordPtr) (hop : input.op = .setGet keepTtl)
    (halloc : a.allocates = true) (halive : r.expired input.nowMs = false) :
    Outcome.Rel input.op input.op.shows True (attemptCopy g key input a r o₁) (attemptCopy g key input a r o₂) := by
  unfold attemptCopy
  simp only [needCopyUpdate_setGet hop, halive, Bool.false_eq_true, if_false]
  refine attemptLink_tells halloc (copyUpdater input r) fun new => ?_
  refine (copyUpdater_uniform input r new).imp fun _ p hcovers => hcovers ?_
  rw [hop]
  trivial

/-- What a GETSET does in place. -/
theorem inPlaceUpdater_setGet (hop : input.op = .setGet keepTtl) (r : RecordPtr) (out : StringOutput) :
    inPlaceUpdater input r out =
      if r.expired input.nowMs then some (.expired, r, out)
      else if r.valueCap < input.operand.length then some (.needCopy, r, out)
      else setInPlace input r (out.setBytes r.value) := by
  unfold inPlaceUpdater
  rw [hop]

theorem attemptRmw_tells {a : Attempt} {record : Option RecordPtr} (hop : input.op = .setGet keepTtl)
    (henters : a.enters = true) (htells : attemptTells input a record = true) :
    Outcome.Rel input.op input.op.shows True (attemptRmw g key input a record o₁)
      (attemptRmw g key input a record o₂) := by
  unfold attemptRmw attemptTells at *
  simp only [henters, not_true_eq_false, if_false]
  cases record with
  | none => exact attemptInitial_tells none hop htells
  | some r =>
    cases hplace : a.place with
    | lost =>
      simp only [hplace] at htells
      exact attemptInitial_tells (some r) hop htells
    | frozen =>
      simp only [hplace, Bool.and_eq_true, Bool.not_eq_true'] at htells
      exact attemptCopy_tells r hop htells.1 htells.2
    | mutable_ =>
      simp only [hplace, Bool.or_eq_true, Bool.and_eq_true, Bool.not_eq_true',
        decide_eq_true_eq] at htells
      simp only [inPlaceUpdater_setGet hop]
      by_cases hexp : r.expired input.nowMs
      · simp only [if_pos hexp]
        rcases htells with halloc | ⟨halive, -⟩
        · exact attemptInitial_tells none hop halloc
        · rw [halive] at hexp
          cases hexp
      · have halive : r.expired input.nowMs = false := by simpa using hexp
        simp only [if_neg hexp]
        by_cases hcap : r.valueCap < input.operand.length
        · simp only [if_pos hcap]
          rcases htells with halloc | ⟨-, hfits⟩
          · exact attemptCopy_tells r hop halloc halive
          · omega
        · -- the old value is put out before anything else
          simp only [if_neg hcap]
          have hset : UniformInPlace (fun out => setInPlace input r ((Patch.bytes r.value).apply out))
              fun _ _ p => p = .bytes r.value := setInPlace_uniform input r _ rfl fun _ => rfl
          have hagree : Agree input.op (o₁.setBytes r.value) (o₂.setBytes r.value) := by
            rw [hop]
            exact ⟨rfl, fun _ => rfl⟩
          rcases hset with hnone | ⟨res, r', p, hsome, rfl⟩
          · have hnone₁ := hnone o₁
            have hnone₂ := hnone o₂
            simp only [Patch.apply] at hnone₁ hnone₂
            simp only [hnone₁, hnone₂]
            exact .panic
          · have hsome₁ := hsome o₁
            have hsome₂ := hsome o₂
            simp only [Patch.apply] at hsome₁ hsome₂
            simp only [hsome₁, hsome₂]
            cases res with
            | updated => exact .done (fun _ => hagree) fun _ => hagree
            | cancel => exact .done (fun _ => hagree) fun _ => hagree
            | expired => exact attemptInitial_rel none fun _ => hagree
            | delete => exact .done (fun _ => hagree) fun _ => hagree
            | needCopy => exact attemptCopy_rel r' fun _ => hagree

/-- The records that an RMW of the key can ask for fit in a page. -/
def CallFits (g : Tsavorite.Geometry) (key : Bytes) (input : StringInput)
    (record : Option RecordPtr) : Prop :=
  FitsInPage g (initialSize key input) ∧ ∀ r ∈ record, FitsInPage g (copySize key input r)

theorem allocateRecord_none {size : Tsavorite.RecordSizeInfo} {mem : ℕ → UInt8}
    (h : allocateRecord g size mem = none) : ¬ FitsInPage g size := by
  intro hfits
  obtain ⟨r, hr, -⟩ := allocateRecord_spec hfits mem
  rw [h] at hr
  cases hr

/-- Where a GETSET gets no memory. -/
theorem attemptInitial_stalled {a : Attempt} (record : Option RecordPtr) (out : StringOutput)
    (hop : input.op = .setGet keepTtl) (halloc : a.allocates = false) :
    (¬ FitsInPage g (initialSize key input) ∧ attemptInitial g key input a record out = .panic) ∨
      attemptInitial g key input a record out = .retry record out := by
  unfold attemptInitial attemptLink needInitialUpdate
  simp only [hop, if_true, halloc, Bool.false_eq_true, if_false]
  cases halloc : allocateRecord g (initialSize key input) a.mem with
  | none => exact .inl ⟨allocateRecord_none halloc, rfl⟩
  | some new => exact .inr rfl

theorem attemptCopy_stalled {a : Attempt} (r : RecordPtr) (out : StringOutput)
    (hop : input.op = .setGet keepTtl) (halive : r.expired input.nowMs = false)
    (halloc : a.allocates = false) :
    (¬ FitsInPage g (copySize key input r) ∧ attemptCopy g key input a r out = .panic) ∨
      attemptCopy g key input a r out = .retry (some r) out := by
  unfold attemptCopy attemptLink
  simp only [needCopyUpdate_setGet hop, halive, Bool.false_eq_true, if_false, halloc]
  cases halloc : allocateRecord g (copySize key input r) a.mem with
  | none => exact .inl ⟨allocateRecord_none halloc, rfl⟩
  | some new => exact .inr rfl

/-- An attempt that does not write the output leaves it as it is: it cancels, or fails to get
    memory. -/
theorem attemptRmw_mute {a : Attempt} {record : Option RecordPtr} (out : StringOutput)
    (hop : input.op = .setGet keepTtl) (henters : a.enters = true)
    (hmute : attemptTells input a record = false) :
    (¬ CallFits g key input record ∧ attemptRmw g key input a record out = .panic) ∨
      attemptRmw g key input a record out =
        if record.any fun r => r.expired input.nowMs then
          match a.place with
          | .frozen => .done .canceled record out
          | .mutable_ => .retry none out
          | .lost => .retry record out
        else .retry record out := by
  unfold attemptRmw attemptTells at *
  simp only [henters, not_true_eq_false, if_false]
  cases record with
  | none => exact (attemptInitial_stalled none out hop hmute).imp_left (.imp_left fun h hfits => h hfits.1)
  | some r =>
    have hinitial : (¬ FitsInPage g (initialSize key input)) → ¬ CallFits g key input (some r) :=
      fun h hfits => h hfits.1
    have hcopy : (¬ FitsInPage g (copySize key input r)) → ¬ CallFits g key input (some r) :=
      fun h hfits => h (hfits.2 r rfl)
    simp only [Option.any_some]
    cases hplace : a.place with
    | lost =>
      simp only [hplace] at hmute
      simp only [ite_self]
      exact (attemptInitial_stalled (some r) out hop hmute).imp_left (.imp_left hinitial)
    | frozen =>
      simp only [hplace, Bool.and_eq_false_iff, Bool.not_eq_false'] at hmute
      by_cases hexp : r.expired input.nowMs
      · simp only [if_pos hexp]
        right
        unfold attemptCopy
        simp only [needCopyUpdate_setGet hop, if_pos hexp]
      · simp only [if_neg hexp]
        rcases hmute with halloc | hgone
        · exact (attemptCopy_stalled r out hop (by simpa using hexp) halloc).imp_left (.imp_left hcopy)
        · exact absurd hgone hexp
    | mutable_ =>
      simp only [hplace, Bool.or_eq_false_iff, Bool.and_eq_false_iff, Bool.not_eq_false',
        decide_eq_false_iff_not, Nat.not_le] at hmute
      simp only [inPlaceUpdater_setGet hop]
      by_cases hexp : r.expired input.nowMs
      · simp only [if_pos hexp]
        exact (attemptInitial_stalled none out hop hmute.1).imp_left (.imp_left hinitial)
      · simp only [if_neg hexp]
        have hcap : r.valueCap < input.operand.length := hmute.2.resolve_left hexp
        simp only [if_pos hcap]
        exact (attemptCopy_stalled r out hop (by simpa using hexp) hmute.1).imp_left (.imp_left hcopy)

/-- The record a GETSET that writes nothing leaves for its next attempt. -/
def afterMute (input : StringInput) (a : Attempt) (record : Option RecordPtr) : Option RecordPtr :=
  if record.any (fun r => r.expired input.nowMs) && decide (a.place = .mutable_) then none else record

/-- `callTells` at an attempt that gets to the record and writes nothing. -/
theorem callTells_mute {a : Attempt} {attempts : List Attempt} {record : Option RecordPtr}
    (henters : a.enters = true) (hmute : attemptTells input a record = false) :
    callTells input (a :: attempts) record =
      (!(record.any (fun r => r.expired input.nowMs) && decide (a.place = .frozen)) &&
        callTells input attempts (afterMute input a record)) := by
  rw [callTells]
  simp only [henters, hmute, not_true_eq_false, Bool.false_eq_true, if_false, afterMute]
  by_cases hexp : (record.any fun r => r.expired input.nowMs) = true
  · simp only [hexp, Bool.true_and]
    cases a.place <;> simp
  · simp only [if_neg hexp]
    simp [hexp]

/-- The loop past an attempt that writes nothing. -/
theorem callLoop_mute {a : Attempt} (attempts : List Attempt) {record : Option RecordPtr}
    (out : StringOutput) (hop : input.op = .setGet keepTtl) (henters : a.enters = true)
    (hmute : attemptTells input a record = false) :
    (¬ CallFits g key input record ∧
        callLoop (attemptRmw g key input) (a :: attempts) record out = .panic) ∨
      callLoop (attemptRmw g key input) (a :: attempts) record out =
        if record.any (fun r => r.expired input.nowMs) && decide (a.place = .frozen) then
          .done .canceled record out
        else callLoop (attemptRmw g key input) attempts (afterMute input a record) out := by
  rw [callLoop]
  rcases @attemptRmw_mute g key input keepTtl a record out hop henters hmute with ⟨hfits, hpanic⟩ | hmore
  · rw [hpanic]
    exact .inl ⟨hfits, rfl⟩
  · right
    rw [hmore]
    unfold afterMute
    by_cases hexp : (record.any fun r => r.expired input.nowMs) = true
    · simp only [hexp, Bool.true_and]
      cases a.place <;> simp
    · simp only [if_neg hexp]
      simp [hexp]

theorem callLoop_tells (attempts : List Attempt) (record : Option RecordPtr)
    (hop : input.op = .setGet keepTtl) (htells : callTells input attempts record = true) :
    Outcome.Rel input.op input.op.shows True (callLoop (attemptRmw g key input) attempts record o₁)
      (callLoop (attemptRmw g key input) attempts record o₂) := by
  induction attempts generalizing record with
  | nil => cases htells
  | cons a attempts ih =>
    by_cases henters : a.enters = true
    · cases htold : attemptTells input a record with
      | true =>
        have hattempt := @attemptRmw_tells g key input keepTtl o₁ o₂ a record hop henters htold
        unfold callLoop
        generalize attemptRmw g key input a record o₁ = r₁ at hattempt ⊢
        generalize attemptRmw g key input a record o₂ = r₂ at hattempt ⊢
        cases hattempt with
        | panic => exact .panic
        | retry hkept => exact callLoop_rel attempts _ fun _ => hkept trivial
        | done hkept hshown => exact .done hkept hshown
      | false =>
        rw [callTells_mute henters htold, Bool.and_eq_true, Bool.not_eq_true'] at htells
        obtain ⟨hlive, hrest⟩ := htells
        -- the two loops panic together, or go on together
        have hsame := @callLoop_rel g key input o₁ o₂ False (a :: attempts) record nofun
        have h₁ := @callLoop_mute g key input keepTtl a attempts record o₁ hop henters htold
        have h₂ := @callLoop_mute g key input keepTtl a attempts record o₂ hop henters htold
        simp only [hlive, Bool.false_eq_true, if_false] at h₁ h₂
        generalize callLoop (attemptRmw g key input) (a :: attempts) record o₁ = r₁ at *
        generalize callLoop (attemptRmw g key input) (a :: attempts) record o₂ = r₂ at *
        rcases h₁ with ⟨-, rfl⟩ | rfl
        · cases hsame
          exact .panic
        · rcases h₂ with ⟨-, rfl⟩ | rfl
          · generalize callLoop (attemptRmw g key input) attempts _ o₁ = r₁ at *
            cases hsame
            exact .panic
          · exact ih _ hrest
    · have hskip : ∀ o, attemptRmw g key input a record o = .retry record o := by
        intro o
        unfold attemptRmw
        rw [if_pos henters]
      unfold callTells at htells
      rw [if_pos henters] at htells
      unfold callLoop
      rw [hskip, hskip]
      exact ih record htells

/-- A call that does not write the output: whatever the output is, it comes back as it was. -/
theorem callLoop_silent (attempts : List Attempt) (record : Option RecordPtr)
    (hop : input.op = .setGet keepTtl) (hfits : CallFits g key input record)
    (hsilent : callTells input attempts record = false) :
    ∃ status record', ∀ out,
      callLoop (attemptRmw g key input) attempts record out = .done status record' out := by
  induction attempts generalizing record with
  | nil => exact ⟨.error, record, fun _ => rfl⟩
  | cons a attempts ih =>
    by_cases henters : a.enters = true
    · have hmute : attemptTells input a record = false := by
        unfold callTells at hsilent
        simp only [henters, not_true_eq_false, if_false] at hsilent
        by_contra htold
        rw [if_pos (by simpa using htold)] at hsilent
        cases hsilent
      have hloop := fun out =>
        (@callLoop_mute g key input keepTtl a attempts record out hop henters hmute).resolve_left
          fun h => h.1 hfits
      rw [callTells_mute henters hmute, Bool.and_eq_false_iff, Bool.not_eq_false'] at hsilent
      by_cases hcancel : (record.any (fun r => r.expired input.nowMs) && decide (a.place = .frozen)) = true
      · exact ⟨.canceled, record, fun out => by rw [hloop, if_pos hcancel]⟩
      · have hfits' : CallFits g key input (afterMute input a record) := by
          unfold afterMute
          split
          · exact ⟨hfits.1, nofun⟩
          · exact hfits
        obtain ⟨status, record', hrest⟩ := ih _ hfits' (hsilent.resolve_left hcancel)
        exact ⟨status, record', fun out => by rw [hloop, if_neg hcancel, hrest]⟩
    · unfold callTells at hsilent
      rw [if_pos henters] at hsilent
      obtain ⟨status, record', hrest⟩ := ih record hfits hsilent
      refine ⟨status, record', fun out => ?_⟩
      unfold callLoop attemptRmw
      rw [if_pos henters]
      exact hrest out

end Telling

/-! ## Section 3: Replies -/

/-- The commands that read. -/
def StringOp.Reads : StringOp → Prop
  | .get | .getRange _ _ | .strlen | .ttl _ | .exists_ => True
  | _ => False

section Calls

variable {w : World} {key : Bytes} {input : StringInput} {o₁ o₂ : StringOutput} {st : Shared}
  {agreed : Prop}

theorem attemptRead_rel {a : Attempt} (record : Option RecordPtr) (hop : input.op.Reads)
    (hagree : agreed → Agree input.op o₁ o₂) :
    Outcome.Rel input.op (· = .found) agreed (attemptRead input a record o₁)
      (attemptRead input a record o₂) := by
  unfold attemptRead
  by_cases henters : a.enters
  · simp only [henters, not_true_eq_false, if_false]
    cases record with
    | none => exact .done hagree nofun
    | some r =>
      by_cases hlost : a.place = .lost
      · simp only [if_pos hlost]
        exact .done hagree nofun
      · simp only [if_neg hlost]
        by_cases hexp : r.expired input.nowMs
        · have hgone (out : StringOutput) : reader input r out = (false, out) := if_pos hexp
          simp only [hgone]
          exact .done hagree nofun
        · unfold reader
          rw [if_neg hexp, if_neg hexp]
          revert hagree hop
          cases input.op <;> intro hop hagree <;> first
            | exact .done (fun _ => rfl) fun _ => rfl
            | exact .done (fun _ => trivial) fun _ => trivial
            | exact hop.elim
  · simp only [henters]
    exact .retry hagree

theorem readLoop_rel (attempts : List Attempt) (record : Option RecordPtr) (hop : input.op.Reads)
    (hagree : agreed → Agree input.op o₁ o₂) :
    Outcome.Rel input.op (· = .found) agreed (callLoop (attemptRead input) attempts record o₁)
      (callLoop (attemptRead input) attempts record o₂) := by
  induction attempts generalizing record o₁ o₂ with
  | nil => exact .done hagree nofun
  | cons a attempts ih =>
    have hattempt := @attemptRead_rel input o₁ o₂ agreed a record hop hagree
    unfold callLoop
    generalize attemptRead input a record o₁ = r₁ at hattempt ⊢
    generalize attemptRead input a record o₂ = r₂ at hattempt ⊢
    cases hattempt with
    | panic => exact .panic
    | retry hkept => exact ih _ hkept
    | done hkept hshown => exact .done hkept hshown

theorem attemptUpsert_rel {g : Tsavorite.Geometry} {a : Attempt} (record : Option RecordPtr) :
    Outcome.Rel .set (fun _ => False) False (attemptUpsert g key input a record o₁)
      (attemptUpsert g key input a record o₂) := by
  have hwrite : Outcome.Rel .set (fun _ => False) False
      (attemptLink g a (upsertSize key input)
        (fun new => (initialWriter input new).map fun r => (r, o₁)) .created record o₁)
      (attemptLink g a (upsertSize key input)
        (fun new => (initialWriter input new).map fun r => (r, o₂)) .created record o₂) := by
    unfold attemptLink
    cases allocateRecord g (upsertSize key input) a.mem with
    | none => exact .panic
    | some new =>
      simp only
      by_cases halloc : a.allocates
      · simp only [if_pos halloc]
        cases initialWriter input new with
        | none => exact .panic
        | some r =>
          simp only [Option.map_some]
          by_cases hlink : a.links
          · simp only [if_pos hlink]
            exact .done nofun nofun
          · simp only [if_neg hlink]
            exact .retry nofun
      · simp only [if_neg halloc]
        exact .retry nofun
  unfold attemptUpsert
  by_cases henters : a.enters
  · simp only [henters, not_true_eq_false, if_false]
    cases record with
    | none => exact hwrite
    | some r =>
      by_cases hplace : a.place = .mutable_
      · simp only [if_pos hplace]
        cases inPlaceWriter input r with
        | none => exact hwrite
        | some r => exact .done nofun nofun
      · simp only [if_neg hplace]
        exact hwrite
  · simp only [henters]
    exact .retry nofun

theorem upsertLoop_rel {g : Tsavorite.Geometry} (attempts : List Attempt)
    (record : Option RecordPtr) :
    Outcome.Rel .set (fun _ => False) False (callLoop (attemptUpsert g key input) attempts record o₁)
      (callLoop (attemptUpsert g key input) attempts record o₂) := by
  induction attempts generalizing record o₁ o₂ with
  | nil => exact .done nofun nofun
  | cons a attempts ih =>
    have hattempt := @attemptUpsert_rel key input o₁ o₂ g a record
    unfold callLoop
    generalize attemptUpsert g key input a record o₁ = r₁ at hattempt ⊢
    generalize attemptUpsert g key input a record o₂ = r₂ at hattempt ⊢
    cases hattempt with
    | panic => exact .panic
    | retry hkept => exact ih _
    | done hkept hshown => exact .done nofun nofun

/-- Two answers of a store call that lead to the same state, and unless the call panics have
    the same status and agree where the status is shown. -/
structure SameAnswer (op : StringOp) (shown : Status → Prop) (agreed : Prop)
    (x y : (Status × StringOutput) × Shared) : Prop where
  state : y.2 = x.2
  status : x.2.panicked = false → y.1.1 = x.1.1
  shown : x.2.panicked = false → shown x.1.1 ∨ agreed → Agree op x.1.2 y.1.2

theorem World.call_same {op : StringOp} {shown : Status → Prop}
    {attempt : Attempt → Option RecordPtr → StringOutput → Outcome}
    (h : Outcome.Rel op shown agreed (callLoop attempt (w.attempts st.calls) (st.record key) o₁)
      (callLoop attempt (w.attempts st.calls) (st.record key) o₂)) :
    SameAnswer op shown agreed (w.call key attempt o₁ st) (w.call key attempt o₂ st) := by
  unfold World.call
  generalize callLoop attempt (w.attempts st.calls) (st.record key) o₁ = r₁ at h ⊢
  generalize callLoop attempt (w.attempts st.calls) (st.record key) o₂ = r₂ at h ⊢
  cases h with
  | panic => exact ⟨rfl, nofun, nofun⟩
  | retry hkept => exact ⟨rfl, nofun, nofun⟩
  | done hkept hshown => exact ⟨rfl, fun _ => rfl, fun _ h => h.elim hshown hkept⟩

end Calls

/-- A GETSET, or a SET with GET: the reply shows the output whatever the status is. -/
def KeyCommand.showsAlways : KeyCommand → Bool
  | .set _ options => options.get
  | .getset _ => true
  | _ => false

/-- The statuses with which the reply shows the output, by the kind of the call. -/
def KeyCommand.shownOn (c : KeyCommand) (nowMs : Int64) (status : Status) : Prop :=
  match c.kind with
  | .read => status = .found
  | .upsert => False
  | .rmw => (c.input nowMs).op.shows status

section Replies

variable {w : World} {c : KeyCommand} {raw key : Bytes} {st : Shared} {s : RespSession}
  {o₁ o₂ : StringOutput} {status : Status}

theorem SetOpts.op_of_get {options : SetOpts} (h : options.get = true) :
    options.op = .setGet options.keepTtl := if_pos h

theorem SetOpts.op_ne_setGet {options : SetOpts} (h : options.get = false) (keepTtl : Bool) :
    options.op ≠ .setGet keepTtl := by
  unfold SetOpts.op
  rw [h]
  simp only [Bool.false_eq_true, if_false]
  repeat' split
  all_goals nofun

/-- Outputs that agree on what is shown give the same reply. -/
theorem KeyCommand.reply_congr (nowMs : Int64)
    (h : c.shownOn nowMs status ∨ c.showsAlways = true → Agree (c.input nowMs).op o₁ o₂) :
    c.reply status o₂ = c.reply status o₁ ∧ c.writes status o₂ = c.writes status o₁ := by
  cases c with
  | get => exact ⟨if_ctx_congr Iff.rfl
      (fun hfound => congrArg Resp.bulk (Eq.symm (h (.inl hfound)))) fun _ => rfl, rfl⟩
  | strlen => exact ⟨if_ctx_congr Iff.rfl
      (fun hfound => congrArg Resp.integer (Eq.symm (h (.inl hfound)))) fun _ => rfl, rfl⟩
  | getrange start stop => exact ⟨if_ctx_congr Iff.rfl
      (fun hfound => congrArg Resp.bulk (Eq.symm (h (.inl hfound)))) fun _ => rfl, rfl⟩
  | ttl ms => exact ⟨if_ctx_congr Iff.rfl
      (fun hfound => congrArg Resp.integer (Eq.symm (h (.inl hfound)))) fun _ => rfl, rfl⟩
  | set value options =>
    refine ⟨if_ctx_congr Iff.rfl (fun hget => ?_) fun _ => rfl, rfl⟩
    have hagree := h (.inr hget)
    rw [show (KeyCommand.input (.set value options) nowMs).op = .setGet options.keepTtl from
      SetOpts.op_of_get hget] at hagree
    rw [← hagree.1]
    exact if_ctx_congr Iff.rfl (fun hhas => congrArg Resp.bulk (hagree.2 hhas).symm) fun _ => rfl
  | getset value =>
    have hagree : o₁.hasBytes = o₂.hasBytes ∧ (o₁.hasBytes = true → o₁.bytes = o₂.bytes) := h (.inr rfl)
    refine ⟨?_, rfl⟩
    show (if o₂.hasBytes = true then _ else _) = if o₁.hasBytes = true then _ else _
    rw [← hagree.1]
    exact if_ctx_congr Iff.rfl (fun hhas => congrArg Resp.bulk (hagree.2 hhas).symm) fun _ => rfl
  | getdel => exact ⟨if_ctx_congr Iff.rfl
      (fun hdeleted => congrArg Resp.bulk (Eq.symm (h (.inl hdeleted)))) fun _ => rfl, rfl⟩
  | getex expiration => exact ⟨if_ctx_congr Iff.rfl
      (fun hupdated => congrArg Resp.bulk (Eq.symm (h (.inl hupdated)))) fun _ => rfl, rfl⟩
  | incr delta => exact ⟨if_ctx_congr Iff.rfl
      (fun hupdated => congrArg Resp.integer (Eq.symm (h (.inl hupdated)))) fun _ => rfl, rfl⟩
  | append value => exact ⟨if_ctx_congr Iff.rfl
      (fun hupdated => congrArg Resp.integer (Eq.symm (h (.inl hupdated)))) fun _ => rfl, rfl⟩
  | setrange offset value => exact ⟨if_ctx_congr Iff.rfl
      (fun hupdated => congrArg Resp.integer (Eq.symm (h (.inl hupdated)))) fun _ => rfl, rfl⟩
  | persist =>
    have hsame : (status.isUpdated && o₂.hasInt && decide (o₂.int = 1)) =
        (status.isUpdated && o₁.hasInt && decide (o₁.int = 1)) := by
      cases hupdated : status.isUpdated with
      | false => rfl
      | true =>
        have hagree : o₁.hasInt = o₂.hasInt ∧ o₁.int = o₂.int := h (.inl hupdated)
        rw [hagree.1, hagree.2]
    unfold reply writes
    rw [hsame]
    exact ⟨rfl, rfl⟩
  | _ => exact ⟨rfl, rfl⟩

/-- The call of the command as an operation. -/
def KeyCommand.effect (c : KeyCommand) (key : Bytes) (s : RespSession) : Effect :=
  match c.kind with
  | .read => .read key (c.input s.nowMs) s.outScratch
  | .upsert => .upsert key (c.input s.nowMs) s.outScratch
  | .rmw => .rmw key (c.input s.nowMs) s.outScratch

theorem KeyCommand.input_reads (h : c.kind = .read) (nowMs : Int64) : (c.input nowMs).op.Reads := by
  cases c with
  | set value options =>
    by_cases hop : options.op = .set
    · simp [kind, hop] at h
    · simp [kind, hop] at h
  | get => trivial
  | strlen => trivial
  | getrange start stop => trivial
  | ttl ms => trivial
  | type => trivial
  | _ => cases h

/-- The answers to one command with different outputs. -/
theorem KeyCommand.answer_same (key : Bytes) (s : RespSession) (o : StringOutput) (st : Shared) :
    SameAnswer (c.input s.nowMs).op (c.shownOn s.nowMs) False (c.answer w.handle key s st)
      (c.answer w.handle key { s with outScratch := o } st) := by
  unfold KeyCommand.answer KeyCommand.shownOn World.handle
  by_cases hpanic : st.panicked = true
  · simp only [if_pos hpanic]
    have hstay : ∀ h : Prop, st.panicked = false → h := fun _ h => by rw [hpanic] at h; cases h
    cases c.kind <;> exact ⟨rfl, hstay _, hstay _⟩
  · simp only [if_neg hpanic]
    cases hkind : c.kind with
    | read =>
      exact World.call_same (readLoop_rel _ _ (KeyCommand.input_reads hkind s.nowMs) False.elim)
    | upsert =>
      have hcall := World.call_same (@upsertLoop_rel key (c.input s.nowMs) s.outScratch o w.geometry
        (w.attempts st.calls) (st.record key))
      exact ⟨hcall.state, hcall.status, fun _ h => (h.elim id id).elim⟩
    | rmw => exact World.call_same (callLoop_rel _ _ False.elim)

/-- The output of a GETSET of which some attempt writes it. -/
theorem KeyCommand.answer_told (key : Bytes) (s : RespSession) (o : StringOutput) (st : Shared)
    (halways : c.showsAlways = true) (htold : Told w (c.effect key s) st) :
    SameAnswer (c.input s.nowMs).op (fun _ => True) True (c.answer w.handle key s st)
      (c.answer w.handle key { s with outScratch := o } st) := by
  obtain ⟨keepTtl, hop, hkind⟩ : ∃ keepTtl, (c.input s.nowMs).op = .setGet keepTtl ∧ c.kind = .rmw := by
    cases c with
    | set value options =>
      have hop := SetOpts.op_of_get halways
      exact ⟨options.keepTtl, hop, by simp [kind, hop]⟩
    | getset value => exact ⟨false, rfl, rfl⟩
    | _ => cases halways
  unfold KeyCommand.effect at htold
  unfold KeyCommand.answer World.handle
  rw [hkind] at htold ⊢
  simp only [Told, hop] at htold
  by_cases hpanic : st.panicked = true
  · simp only [if_pos hpanic]
    have hstay : ∀ h : Prop, st.panicked = false → h := fun _ h => by rw [hpanic] at h; cases h
    exact ⟨rfl, hstay _, hstay _⟩
  · simp only [if_neg hpanic]
    have hcall := World.call_same (@callLoop_tells w.geometry key (c.input s.nowMs) keepTtl
      s.outScratch o (w.attempts st.calls) (st.record key) hop htold)
    exact ⟨hcall.state, hcall.status, fun h _ => hcall.shown h (.inr trivial)⟩

end Replies

end Garnet
