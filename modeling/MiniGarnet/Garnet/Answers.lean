import MiniGarnet.Garnet.Blind

/-! # Answers of store calls

    What the status that a store call returns says about the record of its
    key: when the record has been left as it was, and what is in the output
    where the reply shows it.  `Outcome.Meets` and `callLoop_meets` are the
    rules by which this is derived for a call from what one attempt does.

    Of a record, later reads see its value and its deadline, and of an expired
    one nothing (`seenAt`).
-/

namespace Garnet

open Tsavorite (Status)
open StringFunctions

/-! ## Section 1: What later reads see -/

/-- The value and the deadline of a key at time `t`; `none` if it is absent or expired. -/
def seenAt (t : Int64) (record : Option RecordPtr) : Option (Bytes × Int64) :=
  record.bind fun r => if r.expired t then none else some (r.value, r.expiration)

/-- No read at `now` or later tells the two records apart. -/
def SeenAlike (now : Int64) (a b : Option RecordPtr) : Prop :=
  ∀ t, now ≤ t → seenAt t a = seenAt t b

/-- What a read of a key with this record puts out. -/
def readOf (input : StringInput) (record : Option RecordPtr) (out : StringOutput) :
    Bool × StringOutput :=
  match record with
  | none => (false, out)
  | some r => reader input r out

section Seen

variable {now t : Int64} {a b c : Option RecordPtr} {r : RecordPtr}

theorem RecordPtr.expired_mono (h : r.expired now = true) (hle : now ≤ t) : r.expired t = true := by
  unfold RecordPtr.expired at *
  simp only [Bool.and_eq_true, decide_eq_true_eq] at *
  exact ⟨h.1, Int64.le_trans h.2 hle⟩

@[simp] theorem seenAt_none : seenAt t none = none := rfl

theorem seenAt_expired (h : r.expired t = true) : seenAt t (some r) = none := if_pos h

theorem seenAt_alive (h : r.expired t = false) :
    seenAt t (some r) = some (r.value, r.expiration) := by
  show (if r.expired t = true then none else some (r.value, r.expiration)) = _
  rw [h]
  rfl

theorem SeenAlike.refl (now : Int64) (a : Option RecordPtr) : SeenAlike now a a := fun _ _ => rfl

theorem SeenAlike.symm (h : SeenAlike now a b) : SeenAlike now b a := fun t ht => (h t ht).symm

theorem SeenAlike.trans (hab : SeenAlike now a b) (hbc : SeenAlike now b c) : SeenAlike now a c :=
  fun t ht => (hab t ht).trans (hbc t ht)

/-- A read shows what is seen of the key at its time, and nothing else. -/
theorem readOf_of_seen {input : StringInput} (h : seenAt input.nowMs a = seenAt input.nowMs b)
    (out : StringOutput) : readOf input a out = readOf input b out := by
  have hgone : ∀ {record : Option RecordPtr}, seenAt input.nowMs record = none →
      readOf input record out = (false, out) := by
    intro record hnone
    cases record with
    | none => rfl
    | some r =>
      cases hexp : r.expired input.nowMs with
      | true => exact if_pos hexp
      | false =>
        rw [seenAt_alive hexp] at hnone
        cases hnone
  -- a record that is seen is read through its value and its deadline
  have hread : ∀ {r r' : RecordPtr}, r.expired input.nowMs = false → r'.expired input.nowMs = false →
      r.value = r'.value → r.expiration = r'.expiration → reader input r out = reader input r' out := by
    intro r r' hexp hexp' hvalue hexpiration
    have hlen : r.valueLen = r'.valueLen := by rw [← r.length_value, hvalue, r'.length_value]
    unfold reader
    rw [hexp, hexp', hvalue, hexpiration, hlen]
  cases hb : seenAt input.nowMs b with
  | none => rw [hgone hb, hgone (h.trans hb)]
  | some x =>
    have hseen : ∀ {record : Option RecordPtr}, seenAt input.nowMs record = some x →
        ∃ r, record = some r ∧ r.expired input.nowMs = false ∧ (r.value, r.expiration) = x := by
      intro record hsome
      cases record with
      | none => cases hsome
      | some r =>
        cases hexp : r.expired input.nowMs with
        | true =>
          rw [seenAt_expired hexp] at hsome
          cases hsome
        | false =>
          rw [seenAt_alive hexp] at hsome
          exact ⟨r, rfl, hexp, Option.some.inj hsome⟩
    obtain ⟨r, rfl, hr, hrx⟩ := hseen (h.trans hb)
    obtain ⟨r', rfl, hr', hrx'⟩ := hseen hb
    obtain ⟨hvalue, hexpiration⟩ := Prod.mk.inj (hrx.trans hrx'.symm)
    exact hread hr hr' hvalue hexpiration

/-- The record is left, or it was expired and is a tombstone now. -/
def LeftAlone (now : Int64) (before after : Option RecordPtr) : Prop :=
  after = before ∨ after = none ∧ ∀ r ∈ before, r.expired now = true

theorem LeftAlone.refl (now : Int64) (a : Option RecordPtr) : LeftAlone now a a := .inl rfl

theorem LeftAlone.trans (hab : LeftAlone now a b) (hbc : LeftAlone now b c) : LeftAlone now a c := by
  rcases hbc with rfl | ⟨rfl, hexp⟩
  · exact hab
  · rcases hab with rfl | ⟨rfl, hexp'⟩
    · exact .inr ⟨rfl, hexp⟩
    · exact .inr ⟨rfl, hexp'⟩

theorem LeftAlone.seen (h : LeftAlone now a b) : SeenAlike now a b := by
  rcases h with rfl | ⟨rfl, hexp⟩
  · exact .refl now b
  · intro t ht
    cases a with
    | none => rfl
    | some r => exact seenAt_expired (RecordPtr.expired_mono (hexp r rfl) ht)

end Seen

/-! ## Section 2: Calls -/

section Attempts

variable {g : Tsavorite.Geometry} {key : Bytes} {input : StringInput} {a : Attempt} {r : RecordPtr}
  {out : StringOutput}

theorem attemptRmw_skip (h : a.enters = false) (record : Option RecordPtr) :
    attemptRmw g key input a record out = .retry record out := by
  unfold attemptRmw
  rw [h]
  rfl

theorem attemptRmw_none (h : a.enters = true) :
    attemptRmw g key input a none out = attemptInitial g key input a none out := by
  unfold attemptRmw
  rw [h]
  rfl

theorem attemptRmw_lost (h : a.enters = true) (hplace : a.place = .lost) :
    attemptRmw g key input a (some r) out = attemptInitial g key input a (some r) out := by
  unfold attemptRmw
  rw [h]
  simp only [hplace]
  rfl

theorem attemptRmw_frozen (h : a.enters = true) (hplace : a.place = .frozen) :
    attemptRmw g key input a (some r) out = attemptCopy g key input a r out := by
  unfold attemptRmw
  rw [h]
  simp only [hplace]
  rfl

/-- An expired record that may be changed in place is a tombstone from here on. -/
theorem attemptRmw_expired (h : a.enters = true) (hplace : a.place = .mutable_)
    (hexp : r.expired input.nowMs = true) :
    attemptRmw g key input a (some r) out = attemptInitial g key input a none out := by
  unfold attemptRmw
  rw [h]
  simp only [hplace, inPlaceUpdater_expired input r hexp]
  rfl

end Attempts

/-- An outcome that is done meets `D`, and one that has to be tried again meets `R`. -/
def Outcome.Meets (D : Status → Option RecordPtr → StringOutput → Prop)
    (R : Option RecordPtr → StringOutput → Prop) : Outcome → Prop
  | .done status record out => D status record out
  | .retry record out => R record out
  | .panic => True

section Loops

variable {D D' : Status → Option RecordPtr → StringOutput → Prop}
  {R R' : Option RecordPtr → StringOutput → Prop}

theorem Outcome.Meets.imp {o : Outcome} (h : o.Meets D R)
    (hD : ∀ status record out, D status record out → D' status record out)
    (hR : ∀ record out, R record out → R' record out) : o.Meets D' R' := by
  cases o with
  | done status record out => exact hD _ _ _ h
  | retry record out => exact hR _ _ h
  | panic => trivial

/-- `R` is the invariant of the loop. -/
theorem callLoop_meets {attempt : Attempt → Option RecordPtr → StringOutput → Outcome}
    (hstep : ∀ a record out, R record out → (attempt a record out).Meets D R)
    (herror : ∀ record out, R record out → D .error record out) (attempts : List Attempt)
    {record : Option RecordPtr} {out : StringOutput} (h : R record out) :
    (callLoop attempt attempts record out).Meets D fun _ _ => False := by
  induction attempts generalizing record out with
  | nil => exact herror _ _ h
  | cons a attempts ih =>
    have hattempt := hstep a record out h
    unfold callLoop
    cases hout : attempt a record out with
    | done status record out =>
      rw [hout] at hattempt
      exact hattempt
    | retry record out =>
      rw [hout] at hattempt
      exact ih hattempt
    | panic => trivial

/-- A new record: it is linked, or the attempt starts over with the record of before. -/
theorem attemptLink_meets {g : Tsavorite.Geometry} {a : Attempt} {size : Tsavorite.RecordSizeInfo}
    {fill : RecordPtr → Option (RecordPtr × StringOutput)} {status : Status}
    {record : Option RecordPtr} {out : StringOutput}
    (hdone : ∀ new r out', allocateRecord g size a.mem = some new → fill new = some (r, out') →
      D status (some r) out')
    (hretry : ∀ out', R record out') :
    (attemptLink g a size fill status record out).Meets D R := by
  unfold attemptLink
  cases halloc : allocateRecord g size a.mem with
  | none => trivial
  | some new =>
    simp only
    by_cases hroom : a.allocates
    · rw [if_pos hroom]
      cases hfill : fill new with
      | none => trivial
      | some x =>
        simp only
        by_cases hlink : a.links
        · rw [if_pos hlink]
          exact hdone new x.1 x.2 halloc hfill
        · rw [if_neg hlink]
          exact hretry x.2
    · rw [if_neg hroom]
      exact hretry out

theorem attemptTombstone_meets {g : Tsavorite.Geometry} {key : Bytes} {a : Attempt}
    {record : Option RecordPtr} {out : StringOutput} (hdone : D .deleted none out)
    (hretry : R record out) : (attemptTombstone g key a record out).Meets D R := by
  unfold attemptTombstone
  cases allocateRecord g ⟨key.length, 0, false⟩ a.mem with
  | none => trivial
  | some new =>
    simp only
    by_cases hdone' : (a.allocates && a.links) = true
    · rw [if_pos hdone']
      exact hdone
    · rw [if_neg hdone']
      exact hretry

end Loops

section Links

variable {g : Tsavorite.Geometry} {a : Attempt}

/-- A link of which the fill does not fail. -/
theorem attemptLink_eq {size : Tsavorite.RecordSizeInfo}
    {fill : RecordPtr → Option (RecordPtr × StringOutput)} (status : Status)
    (record : Option RecordPtr) (out : StringOutput)
    (hfill : ∀ new, allocateRecord g size a.mem = some new → (fill new).isSome) :
    attemptLink g a size fill status record out = .panic ∧ ¬ FitsInPage g size ∨
      FitsInPage g size ∧ if a.allocates && a.links then
        ∃ r out', attemptLink g a size fill status record out = .done status (some r) out'
      else ∃ out', attemptLink g a size fill status record out = .retry record out' := by
  unfold attemptLink
  cases halloc : allocateRecord g size a.mem with
  | none => exact .inl ⟨rfl, allocateRecord_none halloc⟩
  | some new =>
    have hfits : FitsInPage g size := by
      by_contra hnot
      simp [allocateRecord, hnot] at halloc
    obtain ⟨x, hx⟩ := Option.isSome_iff_exists.mp (hfill new halloc)
    refine .inr ⟨hfits, ?_⟩
    cases a.allocates with
    | false => exact ⟨out, rfl⟩
    | true =>
      cases a.links with
      | false => exact ⟨x.2, by simp [hx]⟩
      | true => exact ⟨x.1, x.2, by simp [hx]⟩

/-- A new record has a slot where its size asks for one. -/
theorem allocateRecord_slot {size : Tsavorite.RecordSizeInfo} {mem : ℕ → UInt8} {new : RecordPtr}
    (h : allocateRecord g size mem = some new) : new.hasExpirationSlot = size.hasExpiration := by
  unfold allocateRecord at h
  split at h
  · obtain rfl := Option.some.inj h
    unfold RecordPtr.hasExpirationSlot
    cases size.hasExpiration <;> rfl
  · cases h

theorem allocateRecord_cap {size : Tsavorite.RecordSizeInfo} {mem : ℕ → UInt8} {new : RecordPtr}
    (h : allocateRecord g size mem = some new) : new.valueCap = size.valueCap := by
  unfold allocateRecord at h
  split at h
  · obtain rfl := Option.some.inj h
    simp [RecordPtr.valueCap]
  · cases h

end Links

/-! ## Section 3: What a write leaves in the record -/

theorem RecordPtr.writeVal_value {r r' : RecordPtr} {v : Bytes} (h : r.writeVal v = some r') :
    r'.value = v ∧ r'.expirationSlot = r.expirationSlot := by
  by_cases hfits : v.length ≤ r.valueCap
  · obtain ⟨r₁, hwrite, hvalue, hslot⟩ := RecordPtr.writeVal_spec hfits
    obtain rfl := Option.some.inj (hwrite.symm.trans h)
    exact ⟨hvalue, hslot⟩
  · have hnone : Slice.copyFrom r.valueBuf 0 v.length v = none := if_neg fun hle => hfits hle.2.1
    unfold RecordPtr.writeVal at h
    rw [hnone] at h
    cases h

theorem RecordPtr.withValue_len {r r' : RecordPtr} {buf : Bytes} {n : ℕ}
    (h : r.withValue buf n = some r') :
    r'.value.length = n ∧ r'.expirationSlot = r.expirationSlot := by
  unfold RecordPtr.withValue at h
  split at h
  · obtain rfl := Option.some.inj h
    exact ⟨RecordPtr.length_value _, rfl⟩
  · cases h

@[simp] theorem RecordPtr.setExpiration_value (r : RecordPtr) (ts : Int64) :
    (r.setExpiration ts).1.value = r.value := by
  unfold RecordPtr.setExpiration
  split <;> rfl

/-- What a write of the command leaves in the record, as the reply has it: the value or the
    deadline it asks for, or the number or the length it puts out. -/
def Written (input : StringInput) (r : RecordPtr) (out : StringOutput) : Prop :=
  match input.op with
  | .set | .setKeepTtl | .setNx | .setXx | .setGet _ => r.value = input.operand
  | .incrBy => r.value = Resp.fmtI64 out.int
  | .append | .setRange _ => out.int = Int64.ofNat r.value.length
  | .getEx | .expire => r.expiration = input.expiration
  | .persist => r.expiration = 0
  | _ => True

section Written

variable {input : StringInput} {r r' old new : RecordPtr} {out out' : StringOutput}

/-- The same value, where the command is not about the deadline. -/
theorem Written.of_value (h : Written input r out) (hvalue : r'.value = r.value)
    (hop : needInitialUpdate input = true) : Written input r' out := by
  unfold Written needInitialUpdate at *
  cases hcase : input.op <;> simp_all

theorem initialUpdater_written (hneed : needInitialUpdate input = true)
    (h : initialUpdater input new out = some (r, out')) : Written input r out' := by
  have hvalue : ∀ r₁ out₁, initialValue input new out = some (r₁, out₁) → Written input r₁ out₁ := by
    intro r₁ out₁ h
    unfold initialValue at h
    unfold Written
    unfold needInitialUpdate at hneed
    cases hop : input.op with
    | setRange offset =>
      simp only [hop, Option.bind_eq_bind, Option.pure_def, Option.bind_eq_some_iff] at h
      obtain ⟨buf₁, -, buf₂, -, r₂, hwith, h⟩ := h
      obtain ⟨rfl, rfl⟩ := Prod.mk.inj (Option.some.inj h)
      rw [(RecordPtr.withValue_len hwith).1]
      rfl
    | incrBy | append =>
      simp only [hop, Option.bind_eq_bind, Option.pure_def, Option.bind_eq_some_iff] at h
      obtain ⟨r₂, hwrite, h⟩ := h
      obtain ⟨rfl, rfl⟩ := Prod.mk.inj (Option.some.inj h)
      simp only [(RecordPtr.writeVal_value hwrite).1]
      rfl
    | set | setKeepTtl | setNx | setGet keepTtl =>
      simp only [hop, Option.bind_eq_bind, Option.pure_def, Option.bind_eq_some_iff] at h
      obtain ⟨r₂, hwrite, h⟩ := h
      obtain ⟨rfl, rfl⟩ := Prod.mk.inj (Option.some.inj h)
      exact (RecordPtr.writeVal_value hwrite).1
    | setXx | getEx | expire | persist => simp [hop] at hneed
    | _ => trivial
  unfold initialUpdater at h
  cases hfirst : initialValue input new out with
  | none => simp [hfirst] at h
  | some x =>
    have hwritten := hvalue x.1 x.2 (by rw [hfirst])
    simp only [hfirst, Option.bind_eq_bind, Option.bind_some, Option.pure_def] at h
    split at h
    · obtain ⟨rfl, rfl⟩ := Prod.mk.inj (Option.some.inj h)
      exact hwritten.of_value (RecordPtr.setExpiration_value _ _) hneed
    · obtain ⟨rfl, rfl⟩ := Prod.mk.inj (Option.some.inj h)
      exact hwritten

theorem copyValue_written (h : copyValue input old new out = some (r, out')) :
    r.expirationSlot = new.expirationSlot ∧
      match input.op with
      | .set | .setKeepTtl | .setNx | .setXx | .setGet _ => r.value = input.operand
      | .incrBy => r.value = Resp.fmtI64 out'.int
      | .append | .setRange _ => out'.int = Int64.ofNat r.value.length
      | _ => True := by
  unfold copyValue at h
  cases hop : input.op with
  | setRange offset =>
    simp only [hop, Option.bind_eq_bind, Option.pure_def, Option.bind_eq_some_iff] at h
    obtain ⟨buf₁, -, buf₂, -, buf₃, -, r₂, hwith, h⟩ := h
    obtain ⟨rfl, rfl⟩ := Prod.mk.inj (Option.some.inj h)
    refine ⟨(RecordPtr.withValue_len hwith).2, ?_⟩
    simp only [(RecordPtr.withValue_len hwith).1]
    rfl
  | append =>
    simp only [hop, Option.bind_eq_bind, Option.pure_def, Option.bind_eq_some_iff] at h
    obtain ⟨buf₁, -, buf₂, -, r₂, hwith, h⟩ := h
    obtain ⟨rfl, rfl⟩ := Prod.mk.inj (Option.some.inj h)
    refine ⟨(RecordPtr.withValue_len hwith).2, ?_⟩
    simp only [(RecordPtr.withValue_len hwith).1]
    rfl
  | _ =>
    simp only [hop, Option.bind_eq_bind, Option.pure_def, Option.bind_eq_some_iff] at h
    obtain ⟨r₂, hwrite, h⟩ := h
    obtain ⟨rfl, rfl⟩ := Prod.mk.inj (Option.some.inj h)
    obtain ⟨hvalue, hslot⟩ := RecordPtr.writeVal_value hwrite
    exact ⟨hslot, by first | exact hvalue | trivial⟩

/-- The record of the copy has a slot for the deadline where the command sets one. -/
theorem copySize_slot {key : Bytes} (hop : input.op = .getEx ∨ input.op = .expire)
    (h : (copySize key input old).hasExpiration = false) : input.expiration = 0 := by
  unfold copySize at h
  rcases hop with hop | hop <;> simp_all

theorem copyUpdater_written {key : Bytes}
    (hslot : new.hasExpirationSlot = (copySize key input old).hasExpiration)
    (h : copyUpdater input old new out = some (r, out')) : Written input r out' := by
  unfold copyUpdater at h
  cases hfirst : copyValue input old new out with
  | none => simp [hfirst] at h
  | some x =>
    obtain ⟨hsame, hvalue⟩ := copyValue_written (show copyValue input old new out = some (x.1, x.2) from hfirst)
    have hhas : x.1.hasExpirationSlot = (copySize key input old).hasExpiration := by
      rw [← hslot, RecordPtr.hasExpirationSlot, hsame]
      rfl
    simp only [hfirst, Option.bind_eq_bind, Option.bind_some, Option.pure_def] at h
    -- the deadline is that of `copyTtl`, and there is none without a slot
    have hrecord : out' = x.2 ∧ r.value = x.1.value ∧
        r.expiration = if (copySize key input old).hasExpiration then copyTtl input old else 0 := by
      cases hexp : (copySize key input old).hasExpiration with
      | true =>
        rw [hexp] at hhas
        simp only [hhas, if_true, RecordPtr.setExpiration_of_slot hhas] at h
        obtain ⟨rfl, rfl⟩ := Prod.mk.inj (Option.some.inj h)
        exact ⟨rfl, rfl, rfl⟩
      | false =>
        rw [hexp] at hhas
        simp only [hhas, Bool.false_eq_true, if_false] at h
        obtain ⟨rfl, rfl⟩ := Prod.mk.inj (Option.some.inj h)
        exact ⟨rfl, rfl, RecordPtr.expiration_of_no_slot hhas⟩
    obtain ⟨rfl, hsamevalue, hexpiration⟩ := hrecord
    unfold Written
    cases hop : input.op with
    | getEx | expire =>
      simp only [hop] at hvalue ⊢
      rw [hexpiration]
      cases hexp : (copySize key input old).hasExpiration with
      | true => simp [copyTtl, hop]
      | false => exact (copySize_slot (by simp [hop]) hexp).symm
    | persist =>
      simp only
      rw [hexpiration]
      simp [copyTtl, hop]
    | set | setKeepTtl | setNx | setXx | setGet keepTtl | incrBy | append | setRange offset =>
      simp only [hop] at hvalue ⊢
      rw [hsamevalue]
      exact hvalue
    | _ => trivial

/-- The SET forms in place. -/
theorem setInPlace_value (h : setInPlace input r out = some (.updated, r', out')) :
    r'.value = input.operand := by
  unfold setInPlace at h
  split at h
  · cases h
  · simp only [Option.bind_eq_bind, Option.pure_def, Option.bind_eq_some_iff] at h
    obtain ⟨r₂, hwrite, h⟩ := h
    obtain ⟨-, rfl, -⟩ := Prod.mk.inj (Option.some.inj h) |>.imp_right Prod.mk.inj
    exact (RecordPtr.writeVal_value hwrite).1

theorem inPlaceUpdater_written (h : inPlaceUpdater input r out = some (.updated, r', out')) :
    Written input r' out' := by
  unfold inPlaceUpdater at h
  split at h
  · cases h
  · unfold Written
    cases hop : input.op with
    | setXx | set | setKeepTtl | setGet keepTtl =>
      simp only [hop] at h
      split at h
      · cases h
      · exact setInPlace_value h
    | incrBy =>
      simp only [hop, incrInPlace] at h
      split at h
      · cases h
      · split at h
        · cases h
        · split at h
          · cases h
          · simp only [Option.bind_eq_bind, Option.pure_def, Option.bind_eq_some_iff] at h
            obtain ⟨r₂, hwrite, h⟩ := h
            obtain ⟨-, rfl, rfl⟩ := Prod.mk.inj (Option.some.inj h) |>.imp_right Prod.mk.inj
            exact (RecordPtr.writeVal_value hwrite).1
    | append =>
      simp only [hop, appendInPlace] at h
      split at h
      · cases h
      · simp only [Option.bind_eq_bind, Option.pure_def, Option.bind_eq_some_iff] at h
        obtain ⟨buf, -, r₂, hwith, h⟩ := h
        obtain ⟨-, rfl, rfl⟩ := Prod.mk.inj (Option.some.inj h) |>.imp_right Prod.mk.inj
        simp only [(RecordPtr.withValue_len hwith).1]
        rfl
    | setRange offset =>
      have hlength : r'.value.length = max (offset + input.operand.length) r.valueLen ∧
          out'.int = Int64.ofNat (max (offset + input.operand.length) r.valueLen) := by
        simp only [hop, setRangeInPlace] at h
        by_cases hcap : r.valueCap < max (offset + input.operand.length) r.valueLen
        · simp only [if_pos hcap] at h
          cases h
        · simp only [if_neg hcap, Option.bind_eq_bind, Option.pure_def] at h
          split at h
          all_goals
            simp only [Option.bind_eq_some_iff] at h
            obtain ⟨buf₁, -, buf₂, -, r₂, hwith, h⟩ := h
            obtain ⟨-, rfl, rfl⟩ := Prod.mk.inj (Option.some.inj h) |>.imp_right Prod.mk.inj
            exact ⟨(RecordPtr.withValue_len hwith).1, rfl⟩
      simp only [hlength.1, hlength.2]
    | getEx =>
      simp only [hop, getExInPlace] at h
      rcases applyTtlInPlace_clears (r := r) (.inr (.inr hop)) with ⟨happly, -⟩ | ⟨slot, happly, hexp⟩
      · simp [happly] at h
      · simp only [happly] at h
        obtain ⟨-, rfl, -⟩ := Prod.mk.inj (Option.some.inj h) |>.imp_right Prod.mk.inj
        exact hexp
    | expire =>
      simp only [hop] at h
      split at h
      · rename_i hslot
        rw [RecordPtr.setExpiration_of_slot hslot] at h
        obtain ⟨-, rfl, -⟩ := Prod.mk.inj (Option.some.inj h) |>.imp_right Prod.mk.inj
        rfl
      · cases h
    | persist =>
      simp only [hop] at h
      split at h
      · rename_i hslot
        rw [RecordPtr.setExpiration_of_slot hslot.1] at h
        obtain ⟨-, rfl, -⟩ := Prod.mk.inj (Option.some.inj h) |>.imp_right Prod.mk.inj
        rfl
      · cases h
    | setNx => simp [hop] at h
    | _ => trivial

end Written

/-! ## Section 4: Answers of an RMW -/

/-- What the answer to an RMW says about the record of its key. -/
structure RmwOk (input : StringInput) (before : Option RecordPtr) (status : Status)
    (after : Option RecordPtr) (out : StringOutput) : Prop where
  idle : status.isUpdated = false → LeftAlone input.nowMs before after
  getDel : input.op = .getDel → status.isUpdated = true → status = .deleted
  persist : input.op = .persist → status.isUpdated = true → out.hasInt = true ∧ out.int = 1
  setNx : input.op = .setNx → input.expiration = 0 → status.isUpdated = true → status = .created ∨
    status = .copyUpdated ∧ seenAt input.nowMs before = none ∧ seenAt input.nowMs after ≠ none
  setGet : ∀ keepTtl, input.op = .setGet keepTtl → status.isUpdated = true →
    out.hasBytes = decide (status ≠ .created)
  written : status.isUpdated = true →
    if input.op = .getDel then after = none else ∃ r, after = some r ∧ Written input r out

section Rmw

variable {g : Tsavorite.Geometry} {key : Bytes} {input : StringInput} {a : Attempt}
  {before record : Option RecordPtr} {status : Status} {out : StringOutput}

/-- From the record that an attempt finds to the record of before the call. -/
theorem RmwOk.of_left (hleft : LeftAlone input.nowMs before record) {after : Option RecordPtr}
    (h : RmwOk input record status after out) : RmwOk input before status after out where
  idle hidle := hleft.trans (h.idle hidle)
  getDel := h.getDel
  persist := h.persist
  setNx hop hzero hupdated := by
    rw [hleft.seen input.nowMs (Int64.le_refl _)]
    exact h.setNx hop hzero hupdated
  setGet := h.setGet
  written := h.written

/-- A call that writes nothing. -/
theorem RmwOk.of_idle {after : Option RecordPtr} (hidle : status.isUpdated = false)
    (hleft : LeftAlone input.nowMs record after) : RmwOk input record status after out where
  idle _ := hleft
  getDel _ h := by rw [hidle] at h; cases h
  persist _ h := by rw [hidle] at h; cases h
  setNx _ _ h := by rw [hidle] at h; cases h
  setGet _ _ h := by rw [hidle] at h; cases h
  written h := by rw [hidle] at h; cases h

/-- GETSET of a key without a record says that there was no value. -/
theorem initialUpdater_hides {new r : RecordPtr} {out' : StringOutput} {keepTtl : Bool}
    (hop : input.op = .setGet keepTtl) (h : initialUpdater input new out = some (r, out')) :
    out'.hasBytes = false := by
  unfold initialUpdater initialValue at h
  rw [hop] at h
  cases hwrite : new.writeVal input.operand with
  | none => simp [hwrite] at h
  | some r' =>
    simp only [hwrite, Option.bind_eq_bind, Option.bind_some, Option.pure_def] at h
    split at h <;> cases h <;> rfl

theorem attemptInitial_meets {R : Option RecordPtr → StringOutput → Prop}
    (hretry : ∀ out, R record out) :
    (attemptInitial g key input a record out).Meets (RmwOk input record) R := by
  unfold attemptInitial
  by_cases hneed : needInitialUpdate input
  · rw [if_pos hneed]
    refine attemptLink_meets (fun new r out' _ hfill => ?_) hretry
    refine ⟨nofun, ?_, ?_, fun _ _ _ => .inl rfl, ?_, fun _ => ?_⟩
    · intro hop
      simp [needInitialUpdate, hop] at hneed
    · intro hop
      simp [needInitialUpdate, hop] at hneed
    · intro keepTtl hop _
      exact initialUpdater_hides hop hfill
    · rw [if_neg fun hop => by simp [needInitialUpdate, hop] at hneed]
      exact ⟨r, rfl, initialUpdater_written hneed hfill⟩
  · rw [if_neg hneed]
    exact .of_idle rfl (.refl _ _)

/-- What the copy path puts out for GETSET and PERSIST, and when SETNX takes it. -/
theorem copyUpdater_out {old new r : RecordPtr} {out' : StringOutput}
    (h : copyUpdater input old new out = some (r, out')) :
    (∀ keepTtl, input.op = .setGet keepTtl → out'.hasBytes = true) ∧
      (input.op = .persist → out'.hasInt = true ∧ out'.int = 1) := by
  constructor
  · intro keepTtl hop
    unfold copyUpdater copyValue at h
    rw [hop] at h
    cases hwrite : new.writeVal input.operand with
    | none => simp [hwrite] at h
    | some r' =>
      simp only [hwrite, Option.bind_eq_bind, Option.bind_some, Option.pure_def] at h
      split at h <;> cases h <;> rfl
  · intro hop
    unfold copyUpdater copyValue at h
    rw [hop] at h
    cases hwrite : new.writeVal (oldValue input old) with
    | none => simp [hwrite] at h
    | some r' =>
      simp only [hwrite, Option.bind_eq_bind, Option.bind_some, Option.pure_def] at h
      split at h <;> cases h <;> exact ⟨rfl, rfl⟩

/-- The copy of an expired record that SETNX writes has no deadline. -/
theorem copyUpdater_setNx {old new r : RecordPtr} {out' : StringOutput} (hop : input.op = .setNx)
    (hzero : input.expiration = 0) (hexp : old.expired input.nowMs = true)
    (h : copyUpdater input old new out = some (r, out')) (t : Int64) : r.expired t = false := by
  have httl : copyTtl input old = 0 := by
    unfold copyTtl
    simp [hop, hzero, hexp]
  unfold copyUpdater at h
  cases hvalue : copyValue input old new out with
  | none => simp [hvalue] at h
  | some x =>
    simp only [hvalue, Option.bind_eq_bind, Option.bind_some, Option.pure_def, httl] at h
    cases hslot : x.1.hasExpirationSlot with
    | true =>
      simp only [hslot, if_true, RecordPtr.setExpiration_of_slot hslot] at h
      obtain ⟨rfl, -⟩ := Prod.mk.inj (Option.some.inj h)
      simp [RecordPtr.expired, RecordPtr.expiration]
    | false =>
      simp only [hslot, Bool.false_eq_true, if_false] at h
      obtain ⟨rfl, -⟩ := Prod.mk.inj (Option.some.inj h)
      simp [RecordPtr.expired, hslot]

/-- Only GETDEL deletes a record that must not be changed in place. -/
theorem needCopyUpdate_delete {old : RecordPtr} {out' : StringOutput}
    (h : needCopyUpdate input old out = (.delete, out')) : input.op = .getDel := by
  unfold needCopyUpdate at h
  split at h
  · split at h <;> cases h
  · split at h
    · cases h
    · split at h <;> cases h
    · assumption
    · cases h
    · cases h

theorem attemptCopy_meets {old : RecordPtr} {R : Option RecordPtr → StringOutput → Prop}
    (hretry : ∀ out, R (some old) out) :
    (attemptCopy g key input a old out).Meets (RmwOk input (some old)) R := by
  unfold attemptCopy
  cases hdecision : needCopyUpdate input old out with
  | mk d out₁ =>
    cases d with
    | cancel => exact .of_idle rfl (.refl _ _)
    | delete =>
      -- only GETDEL deletes
      have hop := needCopyUpdate_delete hdecision
      refine attemptTombstone_meets ⟨nofun, fun _ _ => rfl, ?_, ?_, ?_, fun _ => ?_⟩ (hretry _)
      · intro h
        rw [hop] at h
        cases h
      · intro h
        rw [hop] at h
        cases h
      · intro _ h
        rw [hop] at h
        cases h
      · rw [if_pos hop]
    | copy =>
      refine attemptLink_meets (fun new r out' halloc hfill => ?_) hretry
      obtain ⟨hset, hpersist⟩ := copyUpdater_out hfill
      have hdel : input.op ≠ .getDel := by
        intro hop
        unfold needCopyUpdate at hdecision
        rw [hop] at hdecision
        split at hdecision <;> cases hdecision
      refine ⟨nofun, fun hop => absurd hop hdel, fun hop _ => hpersist hop, ?_,
        fun keepTtl hop _ => hset keepTtl hop, fun _ => ?_⟩
      · intro hop hzero _
        have hexp : old.expired input.nowMs = true := by
          by_contra halive
          unfold needCopyUpdate at hdecision
          rw [hop, if_neg halive] at hdecision
          cases hdecision
        refine .inr ⟨rfl, seenAt_expired hexp, ?_⟩
        rw [seenAt_alive (copyUpdater_setNx hop hzero hexp hfill _)]
        nofun
      · rw [if_neg hdel]
        exact ⟨r, rfl, copyUpdater_written (allocateRecord_slot halloc) hfill⟩

/-- What GETSET puts out in place. -/
theorem inPlaceUpdater_shows {r r' : RecordPtr} {out' : StringOutput} {keepTtl : Bool}
    (hop : input.op = .setGet keepTtl)
    (h : inPlaceUpdater input r out = some (.updated, r', out')) : out'.hasBytes = true := by
  rw [inPlaceUpdater_setGet hop] at h
  by_cases hexp : r.expired input.nowMs
  · rw [if_pos hexp] at h
    cases h
  · rw [if_neg hexp] at h
    by_cases hcap : r.valueCap < input.operand.length
    · rw [if_pos hcap] at h
      cases h
    · rw [if_neg hcap] at h
      unfold setInPlace at h
      split at h
      · cases h
      · rename_i r₁ _
        cases hwrite : r₁.writeVal input.operand with
        | none => simp [hwrite] at h
        | some r₂ =>
          simp only [hwrite, Option.bind_eq_bind, Option.bind_some, Option.pure_def] at h
          cases h
          rfl

/-- One attempt of an RMW. -/
theorem attemptRmw_meets (record : Option RecordPtr) (out : StringOutput) :
    (attemptRmw g key input a record out).Meets (RmwOk input record)
      fun after _ => LeftAlone input.nowMs record after := by
  have hkept : ∀ out : StringOutput, (fun (after : Option RecordPtr) (_ : StringOutput) =>
      LeftAlone input.nowMs record after) record out := fun _ => .refl _ _
  unfold attemptRmw
  by_cases henters : a.enters
  · simp only [henters, not_true_eq_false, if_false]
    cases record with
    | none => exact attemptInitial_meets hkept
    | some r =>
      cases hplace : a.place with
      | lost => exact attemptInitial_meets hkept
      | frozen => exact attemptCopy_meets hkept
      | mutable_ =>
        simp only
        cases hexp : r.expired input.nowMs with
        | true =>
          -- a tombstone from here on
          have hleft : LeftAlone input.nowMs (some r) none :=
            .inr ⟨rfl, fun r' hr' => by obtain rfl := Option.some.inj hr'; exact hexp⟩
          simp only [inPlaceUpdater_expired input r hexp]
          exact (attemptInitial_meets (R := fun after _ => LeftAlone input.nowMs none after)
            fun _ => .refl _ _).imp (fun _ _ _ h => h.of_left hleft) fun _ _ h => hleft.trans h
        | false =>
          rcases inPlaceUpdater_alive input r hexp with hnone | ⟨res, r', p, hsome, hok⟩
          · simp only [hnone]
            trivial
          · simp only [hsome]
            cases res with
            | updated =>
              refine ⟨nofun, ?_, ?_, ?_, ?_, fun _ => ?_⟩
              · intro hop _
                cases hok.deletes.mpr hop
              · intro hop _
                rw [hok.persists hop rfl]
                exact ⟨rfl, rfl⟩
              · intro hop
                cases hok.setNx hop
              · intro keepTtl hop _
                exact inPlaceUpdater_shows hop (hsome out)
              · rw [if_neg fun hop => by cases hok.deletes.mpr hop]
                exact ⟨r', rfl, inPlaceUpdater_written (hsome out)⟩
            | cancel =>
              obtain rfl := hok.kept (.inl rfl)
              exact .of_idle rfl (.refl _ _)
            | expired => exact absurd rfl hok.alive
            | delete =>
              refine ⟨nofun, fun _ _ => rfl, ?_, ?_, ?_, fun _ => if_pos (hok.deletes.mp rfl) ▸ rfl⟩
              · intro hop
                rw [hok.deletes.mp rfl] at hop
                cases hop
              · intro hop
                rw [hok.deletes.mp rfl] at hop
                cases hop
              · intro _ hop
                rw [hok.deletes.mp rfl] at hop
                cases hop
            | needCopy =>
              obtain rfl := hok.kept (.inr rfl)
              exact attemptCopy_meets hkept
  · simp only [henters]
    exact hkept out

/-- A whole RMW call. -/
theorem callLoop_ok (attempts : List Attempt) (record : Option RecordPtr) (out : StringOutput) :
    (callLoop (attemptRmw g key input) attempts record out).Meets (RmwOk input record)
      fun _ _ => False := by
  refine callLoop_meets (R := fun after _ => LeftAlone input.nowMs record after) ?_ ?_ attempts
    (.refl _ _)
  · intro a mid out hleft
    exact (attemptRmw_meets mid out).imp (fun _ _ _ h => h.of_left hleft) fun _ _ h => hleft.trans h
  · intro mid out hleft
    exact .of_idle rfl hleft

end Rmw

/-! ## Section 5: Answers to the commands on one key -/

section Answers

variable {w : World} {key raw : Bytes} {s : RespSession} {st : Shared} {c : KeyCommand} {now : Int64}

/-- What the answer to a read says: the record is left, and shown if the status is `Found`. -/
structure ReadOk (input : StringInput) (before : Option RecordPtr) (status : Status)
    (after : Option RecordPtr) (out : StringOutput) : Prop where
  same : after = before
  idle : status.isUpdated = false
  found : status = .found → ∃ out', readOf input before out' = (true, out)

theorem readLoop_ok {input : StringInput} (attempts : List Attempt) (record : Option RecordPtr)
    (out : StringOutput) :
    (callLoop (attemptRead input) attempts record out).Meets (ReadOk input record)
      fun _ _ => False := by
  refine callLoop_meets (R := fun after _ => after = record) ?_ ?_ attempts rfl
  · rintro a after out rfl
    unfold attemptRead
    by_cases henters : a.enters
    · simp only [henters, not_true_eq_false, if_false]
      cases after with
      | none => exact ⟨rfl, rfl, nofun⟩
      | some r =>
        by_cases hlost : a.place = .lost
        · simp only [if_pos hlost]
          exact ⟨rfl, rfl, nofun⟩
        · simp only [if_neg hlost]
          cases hread : reader input r out with
          | mk found out' =>
            cases found with
            | true => exact ⟨rfl, rfl, fun _ => ⟨out, hread⟩⟩
            | false => exact ⟨rfl, rfl, nofun⟩
    · simp only [henters]
      rfl
  · rintro after out rfl
    exact ⟨rfl, rfl, nofun⟩

/-- What the answer to a blind write says. -/
structure UpsertOk (input : StringInput) (before : Option RecordPtr) (status : Status)
    (after : Option RecordPtr) : Prop where
  idle : status.isUpdated = false → after = before
  written : status.isUpdated = true →
    ∃ r, after = some r ∧ r.value = input.operand ∧ r.expiration = input.expiration

theorem initialWriter_written {input : StringInput} {new r : RecordPtr}
    (hslot : new.hasExpirationSlot = (upsertSize key input).hasExpiration)
    (h : initialWriter input new = some r) :
    r.value = input.operand ∧ r.expiration = input.expiration := by
  unfold initialWriter at h
  simp only [Option.bind_eq_bind, Option.pure_def, Option.bind_eq_some_iff] at h
  obtain ⟨r₁, hwrite, h⟩ := h
  obtain ⟨hvalue, hsame⟩ := RecordPtr.writeVal_value hwrite
  have hhas : r₁.hasExpirationSlot = decide (input.expiration ≠ 0) := by
    rw [RecordPtr.hasExpirationSlot, hsame]
    exact hslot
  obtain rfl := Option.some.inj h
  by_cases hexp : input.expiration = 0
  · rw [if_neg (by simpa using hexp)]
    refine ⟨hvalue, ?_⟩
    rw [hexp]
    exact RecordPtr.expiration_of_no_slot (by simp [hhas, hexp])
  · rw [if_pos hexp, RecordPtr.setExpiration_of_slot (by simp [hhas, hexp])]
    exact ⟨hvalue, rfl⟩

theorem inPlaceWriter_written {input : StringInput} {r r' : RecordPtr}
    (h : inPlaceWriter input r = some r') :
    r'.value = input.operand ∧ r'.expiration = input.expiration := by
  unfold inPlaceWriter at h
  split at h
  · cases h
  · split at h
    · rename_i hslot
      rw [RecordPtr.setExpiration_of_slot hslot] at h
      obtain ⟨hvalue, hsame⟩ := RecordPtr.writeVal_value h
      refine ⟨hvalue, ?_⟩
      unfold RecordPtr.expiration
      rw [hsame]
      rfl
    · rename_i hslot
      split at h
      · cases h
      · rename_i hexp
        obtain ⟨hvalue, hsame⟩ := RecordPtr.writeVal_value h
        refine ⟨hvalue, ?_⟩
        rw [not_not.mp hexp]
        apply RecordPtr.expiration_of_no_slot
        unfold RecordPtr.hasExpirationSlot
        rw [hsame]
        exact Bool.eq_false_of_not_eq_true hslot

theorem upsertLoop_ok {g : Tsavorite.Geometry} {input : StringInput} (attempts : List Attempt)
    (record : Option RecordPtr) (out : StringOutput) :
    (callLoop (attemptUpsert g key input) attempts record out).Meets
      (fun status after _ => UpsertOk input record status after) fun _ _ => False := by
  refine callLoop_meets (R := fun after _ => after = record) ?_ ?_ attempts rfl
  · rintro a after out rfl
    have hwrite : (attemptLink g a (upsertSize key input)
        (fun new => (initialWriter input new).map fun r => (r, out)) .created after out).Meets
        (fun status after' _ => UpsertOk input after status after') fun after' _ => after' = after := by
      refine attemptLink_meets (fun new r out' halloc hfill => ⟨nofun, fun _ => ⟨r, rfl, ?_⟩⟩) fun _ => rfl
      obtain ⟨r', hr', h⟩ := Option.map_eq_some_iff.mp hfill
      obtain ⟨rfl, -⟩ := Prod.mk.inj h
      exact initialWriter_written (allocateRecord_slot halloc) hr'
    unfold attemptUpsert
    by_cases henters : a.enters
    · simp only [henters, not_true_eq_false, if_false]
      cases after with
      | none => exact hwrite
      | some r =>
        by_cases hplace : a.place = .mutable_
        · simp only [if_pos hplace]
          cases hin : inPlaceWriter input r with
          | none => exact hwrite
          | some r' => exact ⟨nofun, fun _ => ⟨r', rfl, inPlaceWriter_written hin⟩⟩
        · simp only [if_neg hplace]
          exact hwrite
    · simp only [henters]
      rfl
  · rintro after out rfl
    exact ⟨fun _ => rfl, nofun⟩

/-- What the answer to a delete says. -/
structure DeleteOk (before : Option RecordPtr) (status : Status) (after : Option RecordPtr) : Prop where
  deleted : status = .deleted → after = none
  left : status ≠ .deleted → after = before

theorem deleteLoop_ok {g : Tsavorite.Geometry} (attempts : List Attempt)
    (record : Option RecordPtr) (out : StringOutput) :
    (callLoop (attemptDelete g key) attempts record out).Meets
      (fun status after _ => DeleteOk record status after) fun _ _ => False := by
  refine callLoop_meets (R := fun after _ => after = record) ?_ ?_ attempts rfl
  · rintro a after out rfl
    unfold attemptDelete
    by_cases henters : a.enters
    · simp only [henters, not_true_eq_false, if_false]
      cases after with
      | none => exact ⟨nofun, fun _ => rfl⟩
      | some r =>
        cases a.place with
        | lost => exact ⟨nofun, fun _ => rfl⟩
        | mutable_ => exact ⟨fun _ => rfl, fun h => absurd rfl h⟩
        | frozen => exact attemptTombstone_meets ⟨fun _ => rfl, fun h => absurd rfl h⟩ rfl
    · simp only [henters]
      rfl
  · rintro after out rfl
    exact ⟨nofun, fun _ => rfl⟩

/-- How a call on a key ends: with an answer that meets `D`, or in a panic. -/
theorem World.call_cases {attempt : Attempt → Option RecordPtr → StringOutput → Outcome}
    {D : Status → Option RecordPtr → StringOutput → Prop} {out : StringOutput}
    (h : (callLoop attempt (w.attempts st.calls) (st.record key) out).Meets D fun _ _ => False) :
    (∃ status after out', D status after out' ∧ w.call key attempt out st = ((status, out'),
        { st with record := Function.update st.record key after, calls := st.calls + 1 })) ∨
      w.call key attempt out st =
        ((.error, out), { st with calls := st.calls + 1, panicked := true }) := by
  unfold World.call
  cases hloop : callLoop attempt (w.attempts st.calls) (st.record key) out with
  | done status after out' =>
    rw [hloop] at h
    exact .inl ⟨status, after, out', h, rfl⟩
  | retry after out' =>
    rw [hloop] at h
    exact h.elim
  | panic => exact .inr rfl

/-- What the answer to the call of a command says. -/
def KeyCommand.AnswerOk (c : KeyCommand) (now : Int64) (before : Option RecordPtr) (status : Status)
    (after : Option RecordPtr) (out : StringOutput) : Prop :=
  match c.kind with
  | .read => ReadOk (c.input now) before status after out
  | .upsert => UpsertOk (c.input now) before status after
  | .rmw => RmwOk (c.input now) before status after out

theorem KeyCommand.answer_cases (c : KeyCommand) (key : Bytes) (s : RespSession)
    (hlive : st.panicked = false) :
    (∃ status after out, c.AnswerOk s.nowMs (st.record key) status after out ∧
        c.answer w.handle key s st = ((status, out),
          { st with record := Function.update st.record key after, calls := st.calls + 1 })) ∨
      c.answer w.handle key s st =
        ((.error, s.outScratch), { st with calls := st.calls + 1, panicked := true }) := by
  unfold KeyCommand.answer KeyCommand.AnswerOk
  cases c.kind with
  | read =>
    simp only [World.handle_live w hlive]
    exact World.call_cases (readLoop_ok _ _ _)
  | upsert =>
    simp only [World.handle_live w hlive]
    exact World.call_cases (upsertLoop_ok _ _ _)
  | rmw =>
    simp only [World.handle_live w hlive]
    exact World.call_cases (callLoop_ok _ _ _)

theorem KeyCommand.input_nowMs (c : KeyCommand) (nowMs : Int64) : (c.input nowMs).nowMs = nowMs := by
  cases c <;> rfl

theorem KeyCommand.prepared_nowMs (c : KeyCommand) (s : RespSession) :
    (c.prepared s).nowMs = s.nowMs := by
  unfold KeyCommand.prepared
  split <;> rfl

end Answers

end Garnet
