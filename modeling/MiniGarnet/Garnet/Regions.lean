import MiniGarnet.Garnet.Functions

/-! # Commands and log regions

    A command's meaning is written once for records that may be updated in
    place and once for copies of records, and which of the two runs depends on
    how far the log has moved on.  The commands that edit the value mean the
    same in all places (`Edit` is that meaning); of the SET and TTL commands
    it is said exactly when the two disagree.
-/

namespace Garnet

open Tsavorite (Status RecordSizeInfo CopyDecision Geometry PAGE_HEADER_SIZE)
open StringFunctions

/-! ## Section 1: Records -/

namespace RecordPtr

variable {r : RecordPtr}

theorem withValue_spec {buf : Bytes} {n : ℕ} (hlen : buf.length = r.valueBuf.length)
    (hn : n ≤ r.valueCap) :
    ∃ r', r.withValue buf n = some r' ∧ r'.value = buf.take n ∧
      r'.expirationSlot = r.expirationSlot :=
  ⟨_, dif_pos ⟨hlen, hn⟩, rfl, rfl⟩

/-- Writing a value that fits. -/
theorem writeVal_spec {v : Bytes} (hfits : v.length ≤ r.valueCap) :
    ∃ r', r.writeVal v = some r' ∧ r'.value = v ∧ r'.expirationSlot = r.expirationSlot := by
  obtain ⟨buf, hcopy, hlen, htake⟩ :=
    Slice.copyFrom_spec r.valueBuf v (Nat.zero_le v.length) hfits rfl
  obtain ⟨r', hwith, hvalue, hslot⟩ := withValue_spec hlen hfits
  refine ⟨r', by simp [writeVal, hcopy, hwith], ?_, hslot⟩
  rw [hvalue, htake _ (Nat.le_refl _), Slice.drop_take_self]
  simp

theorem setExpiration_of_slot (h : r.hasExpirationSlot = true) (ts : Int64) :
    r.setExpiration ts = ({ r with expirationSlot := some ts }, true) := if_pos h

theorem setExpiration_of_no_slot (h : r.hasExpirationSlot = false) (ts : Int64) :
    r.setExpiration ts = (r, false) := by
  unfold setExpiration
  rw [h]
  rfl

theorem expiration_of_no_slot (h : r.hasExpirationSlot = false) : r.expiration = 0 := by
  unfold hasExpirationSlot at h
  unfold expiration
  rw [Option.isSome_eq_false_iff, Option.isNone_iff_eq_none] at h
  rw [h]
  rfl

theorem length_value (r : RecordPtr) : r.value.length = r.valueLen := by
  unfold value
  rw [List.length_take]
  exact Nat.min_eq_left r.len_le

end RecordPtr

/-- A record allocated for a size has that capacity and no TTL. -/
theorem allocateRecord_spec {g : Geometry} {size : RecordSizeInfo} (h : FitsInPage g size)
    (mem : ℕ → UInt8) :
    ∃ r, allocateRecord g size mem = some r ∧ r.valueCap = size.valueCap ∧
      r.expirationSlot = if size.hasExpiration then some 0 else none :=
  ⟨_, dif_pos h, by simp [RecordPtr.valueCap], rfl⟩

namespace RmwResult

def value (res : RmwResult) : Option Bytes := res.record.map fun r => r.value

/-- The deadline of the key, 0 for none. -/
def ttl (res : RmwResult) : Option Int64 := res.record.map fun r => r.expiration

/-- The key has this value and deadline now. -/
structure Stored (res : RmwResult) (value : Bytes) (ttl : Int64) (out : StringOutput) : Prop where
  updated : res.status.isUpdated = true
  record : ∃ r, res.record = some r ∧ r.value = value ∧ r.expiration = ttl
  out : res.out = out

end RmwResult

/-! ## Section 2: What the value commands mean -/

/-- The value with `v` at `offset`, with zeros where it has to be lengthened. -/
def overlay (old : Bytes) (offset : ℕ) (v : Bytes) : Bytes :=
  let padded := old ++ List.replicate (max (offset + v.length) old.length - old.length) 0
  padded.take offset ++ v ++ padded.drop (offset + v.length)

inductive Edit where
  | reject
  /-- Store this value, put out this number. -/
  | store (value : Bytes) (int : Int64)
  /-- Delete the key, put out its value. -/
  | remove (value : Bytes)
  deriving DecidableEq, Repr

/-- What the command makes of the value of a key; `none` for a key that is absent. -/
def Edit.of (input : StringInput) (old : Option Bytes) : Edit :=
  match input.op with
  | .incrBy =>
    match old with
    | none => .store (Resp.fmtI64 input.delta) input.delta
    | some v =>
      match (Resp.parseI64 v).bind fun cur => checkedAdd cur input.delta with
      | none => .reject
      | some n => .store (Resp.fmtI64 n) n
  | .append =>
    let v := old.getD [] ++ input.operand
    .store v (Int64.ofNat v.length)
  | .setRange offset =>
    let v := overlay (old.getD []) offset input.operand
    .store v (Int64.ofNat v.length)
  | .getDel =>
    match old with
    | none => .reject
    | some v => .remove v
  | _ => .reject

/-- The result carries out the edit on a key that had `record`. -/
def RmwResult.Does (res : RmwResult) (record : Option RecordPtr) (ttl : Int64) (out : StringOutput) :
    Edit → Prop
  | .reject => res.status.isUpdated = false ∧ res.record = record
  | .store v n => res.Stored v ttl (out.setInt n)
  | .remove v => res.status = .deleted ∧ res.record = none ∧ res.out = out.setBytes v

theorem length_overlay (old : Bytes) (offset : ℕ) (v : Bytes) :
    (overlay old offset v).length = max (offset + v.length) old.length := by
  simp only [overlay, List.length_append, List.length_take, List.length_drop,
    List.length_replicate]
  omega

theorem overlay_nil (offset : ℕ) (v : Bytes) :
    overlay [] offset v = List.replicate offset 0 ++ v := by
  simp [overlay, List.take_replicate]

/-- Over the end of the value. -/
theorem overlay_of_past {old v : Bytes} {offset : ℕ} (h : old.length ≤ offset) :
    overlay old offset v = old ++ List.replicate (offset - old.length) 0 ++ v := by
  have hmax : max (offset + v.length) old.length = offset + v.length := by omega
  simp only [overlay, hmax]
  rw [List.take_append, List.take_of_length_le h, List.take_replicate, List.drop_eq_nil_of_le]
  · have hmin : min (offset - old.length) (offset + v.length - old.length) =
        offset - old.length := by omega
    rw [hmin, List.append_nil]
  · simp only [List.length_append, List.length_replicate]
    omega

/-- Inside the value. -/
theorem overlay_of_inside {old v : Bytes} {offset : ℕ} (h : offset ≤ old.length) :
    overlay old offset v = old.take offset ++ v ++ old.drop (offset + v.length) := by
  simp only [overlay]
  rw [List.take_append_of_le_length h]
  by_cases hend : offset + v.length ≤ old.length
  · have hmax : max (offset + v.length) old.length = old.length := by omega
    rw [hmax]
    simp
  · rw [List.drop_eq_nil_of_le, List.drop_eq_nil_of_le (by omega)]
    simp only [List.length_append, List.length_replicate]
    omega

/-! ## Section 3: Value commands in every region -/

section Edits

variable {g : Geometry} {key : Bytes} {input : StringInput} {mem : ℕ → UInt8} {r : RecordPtr}
  {out : StringOutput}

theorem appendInPlace_spec (out : StringOutput) {v : Bytes} (h : ¬ r.valueCap < r.valueLen + v.length) :
    ∃ r', appendInPlace v r out =
        some (.updated, r', out.setInt (Int64.ofNat (r.valueLen + v.length))) ∧
      r'.value = r.value ++ v ∧ r'.expirationSlot = r.expirationSlot := by
  have hn : r.valueLen + v.length ≤ r.valueCap := Nat.le_of_not_lt h
  obtain ⟨buf, hcopy, hlen, htake⟩ :=
    Slice.copyFrom_spec r.valueBuf v (Nat.le_add_right r.valueLen v.length) hn (by omega)
  obtain ⟨r', hwith, hvalue, hslot⟩ := RecordPtr.withValue_spec hlen hn
  refine ⟨r', by simp [appendInPlace, h, hcopy, hwith], ?_, hslot⟩
  rw [hvalue, htake _ (Nat.le_refl _), Slice.drop_take_self, List.append_nil]
  rfl

theorem setRangeInPlace_spec (out : StringOutput) {offset : ℕ} {v : Bytes}
    (h : ¬ r.valueCap < max (offset + v.length) r.valueLen) :
    ∃ r', setRangeInPlace offset v r out =
        some (.updated, r', out.setInt (Int64.ofNat (max (offset + v.length) r.valueLen))) ∧
      r'.value = overlay r.value offset v ∧ r'.expirationSlot = r.expirationSlot := by
  have hn : max (offset + v.length) r.valueLen ≤ r.valueCap := Nat.le_of_not_lt h
  have hlenValue := r.length_value
  have hoff : offset ≤ offset + v.length := Nat.le_add_right _ _
  by_cases hpast : r.valueLen < offset
  · have hmax : max (offset + v.length) r.valueLen = offset + v.length := by omega
    obtain ⟨buf₁, hfill, hlen₁, htake₁⟩ :=
      Slice.fill_spec r.valueBuf 0 (Nat.le_of_lt hpast) (Nat.le_trans (by omega) hn)
    obtain ⟨buf₂, hcopy, hlen₂, htake₂⟩ :=
      Slice.copyFrom_spec buf₁ v hoff (by rw [hlen₁]; exact Nat.le_trans (by omega) hn) (by omega)
    obtain ⟨r', hwith, hvalue, hslot⟩ := RecordPtr.withValue_spec (hlen₂.trans hlen₁) hn
    refine ⟨r', by simp [setRangeInPlace, h, hpast, hfill, hcopy, hwith], ?_, hslot⟩
    rw [hvalue, htake₂ _ (by omega), hmax, Slice.drop_take_self, List.append_nil,
      htake₁ _ (Nat.le_refl _), Slice.drop_take_self, List.append_nil,
      overlay_of_past (by omega), hlenValue]
    rfl
  · obtain ⟨buf, hcopy, hlen, htake⟩ :=
      Slice.copyFrom_spec r.valueBuf v hoff (Nat.le_trans (by omega) hn) (by omega)
    obtain ⟨r', hwith, hvalue, hslot⟩ := RecordPtr.withValue_spec hlen hn
    refine ⟨r', by simp [setRangeInPlace, h, hpast, hcopy, hwith], ?_, hslot⟩
    have hfront : r.valueBuf.take offset = r.value.take offset := by
      rw [RecordPtr.value, List.take_take]
      congr 1
      omega
    have hback : (r.valueBuf.take (max (offset + v.length) r.valueLen)).drop (offset + v.length) =
        r.value.drop (offset + v.length) := by
      by_cases hend : offset + v.length ≤ r.valueLen
      · rw [Nat.max_eq_right hend]
        rfl
      · rw [Nat.max_eq_left (by omega), Slice.drop_take_self, List.drop_eq_nil_of_le (by omega)]
    rw [hvalue, htake _ (by omega), hfront, hback, overlay_of_inside (by omega)]

theorem copyAppend_spec {old v : Bytes} (h : old.length + v.length ≤ r.valueCap) :
    ∃ buf₁ buf₂ r', Slice.copyFrom r.valueBuf 0 old.length old = some buf₁ ∧
      Slice.copyFrom buf₁ old.length (old.length + v.length) v = some buf₂ ∧
      r.withValue buf₂ (old.length + v.length) = some r' ∧
      r'.value = old ++ v ∧ r'.expirationSlot = r.expirationSlot := by
  obtain ⟨buf₁, hcopy₁, hlen₁, htake₁⟩ :=
    Slice.copyFrom_spec r.valueBuf old (Nat.zero_le old.length) (Nat.le_trans (by omega) h) rfl
  obtain ⟨buf₂, hcopy₂, hlen₂, htake₂⟩ :=
    Slice.copyFrom_spec buf₁ v (Nat.le_add_right old.length v.length) (by rw [hlen₁]; exact h)
      (by omega)
  obtain ⟨r', hwith, hvalue, hslot⟩ := RecordPtr.withValue_spec (hlen₂.trans hlen₁) h
  refine ⟨buf₁, buf₂, r', hcopy₁, hcopy₂, hwith, ?_, hslot⟩
  rw [hvalue, htake₂ _ (Nat.le_refl _), Slice.drop_take_self, htake₁ _ (Nat.le_refl _),
    Slice.drop_take_self]
  simp

theorem copySetRange_spec {old v : Bytes} {offset : ℕ}
    (h : max (offset + v.length) old.length ≤ r.valueCap) :
    ∃ buf₁ buf₂ buf₃ r',
      Slice.fill r.valueBuf 0 (max (offset + v.length) old.length) 0 = some buf₁ ∧
      Slice.copyFrom buf₁ 0 old.length old = some buf₂ ∧
      Slice.copyFrom buf₂ offset (offset + v.length) v = some buf₃ ∧
      r.withValue buf₃ (max (offset + v.length) old.length) = some r' ∧
      r'.value = overlay old offset v ∧ r'.expirationSlot = r.expirationSlot := by
  obtain ⟨buf₁, hfill, hlen₁, htake₁⟩ := Slice.fill_spec r.valueBuf 0 (Nat.zero_le _) h
  obtain ⟨buf₂, hcopy₂, hlen₂, htake₂⟩ :=
    Slice.copyFrom_spec buf₁ old (Nat.zero_le old.length)
      (by rw [hlen₁]; exact Nat.le_trans (by omega) h) rfl
  obtain ⟨buf₃, hcopy₃, hlen₃, htake₃⟩ :=
    Slice.copyFrom_spec buf₂ v (Nat.le_add_right offset v.length)
      (by rw [hlen₂, hlen₁]; exact Nat.le_trans (by omega) h) (by omega)
  obtain ⟨r', hwith, hvalue, hslot⟩ :=
    RecordPtr.withValue_spec ((hlen₃.trans hlen₂).trans hlen₁) h
  refine ⟨buf₁, buf₂, buf₃, r', hfill, hcopy₂, hcopy₃, hwith, ?_, hslot⟩
  -- after the second write the buffer begins with the padded old value
  have hpadded : buf₂.take (max (offset + v.length) old.length) =
      old ++ List.replicate (max (offset + v.length) old.length - old.length) 0 := by
    rw [htake₂ _ (by omega), htake₁ _ (Nat.le_refl _), Slice.drop_take_self]
    simp
  have hfront : buf₂.take offset =
      (buf₂.take (max (offset + v.length) old.length)).take offset := by
    rw [List.take_take]
    congr 1
    omega
  rw [hvalue, htake₃ _ (by omega), hfront, hpadded]
  rfl

/-- The deadline `copy_updater` leaves in the new record, 0 for none. -/
def copiedTtl (key : Bytes) (input : StringInput) (old : RecordPtr) : Int64 :=
  if (copySize key input old).hasExpiration then copyTtl input old else 0

/-- The copy path stores what `copy_updater` writes into a fresh record. -/
theorem rmwCopy_stored {out₁ out₂ : StringOutput} {v : Bytes}
    (hneed : needCopyUpdate input r out = (.copy, out₁))
    (hfit : FitsInPage g (copySize key input r))
    (hvalue : ∀ new : RecordPtr, new.valueCap = (copySize key input r).valueCap →
      ∃ r', copyValue input r new out₁ = some (r', out₂) ∧ r'.value = v ∧
        r'.expirationSlot = new.expirationSlot) :
    ∃ res, rmwCopy g key input mem r out = some res ∧
      res.Stored v (copiedTtl key input r) out₂ := by
  obtain ⟨new, halloc, hcap, hslot⟩ := allocateRecord_spec hfit mem
  obtain ⟨r', hcopy, hv, hslot'⟩ := hvalue new hcap
  rw [hslot] at hslot'
  by_cases hexp : (copySize key input r).hasExpiration = true
  · have hhas : r'.hasExpirationSlot = true := by simp [RecordPtr.hasExpirationSlot, hslot', hexp]
    refine ⟨⟨.copyUpdated, some { r' with expirationSlot := some (copyTtl input r) }, out₂⟩, ?_,
      rfl, ⟨_, rfl, hv, ?_⟩, rfl⟩
    · simp [rmwCopy, hneed, halloc, copyUpdater, hcopy, hhas, RecordPtr.setExpiration_of_slot]
    · simp [copiedTtl, hexp, RecordPtr.expiration]
  · have hhas : r'.hasExpirationSlot = false := by simp [RecordPtr.hasExpirationSlot, hslot', hexp]
    refine ⟨⟨.copyUpdated, some r', out₂⟩, ?_, rfl, ⟨_, rfl, hv, ?_⟩, rfl⟩
    · simp [rmwCopy, hneed, halloc, copyUpdater, hcopy, hhas]
    · rw [r'.expiration_of_no_slot hhas]
      simp [copiedTtl, hexp]

end Edits

/-- The commands that edit the value. -/
def StringOp.EditsValue : StringOp → Prop
  | .incrBy | .append | .setRange _ | .getDel => True
  | _ => False

section ValueCommands

variable {g : Geometry} {key : Bytes} {input : StringInput} {mem : ℕ → UInt8} {r : RecordPtr}
  {out : StringOutput}

/-- A command without a deadline carries that of a live record forward. -/
theorem copiedTtl_kept (hop : input.op.EditsValue) (hexp : input.expiration = 0)
    (halive : r.expired input.nowMs = false) : copiedTtl key input r = r.expiration := by
  have hsize : (copySize key input r).hasExpiration =
      (r.hasExpirationSlot && decide (r.expiration ≠ 0)) := by
    unfold copySize
    cases h : input.op <;> simp_all [StringOp.EditsValue]
  have httl : copyTtl input r = if r.hasExpirationSlot ∧ r.expiration ≠ 0 then r.expiration else 0 := by
    unfold copyTtl
    cases h : input.op <;> simp_all [StringOp.EditsValue]
  unfold copiedTtl
  rw [hsize, httl]
  by_cases hslot : r.hasExpirationSlot = true
  · by_cases hzero : r.expiration = 0
    · simp [hzero]
    · simp [hslot, hzero]
  · simp [r.expiration_of_no_slot (by simpa using hslot)]

/-- A record that has expired leaves no deadline. -/
theorem copiedTtl_expired (hop : input.op.EditsValue) (hexp : input.expiration = 0)
    (hgone : r.expired input.nowMs = true) : copiedTtl key input r = 0 := by
  have httl : copyTtl input r = 0 := by
    unfold copyTtl
    cases h : input.op <;> simp_all [StringOp.EditsValue]
  unfold copiedTtl
  rw [httl, ite_self]

/-- What the copy of a record holds after a value command that is not refused. -/
theorem copyValue_spec {new : RecordPtr} {v : Bytes} {n : Int64} (old : Option Bytes)
    (hold : oldValue input r = old.getD [])
    (hnum : input.op = .incrBy → Edit.of input old =
      .store (Resp.fmtI64 (oldNumber input r + input.delta)) (oldNumber input r + input.delta))
    (hedit : Edit.of input old = .store v n)
    (hcap : new.valueCap = (copySize key input r).valueCap) :
    ∃ r', copyValue input r new out = some (r', out.setInt n) ∧ r'.value = v ∧
      r'.expirationSlot = new.expirationSlot := by
  unfold copySize at hcap
  cases hop : input.op with
  | incrBy =>
    simp only [hop] at hcap
    rw [hnum hop] at hedit
    obtain ⟨rfl, rfl⟩ := Edit.store.inj hedit
    obtain ⟨r', hwrite, hvalue, hslot⟩ := RecordPtr.writeVal_spec (r := new)
      (v := Resp.fmtI64 (oldNumber input r + input.delta)) (by rw [Resp.length_fmtI64, hcap])
    exact ⟨r', by simp [copyValue, hop, hwrite], hvalue, hslot⟩
  | append =>
    simp only [hop] at hcap
    simp only [Edit.of, hop] at hedit
    obtain ⟨rfl, rfl⟩ := Edit.store.inj hedit
    obtain ⟨buf₁, buf₂, r', hcopy₁, hcopy₂, hwith, hvalue, hslot⟩ :=
      copyAppend_spec (r := new) (Nat.le_of_eq hcap.symm)
    refine ⟨r', by simp [copyValue, hop, hcopy₁, hcopy₂, hwith, ← hold], ?_, hslot⟩
    rw [hvalue, hold]
  | setRange offset =>
    simp only [hop] at hcap
    simp only [Edit.of, hop] at hedit
    obtain ⟨rfl, rfl⟩ := Edit.store.inj hedit
    obtain ⟨buf₁, buf₂, buf₃, r', hfill, hcopy₂, hcopy₃, hwith, hvalue, hslot⟩ :=
      copySetRange_spec (r := new) (Nat.le_of_eq hcap.symm)
    refine ⟨r', ?_, by rw [hvalue, hold], hslot⟩
    simp [copyValue, hop, hfill, hcopy₂, hcopy₃, hwith, ← hold, length_overlay]
  | getDel =>
    simp only [Edit.of, hop] at hedit
    split at hedit <;> cases hedit
  | _ => simp [Edit.of, hop] at hedit

theorem oldValue_alive (halive : r.expired input.nowMs = false) : oldValue input r = r.value := by
  simp [oldValue, halive]

theorem oldValue_expired (hgone : r.expired input.nowMs = true) : oldValue input r = [] := by
  simp [oldValue, hgone]

/-- A sum that is not refused is the one the copy path computes. -/
theorem edit_incr_alive {n : Int64} (hop : input.op = .incrBy)
    (halive : r.expired input.nowMs = false)
    (hsum : ((Resp.parseI64 r.value).bind fun cur => checkedAdd cur input.delta) = some n) :
    Edit.of input (some r.value) =
      .store (Resp.fmtI64 (oldNumber input r + input.delta)) (oldNumber input r + input.delta) := by
  obtain ⟨cur, hcur, hadd⟩ := Option.bind_eq_some_iff.mp hsum
  have hn : n = cur + input.delta := by
    unfold checkedAdd at hadd
    split at hadd
    · exact (Option.some.inj hadd).symm
    · cases hadd
  simp [Edit.of, hop, hadd, hn, oldNumber, halive, oldValue_alive halive, hcur]

theorem edit_incr_expired (hop : input.op = .incrBy) (hgone : r.expired input.nowMs = true) :
    Edit.of input none =
      .store (Resp.fmtI64 (oldNumber input r + input.delta)) (oldNumber input r + input.delta) := by
  simp [Edit.of, hop, oldNumber, hgone]

/-- A tombstone fits where a copy does. -/
theorem FitsInPage.tombstone (h : FitsInPage g (copySize key input r)) :
    FitsInPage g ⟨key.length, 0, false⟩ := by
  have hle : (⟨key.length, 0, false⟩ : RecordSizeInfo).totalSize ≤ (copySize key input r).totalSize := by
    have hkey : (copySize key input r).keyLen = key.length := rfl
    unfold RecordSizeInfo.totalSize Tsavorite.align8
    rw [hkey]
    simp only [Bool.false_eq_true, if_false]
    apply Nat.mul_le_mul_right
    apply Nat.div_le_div_right
    omega
  unfold FitsInPage at h ⊢
  omega

/-- The copy path carries out the edit on a live record. -/
theorem rmwCopy_does (mem : ℕ → UInt8) (out : StringOutput) (hop : input.op.EditsValue) (hexp : input.expiration = 0)
    (halive : r.expired input.nowMs = false) (hfit : FitsInPage g (copySize key input r)) :
    ∃ res, rmwCopy g key input mem r out = some res ∧
      res.Does (some r) r.expiration out (Edit.of input (some r.value)) := by
  have hstored : ∀ v n, needCopyUpdate input r out = (.copy, out) →
      Edit.of input (some r.value) = .store v n →
      (input.op = .incrBy → Edit.of input (some r.value) =
        .store (Resp.fmtI64 (oldNumber input r + input.delta)) (oldNumber input r + input.delta)) →
      ∃ res, rmwCopy g key input mem r out = some res ∧
        res.Does (some r) r.expiration out (Edit.of input (some r.value)) := by
    intro v n hneed hedit hnum
    rw [hedit, ← copiedTtl_kept hop hexp halive]
    exact rmwCopy_stored hneed hfit fun new hcap =>
      copyValue_spec (some r.value) (oldValue_alive halive) hnum hedit hcap
  cases hcase : input.op with
  | incrBy =>
    cases hsum : (Resp.parseI64 r.value).bind fun cur => checkedAdd cur input.delta with
    | none =>
      refine ⟨⟨.canceled, some r, out⟩, ?_, ?_⟩
      · simp [rmwCopy, needCopyUpdate, halive, hcase, hsum]
      · simp [Edit.of, hcase, hsum, RmwResult.Does, Status.isUpdated]
    | some n =>
      have hedit := edit_incr_alive hcase halive hsum
      refine hstored _ _ ?_ hedit fun _ => hedit
      simp [needCopyUpdate, halive, hcase, hsum]
  | append =>
    refine hstored _ _ ?_ (by simp only [Edit.of, hcase]; rfl) (by simp [hcase])
    simp [needCopyUpdate, halive, hcase]
  | setRange offset =>
    refine hstored _ _ ?_ (by simp only [Edit.of, hcase]; rfl) (by simp [hcase])
    simp [needCopyUpdate, halive, hcase]
  | getDel =>
    obtain ⟨tombstone, halloc, -, -⟩ := allocateRecord_spec hfit.tombstone mem
    refine ⟨⟨.deleted, none, out.setBytes r.value⟩, ?_, ?_⟩
    · simp [rmwCopy, needCopyUpdate, halive, hcase, halloc]
    · simp [Edit.of, hcase, RmwResult.Does]
  | _ => simp [hcase, StringOp.EditsValue] at hop

/-- On a record that has expired it carries out the edit on an absent key. -/
theorem rmwCopy_does_expired (mem : ℕ → UInt8) (out : StringOutput)
    (hop : input.op.EditsValue) (hdel : input.op ≠ .getDel) (hexp : input.expiration = 0) (hgone : r.expired input.nowMs = true)
    (hfit : FitsInPage g (copySize key input r)) :
    ∃ res, rmwCopy g key input mem r out = some res ∧
      res.Does (some r) 0 out (Edit.of input none) := by
  have hneed : needCopyUpdate input r out = (.copy, out) := by
    cases hcase : input.op <;> simp_all [needCopyUpdate, StringOp.EditsValue]
  obtain ⟨v, n, hedit⟩ : ∃ v n, Edit.of input none = .store v n := by
    cases hcase : input.op <;> simp_all [Edit.of, StringOp.EditsValue]
  rw [hedit, ← copiedTtl_expired hop hexp hgone]
  exact rmwCopy_stored hneed hfit fun new hcap =>
    copyValue_spec none (oldValue_expired hgone) (fun h => edit_incr_expired h hgone)
      hedit hcap

/-- The in-place path, with its fallback, carries out the edit on a live record. -/
theorem rmwMutable_does (mem : ℕ → UInt8) (out : StringOutput) (hop : input.op.EditsValue) (hexp : input.expiration = 0)
    (halive : r.expired input.nowMs = false) (hfit : FitsInPage g (copySize key input r)) :
    ∃ res, rmwMutable g key input mem r out = some res ∧
      res.Does (some r) r.expiration out (Edit.of input (some r.value)) := by
  have hcopy := rmwCopy_does mem out hop hexp halive hfit
  have hupdated : ∀ r' v n, inPlaceUpdater input r out = some (.updated, r', out.setInt n) →
      r'.value = v → r'.expirationSlot = r.expirationSlot →
      Edit.of input (some r.value) = .store v n →
      ∃ res, rmwMutable g key input mem r out = some res ∧
        res.Does (some r) r.expiration out (Edit.of input (some r.value)) := by
    intro r' v n hupdate hvalue hslot hedit
    refine ⟨⟨.inPlaceUpdated, some r', out.setInt n⟩, by simp [rmwMutable, hupdate], ?_⟩
    rw [hedit]
    exact ⟨rfl, ⟨r', rfl, hvalue, by rw [RecordPtr.expiration, hslot]; rfl⟩, rfl⟩
  have hfallback : inPlaceUpdater input r out = some (.needCopy, r, out) →
      rmwMutable g key input mem r out = rmwCopy g key input mem r out := by
    intro hneed
    simp [rmwMutable, hneed]
  cases hcase : input.op with
  | incrBy =>
    cases hcur : Resp.parseI64 r.value with
    | none =>
      refine ⟨⟨.found, some r, out.setInt Int64.minValue⟩, ?_, ?_⟩
      · simp [rmwMutable, inPlaceUpdater, halive, hcase, incrInPlace, hcur]
      · simp [Edit.of, hcase, hcur, RmwResult.Does, Status.isUpdated]
    | some cur =>
      cases hadd : checkedAdd cur input.delta with
      | none =>
        refine ⟨⟨.found, some r, out.setInt Int64.minValue⟩, ?_, ?_⟩
        · simp [rmwMutable, inPlaceUpdater, halive, hcase, incrInPlace, hcur, hadd]
        · simp [Edit.of, hcase, hcur, hadd, RmwResult.Does, Status.isUpdated]
      | some n =>
        by_cases hroom : r.valueCap < (Resp.fmtI64 n).length
        · rw [hfallback (by simp [inPlaceUpdater, halive, hcase, incrInPlace, hcur, hadd, hroom])]
          exact hcopy
        · obtain ⟨r', hwrite, hvalue, hslot⟩ :=
            RecordPtr.writeVal_spec (Nat.le_of_not_lt hroom)
          refine hupdated r' _ n ?_ hvalue hslot (by simp [Edit.of, hcase, hcur, hadd])
          simp [inPlaceUpdater, halive, hcase, incrInPlace, hcur, hadd, hroom, hwrite]
  | append =>
    by_cases hroom : r.valueCap < r.valueLen + input.operand.length
    · rw [hfallback (by simp [inPlaceUpdater, halive, hcase, appendInPlace, hroom])]
      exact hcopy
    · obtain ⟨r', happend, hvalue, hslot⟩ := appendInPlace_spec out hroom
      refine hupdated r' _ (Int64.ofNat (r.valueLen + input.operand.length)) ?_ hvalue hslot ?_
      · rw [← happend]
        simp [inPlaceUpdater, halive, hcase]
      · simp [Edit.of, hcase, r.length_value]
  | setRange offset =>
    by_cases hroom : r.valueCap < max (offset + input.operand.length) r.valueLen
    · rw [hfallback (by simp only [inPlaceUpdater, halive, hcase, setRangeInPlace, hroom]; rfl)]
      exact hcopy
    · obtain ⟨r', hset, hvalue, hslot⟩ := setRangeInPlace_spec out hroom
      refine hupdated r' _ (Int64.ofNat (max (offset + input.operand.length) r.valueLen)) ?_
        hvalue hslot ?_
      · rw [← hset]
        simp [inPlaceUpdater, halive, hcase]
      · simp [Edit.of, hcase, length_overlay, r.length_value]
  | getDel =>
    refine ⟨⟨.deleted, none, out.setBytes r.value⟩, ?_, ?_⟩
    · simp [rmwMutable, inPlaceUpdater, halive, hcase]
    · simp [Edit.of, hcase, RmwResult.Does]
  | _ => simp [hcase, StringOp.EditsValue] at hop

/-- The initial path carries out the edit on an absent key. -/
theorem rmwInitial_does (mem : ℕ → UInt8) (out : StringOutput) (hop : input.op.EditsValue)
    (hdel : input.op ≠ .getDel) (hexp : input.expiration = 0)
    (hfit : FitsInPage g (initialSize key input)) :
    ∃ res, rmwInitial g key input mem out = some res ∧ res.Does none 0 out (Edit.of input none) := by
  obtain ⟨new, halloc, hcap, hslot⟩ := allocateRecord_spec hfit mem
  have hnoslot : new.expirationSlot = none := by simpa [initialSize, hexp] using hslot
  have hneed : needInitialUpdate input = true := by
    cases hcase : input.op <;> simp_all [needInitialUpdate, StringOp.EditsValue]
  have hstored : ∀ r' v n, initialValue input new out = some (r', out.setInt n) →
      r'.value = v → r'.expirationSlot = new.expirationSlot → Edit.of input none = .store v n →
      ∃ res, rmwInitial g key input mem out = some res ∧
        res.Does none 0 out (Edit.of input none) := by
    intro r' v n hvalue hv hslot' hedit
    refine ⟨⟨.created, some r', out.setInt n⟩, ?_, ?_⟩
    · simp [rmwInitial, hneed, halloc, initialUpdater, hvalue, hexp]
    · rw [hedit]
      exact ⟨rfl, ⟨r', rfl, hv, by rw [RecordPtr.expiration, hslot', hnoslot]; rfl⟩, rfl⟩
  unfold initialSize at hcap
  cases hcase : input.op with
  | incrBy =>
    simp only [hcase] at hcap
    obtain ⟨r', hwrite, hvalue, hslot'⟩ := RecordPtr.writeVal_spec (r := new)
      (v := Resp.fmtI64 input.delta) (by rw [Resp.length_fmtI64, hcap])
    refine hstored r' _ input.delta ?_ hvalue hslot' (by simp [Edit.of, hcase])
    simp [initialValue, hcase, hwrite]
  | append =>
    simp only [hcase] at hcap
    obtain ⟨r', hwrite, hvalue, hslot'⟩ := RecordPtr.writeVal_spec (Nat.le_of_eq hcap.symm)
    refine hstored r' _ (Int64.ofNat input.operand.length) ?_ hvalue hslot' ?_
    · simp [initialValue, hcase, hwrite]
    · simp [Edit.of, hcase]
  | setRange offset =>
    simp only [hcase] at hcap
    have hn : offset + input.operand.length ≤ new.valueCap := Nat.le_of_eq hcap.symm
    obtain ⟨buf₁, hfill, hlen₁, htake₁⟩ :=
      Slice.fill_spec new.valueBuf 0 (Nat.zero_le offset) (Nat.le_trans (by omega) hn)
    obtain ⟨buf₂, hcopy, hlen₂, htake₂⟩ :=
      Slice.copyFrom_spec buf₁ input.operand (Nat.le_add_right offset input.operand.length)
        (by rw [hlen₁]; exact hn) (by omega)
    obtain ⟨r', hwith, hvalue, hslot'⟩ := RecordPtr.withValue_spec (hlen₂.trans hlen₁) hn
    refine hstored r' (overlay [] offset input.operand)
      (Int64.ofNat (offset + input.operand.length)) ?_ ?_ hslot' ?_
    · simp [initialValue, hcase, hfill, hcopy, hwith]
    · rw [hvalue, htake₂ _ (Nat.le_refl _), Slice.drop_take_self, htake₁ _ (Nat.le_refl _),
        Slice.drop_take_self, overlay_nil]
      simp
    · simp [Edit.of, hcase, overlay_nil]
  | getDel => exact absurd hcase hdel
  | _ => simp [hcase, StringOp.EditsValue] at hop

/-- Two results that a client cannot tell apart. -/
structure RmwResult.SameEffect (op : StringOp) (a b : RmwResult) : Prop where
  accepted : a.status.isUpdated = b.status.isUpdated
  value : a.value = b.value
  ttl : a.ttl = b.ttl
  out : a.status.isUpdated = true → a.out = b.out
  reply : rmwReply op a.status a.out = rmwReply op b.status b.out

theorem RmwResult.Stored.sameEffect {a b : RmwResult} {v : Bytes} {ttl : Int64}
    (ha : a.Stored v ttl out) (hb : b.Stored v ttl out) {op : StringOp} (hop : op ≠ .getDel) :
    a.SameEffect op b := by
  obtain ⟨hupdated, ⟨ra, hra, hva, hta⟩, houta⟩ := ha
  obtain ⟨hupdated', ⟨rb, hrb, hvb, htb⟩, houtb⟩ := hb
  refine ⟨hupdated.trans hupdated'.symm, ?_, ?_, fun _ => houta.trans houtb.symm, ?_⟩
  · simp [RmwResult.value, hra, hrb, hva, hvb]
  · simp [RmwResult.ttl, hra, hrb, hta, htb]
  · rw [houta, houtb]
    unfold rmwReply
    cases op <;> simp_all

/-- Results that carry out the same edit have the same effect. -/
theorem RmwResult.Does.sameEffect {a b : RmwResult} {rec rec' : Option RecordPtr} {ttl : Int64}
    {e : Edit} (ha : a.Does rec ttl out e) (hb : b.Does rec' ttl out e)
    (hrec : e = .reject → rec = rec') (hop : input.op.EditsValue)
    (hstore : ∀ v n, e = .store v n → input.op ≠ .getDel) : a.SameEffect input.op b := by
  cases e with
  | reject =>
    obtain ⟨hstatus, hrecord⟩ := ha
    obtain ⟨hstatus', hrecord'⟩ := hb
    have heq : a.record = b.record := by rw [hrecord, hrecord', hrec rfl]
    have hnot : ∀ status : Status, status.isUpdated = false → status ≠ .deleted := by
      rintro status h rfl
      cases h
    refine ⟨hstatus.trans hstatus'.symm, ?_, ?_, fun h => ?_, ?_⟩
    · rw [RmwResult.value, heq, RmwResult.value]
    · rw [RmwResult.ttl, heq, RmwResult.ttl]
    · rw [hstatus] at h
      cases h
    · unfold rmwReply
      cases hcase : input.op <;>
        simp [hcase, StringOp.EditsValue] at hop <;>
        simp [hstatus, hstatus', hnot _ hstatus, hnot _ hstatus']
  | store v n => exact RmwResult.Stored.sameEffect ha hb (hstore v n rfl)
  | remove v =>
    obtain ⟨hstatus, hrecord, hout⟩ := ha
    obtain ⟨hstatus', hrecord', hout'⟩ := hb
    refine ⟨by rw [hstatus, hstatus'], ?_, ?_, fun _ => hout.trans hout'.symm, ?_⟩
    · rw [RmwResult.value, hrecord, RmwResult.value, hrecord']
    · rw [RmwResult.ttl, hrecord, RmwResult.ttl, hrecord']
    · rw [hstatus, hstatus', hout, hout']

theorem not_getDel_of_store {old : Option Bytes} {v : Bytes} {n : Int64}
    (h : Edit.of input old = .store v n) : input.op ≠ .getDel := by
  intro hop
  simp only [Edit.of, hop] at h
  split at h <;> cases h

/-- The in-place path, with its fallback, and the copy path agree on a live record. -/
theorem rmwMutable_sameEffect (mem mem' : ℕ → UInt8) (out : StringOutput)
    (hop : input.op.EditsValue) (hexp : input.expiration = 0)
    (halive : r.expired input.nowMs = false) (hfit : FitsInPage g (copySize key input r)) :
    ∃ a b, rmwMutable g key input mem r out = some a ∧ rmwCopy g key input mem' r out = some b ∧
      a.SameEffect input.op b := by
  obtain ⟨a, ha, hdoes⟩ := rmwMutable_does mem out hop hexp halive hfit
  obtain ⟨b, hb, hdoes'⟩ := rmwCopy_does mem' out hop hexp halive hfit
  exact ⟨a, b, ha, hb, hdoes.sameEffect hdoes' (fun _ => rfl) hop fun _ _ => not_getDel_of_store⟩

/-- An absent key and a record that has expired are the same to a value command. -/
theorem rmwInitial_sameEffect (mem mem' : ℕ → UInt8) (out : StringOutput)
    (hop : input.op.EditsValue) (hdel : input.op ≠ .getDel) (hexp : input.expiration = 0)
    (hgone : r.expired input.nowMs = true) (hfit : FitsInPage g (copySize key input r))
    (hfit' : FitsInPage g (initialSize key input)) :
    ∃ a b, rmwInitial g key input mem out = some a ∧ rmwCopy g key input mem' r out = some b ∧
      a.SameEffect input.op b := by
  obtain ⟨a, ha, hdoes⟩ := rmwInitial_does mem out hop hdel hexp hfit'
  obtain ⟨b, hb, hdoes'⟩ := rmwCopy_does_expired mem' out hop hdel hexp hgone hfit
  refine ⟨a, b, ha, hb, hdoes.sameEffect hdoes' (fun h => ?_) hop fun _ _ => not_getDel_of_store⟩
  cases hcase : input.op <;> simp_all [Edit.of, StringOp.EditsValue]

end ValueCommands

/-- The input that `cmd_incr`, `cmd_rmw_int` and `cmd_getdel` build. -/
def editInput (op : StringOp) (operand : Bytes) (delta nowMs : Int64) : StringInput :=
  ⟨op, operand, delta, 0, nowMs⟩

/-- **Value commands do not depend on the log region.**  For INCR, APPEND, SETRANGE and
    GETDEL on a live record the in-place path and the copy path have the same effect,
    and for the first three the initial path on an absent key has the effect of the copy
    path on a record that has expired, whatever the memory of the new records holds. -/
theorem edits_same_in_every_region (g : Geometry) (key : Bytes) (op : StringOp) (operand : Bytes)
    (delta nowMs : Int64) (r : RecordPtr) (out : StringOutput) (mem mem' : ℕ → UInt8)
    (hop : op.EditsValue) (hfit : FitsInPage g (copySize key (editInput op operand delta nowMs) r)) :
    (r.expired nowMs = false →
      ∃ a b, rmwMutable g key (editInput op operand delta nowMs) mem r out = some a ∧
        rmwCopy g key (editInput op operand delta nowMs) mem' r out = some b ∧
        a.SameEffect op b) ∧
    (r.expired nowMs = true → op ≠ .getDel →
      FitsInPage g (initialSize key (editInput op operand delta nowMs)) →
      ∃ a b, rmwInitial g key (editInput op operand delta nowMs) mem out = some a ∧
        rmwCopy g key (editInput op operand delta nowMs) mem' r out = some b ∧
        a.SameEffect op b) := by
  constructor
  · intro halive
    exact rmwMutable_sameEffect mem mem' out hop rfl halive hfit
  · intro hgone hdel hfit'
    exact rmwInitial_sameEffect mem mem' out hop hdel rfl hgone hfit hfit'

/-- The value "41" with the end of an earlier one behind it, and a deadline. -/
def fortyOne : RecordPtr := ⟨[52, 49, 7, 7], 2, some 5000, by decide, by decide⟩

theorem edits_same_in_every_region_incr :
    ∃ a b, rmwMutable (.twoPages 9 (by decide)) [107] (editInput .incrBy [] 1 0) (fun _ => 1)
        fortyOne .default = some a ∧
      rmwCopy (.twoPages 9 (by decide)) [107] (editInput .incrBy [] 1 0) (fun _ => 2)
        fortyOne .default = some b ∧ a.SameEffect .incrBy b :=
  (edits_same_in_every_region (.twoPages 9 (by decide)) [107] .incrBy [] 1 0 fortyOne .default
    (fun _ => 1) (fun _ => 2) trivial (by decide)).1 (by decide)

/-! ## Section 4: SET and TTL commands -/

/-- The RMW commands of the SET and TTL family. -/
def StringOp.SetsTtl : StringOp → Prop
  | .setNx | .setXx | .setKeepTtl | .setGet _ | .getEx | .expire | .persist => True
  | _ => False

/-- The paths leave the key with the same value and deadline, and the client gets the
    same reply. -/
def RmwResult.Agrees (op : StringOp) (a b : RmwResult) : Prop :=
  a.value = b.value ∧ a.ttl = b.ttl ∧ rmwReply op a.status a.out = rmwReply op b.status b.out

/-- When the two paths disagree: SET XX and SET GET without a deadline clear a deadline in
    place and carry it to a copy, SET KEEPTTL with a deadline keeps the old one in place
    and sets the new one in a copy, and PERSIST of a key without a deadline reports
    nothing to do in place and success for a copy. -/
def RegionDependent (input : StringInput) (r : RecordPtr) : Prop :=
  match input.op with
  | .setXx | .setGet false =>
    input.operand.length ≤ r.valueCap ∧ input.expiration = 0 ∧ r.expiration ≠ 0
  | .setKeepTtl | .setGet true =>
    input.operand.length ≤ r.valueCap ∧ input.expiration ≠ 0 ∧ r.expiration ≠ input.expiration
  | .persist => r.expiration = 0
  | _ => False

section SetCommands

variable {g : Geometry} {key : Bytes} {input : StringInput} {mem : ℕ → UInt8} {r : RecordPtr}
  {out : StringOutput}

/-- The value a SET or TTL command leaves. -/
def newValue (input : StringInput) (r : RecordPtr) : Bytes :=
  match input.op with
  | .getEx | .expire | .persist => r.value
  | _ => input.operand

/-- Its output. -/
def newOut (input : StringInput) (r : RecordPtr) (out : StringOutput) : StringOutput :=
  match input.op with
  | .setGet _ | .getEx => out.setBytes r.value
  | .expire | .persist => out.setInt 1
  | _ => out

/-- The deadline the copy path leaves on a live key. -/
theorem copiedTtl_alive (key : Bytes) (hop : input.op.SetsTtl) (halive : r.expired input.nowMs = false) :
    copiedTtl key input r =
      match input.op with
      | .getEx | .expire => input.expiration
      | .persist => 0
      | _ => if input.expiration ≠ 0 then input.expiration else r.expiration := by
  have hnone : r.hasExpirationSlot = false → r.expiration = 0 := r.expiration_of_no_slot
  cases hslot : r.hasExpirationSlot <;> by_cases hexp : input.expiration = 0 <;>
    by_cases hold : r.expiration = 0 <;> cases hcase : input.op <;>
    simp_all [copiedTtl, copySize, copyTtl, StringOp.SetsTtl]

theorem copyValue_setTtl {new : RecordPtr} (hop : input.op.SetsTtl)
    (halive : r.expired input.nowMs = false)
    (hcap : new.valueCap = (copySize key input r).valueCap) :
    ∃ r', copyValue input r new (needCopyUpdate input r out).2 = some (r', newOut input r out) ∧
      r'.value = newValue input r ∧ r'.expirationSlot = new.expirationSlot := by
  have hfits : (newValue input r).length ≤ new.valueCap := by
    rw [hcap]
    cases hcase : input.op <;>
      simp_all [copySize, newValue, oldValue_alive halive, StringOp.SetsTtl]
  obtain ⟨r', hwrite, hvalue, hslot⟩ := RecordPtr.writeVal_spec hfits
  refine ⟨r', ?_, hvalue, hslot⟩
  cases hcase : input.op <;>
    simp_all [copyValue, newValue, newOut, needCopyUpdate, oldValue_alive halive, StringOp.SetsTtl,
      StringOutput.setInt]

/-- The copy path on a live record. -/
theorem rmwCopy_setTtl (mem : ℕ → UInt8) (out : StringOutput) (hop : input.op.SetsTtl)
    (hnx : input.op ≠ .setNx) (halive : r.expired input.nowMs = false)
    (hfit : FitsInPage g (copySize key input r)) :
    ∃ b, rmwCopy g key input mem r out = some b ∧
      b.Stored (newValue input r) (copiedTtl key input r) (newOut input r out) := by
  have hneed : needCopyUpdate input r out = (.copy, (needCopyUpdate input r out).2) := by
    cases hcase : input.op <;> simp_all [needCopyUpdate, StringOp.SetsTtl]
  exact rmwCopy_stored hneed hfit fun new hcap => copyValue_setTtl hop halive hcap

/-- The deadline the in-place path, with its fallback, leaves on a live key. -/
def updatedTtl (key : Bytes) (input : StringInput) (r : RecordPtr) : Int64 :=
  match input.op with
  | .setXx | .setGet false =>
    if input.operand.length ≤ r.valueCap then input.expiration else copiedTtl key input r
  | .setKeepTtl | .setGet true =>
    if input.operand.length ≤ r.valueCap then r.expiration else copiedTtl key input r
  | _ => copiedTtl key input r

/-- The commands that may clear a deadline either need a slot or leave exactly theirs. -/
theorem applyTtlInPlace_clears (hop : input.op = .setXx ∨ input.op = .setGet false ∨
      input.op = .getEx) :
    (applyTtlInPlace r input = (r, false) ∧ input.expiration ≠ 0) ∨
      ∃ slot, applyTtlInPlace r input = ({ r with expirationSlot := slot }, true) ∧
        slot.getD 0 = input.expiration := by
  have happly : applyTtlInPlace r input =
      if input.expiration ≠ 0 then r.setExpiration input.expiration
      else if r.hasExpirationSlot then r.setExpiration 0 else (r, true) := by
    unfold applyTtlInPlace
    rcases hop with hop | hop | hop <;> rw [hop]
  rw [happly]
  by_cases hexp : input.expiration = 0
  · rw [if_neg (by simpa using hexp)]
    by_cases hslot : r.hasExpirationSlot = true
    · rw [if_pos hslot, RecordPtr.setExpiration_of_slot hslot]
      exact .inr ⟨some 0, rfl, hexp.symm⟩
    · rw [if_neg hslot]
      exact .inr ⟨r.expirationSlot, rfl, by
        rw [hexp]
        exact r.expiration_of_no_slot (by simpa using hslot)⟩
  · rw [if_pos hexp]
    by_cases hslot : r.hasExpirationSlot = true
    · rw [RecordPtr.setExpiration_of_slot hslot]
      exact .inr ⟨some input.expiration, rfl, rfl⟩
    · rw [RecordPtr.setExpiration_of_no_slot (by simpa using hslot)]
      exact .inl ⟨rfl, hexp⟩

/-- The in-place path when the callback has updated the record. -/
theorem rmwMutable_stored (r' : RecordPtr) {out' : StringOutput} {v : Bytes} {ttl : Int64}
    (h : inPlaceUpdater input r out = some (.updated, r', out')) (hvalue : r'.value = v)
    (httl : r'.expiration = ttl) :
    ∃ a, rmwMutable g key input mem r out = some a ∧ a.Stored v ttl out' :=
  ⟨⟨.inPlaceUpdated, some r', out'⟩, by simp [rmwMutable, h], rfl, ⟨r', rfl, hvalue, httl⟩, rfl⟩

theorem rmwMutable_needCopy {out' : StringOutput}
    (h : inPlaceUpdater input r out = some (.needCopy, r, out')) :
    rmwMutable g key input mem r out = rmwCopy g key input mem r out' := by
  simp [rmwMutable, h]

/-- A SET form whose value fits, after the deadline has been dealt with. -/
theorem setInPlace_of_slot {slot : Option Int64} (hfits : input.operand.length ≤ r.valueCap)
    (happly : applyTtlInPlace r input = ({ r with expirationSlot := slot }, true)) :
    ∃ r', setInPlace input r out = some (.updated, r', out) ∧ r'.value = input.operand ∧
      r'.expirationSlot = slot := by
  obtain ⟨r', hwrite, hvalue, hslot⟩ :=
    RecordPtr.writeVal_spec (r := { r with expirationSlot := slot }) hfits
  exact ⟨r', by simp [setInPlace, happly, hwrite], hvalue, hslot⟩

/-- The SET forms in place: the value does not fit, the deadline needs a slot, or both
    are written. -/
theorem rmwMutable_setForm {out₁ : StringOutput} {ttl : Int64}
    (hstep : inPlaceUpdater input r out =
      if r.valueCap < input.operand.length then some (.needCopy, r, out)
      else setInPlace input r out₁)
    (hcopy : ∀ out, ∃ b, rmwCopy g key input mem r out = some b ∧
      b.Stored input.operand (copiedTtl key input r) (newOut input r out))
    (hout : newOut input r out = out₁) (hout₁ : newOut input r out₁ = out₁)
    (happly : (applyTtlInPlace r input = (r, false) ∧ copiedTtl key input r = ttl) ∨
      ∃ slot, applyTtlInPlace r input = ({ r with expirationSlot := slot }, true) ∧
        slot.getD 0 = ttl) :
    ∃ a, rmwMutable g key input mem r out = some a ∧
      a.Stored input.operand
        (if input.operand.length ≤ r.valueCap then ttl else copiedTtl key input r) out₁ := by
  by_cases hfits : input.operand.length ≤ r.valueCap
  · rw [if_neg (Nat.not_lt.mpr hfits)] at hstep
    rw [if_pos hfits]
    rcases happly with ⟨hneed, httl⟩ | ⟨slot, hslot, httl⟩
    · have hneed : setInPlace input r out₁ = some (.needCopy, r, out₁) := by
        simp [setInPlace, hneed]
      rw [rmwMutable_needCopy (hstep.trans hneed), ← httl]
      obtain ⟨b, hb, hstored⟩ := hcopy out₁
      rw [hout₁] at hstored
      exact ⟨b, hb, hstored⟩
    · obtain ⟨r', hupdate, hvalue, hslot'⟩ := setInPlace_of_slot hfits hslot
      exact rmwMutable_stored r' (hstep.trans hupdate) hvalue
        (by rw [RecordPtr.expiration, hslot']; exact httl)
  · rw [if_pos (Nat.lt_of_not_le hfits)] at hstep
    rw [if_neg hfits, rmwMutable_needCopy hstep, ← hout]
    exact hcopy out

/-- The in-place path on a live record, PERSIST without a deadline apart. -/
theorem rmwMutable_setTtl (mem : ℕ → UInt8) (out : StringOutput) (hop : input.op.SetsTtl)
    (hnx : input.op ≠ .setNx) (hpersist : input.op = .persist → r.expiration ≠ 0)
    (halive : r.expired input.nowMs = false) (hfit : FitsInPage g (copySize key input r)) :
    ∃ a, rmwMutable g key input mem r out = some a ∧
      a.Stored (newValue input r) (updatedTtl key input r) (newOut input r out) := by
  have hcopy := fun out => rmwCopy_setTtl (g := g) mem out hop hnx halive hfit
  have httl := copiedTtl_alive key hop halive
  -- the commands that may clear a deadline
  have hclears : input.op = .setXx ∨ input.op = .setGet false →
      (applyTtlInPlace r input = (r, false) ∧ copiedTtl key input r = input.expiration) ∨
        ∃ slot, applyTtlInPlace r input = ({ r with expirationSlot := slot }, true) ∧
          slot.getD 0 = input.expiration := by
    intro h
    refine (applyTtlInPlace_clears (h.imp_right .inl)).imp_left fun ⟨hneed, hexp⟩ => ⟨hneed, ?_⟩
    rcases h with h | h <;> rw [httl, h] <;> exact if_pos hexp
  -- the commands that leave it alone
  have hkeeps : input.op = .setKeepTtl ∨ input.op = .setGet true →
      ∃ slot, applyTtlInPlace r input = ({ r with expirationSlot := slot }, true) ∧
        slot.getD 0 = r.expiration := by
    intro h
    refine ⟨r.expirationSlot, ?_, rfl⟩
    rcases h with h | h <;> simp [applyTtlInPlace, h]
  cases hcase : input.op with
  | setXx =>
    simp only [newValue, newOut, updatedTtl, hcase] at hcopy ⊢
    exact rmwMutable_setForm (by simp [inPlaceUpdater, halive, hcase])
      (by simpa only [newOut, hcase] using hcopy) (by simp [newOut, hcase])
      (by simp [newOut, hcase]) (hclears (.inl hcase))
  | setKeepTtl =>
    simp only [newValue, newOut, updatedTtl, hcase] at hcopy ⊢
    exact rmwMutable_setForm (by simp [inPlaceUpdater, halive, hcase])
      (by simpa only [newOut, hcase] using hcopy) (by simp [newOut, hcase])
      (by simp [newOut, hcase]) (.inr (hkeeps (.inl hcase)))
  | setGet keep =>
    cases keep with
    | false =>
      simp only [newValue, newOut, updatedTtl, hcase] at hcopy ⊢
      exact rmwMutable_setForm (by simp [inPlaceUpdater, halive, hcase])
        (by simpa only [newOut, hcase] using hcopy) (by simp [newOut, hcase])
        (by simp [newOut, hcase, StringOutput.setBytes]) (hclears (.inr hcase))
    | true =>
      simp only [newValue, newOut, updatedTtl, hcase] at hcopy ⊢
      exact rmwMutable_setForm (by simp [inPlaceUpdater, halive, hcase])
        (by simpa only [newOut, hcase] using hcopy) (by simp [newOut, hcase])
        (by simp [newOut, hcase, StringOutput.setBytes]) (.inr (hkeeps (.inr hcase)))
  | getEx =>
    simp only [newValue, newOut, updatedTtl, hcase] at hcopy httl ⊢
    rcases applyTtlInPlace_clears (r := r) (.inr (.inr hcase)) with
      ⟨hneed, -⟩ | ⟨slot, hslot, hexp⟩
    · rw [rmwMutable_needCopy
        (by simp [inPlaceUpdater, halive, hcase, getExInPlace, hneed]; rfl)]
      simpa [StringOutput.setBytes] using hcopy (out.setBytes r.value)
    · rw [httl]
      refine rmwMutable_stored { r with expirationSlot := slot } ?_ rfl hexp
      simp [inPlaceUpdater, halive, hcase, getExInPlace, hslot]
  | expire =>
    simp only [newValue, newOut, updatedTtl, hcase] at hcopy httl ⊢
    by_cases hslot : r.hasExpirationSlot = true
    · rw [httl]
      refine rmwMutable_stored { r with expirationSlot := some input.expiration } ?_ rfl rfl
      simp [inPlaceUpdater, halive, hcase, hslot, RecordPtr.setExpiration_of_slot]
    · rw [rmwMutable_needCopy (by simp [inPlaceUpdater, halive, hcase, hslot]; rfl)]
      exact hcopy out
  | persist =>
    simp only [newValue, newOut, updatedTtl, hcase] at httl ⊢
    have hexp := hpersist hcase
    have hslot : r.hasExpirationSlot = true := by
      by_contra h
      exact hexp (r.expiration_of_no_slot (by simpa using h))
    rw [httl]
    refine rmwMutable_stored { r with expirationSlot := some 0 } ?_ rfl rfl
    simp [inPlaceUpdater, halive, hcase, hslot, hexp, RecordPtr.setExpiration_of_slot]
  | setNx => exact absurd hcase hnx
  | _ => simp [hcase, StringOp.SetsTtl] at hop

/-- Two results that differ at most in the deadline agree when the deadlines do. -/
theorem RmwResult.Stored.agrees_iff {a b : RmwResult} {v : Bytes} {ttl ttl' : Int64} {op : StringOp}
    (ha : a.Stored v ttl out) (hb : b.Stored v ttl' out) (hop : op ≠ .getDel) :
    a.Agrees op b ↔ ttl = ttl' := by
  obtain ⟨hupdated, ⟨ra, hra, hva, hta⟩, houta⟩ := ha
  obtain ⟨hupdated', ⟨rb, hrb, hvb, htb⟩, houtb⟩ := hb
  constructor
  · rintro ⟨-, httl, -⟩
    simpa [RmwResult.ttl, hra, hrb, hta, htb] using httl
  · rintro rfl
    refine ⟨by simp [RmwResult.value, hra, hrb, hva, hvb],
      by simp [RmwResult.ttl, hra, hrb, hta, htb], ?_⟩
    rw [houta, houtb]
    unfold rmwReply
    cases op <;> simp_all

/-- The deadlines of the two paths differ just in the cases listed. -/
theorem updatedTtl_eq_iff (hop : input.op.SetsTtl) (hpersist : input.op ≠ .persist)
    (halive : r.expired input.nowMs = false) :
    updatedTtl key input r = copiedTtl key input r ↔ ¬ RegionDependent input r := by
  have httl := copiedTtl_alive key hop halive
  cases hcase : input.op with
  | setXx | setKeepTtl =>
    simp only [hcase] at httl
    simp only [updatedTtl, RegionDependent, hcase, httl]
    by_cases hfits : input.operand.length ≤ r.valueCap <;> by_cases hexp : input.expiration = 0 <;>
      simp [hfits, hexp, eq_comm]
  | setGet keep =>
    simp only [hcase] at httl
    cases keep <;> simp only [updatedTtl, RegionDependent, hcase, httl] <;>
      by_cases hfits : input.operand.length ≤ r.valueCap <;>
      by_cases hexp : input.expiration = 0 <;> simp [hfits, hexp, eq_comm]
  | persist => exact absurd hcase hpersist
  | _ => simp [updatedTtl, RegionDependent, hcase]

/-- **SET and TTL commands and the log region.**  On a live record the in-place path, with
    its fallback, and the copy path agree on the value, the deadline and the reply
    except in the cases of `RegionDependent`, and there they do not. -/
theorem set_agrees_iff (g : Geometry) (key : Bytes) (input : StringInput) (r : RecordPtr)
    (out : StringOutput) (mem mem' : ℕ → UInt8) (hop : input.op.SetsTtl)
    (halive : r.expired input.nowMs = false) (hfit : FitsInPage g (copySize key input r)) :
    ∃ a b, rmwMutable g key input mem r out = some a ∧ rmwCopy g key input mem' r out = some b ∧
      (a.Agrees input.op b ↔ ¬ RegionDependent input r) := by
  by_cases hnx : input.op = .setNx
  · refine ⟨⟨.found, some r, out⟩, ⟨.canceled, some r, out⟩, ?_, ?_, ?_⟩
    · simp [rmwMutable, inPlaceUpdater, halive, hnx]
    · simp [rmwCopy, needCopyUpdate, halive, hnx]
    · simp [RmwResult.Agrees, RmwResult.value, RmwResult.ttl, RegionDependent, rmwReply, hnx,
        Status.isUpdated]
  obtain ⟨b, hb, hstored'⟩ := rmwCopy_setTtl mem' out hop hnx halive hfit
  have hdel : input.op ≠ .getDel := by
    intro h
    rw [h] at hop
    exact hop
  by_cases hpersist : input.op = .persist
  · have httl := copiedTtl_alive key hop halive
    by_cases hexp : r.expiration = 0
    · -- nothing to do in place, a copy all the same
      refine ⟨⟨.found, some r, out.setInt 0⟩, b, ?_, hb, ?_⟩
      · simp [rmwMutable, inPlaceUpdater, halive, hpersist, hexp]
      · have hreply : rmwReply input.op b.status b.out = Resp.integer 1 := by
          rw [hstored'.out, hpersist]
          simp [rmwReply, hstored'.updated, newOut, hpersist, StringOutput.setInt]
        simp only [RegionDependent, hpersist, hexp, not_true_eq_false, iff_false]
        rintro ⟨-, -, hsame⟩
        rw [← hpersist, hreply, hpersist] at hsame
        have hne : Resp.integer 0 ≠ Resp.integer 1 := by decide
        exact hne hsame
    · obtain ⟨a, ha, hstored⟩ := rmwMutable_setTtl mem out hop hnx (fun _ => hexp) halive hfit
      refine ⟨a, b, ha, hb, ?_⟩
      rw [hstored.agrees_iff hstored' hdel]
      simp [updatedTtl, RegionDependent, hpersist, hexp]
  · obtain ⟨a, ha, hstored⟩ :=
      rmwMutable_setTtl mem out hop hnx (fun h => absurd h hpersist) halive hfit
    refine ⟨a, b, ha, hb, ?_⟩
    rw [hstored.agrees_iff hstored' hdel]
    exact updatedTtl_eq_iff hop hpersist halive

end SetCommands

theorem set_agrees_iff_getEx :
    ∃ a b, rmwMutable (.twoPages 9 (by decide)) [107] ⟨.getEx, [], 0, 0, 0⟩ (fun _ => 1)
        fortyOne .default = some a ∧
      rmwCopy (.twoPages 9 (by decide)) [107] ⟨.getEx, [], 0, 0, 0⟩ (fun _ => 2)
        fortyOne .default = some b ∧
      (a.Agrees .getEx b ↔ ¬ RegionDependent ⟨.getEx, [], 0, 0, 0⟩ fortyOne) :=
  set_agrees_iff (.twoPages 9 (by decide)) [107] ⟨.getEx, [], 0, 0, 0⟩ fortyOne .default
    (fun _ => 1) (fun _ => 2) trivial (by decide) (by decide)

/-- SET with XX of a key with a deadline: cleared in place, kept in a copy. -/
theorem setXx_ttl_depends_on_region :
    ∃ a b, rmwMutable (.twoPages 9 (by decide)) [107] ⟨.setXx, [118], 0, 0, 0⟩ (fun _ => 0)
        fortyOne .default = some a ∧
      rmwCopy (.twoPages 9 (by decide)) [107] ⟨.setXx, [118], 0, 0, 0⟩ (fun _ => 0)
        fortyOne .default = some b ∧
      a.ttl = some 0 ∧ b.ttl = some 5000 := by
  refine ⟨_, _, rfl, rfl, ?_, ?_⟩ <;> decide

end Garnet
