import MiniGarnet.Garnet.KeyCommands

/-! # What a callback does

    Whatever a callback finds in the output, it comes to the same result, and
    leaves the output as it was but for one write (`Patch`).  For each
    callback it is said here which write that is, and for an update in place
    which results are possible.
-/

namespace Garnet

open Tsavorite (Status CopyDecision)
open StringFunctions

/-! ## Section 1: What callbacks write into the output -/

/-- What one callback does to the output. -/
inductive Patch where
  | keep
  | bytes (b : Bytes)
  | int (n : Int64)
  /-- `out.has_bytes = false` -/
  | hide
  deriving DecidableEq, Repr

def Patch.apply : Patch → StringOutput → StringOutput
  | .keep, out => out
  | .bytes b, out => out.setBytes b
  | .int n, out => out.setInt n
  | .hide, out => { out with hasBytes := false }

/-- The patch writes what the reply to a command of this kind shows. -/
def Patch.Covers (op : StringOp) : Patch → Prop
  | .keep => False
  | .bytes _ =>
    match op with
    | .setGet _ | .getDel | .getEx | .get | .getRange _ _ => True
    | _ => False
  | .int _ =>
    match op with
    | .incrBy | .append | .setRange _ | .persist | .strlen | .ttl _ => True
    | _ => False
  | .hide =>
    match op with
    | .setGet _ => True
    | _ => False

/-- The two outputs agree on what the reply to a command of this kind shows. -/
def Agree (op : StringOp) (o₁ o₂ : StringOutput) : Prop :=
  match op with
  | .setGet _ => o₁.hasBytes = o₂.hasBytes ∧ (o₁.hasBytes = true → o₁.bytes = o₂.bytes)
  | .getDel | .getEx | .get | .getRange _ _ => o₁.bytes = o₂.bytes
  | .incrBy | .append | .setRange _ | .strlen | .ttl _ => o₁.int = o₂.int
  | .persist => o₁.hasInt = o₂.hasInt ∧ o₁.int = o₂.int
  | _ => True

section Patches

variable {op : StringOp} {o₁ o₂ : StringOutput} {p : Patch}

theorem Agree.patch (h : Agree op o₁ o₂) (p : Patch) : Agree op (p.apply o₁) (p.apply o₂) := by
  unfold Agree at *
  cases p with
  | keep => exact h
  | bytes b => cases op <;> simp_all [Patch.apply, StringOutput.setBytes]
  | int n => cases op <;> simp_all [Patch.apply, StringOutput.setInt]
  | hide => cases op <;> simp_all [Patch.apply]

theorem Patch.Covers.agree (h : p.Covers op) : Agree op (p.apply o₁) (p.apply o₂) := by
  unfold Agree
  unfold Covers at h
  cases p with
  | keep => exact h.elim
  | bytes b => cases op <;> simp_all [apply, StringOutput.setBytes]
  | int n => cases op <;> simp_all [apply, StringOutput.setInt]
  | hide => cases op <;> simp_all [apply]

end Patches

/-- The callback fails whatever the output is, or has one result and one patch that meet `P`. -/
def Uniform {α : Type} (f : StringOutput → Option (α × StringOutput)) (P : α → Patch → Prop) :
    Prop :=
  (∀ out, f out = none) ∨ ∃ a p, (∀ out, f out = some (a, p.apply out)) ∧ P a p

section Callbacks

theorem uniform_some {α : Type} {f : StringOutput → Option (α × StringOutput)}
    {P : α → Patch → Prop} {a : α} (p : Patch) (h : ∀ out, f out = some (a, p.apply out))
    (hP : P a p) : Uniform f P := .inr ⟨a, p, h, hP⟩

/-- A write to a record, and then a patch. -/
theorem uniform_write {w : Option RecordPtr} {P : RecordPtr → Patch → Prop} (p : Patch)
    (hP : ∀ r, P r p) : Uniform (fun out => w.bind fun r => some (r, p.apply out)) P := by
  cases w with
  | none => exact .inl fun _ => rfl
  | some r => exact uniform_some p (fun _ => rfl) (hP r)

theorem Uniform.map {α β : Type} {f : StringOutput → Option (α × StringOutput)} {P : α → Patch → Prop}
    {Q : β → Patch → Prop} (h : Uniform f P) (k : α → β) (hQ : ∀ a p, P a p → Q (k a) p) :
    Uniform (fun out => (f out).map fun x => (k x.1, x.2)) Q := by
  rcases h with hnone | ⟨a, p, hsome, hP⟩
  · exact .inl fun out => by simp only [hnone, Option.map_none]
  · exact uniform_some p (fun out => by simp only [hsome, Option.map_some]) (hQ a p hP)

/-- The commands whose reply shows what `initial_updater` puts out. -/
def StringOp.initialShows : StringOp → Prop
  | .incrBy | .append | .setRange _ | .setGet _ => True
  | _ => False

theorem Uniform.imp {α : Type} {f : StringOutput → Option (α × StringOutput)}
    {P Q : α → Patch → Prop} (h : Uniform f P) (hQ : ∀ a p, P a p → Q a p) : Uniform f Q := by
  rcases h with hnone | ⟨a, p, hsome, hP⟩
  · exact .inl hnone
  · exact uniform_some p hsome (hQ a p hP)

theorem Uniform.congr {α : Type} {f f' : StringOutput → Option (α × StringOutput)}
    {P : α → Patch → Prop} (h : Uniform f P) (heq : ∀ out, f' out = f out) : Uniform f' P := by
  obtain rfl := funext heq
  exact h

variable (input : StringInput) (r old new : RecordPtr)

theorem initialValue_uniform :
    Uniform (initialValue input new) fun _ p => input.op.initialShows → p.Covers input.op := by
  unfold initialValue
  cases input.op with
  | incrBy => exact uniform_write (.int input.delta) fun _ _ => trivial
  | append => exact uniform_write (.int _) fun _ _ => trivial
  | setRange offset =>
    refine (uniform_write (w := do
      let buf ← Slice.fill new.valueBuf 0 offset 0
      let buf ← Slice.copyFrom buf offset (offset + input.operand.length) input.operand
      new.withValue buf (offset + input.operand.length))
      (.int (Int64.ofNat (offset + input.operand.length))) fun _ _ => trivial).congr ?_
    intro out
    simp only [Option.bind_eq_bind, Option.bind_assoc]
    rfl
  | setGet keepTtl => exact uniform_write .hide fun _ _ => trivial
  | _ => exact uniform_write .keep fun _ h => h.elim

theorem initialUpdater_uniform :
    Uniform (initialUpdater input new) fun _ p => input.op.initialShows → p.Covers input.op := by
  refine ((initialValue_uniform input new).map (fun r =>
    if input.expiration ≠ 0 then (r.setExpiration input.expiration).1 else r)
    fun _ _ h => h).congr ?_
  intro out
  unfold initialUpdater
  cases initialValue input new out with
  | none => rfl
  | some x =>
    show (if input.expiration ≠ 0 then _ else _) = _
    split <;> rfl

/-- The commands whose reply shows what `copy_updater` puts out. -/
def StringOp.copyShows : StringOp → Prop
  | .incrBy | .append | .setRange _ | .setGet _ | .getEx | .persist => True
  | _ => False

theorem copyValue_uniform :
    Uniform (copyValue input old new) fun _ p => input.op.copyShows → p.Covers input.op := by
  unfold copyValue
  cases input.op with
  | incrBy => exact uniform_write (.int _) fun _ _ => trivial
  | append =>
    refine (uniform_write (w := do
      let buf ← Slice.copyFrom new.valueBuf 0 (oldValue input old).length (oldValue input old)
      let buf ← Slice.copyFrom buf (oldValue input old).length
        ((oldValue input old).length + input.operand.length) input.operand
      new.withValue buf ((oldValue input old).length + input.operand.length))
      (.int (Int64.ofNat ((oldValue input old).length + input.operand.length)))
      fun _ _ => trivial).congr ?_
    intro out
    simp only [Option.bind_eq_bind, Option.bind_assoc]
    rfl
  | setRange offset =>
    refine (uniform_write (w := do
      let n := max (offset + input.operand.length) (oldValue input old).length
      let buf ← Slice.fill new.valueBuf 0 n 0
      let buf ← Slice.copyFrom buf 0 (oldValue input old).length (oldValue input old)
      let buf ← Slice.copyFrom buf offset (offset + input.operand.length) input.operand
      new.withValue buf n)
      (.int (Int64.ofNat (max (offset + input.operand.length) (oldValue input old).length)))
      fun _ _ => trivial).congr ?_
    intro out
    simp only [Option.bind_eq_bind, Option.bind_assoc]
    rfl
  | setGet keepTtl => exact uniform_write (.bytes _) fun _ _ => trivial
  | getEx => exact uniform_write (.bytes _) fun _ _ => trivial
  | persist => exact uniform_write (.int 1) fun _ _ => trivial
  | _ => exact uniform_write .keep fun _ h => h.elim

theorem copyUpdater_uniform :
    Uniform (copyUpdater input old new) fun _ p => input.op.copyShows → p.Covers input.op := by
  refine ((copyValue_uniform input old new).map (fun r =>
    if r.hasExpirationSlot then (r.setExpiration (copyTtl input old)).1 else r)
    fun _ _ h => h).congr ?_
  intro out
  unfold copyUpdater
  cases copyValue input old new out with
  | none => rfl
  | some x =>
    show (if x.1.hasExpirationSlot then some ((x.1.setExpiration (copyTtl input old)).1, x.2)
        else some (x.1, x.2)) =
      some (if x.1.hasExpirationSlot then (x.1.setExpiration (copyTtl input old)).1 else x.1, x.2)
    split <;> rfl

/-- The decision on a copy, with its patch. -/
theorem needCopyUpdate_uniform :
    ∃ d, ∃ p : Patch, (∀ out, needCopyUpdate input old out = (d, p.apply out)) ∧
      (d = .delete → p.Covers input.op) := by
  unfold needCopyUpdate
  by_cases hexp : old.expired input.nowMs
  · simp only [if_pos hexp]
    cases input.op <;> exact ⟨_, .keep, fun _ => rfl, nofun⟩
  · simp only [if_neg hexp]
    cases input.op with
    | incrBy =>
      cases (Resp.parseI64 old.value).bind fun cur => checkedAdd cur input.delta with
      | none => exact ⟨_, .keep, fun _ => rfl, nofun⟩
      | some n => exact ⟨_, .keep, fun _ => rfl, nofun⟩
    | getDel => exact ⟨_, .bytes old.value, fun _ => rfl, fun _ => trivial⟩
    | expire => exact ⟨_, .int 1, fun _ => rfl, nofun⟩
    | _ => exact ⟨_, .keep, fun _ => rfl, nofun⟩

/-- The commands whose reply shows what `in_place_updater` puts out. -/
def StringOp.inPlaceShows : StringOp → Prop
  | .incrBy | .append | .setRange _ | .setGet _ | .getEx | .persist | .getDel => True
  | _ => False

/-- `Uniform` for an update in place. -/
def UniformInPlace (f : StringOutput → Option (InPlace × RecordPtr × StringOutput))
    (P : InPlace → RecordPtr → Patch → Prop) : Prop :=
  (∀ out, f out = none) ∨
    ∃ res r', ∃ p : Patch, (∀ out, f out = some (res, r', p.apply out)) ∧ P res r' p

theorem uniformInPlace_some {f : StringOutput → Option (InPlace × RecordPtr × StringOutput)}
    {P : InPlace → RecordPtr → Patch → Prop} (res : InPlace) (r' : RecordPtr) (p : Patch)
    (h : ∀ out, f out = some (res, r', p.apply out)) (hP : P res r' p) : UniformInPlace f P :=
  .inr ⟨res, r', p, h, hP⟩

/-- A write to a record, and then a patch. -/
theorem uniformInPlace_write {w : Option RecordPtr} {P : InPlace → RecordPtr → Patch → Prop}
    (p : Patch) (hP : ∀ r', P .updated r' p) :
    UniformInPlace (fun out => w.bind fun r => some (.updated, r, p.apply out)) P := by
  cases w with
  | none => exact .inl fun _ => rfl
  | some r => exact uniformInPlace_some .updated r p (fun _ => rfl) (hP r)

/-- A TTL that cannot be applied leaves the record as it is. -/
theorem applyTtlInPlace_refused {r' : RecordPtr} (h : applyTtlInPlace r input = (r', false)) :
    r' = r := by
  have hset : ∀ ts, r.setExpiration ts = (r', false) → r' = r := by
    intro ts hset
    unfold RecordPtr.setExpiration at hset
    split at hset
    · cases congrArg Prod.snd hset
    · exact (congrArg Prod.fst hset).symm
  have hkeep : (r, true) = (r', false) → r' = r := fun h => by cases congrArg Prod.snd h
  unfold applyTtlInPlace at h
  repeat' split at h
  all_goals first
    | exact hset _ h
    | exact hkeep h

theorem setInPlace_uniform (p : Patch) {P : InPlace → RecordPtr → Patch → Prop}
    (hcopy : P .needCopy r p) (hupdated : ∀ r', P .updated r' p) :
    UniformInPlace (fun out => setInPlace input r (p.apply out)) P := by
  unfold setInPlace
  cases h : applyTtlInPlace r input with
  | mk r' applied =>
    cases applied with
    | false =>
      obtain rfl := applyTtlInPlace_refused input r h
      exact uniformInPlace_some .needCopy r' p (fun _ => rfl) hcopy
    | true => exact uniformInPlace_write p hupdated

theorem incrInPlace_uniform {P : InPlace → RecordPtr → Patch → Prop}
    (hcancel : ∀ n, P .cancel r (.int n)) (hcopy : P .needCopy r .keep)
    (hupdated : ∀ r' n, P .updated r' (.int n)) : UniformInPlace (incrInPlace input r) P := by
  unfold incrInPlace
  cases Resp.parseI64 r.value with
  | none => exact uniformInPlace_some .cancel r (.int Int64.minValue) (fun _ => rfl) (hcancel _)
  | some cur =>
    simp only
    cases checkedAdd cur input.delta with
    | none => exact uniformInPlace_some .cancel r (.int Int64.minValue) (fun _ => rfl) (hcancel _)
    | some n =>
      simp only
      by_cases hcap : r.valueCap < (Resp.fmtI64 n).length
      · simp only [if_pos hcap]
        exact uniformInPlace_some .needCopy r .keep (fun _ => rfl) hcopy
      · simp only [if_neg hcap]
        exact uniformInPlace_write (.int n) fun r' => hupdated r' n

theorem appendInPlace_uniform (v : Bytes) {P : InPlace → RecordPtr → Patch → Prop}
    (hcopy : P .needCopy r .keep) (hupdated : ∀ r' n, P .updated r' (.int n)) :
    UniformInPlace (appendInPlace v r) P := by
  unfold appendInPlace
  simp only
  by_cases hcap : r.valueCap < r.valueLen + v.length
  · simp only [if_pos hcap]
    exact uniformInPlace_some .needCopy r .keep (fun _ => rfl) hcopy
  · simp only [if_neg hcap]
    cases Slice.copyFrom r.valueBuf r.valueLen (r.valueLen + v.length) v with
    | none => exact .inl fun _ => rfl
    | some buf => exact uniformInPlace_write (.int _) fun r' => hupdated r' _

theorem setRangeInPlace_uniform (offset : ℕ) (v : Bytes) {P : InPlace → RecordPtr → Patch → Prop}
    (hcopy : P .needCopy r .keep) (hupdated : ∀ r' n, P .updated r' (.int n)) :
    UniformInPlace (setRangeInPlace offset v r) P := by
  unfold setRangeInPlace
  simp only
  by_cases hcap : r.valueCap < max (offset + v.length) r.valueLen
  · simp only [if_pos hcap]
    exact uniformInPlace_some .needCopy r .keep (fun _ => rfl) hcopy
  · simp only [if_neg hcap]
    let n := max (offset + v.length) r.valueLen
    have hwrite : ∀ buf, UniformInPlace (fun out => do
        let buf ← Slice.copyFrom buf offset (offset + v.length) v
        let r ← r.withValue buf n
        return (.updated, r, out.setInt (Int64.ofNat n))) P := by
      intro buf
      cases Slice.copyFrom buf offset (offset + v.length) v with
      | none => exact .inl fun _ => rfl
      | some buf => exact uniformInPlace_write (.int (Int64.ofNat n)) fun r' => hupdated r' _
    by_cases hpast : r.valueLen < offset
    · simp only [if_pos hpast]
      cases Slice.fill r.valueBuf r.valueLen offset 0 with
      | none => exact .inl fun _ => rfl
      | some buf => exact hwrite buf
    · simp only [if_neg hpast]
      exact hwrite r.valueBuf

/-- What an update in place of an unexpired record comes to, by command. -/
structure InPlaceOk (op : StringOp) (r : RecordPtr) (res : InPlace) (r' : RecordPtr) (p : Patch) :
    Prop where
  alive : res ≠ .expired
  kept : res = .cancel ∨ res = .needCopy → r' = r
  covers : res = .updated ∨ res = .delete → op.inPlaceShows → p.Covers op
  deletes : res = .delete ↔ op = .getDel
  setNx : op = .setNx → res = .cancel
  persists : op = .persist → res = .updated → p = .int 1

theorem inPlaceUpdater_expired (h : r.expired input.nowMs = true) (out : StringOutput) :
    inPlaceUpdater input r out = some (.expired, r, out) := by
  unfold inPlaceUpdater
  rw [if_pos h]

theorem inPlaceUpdater_alive (h : r.expired input.nowMs = false) :
    UniformInPlace (inPlaceUpdater input r) (InPlaceOk input.op r) := by
  have halive : ¬ r.expired input.nowMs = true := by simp [h]
  unfold inPlaceUpdater
  simp only [if_neg halive]
  cases input.op with
  | setNx =>
    exact uniformInPlace_some .cancel r .keep (fun _ => rfl)
      ⟨by simp, fun _ => rfl, by simp, by simp, fun _ => rfl, by simp⟩
  | setXx | set | setKeepTtl =>
    by_cases hcap : r.valueCap < input.operand.length
    · simp only [if_pos hcap]
      exact uniformInPlace_some .needCopy r .keep (fun _ => rfl)
        ⟨by simp, fun _ => rfl, by simp, by simp, by simp, by simp⟩
    · simp only [if_neg hcap]
      exact setInPlace_uniform input r .keep
        ⟨by simp, fun _ => rfl, fun _ h => h.elim, by simp, by simp, by simp⟩
        fun _ => ⟨by simp, by simp, fun _ h => h.elim, by simp, by simp, by simp⟩
  | setGet keepTtl =>
    by_cases hcap : r.valueCap < input.operand.length
    · simp only [if_pos hcap]
      exact uniformInPlace_some .needCopy r .keep (fun _ => rfl)
        ⟨by simp, fun _ => rfl, by simp, by simp, by simp, by simp⟩
    · simp only [if_neg hcap]
      exact setInPlace_uniform input r (.bytes r.value)
        ⟨by simp, fun _ => rfl, fun _ _ => trivial, by simp, by simp, by simp⟩
        fun _ => ⟨by simp, by simp, fun _ _ => trivial, by simp, by simp, by simp⟩
  | incrBy =>
    exact incrInPlace_uniform input r
      (fun _ => ⟨by simp, fun _ => rfl, fun _ _ => trivial, by simp, by simp, by simp⟩)
      ⟨by simp, fun _ => rfl, by simp, by simp, by simp, by simp⟩
      fun _ _ => ⟨by simp, by simp, fun _ _ => trivial, by simp, by simp, by simp⟩
  | append =>
    exact appendInPlace_uniform r input.operand
      ⟨by simp, fun _ => rfl, by simp, by simp, by simp, by simp⟩
      fun _ _ => ⟨by simp, by simp, fun _ _ => trivial, by simp, by simp, by simp⟩
  | setRange offset =>
    exact setRangeInPlace_uniform r offset input.operand
      ⟨by simp, fun _ => rfl, by simp, by simp, by simp, by simp⟩
      fun _ _ => ⟨by simp, by simp, fun _ _ => trivial, by simp, by simp, by simp⟩
  | getDel =>
    exact uniformInPlace_some .delete r (.bytes r.value) (fun _ => rfl)
      ⟨by simp, fun _ => rfl, fun _ _ => trivial, by simp, by simp, by simp⟩
  | getEx =>
    simp only [getExInPlace]
    cases happly : applyTtlInPlace r input with
    | mk r' applied =>
      cases applied with
      | false =>
        obtain rfl := applyTtlInPlace_refused input r happly
        exact uniformInPlace_some .needCopy r' (.bytes _) (fun _ => rfl)
          ⟨by simp, fun _ => rfl, fun _ _ => trivial, by simp, by simp, by simp⟩
      | true =>
        exact uniformInPlace_some .updated r' (.bytes _) (fun _ => rfl)
          ⟨by simp, by simp, fun _ _ => trivial, by simp, by simp, by simp⟩
  | expire =>
    by_cases hslot : r.hasExpirationSlot
    · simp only [if_pos hslot]
      exact uniformInPlace_some .updated _ (.int 1) (fun _ => rfl)
        ⟨by simp, by simp, fun _ h => h.elim, by simp, by simp, by simp⟩
    · simp only [if_neg hslot]
      exact uniformInPlace_some .needCopy r .keep (fun _ => rfl)
        ⟨by simp, fun _ => rfl, fun _ h => h.elim, by simp, by simp, by simp⟩
  | persist =>
    by_cases hslot : r.hasExpirationSlot ∧ r.expiration ≠ 0
    · simp only [if_pos hslot]
      exact uniformInPlace_some .updated _ (.int 1) (fun _ => rfl)
        ⟨by simp, by simp, fun _ _ => trivial, by simp, by simp, fun _ _ => rfl⟩
    · simp only [if_neg hslot]
      exact uniformInPlace_some .cancel r (.int 0) (fun _ => rfl)
        ⟨by simp, fun _ => rfl, fun _ _ => trivial, by simp, by simp, by simp⟩
  | _ =>
    exact uniformInPlace_some .needCopy r .keep (fun _ => rfl)
      ⟨by simp, fun _ => rfl, by simp, by simp, by simp, by simp⟩

end Callbacks

end Garnet
