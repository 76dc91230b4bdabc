import MiniGarnet.Garnet.SetOptions
import MiniGarnet.Garnet.LockSet

/-! # Expired keys

    A key whose record has passed its deadline is to be the same as a key that
    has been deleted, for every command.  The record is still there, however,
    until a write comes upon it, and each callback looks at its deadline for
    itself, or does not: DEL counts the key, and four commands mind a record
    that they must copy and not change in place.  A command is run here from
    the two states, with and without the record, and what the client sees of
    the two runs is compared.
-/

namespace Garnet

open Tsavorite (Status)
open StringFunctions

/-! ## Section 1: Commands on a missing key -/

/-- The reply to a command on a key that is missing; `lingers` says that its record is there, has
    passed its deadline, and must be copied. -/
def KeyCommand.missingReply (c : KeyCommand) (lingers : Bool) (out : StringOutput) : Bytes :=
  match c with
  | .get | .getdel => Resp.NULL_BULK
  | .strlen | .expire _ | .persist => Resp.integer 0
  | .getrange _ _ => Resp.bulk []
  | .ttl _ => Resp.integer (-2)
  | .type => Resp.simple "none"
  | .set _ o =>
    if o.get = true then
      if lingers && out.hasBytes then Resp.bulk out.bytes else Resp.NULL_BULK
    else if o.op = .setXx then Resp.NULL_BULK
    else Resp.OK
  | .setnx _ => Resp.integer (if lingers then 0 else 1)
  | .setex _ _ => Resp.OK
  | .getset _ => if lingers && out.hasBytes then Resp.bulk out.bytes else Resp.NULL_BULK
  | .getex _ => if lingers then Resp.bulk [] else Resp.NULL_BULK
  | .incr delta => Resp.integer delta
  | .append value => Resp.integer (Int64.ofNat value.length)
  | .setrange offset value => Resp.integer (Int64.ofNat (offset + value.length))

/-- The value and the deadline that it leaves, if it creates the key. -/
def KeyCommand.missingStored (c : KeyCommand) (lingers : Bool) : Option (Bytes × Int64) :=
  match c with
  | .set value o =>
    if o.op = .setXx ∨ (o.get = true ∧ lingers = true) then none else some (value, o.expiration)
  | .setnx value | .append value => some (value, 0)
  | .setex value expiration => some (value, expiration)
  | .getset value => if lingers then none else some (value, 0)
  | .getex expiration => if lingers then some ([], expiration) else none
  | .incr delta => some (Resp.fmtI64 delta, 0)
  | .setrange offset value => some (List.replicate offset 0 ++ value, 0)
  | _ => none

/-- The key has been left missing, or with this value and deadline. -/
def Leaves (now : Int64) (after : Option RecordPtr) : Option (Bytes × Int64) → Prop
  | none => SeenAlike now none after
  | some (v, e) => ∃ r, after = some r ∧ r.value = v ∧ r.expiration = e

instance (place : Place) (record : Option RecordPtr) : Decidable (Lingers place record) :=
  inferInstanceAs (Decidable (_ ∧ _))

section Missing

variable {w : World} {raw key : Bytes} {args : List Bytes} {s : RespSession} {st : Shared}
  {c : KeyCommand} {cmd : CommandName} {now : Int64} {before after after' : Option RecordPtr}

theorem seen_of_fields {r r' : RecordPtr} (hvalue : r.value = r'.value)
    (hexp : r.expiration = r'.expiration) (t : Int64) : seenAt t (some r) = seenAt t (some r') := by
  have hexpired : r.expired t = r'.expired t := by
    rw [Bool.eq_iff_iff, expired_iff, expired_iff, hexp]
  unfold seenAt
  simp only [Option.bind_some, hexpired, hvalue, hexp]

/-- Keys that have been left the same are seen alike. -/
theorem Leaves.seenAlike {x : Option (Bytes × Int64)} (h : Leaves now after x)
    (h' : Leaves now after' x) : SeenAlike now after after' := by
  cases x with
  | none => exact h.symm.trans h'
  | some x =>
    obtain ⟨r, rfl, hv, he⟩ := h
    obtain ⟨r', rfl, hv', he'⟩ := h'
    exact fun t _ => seen_of_fields (hv.trans hv'.symm) (he.trans he'.symm) t

theorem LeftAlone.leaves (h : LeftAlone now before after) (hmissing : seenAt now before = none) :
    Leaves now after none := by
  refine SeenAlike.trans (fun t ht => ?_) h.seen
  rw [seenAt_none]
  exact (seenAt_eq_none.mpr fun r hr =>
    RecordPtr.expired_mono (seenAt_eq_none.mp hmissing r hr) ht).symm

theorem RmwResult.Stored.leaves {res : RmwResult} {v : Bytes} {e : Int64} {out : StringOutput}
    (h : res.Stored v e out) : Leaves now res.record (some (v, e)) := h.record

/-- What is seen of a command on a key that is missing. -/
structure KeyCommand.RanMissing (c : KeyCommand) (w : World) (raw key : Bytes) (args : List Bytes)
    (s : RespSession) (st : Shared) : Prop where
  reply : ((execBasic raw args s).run w.handle st).1.1 =
    c.missingReply (decide (Lingers (w.placeAt st.calls) (st.record key))) s.outScratch
  record : ∃ after, ((execBasic raw args s).run w.handle st).2.record =
      Function.update st.record key after ∧
    Leaves s.nowMs after (c.missingStored (decide (Lingers (w.placeAt st.calls) (st.record key))))

theorem KeyCommand.Ran.missing {status : Status} {out : StringOutput}
    (h : c.Ran w raw key args s st status after out)
    (hreply : c.reply status out =
      c.missingReply (decide (Lingers (w.placeAt st.calls) (st.record key))) s.outScratch)
    (hleaves : Leaves s.nowMs after
      (c.missingStored (decide (Lingers (w.placeAt st.calls) (st.record key))))) :
    c.RanMissing w raw key args s st :=
  ⟨h.reply.trans hreply, after, h.record, hleaves⟩

section One

variable (hcmd : commandOf args = some cmd)
  (hparse : parseKeyed args s.nowMs cmd = some (.one key c)) (hw : w.Serves)
  (hlive : st.panicked = false) (hfit : c.Fits w.geometry key s.nowMs (st.record key))
  (hmissing : seenAt s.nowMs (st.record key) = none)

include hcmd hparse hw hlive hmissing

/-- A read does not find the key. -/
theorem KeyCommand.ran_missing_read (hkind : c.kind = .read)
    (hreply : c.reply .notFound s.outScratch = c.missingReply
      (decide (Lingers (w.placeAt st.calls) (st.record key))) s.outScratch)
    (hstored : c.missingStored (decide (Lingers (w.placeAt st.calls) (st.record key))) = none) :
    c.RanMissing w raw key args s st := by
  have hnow := c.input_nowMs s.nowMs
  have hprepared : c.prepared s = s := by
    unfold KeyCommand.prepared
    cases c <;> first | rfl | cases hkind
  have hread : readOf (c.input s.nowMs) (st.record key) s.outScratch = (false, s.outScratch) :=
    (readOf_of_seen (b := none) (by rw [hnow, hmissing]; rfl) _).trans rfl
  have hanswer : c.answer w.handle key (c.prepared s) st =
      ((.notFound, s.outScratch), st.called key (st.record key)) := by
    unfold KeyCommand.answer
    rw [hkind, hprepared]
    simp only
    rw [hw.read hlive, hread]
    rfl
  refine (@KeyCommand.ran w raw key args s st c cmd hcmd hparse hlive _ _ _ hanswer).missing hreply ?_
  rw [hstored]
  exact LeftAlone.leaves (.refl _ _) hmissing

include hfit

/-- INCR, APPEND and SETRANGE start from an empty key. -/
theorem KeyCommand.ran_missing_edit (hkind : c.kind = .rmw)
    (hop : (c.input s.nowMs).op.EditsValue) (hdel : (c.input s.nowMs).op ≠ .getDel)
    (hexp : (c.input s.nowMs).expiration = 0) {v : Bytes} {n : Int64}
    (hedit : Edit.of (c.input s.nowMs) none = .store v n)
    (hreply : ∀ status out, status.isUpdated = true → out.int = n → c.reply status out =
      c.missingReply (decide (Lingers (w.placeAt st.calls) (st.record key))) s.outScratch)
    (hstored : c.missingStored (decide (Lingers (w.placeAt st.calls) (st.record key))) =
      some (v, 0)) : c.RanMissing w raw key args s st := by
  have hnow := c.input_nowMs s.nowMs
  obtain ⟨res, hdoes, hran⟩ := @KeyCommand.ran_rmw w raw key args s st c cmd hcmd hparse hkind
    hw hlive _ fun mem =>
    rmwPath_edits mem (w.placeAt st.calls) (c.prepared s).outScratch hop hdel hexp hfit.rmw
  have hshown : shownValue (c.input s.nowMs).nowMs (st.record key) = none := by
    rw [hnow, shownValue, hmissing]
    rfl
  have hkept : keptTtl (c.input s.nowMs).nowMs (st.record key) = 0 := by
    rw [hnow, keptTtl, hmissing]
    rfl
  rw [hshown, hkept, hedit] at hdoes
  obtain ⟨hupdated, hrecord, hout⟩ := hdoes
  refine hran.missing (hreply _ _ hupdated (by rw [hout]; rfl)) ?_
  rw [hstored]
  exact hrecord

/-- The commands that set a deadline: they create the key or leave it alone. -/
theorem KeyCommand.ran_missing_sets (hsets : c.SetsDeadline)
    (htakes : (c.input s.nowMs).op = .set ∨
        (c.input s.nowMs).op.Revives (w.placeAt st.calls) (st.record key) →
      (∀ status, status.isUpdated = true →
        c.reply status (revivedOut (c.input s.nowMs) (c.prepared s).outScratch) =
          c.missingReply (decide (Lingers (w.placeAt st.calls) (st.record key))) s.outScratch) ∧
      c.missingStored (decide (Lingers (w.placeAt st.calls) (st.record key))) =
        some (revivedValue (c.input s.nowMs), (c.input s.nowMs).expiration))
    (hleaves : ¬ ((c.input s.nowMs).op = .set ∨
        (c.input s.nowMs).op.Revives (w.placeAt st.calls) (st.record key)) →
      (∀ status, status.isUpdated = false → c.reply status (c.prepared s).outScratch =
          c.missingReply (decide (Lingers (w.placeAt st.calls) (st.record key))) s.outScratch) ∧
      c.missingStored (decide (Lingers (w.placeAt st.calls) (st.record key))) = none) :
    c.RanMissing w raw key args s st := by
  have hnow := c.input_nowMs s.nowMs
  obtain ⟨res, hran, hres⟩ := @KeyCommand.ran_sets w raw key args s st c cmd hcmd hparse hsets hw
    hlive hfit
  have hnone : aliveRecord (c.input s.nowMs).nowMs (st.record key) = none := by
    rw [hnow]
    exact aliveRecord_eq_none.mpr hmissing
  have hiff : (c.input s.nowMs).op.Takes (c.input s.nowMs).nowMs (w.placeAt st.calls) (st.record key) ↔
      ((c.input s.nowMs).op = .set ∨
        (c.input s.nowMs).op.Revives (w.placeAt st.calls) (st.record key)) := by
    unfold StringOp.Takes
    rw [hnone]
  by_cases htaken : (c.input s.nowMs).op.Takes (c.input s.nowMs).nowMs (w.placeAt st.calls)
      (st.record key)
  · have hstored := hres.takes htaken
    simp only [takenValue, takenTtl, takenOut, hnone] at hstored
    obtain ⟨hreply, hsome⟩ := htakes (hiff.mp htaken)
    refine hran.missing ?_ ?_
    · rw [hstored.out]
      exact hreply _ hstored.updated
    · rw [hsome]
      exact hstored.leaves
  · obtain ⟨hidle, hleft, hout⟩ := hres.leaves htaken
    rw [hnow] at hleft
    obtain ⟨hreply, hnothing⟩ := hleaves fun h => htaken (hiff.mpr h)
    refine hran.missing ?_ ?_
    · rw [hout]
      exact hreply _ hidle
    · rw [hnothing]
      exact hleft.leaves hmissing

/-- GETDEL and PERSIST leave the key alone. -/
theorem KeyCommand.ran_missing_left (hkind : c.kind = .rmw)
    (hop : (c.input s.nowMs).op = .persist ∨ (c.input s.nowMs).op = .getDel)
    (hreply : ∀ status out, status.isUpdated = false → c.reply status out =
      c.missingReply (decide (Lingers (w.placeAt st.calls) (st.record key))) s.outScratch)
    (hstored : c.missingStored (decide (Lingers (w.placeAt st.calls) (st.record key))) = none) :
    c.RanMissing w raw key args s st := by
  have hnow := c.input_nowMs s.nowMs
  have hop' : (c.input s.nowMs).op.SetsTtl ∨ (c.input s.nowMs).op = .getDel := by
    rcases hop with h | h
    · rw [h]
      exact .inl trivial
    · exact .inr h
  have hno : ¬ (c.input s.nowMs).op.Revives (w.placeAt st.calls) (st.record key) := by
    rcases hop with h | h <;> rw [h] <;> exact id
  obtain ⟨res, ⟨-, hleft⟩, hran⟩ := @KeyCommand.ran_rmw w raw key args s st c cmd hcmd hparse hkind
    hw hlive _ fun mem =>
    rmwPath_revives mem (w.placeAt st.calls) (c.prepared s).outScratch hop'
      (by rw [hnow]; exact hmissing) hfit.rmw
  obtain ⟨hidle, halone, -⟩ := hleft hno
  rw [hnow] at halone
  refine hran.missing (hreply _ _ hidle) ?_
  rw [hstored]
  exact halone.leaves hmissing

/-- SETNX creates the key, and replies that it has not where it has copied an expired record. -/
theorem KeyCommand.ran_missing_setnx {value : Bytes} (hc : c = .setnx value) :
    c.RanMissing w raw key args s st := by
  subst hc
  rcases @rmwPath_missing w.geometry key ((KeyCommand.setnx value).input s.nowMs) (fun _ => 0)
    (w.placeAt st.calls) (st.record key) s.outScratch hmissing with
    ⟨hlingers, -⟩ | ⟨r, hr, hgone, hplace, -⟩
  · obtain ⟨res, ⟨hstatus, hstored⟩, hran⟩ := @KeyCommand.ran_rmw w raw key args s st _ cmd hcmd hparse
      rfl hw hlive (fun res => res.status = .created ∧ res.Stored value 0 s.outScratch) fun mem => by
        rcases @rmwPath_missing w.geometry key ((KeyCommand.setnx value).input s.nowMs) mem
          (w.placeAt st.calls) (st.record key) s.outScratch hmissing with
          ⟨-, hpath⟩ | ⟨r, hr, -, hplace, -⟩
        · obtain ⟨res, hres, hstatus, hstored⟩ := rmwInitial_set mem s.outScratch hfit.rmw.initial trivial
          exact ⟨res, hpath.trans hres, hstatus, hstored⟩
        · exact absurd ⟨hplace, by simp [hr]⟩ hlingers
    refine hran.missing ?_ hstored.leaves
    simp [KeyCommand.reply, KeyCommand.missingReply, hstatus, hlingers]
  · have hlingers : Lingers (w.placeAt st.calls) (st.record key) := ⟨hplace, by simp [hr]⟩
    obtain ⟨res, ⟨hstatus, hstored⟩, hran⟩ := @KeyCommand.ran_rmw w raw key args s st _ cmd hcmd hparse
      rfl hw hlive (fun res => res.status = .copyUpdated ∧ res.Stored value 0 s.outScratch) fun mem => by
        rcases @rmwPath_missing w.geometry key ((KeyCommand.setnx value).input s.nowMs) mem
          (w.placeAt st.calls) (st.record key) s.outScratch hmissing with
          ⟨hno, -⟩ | ⟨r', hr', hgone', -, hpath⟩
        · exact absurd hlingers hno
        · obtain ⟨res, hres, hstatus, hstored⟩ := rmwCopy_set_expired mem s.outScratch
            (hfit.rmw.copy r' hr') (.inl rfl) hgone'
          exact ⟨res, hpath.trans hres, hstatus, hstored⟩
    refine hran.missing ?_ hstored.leaves
    simp [KeyCommand.reply, KeyCommand.missingReply, hstatus, hlingers]

/-- A command on one key that is missing. -/
theorem KeyCommand.ran_missing : c.RanMissing w raw key args s st := by
  cases hcase : c with
  | get | strlen | getrange start stop | ttl ms | type =>
    subst hcase
    exact KeyCommand.ran_missing_read hcmd hparse hw hlive hmissing rfl rfl rfl
  | setnx value =>
    rw [← hcase]
    exact KeyCommand.ran_missing_setnx hcmd hparse hw hlive hfit hmissing hcase
  | getdel =>
    subst hcase
    refine KeyCommand.ran_missing_left hcmd hparse hw hlive hfit hmissing rfl (.inr rfl) ?_ rfl
    intro status out hidle
    cases status <;> first | rfl | cases hidle
  | persist =>
    subst hcase
    refine KeyCommand.ran_missing_left hcmd hparse hw hlive hfit hmissing rfl (.inl rfl) ?_ rfl
    intro status out hidle
    simp [KeyCommand.reply, KeyCommand.missingReply, hidle]
  | incr delta =>
    subst hcase
    refine KeyCommand.ran_missing_edit hcmd hparse hw hlive hfit hmissing rfl trivial (by simp [KeyCommand.input]) rfl rfl ?_ rfl
    intro status out hupdated hint
    simp [KeyCommand.reply, KeyCommand.missingReply, hupdated, hint, KeyCommand.input]
  | append value =>
    subst hcase
    refine KeyCommand.ran_missing_edit hcmd hparse hw hlive hfit hmissing rfl trivial (by simp [KeyCommand.input]) rfl rfl ?_ rfl
    intro status out hupdated hint
    simp [KeyCommand.reply, KeyCommand.missingReply, hupdated, hint, KeyCommand.input]
  | setrange offset value =>
    subst hcase
    refine KeyCommand.ran_missing_edit hcmd hparse hw hlive hfit hmissing rfl trivial (by simp [KeyCommand.input]) rfl
      (v := overlay [] offset value) rfl ?_ ?_
    · intro status out hupdated hint
      simp [KeyCommand.reply, KeyCommand.missingReply, hupdated, hint, KeyCommand.input, overlay_nil]
    · rw [overlay_nil]
      rfl
  | setex value expiration =>
    subst hcase
    exact KeyCommand.ran_missing_sets hcmd hparse hw hlive hfit hmissing trivial
      (fun _ => ⟨fun _ _ => rfl, rfl⟩) fun hno => absurd (.inl rfl) hno
  | expire expiration =>
    subst hcase
    refine KeyCommand.ran_missing_sets hcmd hparse hw hlive hfit hmissing trivial
      (fun h => ?_) fun _ => ⟨fun status hidle => ?_, rfl⟩
    · rcases h with h | h
      · cases h
      · exact h.elim
    · simp [KeyCommand.reply, KeyCommand.missingReply, hidle]
  | getset value =>
    subst hcase
    refine KeyCommand.ran_missing_sets hcmd hparse hw hlive hfit hmissing trivial
      (fun h => ?_) fun hno => ?_
    · have hlingers : ¬ Lingers (w.placeAt st.calls) (st.record key) :=
        h.resolve_left (by simp [KeyCommand.input, StringInput.simple])
      refine ⟨fun status _ => ?_, ?_⟩
      · simp [KeyCommand.reply, KeyCommand.missingReply, hlingers, revivedOut, KeyCommand.input,
          StringInput.simple]
      · simp [KeyCommand.missingStored, hlingers, revivedValue, KeyCommand.input, StringInput.simple]
    · have hlingers : Lingers (w.placeAt st.calls) (st.record key) := by
        by_contra h
        exact hno (.inr h)
      refine ⟨fun status _ => ?_, ?_⟩
      · simp [KeyCommand.reply, KeyCommand.missingReply, hlingers, KeyCommand.prepared,
          KeyCommand.clears]
      · simp [KeyCommand.missingStored, hlingers]
  | getex expiration =>
    subst hcase
    refine KeyCommand.ran_missing_sets hcmd hparse hw hlive hfit hmissing trivial
      (fun h => ?_) fun hno => ?_
    · have hlingers : Lingers (w.placeAt st.calls) (st.record key) := h.resolve_left (by simp [KeyCommand.input])
      refine ⟨fun status hupdated => ?_, ?_⟩
      · simp [KeyCommand.reply, KeyCommand.missingReply, hlingers, revivedOut, KeyCommand.input,
          hupdated, StringOutput.setBytes]
      · simp [KeyCommand.missingStored, hlingers, revivedValue, KeyCommand.input]
    · have hlingers : ¬ Lingers (w.placeAt st.calls) (st.record key) := fun h => hno (.inr h)
      refine ⟨fun status hidle => ?_, ?_⟩
      · simp [KeyCommand.reply, KeyCommand.missingReply, hlingers, hidle]
      · simp [KeyCommand.missingStored, hlingers]
  | set value o =>
    subst hcase
    have hinput : (KeyCommand.set value o).input s.nowMs =
        ⟨o.op, value, 0, o.expiration, s.nowMs⟩ := rfl
    have hprepared : (KeyCommand.set value o).prepared s = s := rfl
    refine KeyCommand.ran_missing_sets hcmd hparse hw hlive hfit hmissing trivial
      (fun h => ?_) fun hno => ?_
    · rw [hinput] at h ⊢
      rw [hprepared]
      cases hget : o.get <;> cases hnx : o.nx <;> cases hxx : o.xx <;> cases hkeep : o.keepTtl <;>
        simp_all [SetOpts.op, StringOp.Revives, KeyCommand.reply, KeyCommand.missingReply,
          KeyCommand.missingStored, revivedOut, revivedValue]
    · rw [hinput] at hno
      rw [hprepared]
      cases hget : o.get <;> cases hnx : o.nx <;> cases hxx : o.xx <;> cases hkeep : o.keepTtl <;>
        simp_all [SetOpts.op, StringOp.Revives, KeyCommand.reply, KeyCommand.missingReply,
          KeyCommand.missingStored]

end One

end Missing

/-! ## Section 2: With and without the record -/

/-- The state in which the key has been deleted. -/
def Shared.without (st : Shared) (k : Bytes) : Shared :=
  { st with record := Function.update st.record k none }

/-- What the client has been told, and what later reads show it of any key. -/
structure SeenSame (now : Int64) (x y : (Bytes × RespSession) × Shared) : Prop where
  reply : x.1.1 = y.1.1
  keys : ∀ key, SeenAlike now (x.2.record key) (y.2.record key)

/-- The commands that mind an expired record which they must copy. -/
def KeyCommand.MindsCopy (c : KeyCommand) (now : Int64) (out : StringOutput) : Prop :=
  match c with
  | .setnx _ | .getset _ | .getex _ => True
  -- it is not carried out, which is as if its deadline had passed at once
  | .set _ o =>
    o.get = true ∧ ¬ (o.expiration ≠ 0 ∧ o.expiration ≤ now ∧ out.hasBytes = false)
  | _ => False

/-- The operation only reads the key, at this time, or is not about it. -/
def Effect.Spares (k : Bytes) (now : Int64) : Effect → Prop
  | .read key input _ => key = k → input.nowMs = now
  | .upsert key _ _ | .rmw key _ _ | .delete key => key ≠ k
  | .bump _ | .enqueue _ => True
  | _ => False

section Without

variable {w : World} {st : Shared} {k key : Bytes} {now : Int64}
  {attempt : Attempt → Option RecordPtr → StringOutput → Outcome}

theorem Shared.without_other (h : key ≠ k) : (st.without k).record key = st.record key := by
  unfold Shared.without
  exact Function.update_of_ne h _ _

theorem Shared.without_self : (st.without k).record k = none := by
  unfold Shared.without
  exact Function.update_self ..

theorem called_without (h : key ≠ k) (after : Option RecordPtr) :
    (st.without k).called key after = (st.called key after).without k := by
  unfold Shared.called Shared.without
  simp only
  rw [Function.update_comm h]

/-- A call on another key. -/
theorem World.call_without (h : key ≠ k) (out : StringOutput) :
    w.call key attempt out (st.without k) =
      ((w.call key attempt out st).1, (w.call key attempt out st).2.without k) := by
  unfold World.call
  rw [Shared.without_other h]
  have hcalls : (st.without k).calls = st.calls := rfl
  rw [hcalls]
  cases callLoop attempt (w.attempts st.calls) (st.record key) out with
  | done status after out' =>
    simp only
    exact congrArg (Prod.mk _) (called_without h _)
  | retry record out' => rfl
  | panic => rfl

theorem callLoop_read_gone {input : StringInput} {r : RecordPtr} (hgone : r.expired input.nowMs = true)
    (attempts : List Attempt) (out : StringOutput) :
    ∃ status, callLoop (attemptRead input) attempts (some r) out = .done status (some r) out ∧
      callLoop (attemptRead input) attempts none out = .done status none out := by
  induction attempts with
  | nil => exact ⟨.error, rfl, rfl⟩
  | cons a attempts ih =>
    cases henters : a.enters with
    | false =>
      have hskip (record : Option RecordPtr) :
          attemptRead input a record out = .retry record out := by
        simp [attemptRead, henters]
      obtain ⟨status, hsome, hnone⟩ := ih
      refine ⟨status, ?_, ?_⟩
      · rw [callLoop, hskip]
        exact hsome
      · rw [callLoop, hskip]
        exact hnone
    | true =>
      have hreader : reader input r out = (false, out) := if_pos hgone
      refine ⟨.notFound, ?_, ?_⟩
      · rw [callLoop, attemptRead]
        by_cases hlost : a.place = .lost <;> simp [henters, hlost, hreader]
      · simp [callLoop, attemptRead, henters]

/-- A read of the key itself. -/
theorem World.read_without {input : StringInput} (hgone : ∀ r ∈ st.record k, r.expired input.nowMs = true)
    (out : StringOutput) :
    w.call k (attemptRead input) out (st.without k) =
        ((w.call k (attemptRead input) out st).1, (w.call k (attemptRead input) out st).2.without k) ∧
      (w.call k (attemptRead input) out st).2.record k = st.record k := by
  cases hrecord : st.record k with
  | none =>
    have hsame : st.without k = st := by
      unfold Shared.without
      rw [← hrecord, Function.update_eq_self]
    have hnone : ∃ status, callLoop (attemptRead input) (w.attempts st.calls) none out =
        .done status none out := by
      induction w.attempts st.calls with
      | nil => exact ⟨_, rfl⟩
      | cons a attempts ih =>
        obtain ⟨status, h⟩ := ih
        cases henters : a.enters with
        | false => exact ⟨status, by rw [callLoop, attemptRead]; simp [henters, h]⟩
        | true => exact ⟨.notFound, by rw [callLoop, attemptRead]; simp [henters]⟩
    obtain ⟨status, hloop⟩ := hnone
    rw [hsame]
    unfold World.call
    rw [hrecord, hloop]
    simp [Shared.without]
  | some r =>
    obtain ⟨status, hsome, hnone⟩ := callLoop_read_gone (hgone r hrecord) (w.attempts st.calls) out
    unfold World.call
    have hcalls : (st.without k).calls = st.calls := rfl
    rw [Shared.without_self, hrecord, hcalls, hnone, hsome]
    simp [Shared.without]

/-- One operation that spares the key. -/
theorem World.handle_without {e : Effect} (hspares : e.Spares k now)
    (hgone : ∀ r ∈ st.record k, r.expired now = true) :
    w.handle e (st.without k) = ((w.handle e st).1, (w.handle e st).2.without k) ∧
      (w.handle e st).2.record k = st.record k := by
  cases hpanic : st.panicked with
  | true =>
    have hpanic' : (st.without k).panicked = true := hpanic
    unfold World.handle
    rw [hpanic, hpanic']
    exact ⟨rfl, rfl⟩
  | false =>
    have hlive : (st.without k).panicked = false := hpanic
    rw [World.handle_live w hpanic, World.handle_live w hlive]
    have hother {key : Bytes} {attempt : Attempt → Option RecordPtr → StringOutput → Outcome}
        (h : key ≠ k) (out : StringOutput) :
        (w.call key attempt out st).2.record k = st.record k := by
      unfold World.call
      split
      · exact Function.update_of_ne h.symm _ _
      · rfl
    cases e with
    | read key input out =>
      by_cases h : key = k
      · subst h
        have hnow : input.nowMs = now := hspares rfl
        exact World.read_without (by rw [hnow]; exact hgone) out
      · exact ⟨World.call_without h out, hother h out⟩
    | upsert key input out => exact ⟨World.call_without hspares out, hother hspares out⟩
    | rmw key input out => exact ⟨World.call_without hspares out, hother hspares out⟩
    | delete key =>
      have hcall := @World.call_without w st k key (attemptDelete w.geometry key) hspares .default
      refine ⟨?_, hother hspares .default⟩
      show ((w.call key (attemptDelete w.geometry key) .default (st.without k)).1.1,
        (w.call key (attemptDelete w.geometry key) .default (st.without k)).2) = _
      rw [hcall]
      rfl
    | bump key => exact ⟨rfl, rfl⟩
    | enqueue entry => exact ⟨rfl, rfl⟩
    | _ => exact hspares.elim

/-- A program that spares the key, by induction on the program. -/
theorem World.run_without {α : Type} {p : Program Effect Effect.Result α} {Q : α → Prop}
    (hspares : p.Sat (Effect.Spares k now) Q) (hgone : ∀ r ∈ st.record k, r.expired now = true) :
    p.run w.handle (st.without k) = ((p.run w.handle st).1, (p.run w.handle st).2.without k) ∧
      (p.run w.handle st).2.record k = st.record k := by
  induction p generalizing st with
  | ret a => exact ⟨rfl, rfl⟩
  | op e next ih =>
    obtain ⟨he, hnext⟩ := hspares
    obtain ⟨hstep, hrecord⟩ := World.handle_without (w := w) he hgone
    have hrest := @ih (w.handle e st).1 (w.handle e st).2 (hnext _) (by rw [hrecord]; exact hgone)
    show ((next (w.handle e (st.without k)).1).run w.handle (w.handle e (st.without k)).2) = _ ∧ _
    rw [hstep]
    exact ⟨hrest.1, hrest.2.trans hrecord⟩

/-- The client sees nothing of such a program. -/
theorem seenSame_of_spares {h : Handler Bytes} {s : RespSession}
    {Q : Bytes × RespSession → Prop} (hspares : (h s).Sat (Effect.Spares k now) Q)
    (hgone : ∀ r ∈ st.record k, r.expired now = true) :
    SeenSame now ((h s).run w.handle st) ((h s).run w.handle (st.without k)) := by
  obtain ⟨hrun, hrecord⟩ := World.run_without (w := w) hspares hgone
  refine ⟨by rw [hrun], fun key => ?_⟩
  rw [hrun]
  by_cases hkey : key = k
  · subst hkey
    rw [Shared.without_self, hrecord]
    intro t ht
    rw [seenAt_none, seenAt_eq_none]
    exact fun r hr => RecordPtr.expired_mono (hgone r hr) ht
  · rw [Shared.without_other hkey]
    exact .refl _ _

end Without

/-! ## Section 3: Commands on one key -/

section OneKey

open Handler

variable {w : World} {raw key k : Bytes} {args : List Bytes} {s : RespSession} {st : Shared}
  {c : KeyCommand} {cmd : CommandName} {now : Int64}

/-- All operations of the handler spare the key. -/
abbrev Spares (k : Bytes) (now : Int64) {α : Type} (h : Handler α) : Prop :=
  Handler.All (fun s => s.nowMs = now) (Effect.Spares k now) h

theorem spares_logWrite : Spares k now (logWrite raw) :=
  all_get.bind fun _ =>
    all_ite (all_pure _) (all_ite (all_perform (e := .enqueue _) trivial) (all_pure _))

theorem spares_afterWrite : Spares k now (afterWrite key raw) :=
  (all_perform (e := .bump _) trivial).bind fun _ => spares_logWrite

theorem spares_call (h : key ≠ k ∨ c.kind = .read) : Spares k now (c.call key) := by
  intro s hs
  unfold KeyCommand.call
  cases hkind : c.kind with
  | read => exact ⟨fun _ => (c.input_nowMs s.nowMs).trans hs, fun _ => hs⟩
  | upsert | rmw =>
    rw [hkind] at h
    exact ⟨h.resolve_right (by simp), fun _ => hs⟩

/-- A command on another key, and a read, spare the key. -/
theorem spares_exec (h : key ≠ k ∨ c.kind = .read) : Spares k now (c.exec raw key) := by
  have hrest : Spares k now (do
      let status ← c.call key
      let out := (← getThe RespSession).outScratch
      if c.writes status out then afterWrite key raw
      return c.reply status out) :=
    (spares_call h).bind fun _ => all_get.bind fun _ =>
      all_guarded spares_afterWrite fun _ => all_pure _
  unfold KeyCommand.exec
  exact all_guarded (all_modify fun _ hs => hs) fun _ => hrest

/-- A key with a value is seen like a missing one if its deadline has passed. -/
theorem seenAlike_none_iff {r : RecordPtr} :
    SeenAlike now none (some r) ↔ r.expiration ≠ 0 ∧ r.expiration ≤ now := by
  rw [← expired_iff]
  constructor
  · intro h
    exact seenAt_eq_none.mp (h now (Int64.le_refl now)).symm r rfl
  · intro h t ht
    rw [seenAt_none, seenAt_expired (RecordPtr.expired_mono h ht)]

/-- What two runs on a missing key leave, one of them with an expired record to copy. -/
theorem missing_alike_iff {out : StringOutput} {after after' : Option RecordPtr}
    (h : Leaves now after (c.missingStored true)) (h' : Leaves now after' (c.missingStored false)) :
    (c.missingReply true out = c.missingReply false out ∧ SeenAlike now after after') ↔
      ¬ c.MindsCopy now out := by
  have hsame (hstored : c.missingStored true = c.missingStored false) : SeenAlike now after after' := by
    rw [hstored] at h
    exact h.seenAlike h'
  cases c with
  | setnx value => simp [KeyCommand.missingReply, KeyCommand.MindsCopy, integer_one_ne_zero.symm]
  | getex expiration => simp [KeyCommand.missingReply, KeyCommand.MindsCopy, Resp.bulk_ne_nullBulk]
  | getset value =>
    obtain ⟨r, rfl, -, hexp⟩ := h'
    refine iff_of_false (fun hboth => ?_) (fun hno => hno trivial)
    have hseen := seenAlike_none_iff.mp (SeenAlike.trans h hboth.2)
    exact hseen.1 hexp
  | set value o =>
    cases hget : o.get with
    | false =>
      refine iff_of_true ⟨?_, hsame ?_⟩ ?_
      · simp [KeyCommand.missingReply, hget]
      · simp [KeyCommand.missingStored, hget]
      · simp [KeyCommand.MindsCopy, hget]
    | true =>
      have hop := SetOpts.op_of_get hget
      simp only [KeyCommand.missingStored, hget, hop, and_self, or_true, if_true] at h
      simp only [KeyCommand.missingStored, hget, hop, Bool.false_eq_true, and_false, or_false,
        reduceCtorEq, if_false] at h'
      obtain ⟨r, rfl, -, hexp⟩ := h'
      have hreply : (KeyCommand.set value o).missingReply true out =
          (KeyCommand.set value o).missingReply false out ↔ out.hasBytes = false := by
        cases hhas : out.hasBytes <;>
          simp [KeyCommand.missingReply, hget, hhas, Resp.bulk_ne_nullBulk]
      have hseen : SeenAlike now after (some r) ↔ o.expiration ≠ 0 ∧ o.expiration ≤ now := by
        rw [← hexp, ← seenAlike_none_iff]
        exact ⟨fun hs => SeenAlike.trans h hs, fun hs => (SeenAlike.symm h).trans hs⟩
      rw [hreply, hseen, KeyCommand.MindsCopy]
      simp only [hget, true_and, not_not]
      constructor
      · rintro ⟨hhas, hne, hle⟩
        exact ⟨hne, hle, hhas⟩
      · rintro ⟨hne, hle, hhas⟩
        exact ⟨hhas, hne, hle⟩
  | _ => exact iff_of_true ⟨rfl, hsame rfl⟩ id

/-- A command on the key itself. -/
theorem one_self_iff (hcmd : commandOf args = some cmd)
    (hparse : parseKeyed args s.nowMs cmd = some (.one k c)) (hw : w.Serves)
    (hlive : st.panicked = false) (hfit : c.Fits w.geometry k s.nowMs (st.record k))
    (hmissing : seenAt s.nowMs (st.record k) = none) :
    SeenSame s.nowMs ((execBasic raw args s).run w.handle st)
        ((execBasic raw args s).run w.handle (st.without k)) ↔
      ¬ (Lingers (w.placeAt st.calls) (st.record k) ∧ c.MindsCopy s.nowMs s.outScratch) := by
  have hfit' : c.Fits w.geometry k s.nowMs ((st.without k).record k) := by
    rw [Shared.without_self]
    exact ⟨hfit.upsert, hfit.rmw.initial, nofun⟩
  obtain ⟨hreply, after, hafter, hleaves⟩ :=
    @KeyCommand.ran_missing w raw k args s st c cmd hcmd hparse hw hlive hfit hmissing
  obtain ⟨hreply', after', hafter', hleaves'⟩ :=
    @KeyCommand.ran_missing w raw k args s (st.without k) c cmd hcmd hparse hw hlive hfit'
      (by rw [Shared.without_self]; rfl)
  have hgone : decide (Lingers (w.placeAt (st.without k).calls) ((st.without k).record k)) = false := by
    rw [Shared.without_self]
    exact decide_eq_false fun h => h.2 rfl
  rw [hgone] at hreply' hleaves'
  have hsame : SeenSame s.nowMs ((execBasic raw args s).run w.handle st)
        ((execBasic raw args s).run w.handle (st.without k)) ↔
      c.missingReply (decide (Lingers (w.placeAt st.calls) (st.record k))) s.outScratch =
          c.missingReply false s.outScratch ∧ SeenAlike s.nowMs after after' := by
    constructor
    · rintro ⟨h, hkeys⟩
      refine ⟨by rw [← hreply, h, hreply'], ?_⟩
      have hkey := hkeys k
      rw [hafter, hafter', Function.update_self, Function.update_self] at hkey
      exact hkey
    · rintro ⟨h, hseen⟩
      refine ⟨by rw [hreply, h, hreply'], fun key => ?_⟩
      rw [hafter, hafter']
      by_cases hkey : key = k
      · subst hkey
        rw [Function.update_self, Function.update_self]
        exact hseen
      · rw [Function.update_of_ne hkey, Function.update_of_ne hkey, Shared.without_other hkey]
        exact .refl _ _
  rw [hsame]
  by_cases hlingers : Lingers (w.placeAt st.calls) (st.record k)
  · rw [decide_eq_true hlingers] at hleaves ⊢
    rw [missing_alike_iff hleaves hleaves']
    simp [hlingers]
  · rw [decide_eq_false hlingers] at hleaves ⊢
    exact iff_of_true ⟨rfl, hleaves.seenAlike hleaves'⟩ fun h => hlingers h.1

end OneKey

/-! ## Section 4: Commands on several keys -/

section Several

open Handler

variable {w : World} {raw k : Bytes} {s : RespSession} {st st' : Shared} {now : Int64}

/-- EXISTS and MGET only read. -/
theorem spares_existsLoop (keys : List Bytes) : Spares k now (existsLoop keys) := by
  induction keys with
  | nil => exact all_pure _
  | cons key rest ih =>
    have hloop : existsLoop (key :: rest) = (KeyCommand.type.call key >>= fun status =>
        existsLoop rest >>= fun n => pure (if status = .found then n + 1 else n)) := rfl
    rw [hloop]
    exact (spares_call (.inr rfl)).bind fun _ => ih.bind fun _ => all_pure _

theorem spares_mgetLoop (keys : List Bytes) : Spares k now (mgetLoop keys) := by
  induction keys with
  | nil => exact all_pure _
  | cons key rest ih =>
    have hget : cmdGet key = KeyCommand.get.exec [] key := funext fun s => cmdGet_eq [] key s
    have hloop : mgetLoop (key :: rest) = (cmdGet key >>= fun reply =>
        mgetLoop rest >>= fun more => pure (reply ++ more)) := rfl
    rw [hloop, hget]
    exact (spares_exec (.inr rfl)).bind fun _ => ih.bind fun _ => all_pure _

/-- Two states in which no later read tells a key apart. -/
structure Alike (now : Int64) (st st' : Shared) : Prop where
  calls : st.calls = st'.calls
  live : st.panicked = false
  live' : st'.panicked = false
  keys : ∀ key, SeenAlike now (st.record key) (st'.record key)

/-- The pairs that MSET writes leave the two states alike, by induction on the pairs. -/
theorem msetLoop_alike (hw : w.Serves) (pairs : List Bytes) (hfits : PairsFit w.geometry pairs)
    (h : Alike now st st') :
    Alike now ((msetLoop pairs s).run w.handle st).2 ((msetLoop pairs s).run w.handle st').2 := by
  fun_induction everyOther pairs generalizing s st st' with
  | case1 key value rest ih =>
    have hfit : FitsInPage w.geometry (upsertSize key (.simple .set value s.nowMs)) := hfits.1
    obtain ⟨status, r, -, hvalue, hexp, hrun⟩ :=
      @World.Serves.upsert w key _ s.outScratch st hw h.live hfit
    obtain ⟨status', r', -, hvalue', hexp', hrun'⟩ :=
      @World.Serves.upsert w key _ s.outScratch st' hw h.live' hfit
    have hcalled : (st.called key (some r)).panicked = false := h.live
    have hcalled' : (st'.called key (some r')).panicked = false := h.live'
    have hpair : (msetLoop (key :: value :: rest) s).run w.handle st =
        (msetLoop rest s).run w.handle (bumpedState key (st.called key (some r))) := by
      show ((msetLoop rest { s with outScratch := (w.handle (.upsert key _ s.outScratch) st).1.2 }).run
        w.handle (w.handle (.bump key) (w.handle (.upsert key _ s.outScratch) st).2).2) = _
      rw [hrun, World.bump_state hcalled]
    have hpair' : (msetLoop (key :: value :: rest) s).run w.handle st' =
        (msetLoop rest s).run w.handle (bumpedState key (st'.called key (some r'))) := by
      show ((msetLoop rest { s with outScratch := (w.handle (.upsert key _ s.outScratch) st').1.2 }).run
        w.handle (w.handle (.bump key) (w.handle (.upsert key _ s.outScratch) st').2).2) = _
      rw [hrun', World.bump_state hcalled']
    rw [hpair, hpair']
    refine ih hfits.2 ⟨congrArg (· + 1) h.calls, hcalled, hcalled', fun key' => ?_⟩
    show SeenAlike now (Function.update st.record key (some r) key')
      (Function.update st'.record key (some r') key')
    by_cases hkey : key' = key
    · subst hkey
      rw [Function.update_self, Function.update_self]
      exact fun t _ => seen_of_fields (hvalue.trans hvalue'.symm) (hexp.trans hexp'.symm) t
    · rw [Function.update_of_ne hkey, Function.update_of_ne hkey]
      exact h.keys key'
  | case2 key => exact h
  | case3 => exact h

theorem run_logWrite_record (s : RespSession) (st : Shared) :
    ((logWrite raw s).run w.handle st).2.record = st.record := by
  rcases s with ⟨txn, nowMs, _ | _, out, _ | _⟩
  all_goals
    cases hpanic : st.panicked with
    | true => rw [World.run_panicked w hpanic]
    | false =>
      first
        | rfl
        | (show (w.handle (.enqueue _) st).2.record = _
           rw [World.enqueue_state hpanic])

theorem mset_alike (hw : w.Serves) {pairs : List Bytes} (hfits : PairsFit w.geometry pairs)
    (h : Alike now st st') :
    SeenSame now ((cmdMset raw pairs s).run w.handle st) ((cmdMset raw pairs s).run w.handle st') := by
  have hmset : cmdMset raw pairs = (msetLoop pairs >>= fun _ => logWrite raw >>= fun _ =>
      pure Resp.OK) := rfl
  have hloop := @msetLoop_alike w s st st' now hw pairs hfits h
  rw [hmset, run_handler_bind, run_handler_bind, run_handler_bind, run_handler_bind]
  refine ⟨rfl, fun key => ?_⟩
  show SeenAlike now (((logWrite raw _).run w.handle _).2.record key)
    (((logWrite raw _).run w.handle _).2.record key)
  rw [run_logWrite_record, run_logWrite_record]
  exact hloop.keys key

/-- How many of the keys DEL finds, one after another. -/
def countPresent (record : Bytes → Option RecordPtr) : List Bytes → ℕ
  | [] => 0
  | key :: rest =>
    (if record key = none then 0 else 1) + countPresent (Function.update record key none) rest

/-- What DEL returns and leaves, by induction on the keys. -/
theorem delLoop_counts (hw : w.Serves) (keys : List Bytes)
    (hfits : ∀ key ∈ keys, FitsInPage w.geometry ⟨key.length, 0, false⟩)
    (hlive : st.panicked = false) :
    ((delLoop keys s).run w.handle st).1.1 = countPresent st.record keys ∧
      ((delLoop keys s).run w.handle st).2.record =
        (fun key => if key ∈ keys then none else st.record key) := by
  induction keys generalizing st with
  | nil => exact ⟨rfl, by simp; rfl⟩
  | cons key rest ih =>
    have hloop : delLoop (key :: rest) = (perform (.delete key) >>= fun (status : Status) =>
        if status = .deleted then
          perform (.bump key) >>= fun _ => delLoop rest >>= fun n => pure (n + 1)
        else delLoop rest) := rfl
    have hdelete := @World.Serves.delete w key st hw hlive (hfits key List.mem_cons_self)
    have hcalled : (st.called key none).panicked = false := hlive
    have hrecord : ∀ st₁ : Shared, st₁.record = Function.update st.record key none →
        (fun key' => if key' ∈ rest then none else st₁.record key') =
          fun key' => if key' ∈ key :: rest then none else st.record key' := by
      intro st₁ hst₁
      funext key'
      rw [hst₁]
      by_cases hkey : key' = key
      · subst hkey
        simp
      · simp [hkey]
    have hfits' : ∀ key ∈ rest, FitsInPage w.geometry ⟨key.length, 0, false⟩ :=
      fun key hkey => hfits key (List.mem_cons_of_mem _ hkey)
    rw [hloop, run_handler_bind]
    have hrun : ((perform (.delete key) : Handler Status) s).run w.handle st =
        (((w.handle (.delete key) st).1, s), (w.handle (.delete key) st).2) := rfl
    rw [hrun, hdelete]
    cases hpresent : st.record key with
    | none =>
      obtain ⟨hcount, hleft⟩ := @ih (st.called key none) hfits' hcalled
      simp only [if_true, reduceCtorEq, if_false]
      refine ⟨?_, hleft.trans (hrecord _ rfl)⟩
      rw [hcount, countPresent, hpresent]
      simp [Shared.called]
    | some r =>
      obtain ⟨hcount, hleft⟩ := @ih (bumpedState key (st.called key none)) hfits' hcalled
      simp only [reduceCtorEq, if_false, if_true]
      rw [run_handler_bind, run_handler_bind]
      have hbump : ((perform (.bump key) : Handler Unit) s).run w.handle (st.called key none) =
          (((), s), bumpedState key (st.called key none)) := by
        show ((_, s), (w.handle (.bump key) (st.called key none)).2) = _
        rw [World.bump_state hcalled]
      rw [hbump]
      refine ⟨?_, hleft.trans (hrecord _ rfl)⟩
      show _ + 1 = _
      rw [hcount, countPresent, hpresent]
      simp [Shared.called, bumpedState]
      omega

theorem countPresent_without {record : Bytes → Option RecordPtr} (keys : List Bytes)
    (hk : record k ≠ none) :
    countPresent record keys =
      (if k ∈ keys then 1 else 0) + countPresent (Function.update record k none) keys := by
  induction keys generalizing record with
  | nil => rfl
  | cons key rest ih =>
    rw [countPresent, countPresent]
    by_cases hkey : key = k
    · subst hkey
      rw [Function.update_self, Function.update_idem]
      simp [hk]
    · have hstill : Function.update record key none k ≠ none := by
        rw [Function.update_of_ne (Ne.symm hkey)]
        exact hk
      rw [ih hstill, Function.update_of_ne hkey, Function.update_comm hkey]
      have hmem : k ∈ key :: rest ↔ k ∈ rest := by simp [Ne.symm hkey]
      simp only [hmem]
      omega

theorem del_same_iff (hw : w.Serves) {keys : List Bytes} {r : RecordPtr}
    (hfits : ∀ key ∈ keys, FitsInPage w.geometry ⟨key.length, 0, false⟩)
    (hlive : st.panicked = false) (hr : st.record k = some r) (hgone : r.expired now = true) :
    SeenSame now ((cmdDel raw keys s).run w.handle st) ((cmdDel raw keys s).run w.handle (st.without k)) ↔
      k ∉ keys := by
  have hdel : cmdDel raw keys = (delLoop keys >>= fun n =>
      if 0 < n then logWrite raw >>= fun _ => pure (Resp.integer (Int64.ofNat n))
      else pure (Resp.integer (Int64.ofNat n))) := rfl
  have hrun (st : Shared) (hlive : st.panicked = false) :
      ((cmdDel raw keys s).run w.handle st).1.1 =
          Resp.integer (Int64.ofNat (countPresent st.record keys)) ∧
        ((cmdDel raw keys s).run w.handle st).2.record =
          fun key => if key ∈ keys then none else st.record key := by
    obtain ⟨hcount, hleft⟩ := @delLoop_counts w s st hw keys hfits hlive
    rw [hdel, run_handler_bind, ← hcount, ← hleft]
    split
    · rw [run_handler_bind]
      exact ⟨rfl, run_logWrite_record _ _⟩
    · exact ⟨rfl, rfl⟩
  obtain ⟨hreply, hrecord⟩ := hrun st hlive
  obtain ⟨hreply', hrecord'⟩ := hrun (st.without k) hlive
  have hcount := @countPresent_without k st.record keys (by rw [hr]; nofun)
  have hwithout : (st.without k).record = Function.update st.record k none := rfl
  constructor
  · intro hsame hmem
    have hinteger := Resp.integer_inj ((hreply.symm.trans hsame.reply).trans hreply')
    rw [hwithout, hcount, if_pos hmem] at hinteger
    -- the two counts differ by one
    rw [Int64.ofNat_add] at hinteger
    generalize Int64.ofNat (countPresent _ keys) = n at hinteger
    have hint := congrArg Int64.toInt hinteger
    have hone : (Int64.ofNat 1).toInt = 1 := by decide
    have hlow := n.le_toInt
    have hhigh := n.toInt_lt
    rw [Int64.toInt_add, hone, Int.bmod_def] at hint
    split at hint <;> omega
  · intro hmem
    refine ⟨?_, fun key => ?_⟩
    · rw [hreply, hreply', hwithout, hcount, if_neg hmem, Nat.zero_add]
    · rw [hrecord, hrecord']
      by_cases hkey : key = k
      · subst hkey
        simp only [if_neg hmem]
        rw [Shared.without_self, hr]
        exact (seenAlike_none_iff.mpr (expired_iff.mp hgone)).symm
      · simp only
        rw [Shared.without_other hkey]
        exact .refl _ _

end Several

/-! ## Section 5: All key-addressed commands -/

/-- The records that the command may ask for fit in a page. -/
def Parsed.Fits (p : Parsed) (g : Tsavorite.Geometry) (now : Int64)
    (record : Bytes → Option RecordPtr) : Prop :=
  match p with
  | .one key c => c.Fits g key now (record key)
  | .mset pairs => PairsFit g pairs
  | .del keys => ∀ key ∈ keys, FitsInPage g ⟨key.length, 0, false⟩
  | .reply _ | .mget _ | .exists_ _ => True

/-- The command minds the expired record of the key: DEL counts it, and the commands on one key
    that mind a copy meet it where it must be copied. -/
def Parsed.MindsExpired (p : Parsed) (k : Bytes) (now : Int64) (place : Place)
    (record : Option RecordPtr) (out : StringOutput) : Prop :=
  match p with
  | .one key c => key = k ∧ Lingers place record ∧ c.MindsCopy now out
  | .del keys => k ∈ keys
  | _ => False

/-- **Expired keys.**  In a store that serves the command, a key-addressed command replies and
    leaves all keys as if an expired key had been deleted before, unless it minds the record. -/
theorem expired_as_absent_iff (w : World) (raw : Bytes) {cmd : CommandName} {args : List Bytes}
    {p : Parsed} {k : Bytes} {s : RespSession} {st : Shared} {r : RecordPtr}
    (hcmd : commandOf args = some cmd) (hparse : parseKeyed args s.nowMs cmd = some p)
    (hw : w.Serves) (hlive : st.panicked = false) (hfit : p.Fits w.geometry s.nowMs st.record)
    (hr : st.record k = some r) (hgone : r.expired s.nowMs = true) :
    SeenSame s.nowMs ((execBasic raw args s).run w.handle st)
        ((execBasic raw args s).run w.handle (st.without k)) ↔
      ¬ p.MindsExpired k s.nowMs (w.placeAt st.calls) (st.record k) s.outScratch := by
  have hexec : execBasic raw args s = p.exec raw s := by
    unfold execBasic
    rw [hcmd]
    exact execNamed_eq raw s hparse
  have hexpired : ∀ r ∈ st.record k, r.expired s.nowMs = true := by
    intro r' hr'
    rw [hr] at hr'
    obtain rfl := Option.some.inj hr'
    exact hgone
  have hspares : Spares k s.nowMs (p.exec raw) →
      SeenSame s.nowMs ((execBasic raw args s).run w.handle st)
        ((execBasic raw args s).run w.handle (st.without k)) := by
    intro h
    rw [hexec]
    exact seenSame_of_spares (h s rfl) hexpired
  cases p with
  | reply b => exact iff_of_true (hspares (Handler.all_pure b)) id
  | one key c =>
    by_cases hkey : key = k
    · subst hkey
      rw [one_self_iff hcmd hparse hw hlive hfit (seenAt_eq_none.mpr hexpired)]
      simp [Parsed.MindsExpired]
    · exact iff_of_true (hspares (spares_exec (.inl hkey))) fun h => hkey h.1
  | mset pairs =>
    refine iff_of_true ?_ id
    rw [hexec]
    refine mset_alike hw hfit ⟨rfl, hlive, hlive, fun key => ?_⟩
    by_cases hkey : key = k
    · subst hkey
      rw [Shared.without_self, hr]
      exact (seenAlike_none_iff.mpr (expired_iff.mp hgone)).symm
    · rw [Shared.without_other hkey]
      exact .refl _ _
  | mget keys =>
    exact iff_of_true (hspares ((spares_mgetLoop keys).bind fun _ => Handler.all_pure _)) id
  | exists_ keys =>
    exact iff_of_true (hspares ((spares_existsLoop keys).bind fun _ => Handler.all_pure _)) id
  | del keys =>
    rw [hexec]
    exact del_same_iff hw hfit hlive hr hgone

/-- APPEND to an expired record that must be copied. -/
theorem expired_as_absent_iff_append :
    let s : RespSession := { RespSession.new true with nowMs := 6000 }
    let st := Shared.holding [([107], fortyOne)]
    let args : List Bytes := [ascii "APPEND", [107], [118]]
    let w := World.calm .frozen
    SeenSame 6000 ((execBasic [] args s).run w.handle st)
      ((execBasic [] args s).run w.handle (st.without [107])) := by
  intro s st args w
  have hfit : (Parsed.one [107] (.append [118])).Fits w.geometry 6000 st.record := by
    exact KeyCommand.Fits.of_some (c := .append [118]) (r := fortyOne) (by decide) (by decide)
      (by decide)
  refine (@expired_as_absent_iff w [] .append args (.one [107] (.append [118])) [107] s st fortyOne
    (by decide) rfl (World.calm_serves nofun) rfl hfit rfl (by decide)).mpr ?_
  exact fun h => h.2.2

/-- DEL counts an expired key, SETNX denies that it has written one, and GETSET does not write. -/
theorem expired_key_is_minded :
    let s : RespSession := { RespSession.new true with nowMs := 6000 }
    let st := Shared.holding [([107], fortyOne)]
    let w := World.calm .frozen
    let run (args : List Bytes) (st : Shared) := (execBasic [] args s).run w.handle st
    let del : List Bytes := [ascii "DEL", [107]]
    let setnx : List Bytes := [ascii "SETNX", [107], [118]]
    let getset : List Bytes := [ascii "GETSET", [107], [118]]
    ((run del st).1.1 = Resp.integer 1 ∧ (run del (st.without [107])).1.1 = Resp.integer 0) ∧
      ((run setnx st).1.1 = Resp.integer 0 ∧ (run setnx (st.without [107])).1.1 = Resp.integer 1) ∧
      (seenAt 6000 ((run getset st).2.record [107]) = none ∧
        seenAt 6000 ((run getset (st.without [107])).2.record [107]) = some ([118], 0)) ∧
      ¬ SeenSame 6000 (run getset st) (run getset (st.without [107])) := by
  intro s st w run del setnx getset
  have hnone : seenAt 6000 ((run getset st).2.record [107]) = none := by decide +kernel
  have hsome : seenAt 6000 ((run getset (st.without [107])).2.record [107]) = some ([118], 0) := by
    decide +kernel
  refine ⟨⟨by decide +kernel, by decide +kernel⟩, ⟨by decide +kernel, by decide +kernel⟩,
    ⟨hnone, hsome⟩, fun hsame => ?_⟩
  have hkey := hsame.keys [107] 6000 (Int64.le_refl 6000)
  rw [hnone, hsome] at hkey
  cases hkey

end Garnet
