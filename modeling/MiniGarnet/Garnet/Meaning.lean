import MiniGarnet.Garnet.Expired
import MiniGarnet.Garnet.ExecQueue
import MiniGarnet.Garnet.RecordSize

/-! # What commands mean

    The log holds commands, not values: a restart runs them again, each at the
    time it was logged with, in a store whose records need not lie where those
    of the old one lay.  What a command makes of a key must then depend on
    nothing but the value and the deadline that the key shows.

    A `View` is a map from keys to values and deadlines, and `meaning` what a
    command makes of it.  In a store that serves it, a key-addressed command
    does what it means, in whichever places the records are, but for the
    commands that are not steady.
-/

namespace Garnet

open Tsavorite (Status)
open StringFunctions

/-! ## Section 1: What is seen of a store -/

/-- The values and the deadlines of the keys; the deadline 0 is none. -/
abbrev View : Type := Bytes → Option (Bytes × Int64)

/-- A value whose deadline has passed is not seen. -/
def shown (now : Int64) (x : Option (Bytes × Int64)) : Option (Bytes × Int64) :=
  x.filter fun x => decide (x.2 = 0 ∨ now < x.2)

/-- What is seen of a view at a time. -/
def View.at (v : View) (now : Int64) : View := fun key => shown now (v key)

def View.set (v : View) (key : Bytes) (x : Option (Bytes × Int64)) : View := Function.update v key x

/-- What is seen of all keys at a time. -/
def Shared.seen (st : Shared) (now : Int64) : View := fun key => seenAt now (st.record key)

section Views

variable {now t : Int64} {v : View} {st : Shared} {record after : Option RecordPtr} {r : RecordPtr}

theorem seenAt_some_eq (r : RecordPtr) : seenAt t (some r) = shown t (some (r.value, r.expiration)) := by
  unfold shown
  cases hexp : r.expired t with
  | true =>
    obtain ⟨hne, hle⟩ := expired_iff.mp hexp
    rw [seenAt_expired hexp, Option.filter_some, if_neg]
    simp [hne, Int64.not_lt.mpr hle]
  | false =>
    rw [seenAt_alive hexp, Option.filter_some, if_pos]
    rw [decide_eq_true_eq]
    by_contra hno
    obtain ⟨hne, hle⟩ := not_or.mp hno
    rw [expired_iff.mpr ⟨hne, Int64.not_lt.mp hle⟩] at hexp
    cases hexp

/-- What is seen later is what is left of what is seen now. -/
theorem shown_shown (h : now ≤ t) (x : Option (Bytes × Int64)) : shown t (shown now x) = shown t x := by
  cases x with
  | none => rfl
  | some x =>
    unfold shown
    rw [Option.filter_some]
    split
    · rfl
    · rename_i hgone
      rw [Option.filter_some, if_neg]
      · rfl
      · simp only [decide_eq_true_eq, not_or] at hgone ⊢
        exact ⟨hgone.1, fun hlt => hgone.2 (Int64.lt_of_le_of_lt h hlt)⟩

theorem shown_seenAt (h : now ≤ t) : shown t (seenAt now record) = seenAt t record := by
  cases record with
  | none => rfl
  | some r => rw [seenAt_some_eq, seenAt_some_eq, shown_shown h]

/-- What is seen is still seen. -/
theorem shown_of_seen {x : Option (Bytes × Int64)} (h : seenAt now record = x) : shown now x = x := by
  rw [← h, shown_seenAt (Int64.le_refl now)]

theorem View.at_at (h : now ≤ t) : (v.at now).at t = v.at t :=
  funext fun key => shown_shown h (v key)

theorem Shared.seen_at (h : now ≤ t) : (st.seen now).at t = st.seen t :=
  funext fun _ => shown_seenAt h

theorem View.at_set (key : Bytes) (x : Option (Bytes × Int64)) :
    (v.set key x).at now = (v.at now).set key (shown now x) := by
  funext k
  unfold View.at View.set
  by_cases hk : k = key
  · subst hk
    rw [Function.update_self, Function.update_self]
  · rw [Function.update_of_ne hk, Function.update_of_ne hk]

/-- A call on one key changes what is seen of that key only. -/
theorem Shared.seen_update {st' : Shared} {key : Bytes}
    (h : st'.record = Function.update st.record key after) :
    st'.seen now = (st.seen now).set key (seenAt now after) := by
  funext k
  unfold Shared.seen View.set
  rw [h]
  by_cases hk : k = key
  · subst hk
    rw [Function.update_self, Function.update_self]
  · rw [Function.update_of_ne hk, Function.update_of_ne hk]

theorem Leaves.seen {x : Option (Bytes × Int64)} (h : Leaves now after x) :
    seenAt now after = shown now x := by
  cases x with
  | none => exact (h now (Int64.le_refl now)).symm
  | some x =>
    obtain ⟨r, rfl, hv, he⟩ := h
    rw [seenAt_some_eq, hv, he]

end Views

/-! ## Section 2: What commands mean -/

/-- The deadline that a form of SET leaves on a key that has one. -/
def StringInput.newTtl (input : StringInput) (old : Int64) : Int64 :=
  match input.op with
  | .setKeepTtl | .setGet true => old
  | _ => input.expiration

/-- What a command on one key makes of the value and the deadline that are seen. -/
def KeyCommand.meaning (c : KeyCommand) (now : Int64) :
    Option (Bytes × Int64) → Option (Bytes × Int64)
  | none => c.missingStored false
  | some (v, e) =>
    match c with
    | .get | .strlen | .getrange _ _ | .ttl _ | .type | .setnx _ => some (v, e)
    | .set value o =>
      if o.op = .setNx then some (v, e) else some (value, (c.input now).newTtl e)
    | .setex value expiration => some (value, expiration)
    | .getset value => some (value, 0)
    | .getdel => none
    | .getex expiration | .expire expiration => some (v, expiration)
    | .persist => some (v, 0)
    | .incr _ | .append _ | .setrange _ _ =>
      match Edit.of (c.input now) (some v) with
      | .store value _ => some (value, e)
      | _ => some (v, e)

/-- The pairs that MSET writes. -/
def View.setPairs (v : View) : List Bytes → View
  | key :: value :: rest => (v.set key (some (value, 0))).setPairs rest
  | _ => v

/-- What the arguments of a key-addressed command make of a view at a time. -/
def Parsed.meaning (now : Int64) (v : View) : Parsed → View
  | .one key c => v.set key (c.meaning now (v key))
  | .mset pairs => v.setPairs pairs
  | .del keys => fun key => if key ∈ keys then none else v key
  | .reply _ | .mget _ | .exists_ _ => v

/-- What a command makes of a view; only key-addressed commands make anything of it. -/
def commandMeaning (now : Int64) (args : List Bytes) (v : View) : View :=
  match (commandOf args).bind (parseKeyed args now) with
  | some p => p.meaning now (v.at now)
  | none => v

/-- What an entry of the log makes of a view, at its own time. -/
def AofEntry.meaning (e : AofEntry) (v : View) : View :=
  match e.op, parseRanges e.payload with
  | .command, some args => commandMeaning e.timestampMs args v
  | _, _ => v

/-- What a log makes of a view. -/
def replayedOn (v : View) (entries : List AofEntry) : View :=
  entries.foldl (fun v e => e.meaning v) v

/-- What a log makes of a store without keys. -/
def replayed (entries : List AofEntry) : View := replayedOn (fun _ => none) entries

/-! ## Section 3: Commands that mean the same everywhere -/

/-- The new deadline does not depend on whether the value is written in place or to a copy: SET
    with XX or GET clears the old one in place and keeps it in a copy, and KEEPTTL the other way
    round with a new one. -/
def StringInput.Steady (input : StringInput) (old : Int64) : Prop :=
  match input.op with
  | .setXx | .setGet false => input.expiration = 0 → old = 0
  | .setKeepTtl | .setGet true => input.expiration ≠ 0 → input.expiration = old
  | _ => True

/-- The commands that do not create a key whose expired record they would have to copy, and GETEX,
    which does only then. -/
def KeyCommand.mindsLingering : KeyCommand → Bool
  | .getset _ | .getex _ => true
  | .set _ o => o.get
  | _ => false

/-- What the command makes of the key does not depend on the place of its record. -/
def KeyCommand.Steady (c : KeyCommand) (now : Int64) (place : Place) (record : Option RecordPtr) :
    Prop :=
  match seenAt now record with
  | some (_, e) => (c.input now).Steady e
  | none => c.mindsLingering = true → ¬ Lingers place record

/-- What has to hold of a command in the state it finds, for its meaning to be what it does: the
    records fit in a page, and their places do not matter. -/
structure Parsed.Means (p : Parsed) (w : World) (now : Int64) (st : Shared) : Prop where
  fits : p.Fits w.geometry now st.record
  steady : ∀ key c, p = .one key c → c.Steady now (w.placeAt st.calls) (st.record key)

section Paths

variable {g : Tsavorite.Geometry} {key : Bytes} {input : StringInput} {record : Option RecordPtr}

theorem rmwInitial_isSome (mem : ℕ → UInt8) (out : StringOutput)
    (hfit : FitsInPage g (initialSize key input)) :
    ∃ res, rmwInitial g key input mem out = some res := by
  unfold rmwInitial
  split
  · obtain ⟨new, hnew, -⟩ := allocateRecord_spec hfit mem
    obtain ⟨x, hx⟩ := Option.isSome_iff_exists.mp (@initialUpdater_isSome _ _ _ mem new out hnew)
    simp [hnew, hx]
  · exact ⟨_, rfl⟩

theorem rmwCopy_isSome (mem : ℕ → UInt8) (out : StringOutput) {r : RecordPtr}
    (hfit : FitsInPage g (copySize key input r)) :
    ∃ res, rmwCopy g key input mem r out = some res := by
  unfold rmwCopy
  obtain ⟨new, hnew, -⟩ := allocateRecord_spec hfit mem
  obtain ⟨tombstone, htombstone, -⟩ := allocateRecord_spec hfit.tombstone mem
  split
  · exact ⟨_, rfl⟩
  · simp [htombstone]
  · rename_i out' _
    obtain ⟨x, hx⟩ := Option.isSome_iff_exists.mp (@copyUpdater_isSome _ _ _ mem r new out' hnew)
    simp [hnew, hx]

/-- A key that is missing: the store call has an answer. -/
theorem rmwPath_answers (mem : ℕ → UInt8) (place : Place) (out : StringOutput)
    (hmissing : seenAt input.nowMs record = none) (hfit : SizesFit g key input record) :
    ∃ res, rmwPath g key input mem place record out = some res := by
  rcases @rmwPath_missing g key input mem place record out hmissing with
    ⟨-, hpath⟩ | ⟨r, hr, -, -, hpath⟩
  · rw [hpath]
    exact rmwInitial_isSome mem out hfit.initial
  · rw [hpath]
    exact rmwCopy_isSome mem out (hfit.copy r hr)

/-- PERSIST leaves no deadline. -/
theorem rmwPath_persist (mem : ℕ → UInt8) (place : Place) (out : StringOutput) {r : RecordPtr}
    (hop : input.op = .persist) (halive : r.expired input.nowMs = false)
    (hfit : FitsInPage g (copySize key input r)) :
    ∃ res, rmwPath g key input mem place (some r) out = some res ∧
      ∃ r', res.record = some r' ∧ r'.value = r.value ∧ r'.expiration = 0 := by
  by_cases hidle : place = .mutable_ ∧ r.expiration = 0
  · -- in place there is nothing to do
    obtain ⟨rfl, hzero⟩ := hidle
    refine ⟨⟨.found, some r, out.setInt 0⟩, ?_, r, rfl, rfl, hzero⟩
    simp [rmwPath, rmwMutable, inPlaceUpdater, halive, hop, hzero]
  · obtain ⟨res, hres, hstored⟩ := rmwPath_alive mem place out (by rw [hop]; trivial)
      (by rw [hop]; decide) (fun _ hplace hzero => hidle ⟨hplace, hzero⟩) halive hfit
    obtain ⟨r', hr', hv, he⟩ := hstored.record
    refine ⟨res, hres, r', hr', ?_, ?_⟩
    · rw [hv, newValue, hop]
    · rw [he]
      have hcopied := copiedTtl_alive key (by rw [hop]; trivial) halive
      rw [hop] at hcopied
      cases place with
      | mutable_ =>
        show updatedTtl key input r = 0
        simp only [updatedTtl, hop]
        exact hcopied
      | frozen | lost => exact hcopied

/-- GETDEL deletes a key that is there. -/
theorem rmwPath_getDel (mem : ℕ → UInt8) (place : Place) (out : StringOutput) {r : RecordPtr}
    (hop : input.op = .getDel) (hexp : input.expiration = 0)
    (halive : r.expired input.nowMs = false) (hfit : FitsInPage g (copySize key input r)) :
    ∃ res, rmwPath g key input mem place (some r) out = some res ∧ res.record = none := by
  have hedits : input.op.EditsValue := by rw [hop]; trivial
  have hedit : Edit.of input (some r.value) = .remove r.value := by simp [Edit.of, hop]
  cases place with
  | mutable_ =>
    obtain ⟨res, hres, hdoes⟩ := rmwMutable_does mem out hedits hexp halive hfit
    rw [hedit] at hdoes
    exact ⟨res, hres, hdoes.2.1⟩
  | frozen | lost =>
    obtain ⟨res, hres, hdoes⟩ := rmwCopy_does mem out hedits hexp halive hfit
    rw [hedit] at hdoes
    exact ⟨res, hres, hdoes.2.1⟩

end Paths

/-- The deadline of a steady form of SET is the same in place and in a copy. -/
theorem StringInput.Steady.keepsTtl {input : StringInput} {place : Place} {r : RecordPtr}
    (h : input.Steady r.expiration) :
    (if KeepsTtl input place r then r.expiration else input.expiration) =
      input.newTtl r.expiration := by
  unfold StringInput.Steady at h
  by_cases hkeeps : KeepsTtl input place r
  · rw [if_pos hkeeps]
    unfold KeepsTtl at hkeeps
    unfold StringInput.newTtl
    cases hop : input.op with
    | setXx =>
      simp only [hop] at h hkeeps
      rw [h hkeeps.2, hkeeps.2]
    | setGet keepTtl =>
      cases keepTtl with
      | true => rfl
      | false =>
        simp only [hop] at h hkeeps
        simp only
        rw [h hkeeps.2, hkeeps.2]
    | setKeepTtl => rfl
    | _ => simp only [hop] at hkeeps
  · rw [if_neg hkeeps]
    unfold KeepsTtl at hkeeps
    unfold StringInput.newTtl
    cases hop : input.op with
    | setGet keepTtl =>
      cases keepTtl with
      | true =>
        simp only [hop, not_or] at h hkeeps
        exact h hkeeps.2
      | false => rfl
    | setKeepTtl =>
      simp only [hop, not_or] at h hkeeps
      exact h hkeeps.2
    | _ => rfl

section OneKey

variable {w : World} {raw key : Bytes} {args : List Bytes} {s : RespSession} {st : Shared}
  {c : KeyCommand} {cmd : CommandName} {v : Bytes} {e : Int64}

/-- The command has left of the key what it means, and the store is alive. -/
structure KeyCommand.Meant (c : KeyCommand) (w : World) (raw key : Bytes) (args : List Bytes)
    (s : RespSession) (st : Shared) : Prop where
  live : ((execBasic raw args s).run w.handle st).2.panicked = false
  seen : ((execBasic raw args s).run w.handle st).2.seen s.nowMs =
    (st.seen s.nowMs).set key (shown s.nowMs (c.meaning s.nowMs (seenAt s.nowMs (st.record key))))

theorem KeyCommand.Ran.meant {status : Status} {after : Option RecordPtr} {out : StringOutput}
    (h : c.Ran w raw key args s st status after out)
    (hafter : seenAt s.nowMs after =
      shown s.nowMs (c.meaning s.nowMs (seenAt s.nowMs (st.record key)))) :
    c.Meant w raw key args s st :=
  ⟨h.live, (Shared.seen_update h.record).trans (congrArg _ hafter)⟩

/-- A record with this value and deadline. -/
theorem RmwResult.Stored.seen {res : RmwResult} {now : Int64} {v : Bytes} {e : Int64}
    {out : StringOutput} (h : res.Stored v e out) : seenAt now res.record = shown now (some (v, e)) :=
  Leaves.seen (x := some (v, e)) h.record

/-- A key that is missing stays the same whether its expired record must be copied or not. -/
theorem KeyCommand.missingStored_eq (h : c.mindsLingering = false) (lingers : Bool) :
    c.missingStored lingers = c.missingStored false := by
  cases c with
  | set value o =>
    have hget : o.get = false := h
    simp [missingStored, hget]
  | getset value => cases h
  | getex expiration => cases h
  | _ => rfl

theorem KeyCommand.meaning_read {now : Int64} (hkind : c.kind = .read) (x : Option (Bytes × Int64)) :
    c.meaning now x = x := by
  cases c with
  | get | strlen | getrange start stop | ttl ms | type => cases x <;> rfl
  | set value o => by_cases hop : o.op = .set <;> simp [kind, hop] at hkind
  | _ => cases hkind

section One

variable (hcmd : commandOf args = some cmd)
  (hparse : parseKeyed args s.nowMs cmd = some (.one key c)) (hw : w.Serves)
  (hlive : st.panicked = false) (hfit : c.Fits w.geometry key s.nowMs (st.record key))

include hcmd hparse hw hlive

/-- Reads leave the key. -/
theorem KeyCommand.meant_read (hkind : c.kind = .read) : c.Meant w raw key args s st := by
  have hanswer : c.answer w.handle key (c.prepared s) st =
      ((if (readOf (c.input (c.prepared s).nowMs) (st.record key) (c.prepared s).outScratch).1
          then .found else .notFound,
        (readOf (c.input (c.prepared s).nowMs) (st.record key) (c.prepared s).outScratch).2),
        st.called key (st.record key)) := by
    unfold KeyCommand.answer
    rw [hkind]
    exact hw.read hlive
  have hran := @KeyCommand.ran w raw key args s st c cmd hcmd hparse hlive _ _ _ hanswer
  refine hran.meant ?_
  rw [KeyCommand.meaning_read hkind, shown_seenAt (Int64.le_refl _)]

include hfit

/-- A key that is missing. -/
theorem KeyCommand.meant_missing (hmissing : seenAt s.nowMs (st.record key) = none)
    (hsteady : c.Steady s.nowMs (w.placeAt st.calls) (st.record key)) :
    c.Meant w raw key args s st := by
  have hnow := c.input_nowMs s.nowMs
  obtain ⟨-, after, hrecord, hleaves⟩ :=
    @KeyCommand.ran_missing w raw key args s st c cmd hcmd hparse hw hlive hfit hmissing
  have hstored : c.missingStored (decide (Lingers (w.placeAt st.calls) (st.record key))) =
      c.missingStored false := by
    unfold KeyCommand.Steady at hsteady
    rw [hmissing] at hsteady
    cases hminds : c.mindsLingering with
    | false => exact KeyCommand.missingStored_eq hminds _
    | true => rw [decide_eq_false (hsteady hminds)]
  rw [hstored] at hleaves
  refine ⟨?_, ?_⟩
  · cases hkind : c.kind with
    | read => exact (KeyCommand.meant_read hcmd hparse hw hlive hkind).live
    | upsert =>
      obtain ⟨_, _, -, -, -, hran⟩ := @KeyCommand.ran_upsert w raw key args s st c cmd hcmd hparse
        hkind hw hlive hfit.upsert
      exact hran.live
    | rmw =>
      obtain ⟨_, -, hran⟩ := @KeyCommand.ran_rmw w raw key args s st c cmd hcmd hparse hkind hw hlive
        (fun _ => True) fun mem => by
          obtain ⟨res, hres⟩ := rmwPath_answers mem (w.placeAt st.calls) (c.prepared s).outScratch
            (by rw [hnow]; exact hmissing) hfit.rmw
          exact ⟨res, hres, trivial⟩
      exact hran.live
  · rw [Shared.seen_update hrecord, hleaves.seen, hmissing]
    rfl

/-- A key that is there: SET and the commands that set a deadline. -/
theorem KeyCommand.meant_sets {v : Bytes} {e : Int64} (hsets : c.SetsDeadline)
    (hseen : seenAt s.nowMs (st.record key) = some (v, e))
    (htakes : (c.input s.nowMs).op ≠ .setNx → ∀ r : RecordPtr, r.value = v → r.expiration = e →
      c.meaning s.nowMs (some (v, e)) = some (newValue (c.input s.nowMs) r,
        if KeepsTtl (c.input s.nowMs) (w.placeAt st.calls) r then e
        else (c.input s.nowMs).expiration))
    (hleaves : (c.input s.nowMs).op = .setNx → c.meaning s.nowMs (some (v, e)) = some (v, e)) :
    c.Meant w raw key args s st := by
  have hnow := c.input_nowMs s.nowMs
  obtain ⟨r, hr, halive, hv, he⟩ := seenAt_eq_some hseen
  have hrecord : aliveRecord (c.input s.nowMs).nowMs (st.record key) = some r := by
    rw [hnow, hr]
    simp [aliveRecord, halive]
  obtain ⟨res, hran, hres⟩ := @KeyCommand.ran_sets w raw key args s st c cmd hcmd hparse hsets hw
    hlive hfit
  have hiff : (c.input s.nowMs).op.Takes (c.input s.nowMs).nowMs (w.placeAt st.calls)
      (st.record key) ↔ (c.input s.nowMs).op ≠ .setNx := by
    unfold StringOp.Takes
    rw [hrecord]
  refine hran.meant ?_
  rw [hseen]
  by_cases hop : (c.input s.nowMs).op = .setNx
  · obtain ⟨-, hleft, -⟩ := hres.leaves fun h => hiff.mp h hop
    rw [hnow] at hleft
    rw [hleaves hop, ← hseen, shown_seenAt (Int64.le_refl _)]
    exact (hleft.seen s.nowMs (Int64.le_refl _)).symm
  · have hstored := hres.takes (hiff.mpr hop)
    rw [hstored.seen, htakes hop r hv he]
    simp only [takenValue, takenTtl, hrecord, he]

/-- A key that is there: the commands that edit its value. -/
theorem KeyCommand.meant_edit {v : Bytes} {e : Int64} (hkind : c.kind = .rmw)
    (hop : (c.input s.nowMs).op.EditsValue) (hdel : (c.input s.nowMs).op ≠ .getDel)
    (hexp : (c.input s.nowMs).expiration = 0)
    (hseen : seenAt s.nowMs (st.record key) = some (v, e))
    (hmeaning : c.meaning s.nowMs (some (v, e)) =
      match Edit.of (c.input s.nowMs) (some v) with
      | .store value _ => some (value, e)
      | _ => some (v, e))
    (hremove : ∀ value, Edit.of (c.input s.nowMs) (some v) ≠ .remove value) :
    c.Meant w raw key args s st := by
  have hnow := c.input_nowMs s.nowMs
  obtain ⟨res, hdoes, hran⟩ := @KeyCommand.ran_rmw w raw key args s st c cmd hcmd hparse hkind
    hw hlive _ fun mem =>
    rmwPath_edits mem (w.placeAt st.calls) (c.prepared s).outScratch hop hdel hexp hfit.rmw
  have hshown : shownValue (c.input s.nowMs).nowMs (st.record key) = some v := by
    rw [hnow, shownValue, hseen]
    rfl
  have hkept : keptTtl (c.input s.nowMs).nowMs (st.record key) = e := by
    rw [hnow, keptTtl, hseen]
    rfl
  rw [hshown, hkept] at hdoes
  refine hran.meant ?_
  rw [hseen, hmeaning]
  cases hedit : Edit.of (c.input s.nowMs) (some v) with
  | reject =>
    rw [hedit] at hdoes
    rw [hdoes.2, ← hseen, shown_seenAt (Int64.le_refl _)]
  | store value n =>
    rw [hedit] at hdoes
    exact RmwResult.Stored.seen hdoes
  | remove value => exact absurd hedit (hremove value)

/-- A command on one key does what it means. -/
theorem KeyCommand.meant (hsteady : c.Steady s.nowMs (w.placeAt st.calls) (st.record key)) :
    c.Meant w raw key args s st := by
  have hnow := c.input_nowMs s.nowMs
  cases hseen : seenAt s.nowMs (st.record key) with
  | none => exact KeyCommand.meant_missing hcmd hparse hw hlive hfit hseen hsteady
  | some x =>
    obtain ⟨v, e⟩ := x
    obtain ⟨r, hr, halive, hv, he⟩ := seenAt_eq_some hseen
    have hcopy := hfit.rmw.copy r hr
    have halive' : r.expired (c.input s.nowMs).nowMs = false := by rw [hnow]; exact halive
    unfold KeyCommand.Steady at hsteady
    rw [hseen] at hsteady
    simp only at hsteady
    cases hcase : c with
    | get | strlen | getrange start stop | ttl ms | type =>
      subst hcase
      exact KeyCommand.meant_read hcmd hparse hw hlive rfl
    | set value o =>
      subst hcase
      refine KeyCommand.meant_sets hcmd hparse hw hlive hfit trivial hseen ?_ ?_
      · intro hop r' hv' he'
        have hvalue : newValue ((KeyCommand.set value o).input s.nowMs) r' = value := by
          have hinput : ((KeyCommand.set value o).input s.nowMs).op = o.op := rfl
          rcases o.op_cases with h | h | h | h | h <;> simp only [newValue, hinput, h] <;> rfl
        have hnot : ¬ o.op = .setNx := hop
        rw [← he'] at hsteady ⊢
        rw [hvalue, hsteady.keepsTtl]
        exact if_neg hnot
      · intro hop
        have hop' : o.op = .setNx := hop
        simp [KeyCommand.meaning, hop']
    | setnx value =>
      subst hcase
      obtain ⟨res, ⟨-, hrecord⟩, hran⟩ := @KeyCommand.ran_rmw w raw key args s st _ cmd hcmd hparse rfl hw
        hlive (fun res => res.status.isUpdated = false ∧ res.record = some r) fun mem => by
          obtain ⟨res, hres, hidle, hrecord, -⟩ := @rmwPath_setNx_alive w.geometry key
            ((KeyCommand.setnx value).input s.nowMs) r mem (w.placeAt st.calls)
            ((KeyCommand.setnx value).prepared s).outScratch rfl halive'
          exact ⟨res, by rw [hr]; exact hres, hidle, hrecord⟩
      refine hran.meant ?_
      rw [hrecord, ← hr, hseen]
      exact (shown_of_seen hseen).symm
    | setex value expiration =>
      subst hcase
      exact KeyCommand.meant_sets hcmd hparse hw hlive hfit trivial hseen
        (fun _ r' _ _ => rfl) fun hop => by cases hop
    | getset value =>
      subst hcase
      refine KeyCommand.meant_sets hcmd hparse hw hlive hfit trivial hseen ?_ fun hop => by cases hop
      intro _ r' _ he'
      rw [← he'] at hsteady ⊢
      rw [hsteady.keepsTtl]
      rfl
    | getex expiration | expire expiration =>
      subst hcase
      refine KeyCommand.meant_sets hcmd hparse hw hlive hfit trivial hseen ?_ fun hop => by cases hop
      intro _ r' hv' _
      rw [← hv']
      rfl
    | getdel =>
      subst hcase
      obtain ⟨res, hrecord, hran⟩ := @KeyCommand.ran_rmw w raw key args s st _ cmd hcmd hparse rfl hw
        hlive (fun res => res.record = none) fun mem => by
          rw [hr]
          exact rmwPath_getDel mem _ _ rfl rfl halive' hcopy
      refine hran.meant ?_
      rw [hrecord, hseen]
      rfl
    | incr delta =>
      subst hcase
      refine KeyCommand.meant_edit hcmd hparse hw hlive hfit rfl trivial (by simp [input]) rfl hseen
        rfl fun value => ?_
      unfold Edit.of
      simp only [input]
      split <;> simp
    | append value =>
      subst hcase
      exact KeyCommand.meant_edit hcmd hparse hw hlive hfit rfl trivial (by simp [input]) rfl hseen
        rfl fun value => by simp [Edit.of, input]
    | setrange offset value =>
      subst hcase
      exact KeyCommand.meant_edit hcmd hparse hw hlive hfit rfl trivial (by simp [input]) rfl hseen
        rfl fun value => by simp [Edit.of, input]
    | persist =>
      subst hcase
      obtain ⟨res, ⟨r', hrecord, hv', he'⟩, hran⟩ := @KeyCommand.ran_rmw w raw key args s st _ cmd hcmd
        hparse rfl hw hlive
        (fun res => ∃ r', res.record = some r' ∧ r'.value = r.value ∧ r'.expiration = 0) fun mem => by
          rw [hr]
          exact rmwPath_persist mem _ _ rfl halive' hcopy
      refine hran.meant ?_
      rw [hrecord, hseen, seenAt_some_eq, hv', he', hv]
      rfl

end One

end OneKey

section Several

variable {w : World} {raw : Bytes} {args : List Bytes} {s : RespSession} {st : Shared} {now : Int64}

/-- What the pairs of MSET leave, by induction on the pairs. -/
theorem msetLoop_seen (hw : w.Serves) (pairs : List Bytes) (hfits : PairsFit w.geometry pairs)
    (hlive : st.panicked = false) :
    ((msetLoop pairs s).run w.handle st).2.seen now = ((st.seen now).setPairs pairs).at now := by
  fun_induction everyOther pairs generalizing s st with
  | case1 key value rest ih =>
    have hfit : FitsInPage w.geometry (upsertSize key (.simple .set value s.nowMs)) := hfits.1
    obtain ⟨status, r, -, hvalue, hexp, hrun⟩ :=
      @World.Serves.upsert w key _ s.outScratch st hw hlive hfit
    have hcalled : (st.called key (some r)).panicked = false := hlive
    have hbumped : (bumpedState key (st.called key (some r))).panicked = false := hlive
    have hpair : (msetLoop (key :: value :: rest) s).run w.handle st =
        (msetLoop rest s).run w.handle (bumpedState key (st.called key (some r))) := by
      show ((msetLoop rest { s with outScratch := (w.handle (.upsert key _ s.outScratch) st).1.2 }).run
        w.handle (w.handle (.bump key) (w.handle (.upsert key _ s.outScratch) st).2).2) = _
      rw [hrun, World.bump_state hcalled]
    have hseen : (bumpedState key (st.called key (some r))).seen now =
        (st.seen now).set key (some (value, 0)) := by
      rw [@Shared.seen_update now st (some r) (bumpedState key (st.called key (some r))) key rfl,
        seenAt_some_eq, hvalue, hexp]
      rfl
    rw [hpair, ih hfits.2 hbumped, hseen]
    rfl
  | case2 key => exact (Shared.seen_at (Int64.le_refl now)).symm
  | case3 => exact (Shared.seen_at (Int64.le_refl now)).symm

theorem delLoop_seen (hw : w.Serves) (keys : List Bytes)
    (hfits : ∀ key ∈ keys, FitsInPage w.geometry ⟨key.length, 0, false⟩)
    (hlive : st.panicked = false) :
    ((delLoop keys s).run w.handle st).2.seen now =
      fun key => if key ∈ keys then none else st.seen now key := by
  obtain ⟨-, hrecord⟩ := @delLoop_counts w s st hw keys hfits hlive
  funext key
  unfold Shared.seen
  rw [hrecord]
  by_cases hkey : key ∈ keys
  · simp only [if_pos hkey]
    rfl
  · simp only [if_neg hkey]

end Several

/-! ## Section 4: Operations that leave the keys and the log -/

/-- The keys and the log are the same, and the store is alive. -/
structure Shared.SameKeys (st st' : Shared) : Prop where
  live : st'.panicked = false
  record : st'.record = st.record
  log : st'.log = st.log

/-- The operation leaves the keys and the log. -/
def Effect.Idle : Effect → Prop
  | .upsert .. | .rmw .. | .delete _ | .enqueue _ | .clear | .checkpoint => False
  | _ => True

section Idle

variable {w : World} {raw : Bytes} {args : List Bytes} {s : RespSession} {st st' st'' : Shared}

theorem Shared.SameKeys.trans (h : st.SameKeys st') (h' : st'.SameKeys st'') : st.SameKeys st'' :=
  ⟨h'.live, h'.record.trans h.record, h'.log.trans h.log⟩

theorem World.handle_idle (hw : w.Serves) (hlive : st.panicked = false) {e : Effect} (he : e.Idle) :
    st.SameKeys (w.handle e st).2 := by
  cases e with
  | read key input out =>
    rw [hw.read hlive]
    exact ⟨hlive, Function.update_eq_self _ _, rfl⟩
  | upsert | rmw | delete | enqueue | clear | checkpoint => exact he.elim
  | _ =>
    rw [World.handle_live w hlive]
    exact ⟨hlive, rfl, rfl⟩

/-- A program of such operations, by induction on the program. -/
theorem World.run_idle {α : Type} {p : Program Effect Effect.Result α} {Q : α → Prop}
    (hw : w.Serves) (hlive : st.panicked = false) (hp : p.Sat Effect.Idle Q) :
    st.SameKeys (p.run w.handle st).2 ∧ Q (p.run w.handle st).1 := by
  induction p generalizing st with
  | ret a => exact ⟨⟨hlive, rfl, rfl⟩, hp⟩
  | op e k ih =>
    obtain ⟨he, hk⟩ := hp
    have hstep := World.handle_idle hw hlive he
    obtain ⟨hrest, hQ⟩ := @ih (w.handle e st).1 (w.handle e st).2 hstep.live (hk _)
    exact ⟨hstep.trans hrest, hQ⟩

/-- The flags and the clock of a session. -/
structure RespSession.Flags (aof replay : Bool) (now : Int64) (s : RespSession) : Prop where
  aof : s.aof = aof
  replay : s.replay = replay
  nowMs : s.nowMs = now

/-- The handler leaves the keys, the log, and the flags and the clock of the session. -/
abbrev Idle (aof replay : Bool) (now : Int64) {α : Type} (h : Handler α) : Prop :=
  Handler.All (RespSession.Flags aof replay now) Effect.Idle h

section Handlers

open Handler

variable {aof replay : Bool} {now : Int64}

theorem idle_modifyTxn (f : RespSession → TxnState) :
    Idle aof replay now (modify fun s => { s with txn := f s } : Handler PUnit) :=
  all_modify fun _ hs => ⟨hs.aof, hs.replay, hs.nowMs⟩

theorem idle_watchLoop (keys : List Bytes) : Idle aof replay now (watchLoop keys) := by
  induction keys with
  | nil => exact all_pure _
  | cons key rest ih =>
    refine (all_perform (e := .slotVersion _) trivial).bind fun ver => ?_
    exact (idle_modifyTxn fun s => { s.txn with watches := s.txn.watches ++ [ver] }).bind fun _ => ih

theorem idle_cmdKeys (pattern : Bytes) : Idle aof replay now (cmdKeys pattern) :=
  (all_perform (e := .scanLive _) trivial).bind fun _ => all_pure _

theorem idle_cmdScan (options : List Bytes) : Idle aof replay now (cmdScan options) :=
  (idle_cmdKeys _).bind fun _ => all_pure _

theorem idle_arity2 {f : Bytes → Handler Bytes} (h : ∀ a, Idle aof replay now (f a)) :
    Idle aof replay now (arity2 args f) := by
  unfold arity2
  split
  · exact h _
  · exact all_pure _

theorem idle_arityMany {f : List Bytes → Handler Bytes} (h : ∀ rest, Idle aof replay now (f rest)) :
    Idle aof replay now (arityMany args f) := by
  unfold arityMany
  split
  · exact h _
  · exact all_pure _

/-- The commands that are not about keys, apart from those about the whole store. -/
theorem idle_execNamed {cmd : CommandName} (hkeyed : parseKeyed args now cmd = none)
    (hwhole : isWholeStore (some cmd) = false) : Idle aof replay now (execNamed cmd raw args) := by
  cases cmd with
  | echo => exact idle_arity2 fun _ => all_pure _
  | reset => exact (idle_modifyTxn fun _ => .default).bind fun _ => all_pure _
  | dbsize => exact (all_perform (e := .countLive) trivial).bind fun _ => all_pure _
  | keys => exact idle_arity2 fun _ => idle_cmdKeys _
  | scan => exact idle_arityMany fun rest => idle_cmdScan (rest.drop 1)
  | multi =>
    intro s hs
    show ((if s.txn.inMulti = true then _ else _ : Handler Bytes) s).Sat _ _
    split
    · exact hs
    · exact ⟨hs.aof, hs.replay, hs.nowMs⟩
  | discard =>
    exact all_get.bind fun _ => all_ite
      ((idle_modifyTxn fun _ => .default).bind fun _ => all_pure _) (all_pure _)
  | watch =>
    exact idle_arityMany fun _ => all_get.bind fun _ => all_ite (all_pure _)
      ((idle_watchLoop _).bind fun _ => all_pure _)
  | unwatch => exact (idle_modifyTxn fun s => { s.txn with watches := [] }).bind fun _ => all_pure _
  | lastsave => exact (all_perform (e := .lastSaveMs) trivial).bind fun _ => all_pure _
  | flushdb | flushall | save | bgsave => cases hwhole
  | ping | quit | select | hello | command | config | client | info | bgrewriteaof | exec
  | subscribe | unsubscribe | psubscribe => exact all_pure _
  | _ => cases hkeyed

theorem idle_read (key : Bytes) (input : StringInput) : Idle aof replay now (read key input) :=
  fun _ hs => ⟨trivial, fun _ => ⟨hs.aof, hs.replay, hs.nowMs⟩⟩

theorem idle_mgetLoop (keys : List Bytes) : Idle aof replay now (mgetLoop keys) := by
  induction keys with
  | nil => exact all_pure _
  | cons key rest ih =>
    have hget : Idle aof replay now (cmdGet key) :=
      all_get.bind fun _ => (idle_read key _).bind fun _ =>
        all_ite (all_get.bind fun _ => all_pure _) (all_pure _)
    exact hget.bind fun _ => ih.bind fun _ => all_pure _

theorem idle_existsLoop (keys : List Bytes) : Idle aof replay now (existsLoop keys) := by
  induction keys with
  | nil => exact all_pure _
  | cons key rest ih =>
    exact all_get.bind fun _ => (idle_read key _).bind fun _ => ih.bind fun _ => all_pure _

end Handlers

end Idle

/-! ## Section 5: Key-addressed commands -/

section Keyed

variable {w : World} {raw : Bytes} {args : List Bytes} {s : RespSession} {st st' : Shared}
  {cmd : CommandName} {p : Parsed} {now : Int64}

theorem Shared.SameKeys.seen (h : st.SameKeys st') : st'.seen now = st.seen now := by
  unfold Shared.seen
  rw [h.record]

/-- `log_write`, in any session. -/
theorem run_logWrite (s : RespSession) (hlive : st.panicked = false) :
    (logWrite raw s).run w.handle st = (((), s), { st with
      log := if !s.replay && s.aof then st.log ++ [⟨.command, s.nowMs, raw⟩] else st.log }) := by
  rcases st with ⟨record, calls, version, log, panicked⟩
  obtain rfl : panicked = false := hlive
  rcases s with ⟨txn, nowMs, _ | _, out, _ | _⟩ <;> rfl

/-- MSET, MGET, DEL and EXISTS, and the commands on one key, run as they are parsed. -/
theorem execBasic_parsed (hcmd : commandOf args = some cmd)
    (hparse : parseKeyed args s.nowMs cmd = some p) : execBasic raw args s = p.exec raw s := by
  unfold execBasic
  rw [hcmd]
  exact execNamed_eq raw s hparse

/-- The state after the loop of MSET or DEL and its entry in the log. -/
theorem cmdMset_state (pairs : List Bytes) (hfits : PairsFit w.geometry pairs)
    (hlive : st.panicked = false) :
    ((cmdMset raw pairs s).run w.handle st).2 =
      { ((msetLoop pairs s).run w.handle st).2 with
        log := if !s.replay && s.aof then st.log ++ [⟨.command, s.nowMs, raw⟩] else st.log } := by
  obtain ⟨hbumped, o, hsession⟩ := msetLoop_bumped (s := s) pairs hfits hlive
  unfold cmdMset
  rw [run_handler_bind, hsession, run_handler_bind, run_logWrite _ hbumped.live, hbumped.log]
  rfl

theorem cmdDel_state (keys : List Bytes)
    (hfits : ∀ key ∈ keys, FitsInPage w.geometry ⟨key.length, 0, false⟩)
    (hlive : st.panicked = false) :
    ∃ b : Bool, ((cmdDel raw keys s).run w.handle st).2 =
      { ((delLoop keys s).run w.handle st).2 with
        log := if b && (!s.replay && s.aof) then st.log ++ [⟨.command, s.nowMs, raw⟩]
          else st.log } := by
  obtain ⟨hbumped, hsession, -⟩ := @delLoop_bumped w s st keys hfits hlive
  unfold cmdDel
  rw [run_handler_bind, hsession]
  by_cases hn : 0 < ((delLoop keys s).run w.handle st).1.1
  · rw [if_pos hn, run_handler_bind, run_logWrite _ hbumped.live, hbumped.log]
    exact ⟨true, by rw [Bool.true_and]; rfl⟩
  · rw [if_neg hn]
    refine ⟨false, ?_⟩
    rw [Bool.false_and, if_neg (by decide), ← hbumped.log]
    rfl

/-- What a key-addressed command does is what it means. -/
theorem Parsed.meant (hcmd : commandOf args = some cmd)
    (hparse : parseKeyed args s.nowMs cmd = some p) (hw : w.Serves) (hlive : st.panicked = false)
    (hmeans : p.Means w s.nowMs st) :
    ((execBasic raw args s).run w.handle st).2.panicked = false ∧
      ((execBasic raw args s).run w.handle st).2.seen s.nowMs =
        (p.meaning s.nowMs (st.seen s.nowMs)).at s.nowMs := by
  have hexec := @execBasic_parsed raw args s cmd p hcmd hparse
  -- a command that only reads
  have hidle : Idle s.aof s.replay s.nowMs (p.exec raw) →
      p.meaning s.nowMs (st.seen s.nowMs) = st.seen s.nowMs →
      ((execBasic raw args s).run w.handle st).2.panicked = false ∧
        ((execBasic raw args s).run w.handle st).2.seen s.nowMs =
          (p.meaning s.nowMs (st.seen s.nowMs)).at s.nowMs := by
    intro h hsame
    obtain ⟨hkeys, -⟩ := World.run_idle (w := w) hw hlive (h s ⟨rfl, rfl, rfl⟩)
    rw [hexec, hsame, Shared.seen_at (Int64.le_refl _)]
    exact ⟨hkeys.live, hkeys.seen⟩
  cases p with
  | reply b => exact hidle (Handler.all_pure b) rfl
  | mget keys => exact hidle ((idle_mgetLoop keys).bind fun _ => Handler.all_pure _) rfl
  | exists_ keys => exact hidle ((idle_existsLoop keys).bind fun _ => Handler.all_pure _) rfl
  | one key c =>
    obtain ⟨hlive', hseen⟩ := @KeyCommand.meant w raw key args s st c cmd hcmd hparse hw hlive
      hmeans.fits (hmeans.steady key c rfl)
    refine ⟨hlive', hseen.trans ?_⟩
    show _ = View.at ((st.seen s.nowMs).set key _) s.nowMs
    rw [View.at_set, Shared.seen_at (Int64.le_refl _)]
    rfl
  | mset pairs =>
    obtain ⟨hbumped, -⟩ := msetLoop_bumped (w := w) (s := s) pairs hmeans.fits hlive
    have hstate := @cmdMset_state w raw s st pairs hmeans.fits hlive
    rw [hexec]
    show ((cmdMset raw pairs s).run w.handle st).2.panicked = false ∧
      ((cmdMset raw pairs s).run w.handle st).2.seen s.nowMs = _
    rw [hstate]
    exact ⟨hbumped.live, msetLoop_seen hw pairs hmeans.fits hlive⟩
  | del keys =>
    obtain ⟨hbumped, -⟩ := delLoop_bumped (w := w) (s := s) keys hmeans.fits hlive
    obtain ⟨b, hstate⟩ := @cmdDel_state w raw s st keys hmeans.fits hlive
    rw [hexec]
    show ((cmdDel raw keys s).run w.handle st).2.panicked = false ∧
      ((cmdDel raw keys s).run w.handle st).2.seen s.nowMs = _
    rw [hstate]
    refine ⟨hbumped.live, (delLoop_seen hw keys hmeans.fits hlive).trans ?_⟩
    funext key
    show _ = shown s.nowMs (if key ∈ keys then none else st.seen s.nowMs key)
    split
    · rfl
    · exact (shown_seenAt (Int64.le_refl _)).symm

theorem KeyCommand.prepared_replay (c : KeyCommand) (s : RespSession) :
    (c.prepared s).replay = s.replay := by
  unfold KeyCommand.prepared
  split <;> rfl

theorem appends_or {b : Bool} {log : List AofEntry} {e : AofEntry} :
    (if b && (!s.replay && s.aof) then log ++ [e] else log) = log ∨
      s.replay = false ∧ (if b && (!s.replay && s.aof) then log ++ [e] else log) = log ++ [e] := by
  by_cases h : (b && (!s.replay && s.aof)) = true
  · rw [if_pos h]
    simp only [Bool.and_eq_true, Bool.not_eq_true'] at h
    exact .inr ⟨h.2.1, rfl⟩
  · rw [if_neg h]
    exact .inl rfl

/-- A command appends its own entry to the log, or nothing; in a replay, nothing. -/
theorem Parsed.exec_log (hw : w.Serves) (hlive : st.panicked = false)
    (hfits : p.Fits w.geometry s.nowMs st.record) :
    ((p.exec raw s).run w.handle st).2.log = st.log ∨
      s.replay = false ∧
        ((p.exec raw s).run w.handle st).2.log = st.log ++ [⟨.command, s.nowMs, raw⟩] := by
  have hidle : Idle s.aof s.replay s.nowMs (p.exec raw) →
      ((p.exec raw s).run w.handle st).2.log = st.log := fun h =>
    (World.run_idle (w := w) hw hlive (h s ⟨rfl, rfl, rfl⟩)).1.log
  cases p with
  | reply b => exact .inl (hidle (Handler.all_pure b))
  | mget keys => exact .inl (hidle ((idle_mgetLoop keys).bind fun _ => Handler.all_pure _))
  | exists_ keys => exact .inl (hidle ((idle_existsLoop keys).bind fun _ => Handler.all_pure _))
  | one key c =>
    show ((c.exec raw key s).run w.handle st).2.log = _ ∨
      s.replay = false ∧ ((c.exec raw key s).run w.handle st).2.log = _
    rw [KeyCommand.run_exec]
    rcases c.answer_cases (w := w) key (c.prepared s) hlive with
      ⟨status, after, out, -, hanswer⟩ | hpanic
    · rw [hanswer]
      simp only
      split
      · rw [World.run_afterWrite_state w _ _ _ (by exact hlive)]
        unfold World.noted
        rw [← c.prepared_nowMs s, ← c.prepared_replay s]
        exact @appends_or (c.prepared s) true _ _
      · exact .inl rfl
    · rw [hpanic]
      refine .inl ?_
      simp only
      split
      · rw [World.run_panicked w rfl]
      · rfl
  | mset pairs =>
    have hstate := @cmdMset_state w raw s st pairs hfits hlive
    show ((cmdMset raw pairs s).run w.handle st).2.log = _ ∨
      s.replay = false ∧ ((cmdMset raw pairs s).run w.handle st).2.log = _
    rw [hstate]
    exact @appends_or s true _ _
  | del keys =>
    obtain ⟨b, hstate⟩ := @cmdDel_state w raw s st keys hfits hlive
    show ((cmdDel raw keys s).run w.handle st).2.log = _ ∨
      s.replay = false ∧ ((cmdDel raw keys s).run w.handle st).2.log = _
    rw [hstate]
    exact appends_or

/-- A command that leaves the log as it is leaves what is seen, and the others are the one new entry
    of the log. -/
theorem Parsed.recorded (hcmd : commandOf args = some cmd)
    (hparse : parseKeyed args s.nowMs cmd = some p) (hw : w.Serves) (hlive : st.panicked = false)
    (hmeans : p.Means w s.nowMs st) (hannounces : Announces w s st p) (haof : s.aof = true)
    (hreplay : s.replay = false) :
    (((execBasic raw args s).run w.handle st).2.log = st.log ∧
        ((execBasic raw args s).run w.handle st).2.seen s.nowMs = st.seen s.nowMs) ∨
      ((execBasic raw args s).run w.handle st).2.log = st.log ++ [⟨.command, s.nowMs, raw⟩] := by
  have hlog := @Parsed.exec_log w raw s st p hw hlive hmeans.fits
  have hannounced := (@Parsed.exec_announced w raw s st p hlive haof hreplay).1 hannounces
  rw [execBasic_parsed hcmd hparse]
  rcases hlog with hsame | ⟨-, happend⟩
  · refine .inl ⟨hsame, funext fun key => ?_⟩
    by_contra hchanged
    -- a change would have been logged
    obtain ⟨hentry, -⟩ := hannounced key fun halike =>
      hchanged (halike s.nowMs (Int64.le_refl _)).symm
    rw [hsame] at hentry
    exact absurd (congrArg List.length hentry) (by simp)
  · exact .inr happend

theorem isControl_of_keyed (hparse : parseKeyed args now cmd = some p) :
    isControl (some cmd) = false := by
  cases cmd with
  | exec | discard | multi | watch | reset | quit => cases hparse
  | _ => rfl

end Keyed

end Garnet
