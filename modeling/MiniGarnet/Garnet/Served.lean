import MiniGarnet.Garnet.Misreport

/-! # Calls that the store serves

    A call that is let through, gets its memory and wins its race, of a store
    whose device reads succeed, does what the path of its place does.  From
    this it is derived what each RMW leaves of a key: the edit of its value,
    for the commands that edit values, and the new value with the deadline of
    the path, for the SET and TTL commands.  An expired record and no record
    are the same to most of them.
-/

namespace Garnet

open Tsavorite (Status)
open StringFunctions

/-! ## Section 1: Served calls -/

/-- The attempt gets to the record, room for a new one, and its place in the chain; the record
    can be read. -/
structure Attempt.Serves (a : Attempt) : Prop where
  enters : a.enters = true
  allocates : a.allocates = true
  links : a.links = true
  reads : a.place ≠ .lost

/-- Every call is served by the first attempt that is let through. -/
def World.Serves (w : World) : Prop :=
  ∀ n, ∃ a, (w.attempts n).find? (fun a => a.enters) = some a ∧ a.Serves

/-- The place in which the call finds the record of its key. -/
def World.placeAt (w : World) (n : ℕ) : Place :=
  (((w.attempts n).find? fun a => a.enters).map fun a => a.place).getD .frozen

/-- The way of an RMW through the callbacks. -/
def rmwPath (g : Tsavorite.Geometry) (key : Bytes) (input : StringInput) (mem : ℕ → UInt8)
    (place : Place) (record : Option RecordPtr) (out : StringOutput) : Option RmwResult :=
  match record, place with
  | none, _ => rmwInitial g key input mem out
  | some r, .mutable_ => rmwMutable g key input mem r out
  | some r, _ => rmwCopy g key input mem r out

/-- The result of an attempt that is done. -/
def RmwResult.outcome (res : RmwResult) : Outcome := .done res.status res.record res.out

section Served

variable {g : Tsavorite.Geometry} {key : Bytes} {input : StringInput} {a : Attempt}
  {record : Option RecordPtr} {out : StringOutput}

/-- The loop of a call goes past the attempts that are turned away. -/
theorem callLoop_served {attempt : Attempt → Option RecordPtr → StringOutput → Outcome}
    (hskip : ∀ a record out, a.enters = false → attempt a record out = .retry record out)
    {attempts : List Attempt} (hfind : attempts.find? (fun a => a.enters) = some a)
    {status : Status} {after : Option RecordPtr} {out' : StringOutput}
    (hdone : attempt a record out = .done status after out') :
    callLoop attempt attempts record out = .done status after out' := by
  induction attempts with
  | nil => cases hfind
  | cons b rest ih =>
    cases hb : b.enters with
    | true =>
      rw [List.find?_cons_of_pos hb] at hfind
      obtain rfl := Option.some.inj hfind
      rw [callLoop, hdone]
    | false =>
      rw [List.find?_cons_of_neg (by simp [hb])] at hfind
      rw [callLoop, hskip b record out hb]
      exact ih hfind

theorem attemptInitial_served (ha : a.Serves) {res : RmwResult}
    (hpath : rmwInitial g key input a.mem out = some res) :
    attemptInitial g key input a none out = res.outcome := by
  unfold rmwInitial at hpath
  unfold attemptInitial
  by_cases hneed : needInitialUpdate input = true
  · rw [if_pos hneed] at hpath ⊢
    obtain ⟨new, halloc, hpath⟩ := Option.bind_eq_some_iff.mp hpath
    obtain ⟨x, hfill, hpath⟩ := Option.bind_eq_some_iff.mp hpath
    obtain rfl := Option.some.inj hpath
    simp [attemptLink, halloc, hfill, ha.allocates, ha.links, RmwResult.outcome]
  · rw [if_neg hneed] at hpath ⊢
    obtain rfl := Option.some.inj hpath
    rfl

theorem attemptCopy_served (ha : a.Serves) {r : RecordPtr} {res : RmwResult}
    (hpath : rmwCopy g key input a.mem r out = some res) :
    attemptCopy g key input a r out = res.outcome := by
  unfold rmwCopy at hpath
  unfold attemptCopy
  rcases hneed : needCopyUpdate input r out with ⟨decision, out₁⟩
  rw [hneed] at hpath
  cases decision with
  | cancel =>
    obtain rfl := Option.some.inj hpath
    rfl
  | delete =>
    obtain ⟨new, halloc, hpath⟩ := Option.bind_eq_some_iff.mp hpath
    obtain rfl := Option.some.inj hpath
    simp [attemptTombstone, halloc, ha.allocates, ha.links, RmwResult.outcome]
  | copy =>
    obtain ⟨new, halloc, hpath⟩ := Option.bind_eq_some_iff.mp hpath
    obtain ⟨x, hfill, hpath⟩ := Option.bind_eq_some_iff.mp hpath
    obtain rfl := Option.some.inj hpath
    simp [attemptLink, halloc, hfill, ha.allocates, ha.links, RmwResult.outcome]

/-- A served RMW does what its path does. -/
theorem attemptRmw_served (ha : a.Serves) {res : RmwResult}
    (hpath : rmwPath g key input a.mem a.place record out = some res) :
    attemptRmw g key input a record out = res.outcome := by
  unfold attemptRmw
  rw [if_neg (by simp [ha.enters])]
  cases record with
  | none => exact attemptInitial_served ha hpath
  | some r =>
    cases hplace : a.place with
    | lost => exact absurd hplace ha.reads
    | frozen =>
      rw [hplace] at hpath
      exact attemptCopy_served ha hpath
    | mutable_ =>
      rw [hplace] at hpath
      simp only
      obtain ⟨x, hupdate, hrest⟩ := Option.bind_eq_some_iff.mp hpath
      obtain ⟨result, r', out'⟩ := x
      rw [hupdate]
      cases result with
      | updated | cancel | delete =>
        obtain rfl := Option.some.inj hrest
        rfl
      | expired => exact attemptInitial_served ha hrest
      | needCopy => exact attemptCopy_served ha hrest

/-- A served upsert writes the value and the deadline. -/
theorem attemptUpsert_served (ha : a.Serves) (hfits : FitsInPage g (upsertSize key input)) :
    ∃ status r, attemptUpsert g key input a record out = .done status (some r) out ∧
      status.isUpdated = true ∧ r.value = input.operand ∧ r.expiration = input.expiration := by
  have hwrite : ∃ status r, attemptLink g a (upsertSize key input)
      (fun new => (initialWriter input new).map fun r => (r, out)) .created record out =
        .done status (some r) out ∧ status.isUpdated = true ∧ r.value = input.operand ∧
          r.expiration = input.expiration := by
    obtain ⟨new, halloc, -⟩ := allocateRecord_spec hfits a.mem
    obtain ⟨r, hr⟩ := Option.isSome_iff_exists.mp (initialWriter_isSome halloc)
    refine ⟨.created, r, ?_, rfl, initialWriter_written (allocateRecord_slot halloc) hr⟩
    simp [attemptLink, halloc, hr, ha.allocates, ha.links]
  unfold attemptUpsert
  rw [if_neg (by simp [ha.enters])]
  cases record with
  | none => exact hwrite
  | some r =>
    simp only
    by_cases hplace : a.place = .mutable_
    · rw [if_pos hplace]
      cases hin : inPlaceWriter input r with
      | none => exact hwrite
      | some r' => exact ⟨.inPlaceUpdated, r', rfl, rfl, inPlaceWriter_written hin⟩
    · rw [if_neg hplace]
      exact hwrite

/-- A served delete finds the record of the key, or there is none. -/
theorem attemptDelete_served (ha : a.Serves) (hfits : FitsInPage g ⟨key.length, 0, false⟩) :
    attemptDelete g key a record out =
      .done (if record = none then .notFound else .deleted) none out := by
  unfold attemptDelete
  rw [if_neg (by simp [ha.enters])]
  cases record with
  | none => rfl
  | some r =>
    cases hplace : a.place with
    | lost => exact absurd hplace ha.reads
    | mutable_ => rfl
    | frozen =>
      obtain ⟨new, halloc, -⟩ := allocateRecord_spec hfits a.mem
      simp [attemptTombstone, halloc, ha.allocates, ha.links]

/-- A served read shows what is there. -/
theorem attemptRead_served (ha : a.Serves) :
    attemptRead input a record out =
      .done (if (readOf input record out).1 then .found else .notFound) record
        (readOf input record out).2 := by
  unfold attemptRead
  rw [if_neg (by simp [ha.enters])]
  cases record with
  | none => rfl
  | some r =>
    simp only [if_neg ha.reads, readOf]
    obtain ⟨found, out', hread⟩ : ∃ found out', reader input r out = (found, out') := ⟨_, _, rfl⟩
    simp only [hread]
    cases found <;> rfl

end Served

section Calls

variable {w : World} {key : Bytes} {input : StringInput} {out : StringOutput} {st : Shared}

/-- The state after a call that leaves this record of the key. -/
def Shared.called (st : Shared) (key : Bytes) (after : Option RecordPtr) : Shared :=
  { st with record := Function.update st.record key after, calls := st.calls + 1 }

theorem World.Serves.attempt (hw : w.Serves) (n : ℕ) :
    ∃ a, (w.attempts n).find? (fun a => a.enters) = some a ∧ a.Serves ∧ a.place = w.placeAt n := by
  obtain ⟨a, hfind, ha⟩ := hw n
  refine ⟨a, hfind, ha, ?_⟩
  unfold World.placeAt
  rw [hfind]
  rfl

theorem World.Serves.call (hw : w.Serves) (key : Bytes) (out : StringOutput) (st : Shared)
    {attempt : Attempt → Option RecordPtr → StringOutput → Outcome}
    (hskip : ∀ a record out, a.enters = false → attempt a record out = .retry record out)
    {P : Status → Option RecordPtr → StringOutput → Prop}
    (h : ∀ a : Attempt, a.Serves → a.place = w.placeAt st.calls → ∃ status after out',
      attempt a (st.record key) out = .done status after out' ∧ P status after out') :
    ∃ status after out', P status after out' ∧
      w.call key attempt out st = ((status, out'), st.called key after) := by
  obtain ⟨a, hfind, ha, hplace⟩ := hw.attempt st.calls
  obtain ⟨status, after, out', hdone, hP⟩ := h a ha hplace
  refine ⟨status, after, out', hP, ?_⟩
  unfold World.call
  rw [callLoop_served hskip hfind hdone]
  rfl

/-- An RMW of a store that serves. -/
theorem World.Serves.rmw (hw : w.Serves) (hlive : st.panicked = false) {P : RmwResult → Prop}
    (h : ∀ mem, ∃ res, rmwPath w.geometry key input mem (w.placeAt st.calls) (st.record key) out =
      some res ∧ P res) :
    ∃ res, P res ∧
      w.handle (.rmw key input out) st = ((res.status, res.out), st.called key res.record) := by
  obtain ⟨status, after, out', hP, hcall⟩ := hw.call key out st
    (fun a record out hskip => (by simp [attemptRmw, hskip] :
      attemptRmw w.geometry key input a record out = .retry record out))
    (P := fun status after out' => P ⟨status, after, out'⟩) (by
      intro a ha hplace
      obtain ⟨res, hpath, hP⟩ := h a.mem
      rw [← hplace] at hpath
      exact ⟨_, _, _, attemptRmw_served ha hpath, hP⟩)
  refine ⟨⟨status, after, out'⟩, hP, ?_⟩
  rw [World.handle_live w hlive]
  exact hcall

/-- An upsert of a store that serves. -/
theorem World.Serves.upsert (hw : w.Serves) (hlive : st.panicked = false)
    (hfits : FitsInPage w.geometry (upsertSize key input)) :
    ∃ status r, status.isUpdated = true ∧ r.value = input.operand ∧
      r.expiration = input.expiration ∧
      w.handle (.upsert key input out) st = ((status, out), st.called key (some r)) := by
  obtain ⟨status, after, out', ⟨r, rfl, rfl, hupdated, hvalue, hexp⟩, hcall⟩ := hw.call key out st
    (fun a record out hskip => (by simp [attemptUpsert, hskip] :
      attemptUpsert w.geometry key input a record out = .retry record out))
    (P := fun status after out' => ∃ r : RecordPtr, after = some r ∧ out' = out ∧
      status.isUpdated = true ∧ r.value = input.operand ∧ r.expiration = input.expiration) (by
      intro a ha _
      obtain ⟨status, r, hdone, hr⟩ := attemptUpsert_served ha hfits
      exact ⟨_, _, _, hdone, r, rfl, rfl, hr⟩)
  refine ⟨status, r, hupdated, hvalue, hexp, ?_⟩
  rw [World.handle_live w hlive]
  exact hcall

/-- A read of a store that serves. -/
theorem World.Serves.read (hw : w.Serves) (hlive : st.panicked = false) :
    w.handle (.read key input out) st =
      ((if (readOf input (st.record key) out).1 then .found else .notFound,
        (readOf input (st.record key) out).2), st.called key (st.record key)) := by
  obtain ⟨status, after, out', ⟨rfl, rfl, rfl⟩, hcall⟩ := hw.call key out st
    (fun a record out hskip => (by simp [attemptRead, hskip] :
      attemptRead input a record out = .retry record out))
    (P := fun status after out' =>
      status = (if (readOf input (st.record key) out).1 then .found else .notFound) ∧
        after = st.record key ∧ out' = (readOf input (st.record key) out).2)
    fun a ha _ => ⟨_, _, _, attemptRead_served ha, rfl, rfl, rfl⟩
  rw [World.handle_live w hlive]
  exact hcall

/-- A delete of a store that serves. -/
theorem World.Serves.delete (hw : w.Serves) (hlive : st.panicked = false)
    (hfits : FitsInPage w.geometry ⟨key.length, 0, false⟩) :
    w.handle (.delete key) st =
      (if st.record key = none then .notFound else .deleted, st.called key none) := by
  obtain ⟨status, after, out', ⟨rfl, rfl⟩, hcall⟩ := hw.call key .default st
    (fun a record out hskip => (by simp [attemptDelete, hskip] :
      attemptDelete w.geometry key a record out = .retry record out))
    (P := fun status after _ =>
      status = (if st.record key = none then .notFound else .deleted) ∧ after = none)
    fun a ha _ => ⟨_, _, _, attemptDelete_served ha hfits, rfl, rfl⟩
  rw [World.handle_live w hlive]
  show ((w.call key _ _ st).1.1, (w.call key _ _ st).2) = _
  rw [hcall]

end Calls

/-! ## Section 2: Keys that are missing -/

/-- The records that the command may ask for fit in a page. -/
structure SizesFit (g : Tsavorite.Geometry) (key : Bytes) (input : StringInput)
    (record : Option RecordPtr) : Prop where
  initial : FitsInPage g (initialSize key input)
  copy : ∀ r ∈ record, FitsInPage g (copySize key input r)

/-- The callbacks meet an expired record that they must not change: the copy path decides what
    becomes of it. -/
def Lingers (place : Place) (record : Option RecordPtr) : Prop :=
  place ≠ .mutable_ ∧ record ≠ none

/-- What the initial path puts out for a SET: GET says that there was no value. -/
def createdOut (input : StringInput) (out : StringOutput) : StringOutput :=
  match input.op with
  | .setGet _ => { out with hasBytes := false }
  | _ => out

/-- The forms of SET that create a missing key. -/
def StringOp.Creates : StringOp → Prop
  | .setNx | .setKeepTtl | .setGet _ => True
  | _ => False

theorem World.calm_serves {place : Place} (h : place ≠ .lost) : (World.calm place).Serves :=
  fun _ => ⟨_, rfl, rfl, rfl, rfl, h⟩

theorem SizesFit.of_some {g : Tsavorite.Geometry} {key : Bytes} {input : StringInput} {r : RecordPtr}
    (hinitial : FitsInPage g (initialSize key input))
    (hcopy : FitsInPage g (copySize key input r)) : SizesFit g key input (some r) := by
  refine ⟨hinitial, fun r' hr' => ?_⟩
  obtain rfl := Option.some.inj hr'
  exact hcopy

section Missing

variable {g : Tsavorite.Geometry} {key : Bytes} {input : StringInput} {mem : ℕ → UInt8}
  {place : Place} {record : Option RecordPtr} {out : StringOutput}

theorem seenAt_eq_none {t : Int64} :
    seenAt t record = none ↔ ∀ r ∈ record, r.expired t = true := by
  cases record with
  | none => simp
  | some r =>
    cases hexp : r.expired t with
    | true => simp [seenAt_expired hexp, hexp]
    | false => simp [seenAt_alive hexp, hexp]

theorem seenAt_eq_some {t : Int64} {v : Bytes} {e : Int64} (h : seenAt t record = some (v, e)) :
    ∃ r, record = some r ∧ r.expired t = false ∧ r.value = v ∧ r.expiration = e := by
  cases record with
  | none => cases h
  | some r =>
    cases hexp : r.expired t with
    | true =>
      rw [seenAt_expired hexp] at h
      cases h
    | false =>
      rw [seenAt_alive hexp] at h
      obtain ⟨hv, he⟩ := Prod.mk.inj (Option.some.inj h)
      exact ⟨r, rfl, hexp, hv, he⟩

theorem rmwMutable_expired {r : RecordPtr} (hexp : r.expired input.nowMs = true) :
    rmwMutable g key input mem r out = rmwInitial g key input mem out := by
  simp [rmwMutable, inPlaceUpdater_expired input r hexp]

/-- A missing key is created, or the copy path meets an expired record. -/
theorem rmwPath_missing (hmissing : seenAt input.nowMs record = none) :
    (¬ Lingers place record ∧
        rmwPath g key input mem place record out = rmwInitial g key input mem out) ∨
      ∃ r, record = some r ∧ r.expired input.nowMs = true ∧ place ≠ .mutable_ ∧
        rmwPath g key input mem place record out = rmwCopy g key input mem r out := by
  cases record with
  | none => exact .inl ⟨fun h => h.2 rfl, rfl⟩
  | some r =>
    have hexp := seenAt_eq_none.mp hmissing r rfl
    cases place with
    | mutable_ => exact .inl ⟨fun h => h.1 rfl, rmwMutable_expired hexp⟩
    | frozen | lost => exact .inr ⟨r, rfl, hexp, nofun, rfl⟩

/-- The forms of SET that create a key: its value and its deadline. -/
theorem rmwInitial_set (mem : ℕ → UInt8) (out : StringOutput)
    (hfit : FitsInPage g (initialSize key input)) (hop : input.op.Creates) :
    ∃ res, rmwInitial g key input mem out = some res ∧ res.status = .created ∧
      res.Stored input.operand input.expiration (createdOut input out) := by
  obtain ⟨new, halloc, hcap, hslot⟩ := allocateRecord_spec hfit mem
  have hcapOp : new.valueCap = input.operand.length := by
    rw [hcap]
    cases hcase : input.op <;> simp_all [initialSize, StringOp.Creates]
  obtain ⟨r, hwrite, hvalue, hsame⟩ := RecordPtr.writeVal_spec (r := new) (Nat.le_of_eq hcapOp.symm)
  have hneed : needInitialUpdate input = true := by
    cases hcase : input.op <;> simp_all [needInitialUpdate, StringOp.Creates]
  have hfirst : initialValue input new out = some (r, createdOut input out) := by
    cases hcase : input.op <;> simp_all [initialValue, createdOut, StringOp.Creates]
  have hhas : r.hasExpirationSlot = decide (input.expiration ≠ 0) := by
    rw [RecordPtr.hasExpirationSlot, hsame, hslot]
    by_cases hexp : input.expiration = 0 <;> simp [initialSize, hexp]
  by_cases hexp : input.expiration = 0
  · refine ⟨⟨.created, some r, createdOut input out⟩, ?_, rfl, rfl, ⟨r, rfl, hvalue, ?_⟩, rfl⟩
    · simp [rmwInitial, hneed, halloc, initialUpdater, hfirst, hexp]
    · rw [hexp]
      exact RecordPtr.expiration_of_no_slot (by simp [hhas, hexp])
  · refine ⟨⟨.created, some { r with expirationSlot := some input.expiration },
      createdOut input out⟩, ?_, rfl, rfl, ⟨_, rfl, hvalue, rfl⟩, rfl⟩
    simp [rmwInitial, hneed, halloc, initialUpdater, hfirst, hexp,
      RecordPtr.setExpiration_of_slot (r := r) (by simp [hhas, hexp])]

/-- The copy path on an expired record creates the key as well, for SETNX and SET KEEPTTL. -/
theorem rmwCopy_set_expired (mem : ℕ → UInt8) (out : StringOutput) {r : RecordPtr}
    (hfit : FitsInPage g (copySize key input r)) (hop : input.op = .setNx ∨ input.op = .setKeepTtl)
    (hexp : r.expired input.nowMs = true) :
    ∃ res, rmwCopy g key input mem r out = some res ∧ res.status = .copyUpdated ∧
      res.Stored input.operand input.expiration out := by
  have hneed : needCopyUpdate input r out = (.copy, out) := by
    rcases hop with hop | hop <;> simp [needCopyUpdate, hexp, hop]
  have hcap : (copySize key input r).valueCap = input.operand.length := by
    rcases hop with hop | hop <;> simp [copySize, hop]
  have hcopied : copiedTtl key input r = input.expiration := by
    have htell : copyTtl input r = input.expiration := by
      by_cases hzero : input.expiration = 0 <;>
        rcases hop with hop | hop <;> simp [copyTtl, hop, hexp, hzero]
    have hslot : input.expiration ≠ 0 → (copySize key input r).hasExpiration = true := by
      intro hne
      rcases hop with hop | hop <;> simp [copySize, hop, hne]
    unfold copiedTtl
    rw [htell]
    split
    · rfl
    · rename_i hno
      by_contra hne
      exact hno (hslot fun h => hne h.symm)
  rw [← hcopied]
  obtain ⟨res, hpath, hstored⟩ := @rmwCopy_stored g key input mem r out out out input.operand
    hneed hfit fun new hnew => by
      obtain ⟨r', hwrite, hvalue, hsame⟩ :=
        RecordPtr.writeVal_spec (r := new) (Nat.le_of_eq (hnew.trans hcap).symm)
      refine ⟨r', ?_, hvalue, hsame⟩
      rcases hop with hop | hop <;> simp [copyValue, hop, hwrite]
  refine ⟨res, hpath, ?_, hstored⟩
  unfold rmwCopy at hpath
  rw [hneed] at hpath
  obtain ⟨new, -, hpath⟩ := Option.bind_eq_some_iff.mp hpath
  obtain ⟨x, -, hpath⟩ := Option.bind_eq_some_iff.mp hpath
  obtain rfl := Option.some.inj hpath
  rfl

end Missing

/-! ## Section 3: Keys that have a value -/

/-- The deadline that a command on the value of the key keeps, 0 if the key is missing. -/
def keptTtl (now : Int64) (record : Option RecordPtr) : Int64 :=
  ((seenAt now record).map fun x => x.2).getD 0

/-- The value that the key shows. -/
def shownValue (now : Int64) (record : Option RecordPtr) : Option Bytes :=
  (seenAt now record).map fun x => x.1

section Edited

variable {g : Tsavorite.Geometry} {key : Bytes} {input : StringInput} {record : Option RecordPtr}

/-- INCR, APPEND and SETRANGE edit the value that the key shows, in whichever place it is. -/
theorem rmwPath_edits (mem : ℕ → UInt8) (place : Place) (out : StringOutput)
    (hop : input.op.EditsValue) (hdel : input.op ≠ .getDel) (hexp : input.expiration = 0)
    (hfit : SizesFit g key input record) :
    ∃ res, rmwPath g key input mem place record out = some res ∧
      res.Does record (keptTtl input.nowMs record) out
        (Edit.of input (shownValue input.nowMs record)) := by
  -- the edit of a key that is missing is to store something
  have hstores : ∀ record', ∀ res : RmwResult, res.Does record' 0 out (Edit.of input none) →
      res.Does record 0 out (Edit.of input none) := by
    intro record' res hdoes
    cases hcase : input.op with
    | incrBy | append | setRange offset =>
      simp only [Edit.of, hcase] at hdoes ⊢
      exact hdoes
    | getDel => exact absurd hcase hdel
    | _ => simp [hcase, StringOp.EditsValue] at hop
  cases hseen : seenAt input.nowMs record with
  | none =>
    have hkept : keptTtl input.nowMs record = 0 := by rw [keptTtl, hseen]; rfl
    have hshown : shownValue input.nowMs record = none := by rw [shownValue, hseen]; rfl
    rw [hkept, hshown]
    rcases @rmwPath_missing g key input mem place record out hseen with
      ⟨-, hpath⟩ | ⟨r, hr, hgone, -, hpath⟩
    · rw [hpath]
      obtain ⟨res, hres, hdoes⟩ := rmwInitial_does mem out hop hdel hexp hfit.initial
      exact ⟨res, hres, hstores _ _ hdoes⟩
    · rw [hpath]
      obtain ⟨res, hres, hdoes⟩ :=
        rmwCopy_does_expired mem out hop hdel hexp hgone (hfit.copy r hr)
      exact ⟨res, hres, hstores _ _ hdoes⟩
  | some x =>
    obtain ⟨r, hr, halive, hv, he⟩ := seenAt_eq_some (v := x.1) (e := x.2) hseen
    have hkept : keptTtl input.nowMs record = r.expiration := by rw [keptTtl, hseen, he]; rfl
    have hshown : shownValue input.nowMs record = some r.value := by rw [shownValue, hseen, hv]; rfl
    rw [hkept, hshown]
    have hfits := hfit.copy r hr
    rw [hr]
    cases place with
    | mutable_ => exact rmwMutable_does mem out hop hexp halive hfits
    | frozen | lost => exact rmwCopy_does mem out hop hexp halive hfits

end Edited

/-! ## Section 4: SET and TTL commands -/

/-- The forms of SET and the TTL commands that leave a record of a key that is missing.  GETEX does
    it where an expired record must be copied. -/
def StringOp.Revives (op : StringOp) (place : Place) (record : Option RecordPtr) : Prop :=
  match op with
  | .setNx | .setKeepTtl => True
  | .setGet _ => ¬ Lingers place record
  | .getEx => Lingers place record
  | _ => False

/-- What such a command writes, and puts out. -/
def revivedValue (input : StringInput) : Bytes :=
  match input.op with
  | .getEx => []
  | _ => input.operand

def revivedOut (input : StringInput) (out : StringOutput) : StringOutput :=
  match input.op with
  | .setGet _ => { out with hasBytes := false }
  | .getEx => out.setBytes []
  | _ => out

/-- The deadline that the path of the place leaves on a key that is there. -/
def pathTtl (key : Bytes) (input : StringInput) (place : Place) (r : RecordPtr) : Int64 :=
  match place with
  | .mutable_ => updatedTtl key input r
  | .frozen | .lost => copiedTtl key input r

/-- The record is there to be written in place, and has room for the value. -/
def FitsInPlace (input : StringInput) (place : Place) (r : RecordPtr) : Prop :=
  place = .mutable_ ∧ input.operand.length ≤ r.valueCap

instance (input : StringInput) (place : Place) (r : RecordPtr) :
    Decidable (FitsInPlace input place r) := inferInstanceAs (Decidable (_ ∧ _))

/-- The form of SET leaves the key the deadline it has: KEEPTTL in place, whatever deadline it is
    given, and all others in a copy, if they are given none. -/
def KeepsTtl (input : StringInput) (place : Place) (r : RecordPtr) : Prop :=
  match input.op with
  | .setKeepTtl | .setGet true => FitsInPlace input place r ∨ input.expiration = 0
  | .setXx | .setGet false => ¬ FitsInPlace input place r ∧ input.expiration = 0
  | _ => False

instance (input : StringInput) (place : Place) (r : RecordPtr) :
    Decidable (KeepsTtl input place r) := by
  unfold KeepsTtl
  split <;> infer_instance

section SetCommands

variable {g : Tsavorite.Geometry} {key : Bytes} {input : StringInput} {mem : ℕ → UInt8}
  {place : Place} {record : Option RecordPtr} {out : StringOutput} {r : RecordPtr}

theorem pathTtl_eq (hop : input.op.SetsTtl) (hnx : input.op ≠ .setNx)
    (hpersist : input.op ≠ .persist) (halive : r.expired input.nowMs = false) :
    pathTtl key input place r = if KeepsTtl input place r then r.expiration else input.expiration := by
  have httl := copiedTtl_alive key hop halive
  cases hcase : input.op with
  | setXx | setKeepTtl =>
    simp only [hcase] at httl
    cases place <;> simp only [pathTtl, updatedTtl, KeepsTtl, FitsInPlace, hcase, httl] <;>
      by_cases hfits : input.operand.length ≤ r.valueCap <;>
      by_cases hexp : input.expiration = 0 <;> simp [hfits, hexp]
  | setGet keep =>
    simp only [hcase] at httl
    cases keep <;> cases place <;>
      simp only [pathTtl, updatedTtl, KeepsTtl, FitsInPlace, hcase, httl] <;>
      by_cases hfits : input.operand.length ≤ r.valueCap <;>
      by_cases hexp : input.expiration = 0 <;> simp [hfits, hexp]
  | setNx => exact absurd hcase hnx
  | getEx | expire =>
    simp only [hcase] at httl
    cases place <;> simp [pathTtl, updatedTtl, KeepsTtl, hcase, httl]
  | persist => exact absurd hcase hpersist
  | _ => simp [hcase, StringOp.SetsTtl] at hop

/-- SET and TTL commands on a key that is missing: it is created, or left alone. -/
theorem rmwPath_revives (mem : ℕ → UInt8) (place : Place) (out : StringOutput)
    (hop : input.op.SetsTtl ∨ input.op = .getDel) (hmissing : seenAt input.nowMs record = none)
    (hfit : SizesFit g key input record) :
    ∃ res, rmwPath g key input mem place record out = some res ∧
      (input.op.Revives place record →
        res.Stored (revivedValue input) input.expiration (revivedOut input out)) ∧
      (¬ input.op.Revives place record → res.status.isUpdated = false ∧
        LeftAlone input.nowMs record res.record ∧ res.out = out) := by
  have hexpired := seenAt_eq_none.mp hmissing
  rcases @rmwPath_missing g key input mem place record out hmissing with
    ⟨hlingers, hpath⟩ | ⟨r, hr, hgone, hplace, hpath⟩
  · -- the initial path
    rw [hpath]
    have hcreates (hcreate : input.op.Creates) (hlinger : input.op ≠ .getEx) :
        ∃ res, rmwInitial g key input mem out = some res ∧
          res.Stored (revivedValue input) input.expiration (revivedOut input out) := by
      obtain ⟨res, hres, -, hstored⟩ := rmwInitial_set mem out hfit.initial hcreate
      refine ⟨res, hres, ?_⟩
      cases hcase : input.op <;> simp_all [revivedValue, revivedOut, createdOut, StringOp.Creates]
    have hidle (hneed : needInitialUpdate input = false) :
        ∃ res, rmwInitial g key input mem out = some res ∧ res.status.isUpdated = false ∧
          LeftAlone input.nowMs record res.record ∧ res.out = out :=
      ⟨⟨.notFound, none, out⟩, by simp [rmwInitial, hneed], rfl, .inr ⟨rfl, hexpired⟩, rfl⟩
    cases hcase : input.op with
    | setNx | setKeepTtl | setGet keep =>
      obtain ⟨res, hres, hstored⟩ := hcreates (by simp [hcase, StringOp.Creates]) (by simp [hcase])
      refine ⟨res, hres, fun _ => hstored, fun hno => absurd ?_ hno⟩
      trivial
    | setXx | expire | persist | getDel =>
      obtain ⟨res, hres, hleft⟩ := hidle (by simp [needInitialUpdate, hcase])
      exact ⟨res, hres, fun h => h.elim, fun _ => hleft⟩
    | getEx =>
      obtain ⟨res, hres, hleft⟩ := hidle (by simp [needInitialUpdate, hcase])
      exact ⟨res, hres, fun h => absurd h hlingers, fun _ => hleft⟩
    | _ => simp [hcase, StringOp.SetsTtl] at hop
  · -- a copy of an expired record
    rw [hpath]
    have hlingers : Lingers place record := ⟨hplace, by simp [hr]⟩
    have hcopy := hfit.copy r hr
    have hidle (hneed : needCopyUpdate input r out = (.cancel, out)) :
        ∃ res, rmwCopy g key input mem r out = some res ∧ res.status.isUpdated = false ∧
          LeftAlone input.nowMs record res.record ∧ res.out = out :=
      ⟨⟨.canceled, some r, out⟩, by simp [rmwCopy, hneed], rfl, .inl hr.symm, rfl⟩
    cases hcase : input.op with
    | setNx | setKeepTtl =>
      obtain ⟨res, hres, -, hstored⟩ :=
        rmwCopy_set_expired mem out hcopy (by simp [hcase]) hgone
      refine ⟨res, hres, fun _ => ?_, fun hno => absurd trivial hno⟩
      simp only [revivedValue, revivedOut, hcase]
      exact hstored
    | setGet keep =>
      obtain ⟨res, hres, hleft⟩ := hidle (by simp [needCopyUpdate, hgone, hcase])
      exact ⟨res, hres, fun h => absurd hlingers h, fun _ => hleft⟩
    | setXx | expire | persist | getDel =>
      obtain ⟨res, hres, hleft⟩ := hidle (by simp [needCopyUpdate, hgone, hcase])
      exact ⟨res, hres, fun h => h.elim, fun _ => hleft⟩
    | getEx =>
      have hneed : needCopyUpdate input r out = (.copy, out) := by
        simp [needCopyUpdate, hgone, hcase]
      have hcap : (copySize key input r).valueCap = 0 := by
        simp [copySize, hcase, oldValue_expired hgone]
      obtain ⟨res, hres, hstored⟩ := @rmwCopy_stored g key input mem r out out (out.setBytes []) []
        hneed hcopy fun new hnew => by
          obtain ⟨r', hwrite, hvalue, hsame⟩ :=
            RecordPtr.writeVal_spec (r := new) (v := []) (Nat.zero_le _)
          refine ⟨r', ?_, hvalue, hsame⟩
          simp [copyValue, hcase, oldValue_expired hgone, hwrite]
      have httl : copiedTtl key input r = input.expiration := by
        by_cases hexp : input.expiration = 0
        · simp [copiedTtl, copyTtl, copySize, hcase, hexp]
        · simp [copiedTtl, copyTtl, copySize, hcase, hexp]
      refine ⟨res, hres, fun _ => ?_, fun hno => absurd hlingers hno⟩
      simp only [revivedValue, revivedOut, hcase]
      rw [← httl]
      exact hstored
    | _ => simp [hcase, StringOp.SetsTtl] at hop

/-- SET and TTL commands on a key that is there. -/
theorem rmwPath_alive (mem : ℕ → UInt8) (place : Place) (out : StringOutput)
    (hop : input.op.SetsTtl) (hnx : input.op ≠ .setNx)
    (hpersist : input.op = .persist → place = .mutable_ → r.expiration ≠ 0)
    (halive : r.expired input.nowMs = false) (hfit : FitsInPage g (copySize key input r)) :
    ∃ res, rmwPath g key input mem place (some r) out = some res ∧
      res.Stored (newValue input r) (pathTtl key input place r) (newOut input r out) := by
  cases place with
  | mutable_ => exact rmwMutable_setTtl mem out hop hnx (fun h => hpersist h rfl) halive hfit
  | frozen | lost => exact rmwCopy_setTtl mem out hop hnx halive hfit

/-- SET NX of a key that is there. -/
theorem rmwPath_setNx_alive (mem : ℕ → UInt8) (place : Place) (out : StringOutput)
    (hop : input.op = .setNx) (halive : r.expired input.nowMs = false) :
    ∃ res, rmwPath g key input mem place (some r) out = some res ∧
      res.status.isUpdated = false ∧ res.record = some r ∧ res.out = out := by
  cases place with
  | mutable_ =>
    refine ⟨⟨.found, some r, out⟩, ?_, rfl, rfl, rfl⟩
    simp [rmwPath, rmwMutable, inPlaceUpdater, halive, hop]
  | frozen | lost =>
    refine ⟨⟨.canceled, some r, out⟩, ?_, rfl, rfl, rfl⟩
    simp [rmwPath, rmwCopy, needCopyUpdate, halive, hop]

/-- The record of a key that is there. -/
def aliveRecord (now : Int64) (record : Option RecordPtr) : Option RecordPtr :=
  record.filter fun r => !r.expired now

/-- The command is carried out; a key that is there is in the way of SET NX only. -/
def StringOp.Takes (op : StringOp) (now : Int64) (place : Place) (record : Option RecordPtr) : Prop :=
  match aliveRecord now record with
  | some _ => op ≠ .setNx
  | none => op = .set ∨ op.Revives place record

/-- What it leaves: the value, the deadline, and the output. -/
def takenValue (input : StringInput) (record : Option RecordPtr) : Bytes :=
  match aliveRecord input.nowMs record with
  | some r => newValue input r
  | none => revivedValue input

def takenTtl (input : StringInput) (place : Place) (record : Option RecordPtr) : Int64 :=
  match aliveRecord input.nowMs record with
  | some r => if KeepsTtl input place r then r.expiration else input.expiration
  | none => input.expiration

def takenOut (input : StringInput) (record : Option RecordPtr) (out : StringOutput) : StringOutput :=
  match aliveRecord input.nowMs record with
  | some r => newOut input r out
  | none => revivedOut input out

theorem aliveRecord_eq_none {t : Int64} : aliveRecord t record = none ↔ seenAt t record = none := by
  rw [seenAt_eq_none]
  cases record <;> simp [aliveRecord]

theorem aliveRecord_eq_some {t : Int64} (h : aliveRecord t record = some r) :
    record = some r ∧ r.expired t = false := by
  obtain ⟨hr, hexp⟩ := Option.filter_eq_some_iff.mp h
  exact ⟨hr, by simpa using hexp⟩

/-- What an RMW that sets a deadline makes of a key: it takes effect, or leaves the key alone. -/
structure RmwResult.Sets (res : RmwResult) (input : StringInput) (place : Place)
    (record : Option RecordPtr) (out : StringOutput) : Prop where
  takes : input.op.Takes input.nowMs place record →
    res.Stored (takenValue input record) (takenTtl input place record) (takenOut input record out)
  leaves : ¬ input.op.Takes input.nowMs place record → res.status.isUpdated = false ∧
    LeftAlone input.nowMs record res.record ∧ res.out = out

/-- The commands that set a deadline, in whichever place the record of the key is. -/
theorem rmwPath_sets (mem : ℕ → UInt8) (place : Place) (out : StringOutput)
    (hop : input.op.SetsTtl) (hpersist : input.op ≠ .persist) (hfit : SizesFit g key input record) :
    ∃ res, rmwPath g key input mem place record out = some res ∧ res.Sets input place record out := by
  have hset : input.op ≠ .set := by
    intro h
    rw [h] at hop
    exact hop
  cases halive : aliveRecord input.nowMs record with
  | none =>
    obtain ⟨res, hres, hrevives, hidle⟩ := rmwPath_revives mem place out (.inl hop)
      (aliveRecord_eq_none.mp halive) hfit
    refine ⟨res, hres, fun htakes => ?_, fun hno => hidle fun hrevive => ?_⟩
    · simp only [StringOp.Takes, halive] at htakes
      simp only [takenValue, takenTtl, takenOut, halive]
      exact hrevives (htakes.resolve_left hset)
    · simp only [StringOp.Takes, halive] at hno
      exact hno (.inr hrevive)
  | some r =>
    obtain ⟨rfl, hexp⟩ := aliveRecord_eq_some halive
    by_cases hnx : input.op = .setNx
    · obtain ⟨res, hres, hidle, hrecord, hout⟩ := rmwPath_setNx_alive (g := g) (r := r) mem place out hnx hexp
      refine ⟨res, hres, fun htakes => ?_, fun _ => ⟨hidle, .inl hrecord, hout⟩⟩
      simp only [StringOp.Takes, halive] at htakes
      exact absurd hnx htakes
    · obtain ⟨res, hres, hstored⟩ := rmwPath_alive mem place out hop hnx
        (fun h => absurd h hpersist) hexp (hfit.copy r rfl)
      refine ⟨res, hres, fun _ => ?_, fun hno => ?_⟩
      · simp only [takenValue, takenTtl, takenOut, halive]
        rw [← pathTtl_eq hop hnx hpersist hexp]
        exact hstored
      · simp only [StringOp.Takes, halive] at hno
        exact absurd hnx hno

end SetCommands

/-! ## Section 5: Runs of commands -/

section Runs

variable {w : World} {raw key : Bytes} {args : List Bytes} {s : RespSession} {st : Shared}
  {c : KeyCommand} {cmd : CommandName}

/-- `exec_command` with the arguments of a command on one key. -/
theorem execBasic_one (hcmd : commandOf args = some cmd)
    (hparse : parseKeyed args s.nowMs cmd = some (.one key c)) :
    execBasic raw args s = c.exec raw key s := by
  unfold execBasic
  rw [hcmd]
  exact execNamed_eq raw s hparse

/-- What is seen of a command on one key: its reply, its call, and the record it leaves. -/
structure KeyCommand.Ran (c : KeyCommand) (w : World) (raw key : Bytes) (args : List Bytes)
    (s : RespSession) (st : Shared) (status : Status) (after : Option RecordPtr)
    (out : StringOutput) : Prop where
  reply : ((execBasic raw args s).run w.handle st).1.1 = c.reply status out
  record : ((execBasic raw args s).run w.handle st).2.record =
    Function.update st.record key after
  live : ((execBasic raw args s).run w.handle st).2.panicked = false
  calls : (execBasic raw args).keyCalls w s st = [⟨key, st.record key, status, after, out⟩]

/-- A command whose call is answered. -/
theorem KeyCommand.ran (hcmd : commandOf args = some cmd)
    (hparse : parseKeyed args s.nowMs cmd = some (.one key c)) (hlive : st.panicked = false)
    {status : Status} {after : Option RecordPtr} {out : StringOutput}
    (hanswer : c.answer w.handle key (c.prepared s) st = ((status, out), st.called key after)) :
    c.Ran w raw key args s st status after out := by
  have hexec := @execBasic_one raw key args s c cmd hcmd hparse
  have hcalled : (st.called key after).panicked = false := hlive
  have hstate : ((c.exec raw key s).run w.handle st).2.record = (st.called key after).record ∧
      ((c.exec raw key s).run w.handle st).2.panicked = false := by
    rw [KeyCommand.run_exec, hanswer]
    simp only
    split
    · rw [World.run_afterWrite_state w _ key raw hcalled]
      exact ⟨rfl, hlive⟩
    · exact ⟨rfl, hlive⟩
  refine ⟨?_, ?_, ?_, ?_⟩
  · rw [hexec, KeyCommand.run_exec, hanswer]
  · rw [hexec]
    exact hstate.1
  · rw [hexec]
    exact hstate.2
  · have hcalls : (execBasic raw args).keyCalls w s st = (c.exec raw key).keyCalls w s st :=
      congrArg (fun h => Program.trace w.handle KeyCall.note h st) hexec
    rw [hcalls, KeyCommand.keyCalls_exec, KeyCommand.keyCall, hanswer]
    simp [Shared.called]

/-- An RMW command of a store that serves. -/
theorem KeyCommand.ran_rmw (hcmd : commandOf args = some cmd)
    (hparse : parseKeyed args s.nowMs cmd = some (.one key c)) (hkind : c.kind = .rmw)
    (hw : w.Serves) (hlive : st.panicked = false) {P : RmwResult → Prop}
    (h : ∀ mem, ∃ res, rmwPath w.geometry key (c.input s.nowMs) mem (w.placeAt st.calls)
      (st.record key) (c.prepared s).outScratch = some res ∧ P res) :
    ∃ res, P res ∧ c.Ran w raw key args s st res.status res.record res.out := by
  obtain ⟨res, hres, hhandle⟩ := hw.rmw hlive h
  refine ⟨res, hres, KeyCommand.ran hcmd hparse hlive ?_⟩
  have hnow : (c.prepared s).nowMs = s.nowMs := by
    unfold KeyCommand.prepared
    split <;> rfl
  unfold KeyCommand.answer
  rw [hkind, hnow]
  exact hhandle

/-- A blind write of a store that serves. -/
theorem KeyCommand.ran_upsert (hcmd : commandOf args = some cmd)
    (hparse : parseKeyed args s.nowMs cmd = some (.one key c)) (hkind : c.kind = .upsert)
    (hw : w.Serves) (hlive : st.panicked = false)
    (hfits : FitsInPage w.geometry (upsertSize key (c.input s.nowMs))) :
    ∃ status r, status.isUpdated = true ∧ r.value = (c.input s.nowMs).operand ∧
      r.expiration = (c.input s.nowMs).expiration ∧
      c.Ran w raw key args s st status (some r) (c.prepared s).outScratch := by
  obtain ⟨status, r, hupdated, hvalue, hexp, hhandle⟩ :=
    @World.Serves.upsert w key (c.input s.nowMs) (c.prepared s).outScratch st hw hlive hfits
  refine ⟨status, r, hupdated, hvalue, hexp, KeyCommand.ran hcmd hparse hlive ?_⟩
  have hnow : (c.prepared s).nowMs = s.nowMs := by
    unfold KeyCommand.prepared
    split <;> rfl
  unfold KeyCommand.answer
  rw [hkind, hnow]
  exact hhandle

/-- The commands that set a deadline, if they are given one. -/
def KeyCommand.SetsDeadline : KeyCommand → Prop
  | .set _ _ | .setex _ _ | .getset _ | .getex _ | .expire _ => True
  | _ => False

/-- The records that the command may ask for fit in a page. -/
structure KeyCommand.Fits (c : KeyCommand) (g : Tsavorite.Geometry) (key : Bytes) (now : Int64)
    (record : Option RecordPtr) : Prop where
  upsert : FitsInPage g (upsertSize key (c.input now))
  rmw : SizesFit g key (c.input now) record

/-- What the commands that set a deadline do. -/
theorem KeyCommand.ran_sets (hcmd : commandOf args = some cmd)
    (hparse : parseKeyed args s.nowMs cmd = some (.one key c)) (hsets : c.SetsDeadline)
    (hw : w.Serves) (hlive : st.panicked = false)
    (hfit : c.Fits w.geometry key s.nowMs (st.record key)) :
    ∃ res : RmwResult, c.Ran w raw key args s st res.status res.record res.out ∧
      res.Sets (c.input s.nowMs) (w.placeAt st.calls) (st.record key) (c.prepared s).outScratch := by
  have hnow := c.input_nowMs s.nowMs
  by_cases hop : (c.input s.nowMs).op = .set
  · -- a blind write
    have hkind : c.kind = .upsert := by
      cases c with
      | set value options => exact if_pos hop
      | setex value expiration => rfl
      | _ => first | exact hsets.elim | cases hop
    obtain ⟨status, r, hupdated, hvalue, hexp, hran⟩ :=
      KeyCommand.ran_upsert hcmd hparse hkind hw hlive hfit.upsert
    refine ⟨⟨status, some r, (c.prepared s).outScratch⟩, hran, fun _ => ?_, fun hno => ?_⟩
    · cases halive : aliveRecord (c.input s.nowMs).nowMs (st.record key) with
      | none =>
        simp only [takenValue, takenTtl, takenOut, halive, revivedValue, revivedOut, hop]
        exact ⟨hupdated, ⟨r, rfl, hvalue, hexp⟩, rfl⟩
      | some r' =>
        have hkeeps : ¬ KeepsTtl (c.input s.nowMs) (w.placeAt st.calls) r' := by
          simp [KeepsTtl, hop]
        simp only [takenValue, takenTtl, takenOut, halive, newValue, newOut, hop, if_neg hkeeps]
        exact ⟨hupdated, ⟨r, rfl, hvalue, hexp⟩, rfl⟩
    · refine absurd ?_ hno
      unfold StringOp.Takes
      rw [hop]
      split
      · intro hnone; cases hnone
      · exact .inl rfl
  · have hkind : c.kind = .rmw ∧ (c.input s.nowMs).op.SetsTtl ∧ (c.input s.nowMs).op ≠ .persist := by
      cases c with
      | set value options =>
        refine ⟨if_neg hop, ?_⟩
        have hop' : options.op ≠ .set := hop
        show options.op.SetsTtl ∧ options.op ≠ .persist
        rcases options.op_cases with h | h | h | h | h
        · exact absurd h hop'
        all_goals
          rw [h]
          exact ⟨trivial, by simp⟩
      | setex value expiration => exact absurd rfl hop
      | getset value | getex expiration | expire expiration => exact ⟨rfl, trivial, by simp [input, StringInput.simple]⟩
      | _ => exact hsets.elim
    obtain ⟨res, hsets, hran⟩ := KeyCommand.ran_rmw hcmd hparse hkind.1 hw hlive fun mem =>
      rmwPath_sets mem (w.placeAt st.calls) (c.prepared s).outScratch hkind.2.1 hkind.2.2 hfit.rmw
    exact ⟨res, hran, hsets⟩

end Runs

end Garnet
