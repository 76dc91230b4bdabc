import MiniGarnet.Garnet.Served

/-! # Counters

    INCR, DECR, INCRBY and DECRBY add a number to the one that the bytes of
    the key stand for.  The sum is exact, in every region of the log, or the
    command is refused; the one exception is DECRBY by the least integer,
    whose negation is itself, so that it is added and not taken away.
-/

namespace Garnet

open StringFunctions

/-! ## Section 1: What the commands mean -/

/-- The arguments of the counter commands: the key, and the number of the command. -/
inductive CounterArgs : CommandName → List Bytes → Bytes → Int64 → Prop
  | incr (name key : Bytes) : CounterArgs .incr [name, key] key 1
  | decr (name key : Bytes) : CounterArgs .decr [name, key] key 1
  | incrby (name key arg : Bytes) (d : Int64) (h : Resp.parseI64 arg = some d) :
    CounterArgs .incrby [name, key, arg] key d
  | decrby (name key arg : Bytes) (d : Int64) (h : Resp.parseI64 arg = some d) :
    CounterArgs .decrby [name, key, arg] key d

/-- The integer that the counter `n` is to become. -/
def counted (cmd : CommandName) (n d : Int64) : ℤ :=
  match cmd with
  | .decr | .decrby => n.toInt - d.toInt
  | _ => n.toInt + d.toInt

/-- It is an `i64`. -/
def FitsI64 (n : ℤ) : Prop := -2 ^ 63 ≤ n ∧ n < 2 ^ 63

instance (n : ℤ) : Decidable (FitsI64 n) := inferInstanceAs (Decidable (_ ∧ _))

/-- The number that the key stands for: 0 if it is missing, none if its bytes are no integer. -/
def currentNumber (now : Int64) (record : Option RecordPtr) : Option Int64 :=
  match shownValue now record with
  | none => some 0
  | some v => Resp.parseI64 v

/-- The reply is the integer, and the key holds its text, with this deadline. -/
def Counts (n : ℤ) (ttl : Int64) (reply : Bytes) (after : Option RecordPtr) : Prop :=
  ∃ m : Int64, m.toInt = n ∧ reply = Resp.integer m ∧
    ∃ r, after = some r ∧ r.value = Resp.fmtI64 m ∧ r.expiration = ttl

/-- The reply is an error, and the key has the value and the deadline it had. -/
def Refused (before : Option RecordPtr) (reply : Bytes) (after : Option RecordPtr) : Prop :=
  (∃ text, reply = Resp.error text) ∧ ∀ t, seenAt t after = seenAt t before

/-- The arithmetic is exact: the command counts if there is a number to count from and the result
    is an `i64`, and is refused otherwise. -/
structure CounterExact (cmd : CommandName) (d now : Int64) (before : Option RecordPtr)
    (reply : Bytes) (after : Option RecordPtr) : Prop where
  counts : ∀ n, currentNumber now before = some n → FitsI64 (counted cmd n d) →
    Counts (counted cmd n d) (keptTtl now before) reply after
  refuses : (∀ n, currentNumber now before = some n → ¬ FitsI64 (counted cmd n d)) →
    Refused before reply after

/-- The number that is added: `d.wrapping_neg()` for DECRBY. -/
def counterDelta (cmd : CommandName) (d : Int64) : Int64 :=
  match cmd with
  | .decr | .decrby => -d
  | _ => d

/-! ## Section 2: What the code does -/

section Counters

variable {cmd : CommandName} {args : List Bytes} {key : Bytes} {d now : Int64}
  {record : Option RecordPtr} {out : StringOutput} {res : RmwResult}

theorem CounterArgs.parsed (h : CounterArgs cmd args key d) (now : Int64) :
    parseKeyed args now cmd = some (.one key (.incr (counterDelta cmd d))) := by
  cases h with
  | incr name | decr name => rfl
  | incrby name key arg d hparse | decrby name key arg d hparse =>
    simp [parseKeyed, parsed3, withInt, hparse, counterDelta]

/-- The sum of the number of the key and the delta, if there is one. -/
def sumOf (now : Int64) (record : Option RecordPtr) (delta : Int64) : Option Int64 :=
  (currentNumber now record).bind fun n =>
    if FitsI64 (n.toInt + delta.toInt) then some (n + delta) else none

theorem toInt_zero_add (delta : Int64) : (0 : Int64).toInt + delta.toInt = delta.toInt := by
  have hzero : (0 : Int64).toInt = 0 := by decide
  rw [hzero, Int.zero_add]

theorem fitsI64_toInt (n : Int64) : FitsI64 n.toInt := ⟨n.le_toInt, n.toInt_lt⟩

/-- The edit that INCR makes, in terms of the number of the key. -/
theorem edit_incr (record : Option RecordPtr) (delta now : Int64) :
    Edit.of ((KeyCommand.incr delta).input now) (shownValue now record) =
      match sumOf now record delta with
      | none => .reject
      | some n => .store (Resp.fmtI64 n) n := by
  unfold sumOf currentNumber
  cases hshown : shownValue now record with
  | none =>
    have hfits : FitsI64 ((0 : Int64).toInt + delta.toInt) := by
      rw [toInt_zero_add]
      exact fitsI64_toInt delta
    simp only [Option.bind_some, if_pos hfits, Int64.zero_add]
    rfl
  | some v =>
    show (match (Resp.parseI64 v).bind fun cur => checkedAdd cur delta with
      | none => Edit.reject
      | some n => .store (Resp.fmtI64 n) n) = _
    rfl

/-- What the reply and the record of the key are after the edit. -/
theorem counter_result {delta : Int64}
    (h : res.Does record (keptTtl now record) out
      (Edit.of ((KeyCommand.incr delta).input now) (shownValue now record))) :
    match sumOf now record delta with
    | none => Refused record ((KeyCommand.incr delta).reply res.status res.out) res.record
    | some n =>
      (KeyCommand.incr delta).reply res.status res.out = Resp.integer n ∧
        ∃ r, res.record = some r ∧ r.value = Resp.fmtI64 n ∧ r.expiration = keptTtl now record := by
  rw [edit_incr] at h
  cases hsum : sumOf now record delta with
  | none =>
    rw [hsum] at h
    obtain ⟨hidle, hrecord⟩ := h
    refine ⟨⟨NOT_AN_INTEGER, ?_⟩, fun t => by rw [hrecord]⟩
    simp [KeyCommand.reply, hidle]
  | some n =>
    rw [hsum] at h
    obtain ⟨hupdated, hrecord, hout⟩ := h
    refine ⟨?_, hrecord⟩
    simp [KeyCommand.reply, hupdated, hout, StringOutput.setInt]

theorem counts_iff {n : ℤ} {m ttl : Int64} {after : Option RecordPtr}
    (h : ∃ r, after = some r ∧ r.value = Resp.fmtI64 m ∧ r.expiration = ttl) :
    Counts n ttl (Resp.integer m) after ↔ m.toInt = n := by
  constructor
  · rintro ⟨m', hm', hreply, -⟩
    rw [Resp.integer_inj hreply]
    exact hm'
  · intro hm
    exact ⟨m, hm, rfl, h⟩

theorem not_counts_of_refused {n : ℤ} {ttl : Int64} {reply : Bytes}
    {before after : Option RecordPtr} (h : Refused before reply after) :
    ¬ Counts n ttl reply after := by
  rintro ⟨m, -, hreply, -⟩
  obtain ⟨⟨text, htext⟩, -⟩ := h
  exact Resp.error_ne_integer text m (htext.symm.trans hreply)

theorem not_refused_integer {n : Int64} {before after : Option RecordPtr} :
    ¬ Refused before (Resp.integer n) after := by
  rintro ⟨⟨text, htext⟩, -⟩
  exact Resp.error_ne_integer text n htext.symm

/-- The sum that is checked is the exact one, but for DECRBY by the least integer. -/
theorem toInt_counterDelta (n : Int64) (h : ¬ (cmd = .decrby ∧ d = Int64.minValue))
    (hd : cmd = .decr → d = 1) : n.toInt + (counterDelta cmd d).toInt = counted cmd n d := by
  have hneg : d ≠ Int64.minValue → (-d).toInt = -d.toInt := by
    intro hne
    have hlow := d.le_toInt
    have hhigh := d.toInt_lt
    have hmin : d.toInt ≠ -2 ^ 63 := by
      intro heq
      apply hne
      rw [← Int64.toInt_inj, heq]
      decide
    rw [Int64.toInt_neg, Int.bmod_def]
    split <;> omega
  unfold counterDelta counted
  split
  · have hone : d = 1 := hd rfl
    have hne : d ≠ Int64.minValue := by
      rw [hone]
      decide
    rw [hneg hne]
    omega
  · rw [hneg fun hmin => h ⟨rfl, hmin⟩]
    omega
  · rfl

theorem toInt_add_of_fits {n delta : Int64} (h : FitsI64 (n.toInt + delta.toInt)) :
    (n + delta).toInt = n.toInt + delta.toInt := by
  obtain ⟨hlow, hhigh⟩ := h
  rw [Int64.toInt_add, Int.bmod_def]
  split <;> omega

/-- Where there is a number, the sum that is made is the one that the command means. -/
theorem sumOf_eq {n : Int64} (hn : currentNumber now record = some n) (delta : Int64) :
    sumOf now record delta = if FitsI64 (n.toInt + delta.toInt) then some (n + delta) else none := by
  rw [sumOf, hn, Option.bind_some]

/-- The command is exact where the number added is the one meant. -/
theorem counterExact_of_delta {reply : Bytes} {after : Option RecordPtr}
    (hdelta : ∀ n : Int64, n.toInt + (counterDelta cmd d).toInt = counted cmd n d)
    (h : match sumOf now record (counterDelta cmd d) with
      | none => Refused record reply after
      | some n => reply = Resp.integer n ∧
          ∃ r, after = some r ∧ r.value = Resp.fmtI64 n ∧ r.expiration = keptTtl now record) :
    CounterExact cmd d now record reply after := by
  refine ⟨fun n hn hfits => ?_, fun hno => ?_⟩
  · rw [← hdelta n] at hfits ⊢
    rw [sumOf_eq hn, if_pos hfits] at h
    obtain ⟨rfl, hrecord⟩ := h
    exact (counts_iff hrecord).mpr (toInt_add_of_fits hfits)
  · have hnone : sumOf now record (counterDelta cmd d) = none := by
      cases hn : currentNumber now record with
      | none => rw [sumOf, hn, Option.bind_none]
      | some n =>
        rw [sumOf_eq hn, hdelta n, if_neg (hno n hn)]
    rw [hnone] at h
    exact h

/-- DECRBY by the least integer adds it, and the command is wrong for every number. -/
theorem counterExact_minValue {reply : Bytes} {after : Option RecordPtr}
    (h : match sumOf now record (counterDelta .decrby Int64.minValue) with
      | none => Refused record reply after
      | some n => reply = Resp.integer n ∧
          ∃ r, after = some r ∧ r.value = Resp.fmtI64 n ∧ r.expiration = keptTtl now record) :
    CounterExact .decrby Int64.minValue now record reply after ↔ currentNumber now record = none := by
  have hdelta : (counterDelta .decrby Int64.minValue).toInt = -2 ^ 63 := by decide
  have hmin : (Int64.minValue).toInt = -2 ^ 63 := by decide
  constructor
  · intro hexact
    cases hn : currentNumber now record with
    | none => rfl
    | some n =>
      have hcounted : counted .decrby n Int64.minValue = n.toInt + 2 ^ 63 := by
        show n.toInt - (Int64.minValue).toInt = _
        rw [hmin]
        omega
      have hlow := n.le_toInt
      have hhigh := n.toInt_lt
      rw [sumOf_eq hn, hdelta] at h
      by_cases hneg : n.toInt < 0
      · -- the difference fits, the sum does not
        have hfits : FitsI64 (counted .decrby n Int64.minValue) := by
          unfold FitsI64
          omega
        have hsum : ¬ FitsI64 (n.toInt + -2 ^ 63) := by
          unfold FitsI64
          omega
        rw [if_neg hsum] at h
        exact absurd (hexact.counts n hn hfits) (not_counts_of_refused h)
      · -- the sum fits, the difference does not
        have hfits : ¬ FitsI64 (counted .decrby n Int64.minValue) := by
          unfold FitsI64
          omega
        have hsum : FitsI64 (n.toInt + -2 ^ 63) := by
          unfold FitsI64
          omega
        rw [if_pos hsum] at h
        have hrefused := hexact.refuses fun n' hn' => by
          rw [hn] at hn'
          obtain rfl := Option.some.inj hn'
          exact hfits
        rw [h.1] at hrefused
        exact absurd hrefused not_refused_integer
  · intro hn
    have hnone : sumOf now record (counterDelta .decrby Int64.minValue) = none := by
      rw [sumOf, hn, Option.bind_none]
    rw [hnone] at h
    refine ⟨fun n hn' => ?_, fun _ => h⟩
    rw [hn] at hn'
    cases hn'

end Counters

/-- **Counter arithmetic.**  In a store that serves the command, wherever the record of the key
    lies, a counter command is exact, but for DECRBY by the least integer of a key that stands for
    a number. -/
theorem counter_exact_iff (w : World) (raw : Bytes) {cmd : CommandName} {args : List Bytes}
    {key : Bytes} {d : Int64} {s : RespSession} {st : Shared}
    (hcmd : commandOf args = some cmd) (hargs : CounterArgs cmd args key d)
    (hw : w.Serves) (hlive : st.panicked = false)
    (hfit : SizesFit w.geometry key ((KeyCommand.incr (counterDelta cmd d)).input s.nowMs)
      (st.record key)) :
    CounterExact cmd d s.nowMs (st.record key) ((execBasic raw args s).run w.handle st).1.1
        (((execBasic raw args s).run w.handle st).2.record key) ↔
      ¬ (cmd = .decrby ∧ d = Int64.minValue ∧ currentNumber s.nowMs (st.record key) ≠ none) := by
  obtain ⟨res, hdoes, hran⟩ := @KeyCommand.ran_rmw w raw key args s st _ cmd hcmd
    (hargs.parsed s.nowMs) rfl hw hlive _ fun mem => rmwPath_edits mem (w.placeAt st.calls) s.outScratch trivial nofun rfl hfit
  rw [hran.reply, hran.record, Function.update_self]
  have hresult := @counter_result s.nowMs _ _ res _ hdoes
  by_cases hmin : cmd = .decrby ∧ d = Int64.minValue
  · obtain ⟨rfl, rfl⟩ := hmin
    rw [counterExact_minValue hresult]
    simp
  · refine iff_of_true ?_ fun h => hmin ⟨h.1, h.2.1⟩
    refine counterExact_of_delta (fun n => toInt_counterDelta n hmin fun hdecr => ?_) hresult
    cases hargs with
    | decr => rfl
    | _ => cases hdecr

/-- DECRBY of 1 from a record that must be copied. -/
theorem counter_exact_iff_decrby :
    let s : RespSession := { RespSession.new true with nowMs := 4000 }
    let st := Shared.holding [([107], fortyOne)]
    let args : List Bytes := [ascii "DECRBY", [107], ascii "1"]
    let x := (execBasic [] args s).run (World.calm .frozen).handle st
    CounterExact .decrby 1 4000 (st.record [107]) x.1.1 (x.2.record [107]) := by
  intro s st args x
  refine (@counter_exact_iff (World.calm .frozen) [] .decrby args [107] 1 s st (by decide)
    (.decrby (ascii "DECRBY") [107] (ascii "1") 1 (by decide)) (World.calm_serves nofun) rfl
    (.of_some (by decide) (by decide))).mpr ?_
  rintro ⟨-, hmin, -⟩
  exact absurd hmin (by decide)

/-- DECRBY of the least integer: a counter at 0 goes to the least integer, and the reply is not an
    error. -/
theorem decrby_minValue :
    let s : RespSession := { RespSession.new true with nowMs := 4000 }
    let st := Shared.holding []
    let args : List Bytes := [ascii "DECRBY", [107], ascii "-9223372036854775808"]
    let x := (execBasic [] args s).run (World.calm .mutable_).handle st
    x.1.1 = Resp.integer Int64.minValue ∧
      ((x.2.record [107]).map fun r => r.value) = some (ascii "-9223372036854775808") ∧
      ¬ CounterExact .decrby Int64.minValue 4000 (st.record [107]) x.1.1 (x.2.record [107]) := by
  intro s st args x
  have hreply : x.1.1 = Resp.integer Int64.minValue := by decide +kernel
  refine ⟨hreply, by decide +kernel, fun hexact => ?_⟩
  have hrefused := hexact.refuses fun n hn => by
    have hzero : currentNumber 4000 (st.record [107]) = some 0 := rfl
    rw [hzero] at hn
    obtain rfl := Option.some.inj hn
    decide
  rw [hreply] at hrefused
  exact not_refused_integer hrefused

end Garnet
