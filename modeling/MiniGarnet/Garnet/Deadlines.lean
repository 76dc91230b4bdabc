import MiniGarnet.Garnet.Served

/-! # Deadlines

    A command that sets a TTL computes the deadline of the key in `i64`
    arithmetic that may wrap around, and a deadline of 0 stands for none.  It
    is said here when a key is visible just until the exact integer deadline:
    where nothing has wrapped around to a time that is still to come, and
    where the path taken has not kept the old deadline instead.
-/

namespace Garnet

open Tsavorite (Status)
open StringFunctions

/-! ## Section 1: Lists of options -/

/-- One of the options is this word. -/
def HasOption (literal : String) (opts : List Bytes) : Prop :=
  ∃ opt ∈ opts, eqIgnoreCase opt literal = true

/-- The last expiry option, and its argument. -/
def IsLastExpiry (opts : List Bytes) (keyword : Bytes) (t : Int64) : Prop :=
  ∃ front arg back, opts = front ++ keyword :: arg :: back ∧ isExpiryKeyword keyword = true ∧
    Resp.parseI64 arg = some t ∧ ∀ opt ∈ back, isExpiryKeyword opt = false

/-- None of the options is about expiry. -/
def NoExpiry (opts : List Bytes) : Prop := ∀ opt ∈ opts, isExpiryKeyword opt = false

section Words

variable {opt : Bytes} {c : UInt8}

/-- Bytes that begin a word: no digits, no signs, no whitespace. -/
def IsLetter (c : UInt8) : Prop := 65 ≤ c ∧ c ≤ 122

theorem stripFront_eq_drop (ws : List Bytes) (n : ℕ) (s : Bytes) :
    ∃ k, Resp.stripFront ws n s = s.drop k := by
  induction n generalizing s with
  | zero => exact ⟨0, rfl⟩
  | succ n ih =>
    unfold Resp.stripFront
    split
    · rename_i w _
      obtain ⟨k, hk⟩ := ih (s.drop w.length)
      exact ⟨w.length + k, by rw [hk, List.drop_drop]⟩
    · exact ⟨0, rfl⟩

/-- No whitespace is stripped in front of a letter. -/
theorem stripFront_letter (hc : IsLetter c) (n : ℕ) (l : Bytes) :
    Resp.stripFront Resp.whitespace n (c :: l) = c :: l := by
  cases n with
  | zero => rfl
  | succ n =>
    have hnone : (Resp.whitespace.find? fun w => w.isPrefixOf (c :: l)) = none := by
      rw [List.find?_eq_none]
      intro w hw hbefore
      have hheads : ∀ w ∈ Resp.whitespace, ∃ d rest, w = d :: rest ∧ ¬ (65 ≤ d ∧ d ≤ 122) := by
        intro w hw
        simp only [Resp.whitespace, List.mem_cons, List.not_mem_nil, or_false] at hw
        rcases hw with rfl | rfl | rfl | rfl | rfl | rfl | rfl | rfl | rfl | rfl | rfl | rfl | rfl |
          rfl | rfl | rfl | rfl | rfl | rfl | rfl | rfl | rfl | rfl | rfl | rfl <;>
          exact ⟨_, _, rfl, by decide⟩
      obtain ⟨d, rest, rfl, hd⟩ := hheads w hw
      rw [List.isPrefixOf_cons_cons, Bool.and_eq_true, beq_iff_eq] at hbefore
      rw [hbefore.1] at hd
      exact hd hc
    unfold Resp.stripFront
    rw [hnone]

theorem decimal_letter (hc : IsLetter c) (l : Bytes) (v : ℕ) : Resp.decimal (c :: l) v = none := by
  have hdigit : Resp.isDigit c = false := by
    obtain ⟨hlow, -⟩ := hc
    unfold Resp.isDigit
    rw [UInt8.le_iff_toNat_le] at hlow
    have h65 : (65 : UInt8).toNat = 65 := rfl
    have h57 : (57 : UInt8).toNat = 57 := rfl
    rw [decide_eq_false_iff_not, UInt8.le_iff_toNat_le, UInt8.le_iff_toNat_le]
    omega
  rw [Resp.decimal, hdigit]
  rfl

theorem parseSigned_letter (hc : IsLetter c) (l : Bytes) : Resp.parseSigned (c :: l) = none := by
  have hplus : c ≠ 43 := by
    rintro rfl
    exact absurd hc.1 (by decide)
  have hminus : c ≠ 45 := by
    rintro rfl
    exact absurd hc.1 (by decide)
  unfold Resp.parseSigned
  split
  rename_i neg digits hsplit
  split at hsplit
  · rename_i rest heq
    exact absurd (List.cons.inj heq).1 hminus
  · rename_i rest heq
    exact absurd (List.cons.inj heq).1 hplus
  · obtain ⟨-, rfl⟩ := Prod.mk.inj hsplit
    rw [if_neg (List.cons_ne_nil c l), decimal_letter hc]
    rfl

/-- A word is no integer. -/
theorem parseI64_letter (hc : IsLetter c) (l : Bytes) : Resp.parseI64 (c :: l) = none := by
  unfold Resp.parseI64 Resp.trim
  rw [stripFront_letter hc]
  simp only
  obtain ⟨k, hk⟩ := stripFront_eq_drop (Resp.whitespace.map List.reverse) (c :: l).length
    (c :: l).reverse
  rw [hk, List.drop_reverse, List.reverse_reverse]
  cases hlen : (c :: l).length - k with
  | zero => rfl
  | succ m => exact parseSigned_letter hc _

theorem asciiUpper_letter (h : 65 ≤ asciiUpper c ∧ asciiUpper c ≤ 90) : IsLetter c := by
  unfold asciiUpper at h
  unfold IsLetter
  simp only [UInt8.le_iff_toNat_le] at *
  have h65 : (65 : UInt8).toNat = 65 := rfl
  have h90 : (90 : UInt8).toNat = 90 := rfl
  have h97 : (97 : UInt8).toNat = 97 := rfl
  have h122 : (122 : UInt8).toNat = 122 := rfl
  split at h <;> omega

/-- An option that is a word is no integer. -/
theorem parseI64_word {literal : String} {d : UInt8} {rest : Bytes}
    (hliteral : ascii literal = d :: rest) (hd : 65 ≤ d ∧ d ≤ 90)
    (h : eqIgnoreCase opt literal = true) : Resp.parseI64 opt = none := by
  have hmap : opt.map asciiUpper = d :: rest := by
    rw [← hliteral]
    exact of_decide_eq_true h
  cases opt with
  | nil => cases hmap
  | cons c l =>
    obtain ⟨rfl, -⟩ := List.cons.inj hmap
    exact parseI64_letter (asciiUpper_letter hd) l

theorem parseI64_expiryKeyword (h : isExpiryKeyword opt = true) : Resp.parseI64 opt = none := by
  unfold isExpiryKeyword at h
  simp only [Bool.or_eq_true] at h
  rcases h with ((h | h) | h) | h
  all_goals exact parseI64_word rfl (by decide) h

/-- A word is one option only. -/
theorem eqIgnoreCase_unique {a b : String} (ha : eqIgnoreCase opt a = true)
    (hne : ascii a ≠ ascii b) : eqIgnoreCase opt b = false := by
  have hmap : opt.map asciiUpper = ascii a := of_decide_eq_true ha
  apply decide_eq_false
  rw [hmap]
  exact hne

/-- The other words are not about expiry. -/
theorem isExpiryKeyword_word {literal : String} (h : eqIgnoreCase opt literal = true)
    (hex : ascii literal ≠ ascii "EX") (hpx : ascii literal ≠ ascii "PX")
    (hexat : ascii literal ≠ ascii "EXAT") (hpxat : ascii literal ≠ ascii "PXAT") :
    isExpiryKeyword opt = false := by
  unfold isExpiryKeyword
  rw [eqIgnoreCase_unique h hex, eqIgnoreCase_unique h hpx, eqIgnoreCase_unique h hexat,
    eqIgnoreCase_unique h hpxat]
  rfl

end Words

section Lists

variable {opt arg keyword : Bytes} {rest opts : List Bytes} {t now : Int64}

/-- A word that is not about expiry says nothing about the last expiry option. -/
theorem IsLastExpiry.of_cons (h : IsLastExpiry (opt :: rest) keyword t)
    (hopt : isExpiryKeyword opt = false) : IsLastExpiry rest keyword t := by
  obtain ⟨front, arg, back, heq, hkeyword, harg, hback⟩ := h
  cases front with
  | nil =>
    obtain ⟨rfl, -⟩ := List.cons.inj heq
    rw [hopt] at hkeyword
    cases hkeyword
  | cons o front =>
    obtain ⟨rfl, hrest⟩ := List.cons.inj heq
    exact ⟨front, arg, back, hrest, hkeyword, harg, hback⟩

/-- An expiry option is the last one, or that is to come. -/
theorem IsLastExpiry.of_expiry {t' : Int64} (h : IsLastExpiry (opt :: arg :: rest) keyword t)
    (harg : Resp.parseI64 arg = some t') :
    (keyword = opt ∧ t = t' ∧ NoExpiry rest) ∨ IsLastExpiry rest keyword t := by
  obtain ⟨front, arg', back, heq, hkeyword, harg', hback⟩ := h
  match front with
  | [] =>
    obtain ⟨rfl, hrest⟩ := List.cons.inj heq
    obtain ⟨rfl, rfl⟩ := List.cons.inj hrest
    rw [harg] at harg'
    exact .inl ⟨rfl, (Option.some.inj harg').symm, hback⟩
  | [o] =>
    -- the argument would be a keyword
    obtain ⟨rfl, hrest⟩ := List.cons.inj heq
    obtain ⟨rfl, -⟩ := List.cons.inj hrest
    rw [parseI64_expiryKeyword hkeyword] at harg
    cases harg
  | o :: o' :: front =>
    obtain ⟨rfl, hrest⟩ := List.cons.inj heq
    obtain ⟨rfl, hrest'⟩ := List.cons.inj hrest
    exact .inr ⟨front, arg', back, hrest', hkeyword, harg', hback⟩

theorem NoExpiry.of_cons (h : NoExpiry (opt :: rest)) : NoExpiry rest :=
  fun o ho => h o (List.mem_cons_of_mem _ ho)

theorem hasOption_cons {literal : String} :
    HasOption literal (opt :: rest) ↔ eqIgnoreCase opt literal = true ∨ HasOption literal rest := by
  simp [HasOption]

/-- What the option loop of GETEX makes of the last expiry option. -/
theorem getexLoop_deadline {e e' : Int64} (h : getexLoop now opts e = .ok e') :
    (IsLastExpiry opts keyword t → e' = expireAtMs keyword t now) ∧ (NoExpiry opts → e' = e) := by
  fun_induction getexLoop now opts e with
  | case1 e =>
    refine ⟨?_, fun _ => (Except.ok.inj h).symm⟩
    rintro ⟨front, arg, back, heq, -⟩
    cases front <;> cases heq
  | case2 opt rest e hpersist ih =>
    obtain ⟨hlast, hno⟩ := ih h
    have hopt : isExpiryKeyword opt = false :=
      isExpiryKeyword_word hpersist (by decide) (by decide) (by decide) (by decide)
    exact ⟨fun h => hlast (h.of_cons hopt), fun h => hno h.of_cons⟩
  | case3 => cases h
  | case4 => cases h
  | case5 opt e hpersist hkeyword arg rest t' harg ih =>
    obtain ⟨hlast, hno⟩ := ih h
    refine ⟨fun h => ?_, fun h => ?_⟩
    · rcases h.of_expiry harg with ⟨rfl, rfl, hback⟩ | h
      · exact hno hback
      · exact hlast h
    · have hopt := h opt List.mem_cons_self
      rw [hkeyword] at hopt
      cases hopt
  | case6 => cases h

/-- What the option loop of SET makes of the options. -/
structure OptionsRead (now : Int64) (opts : List Bytes) (o o' : SetOpts) : Prop where
  nx : o'.nx = true ↔ o.nx = true ∨ HasOption "NX" opts
  xx : o'.xx = true ↔ o.xx = true ∨ HasOption "XX" opts
  get : o'.get = true ↔ o.get = true ∨ HasOption "GET" opts
  keepTtl : o'.keepTtl = true ↔ o.keepTtl = true ∨ HasOption "KEEPTTL" opts
  expiry : ∀ keyword t, IsLastExpiry opts keyword t → o'.expiration = expireAtMs keyword t now
  noExpiry : NoExpiry opts → o'.expiration = o.expiration

/-- Another option in front that says nothing about expiry. -/
theorem OptionsRead.cons_flag {o o₁ o' : SetOpts} (h : OptionsRead now rest o₁ o')
    (hopt : isExpiryKeyword opt = false) (hexp : o₁.expiration = o.expiration)
    (hnx : o₁.nx = true ↔ o.nx = true ∨ eqIgnoreCase opt "NX" = true)
    (hxx : o₁.xx = true ↔ o.xx = true ∨ eqIgnoreCase opt "XX" = true)
    (hget : o₁.get = true ↔ o.get = true ∨ eqIgnoreCase opt "GET" = true)
    (hkeep : o₁.keepTtl = true ↔ o.keepTtl = true ∨ eqIgnoreCase opt "KEEPTTL" = true) :
    OptionsRead now (opt :: rest) o o' where
  nx := by rw [h.nx, hnx, hasOption_cons, or_assoc]
  xx := by rw [h.xx, hxx, hasOption_cons, or_assoc]
  get := by rw [h.get, hget, hasOption_cons, or_assoc]
  keepTtl := by rw [h.keepTtl, hkeep, hasOption_cons, or_assoc]
  expiry keyword t hlast := h.expiry keyword t (hlast.of_cons hopt)
  noExpiry hno := (h.noExpiry hno.of_cons).trans hexp

/-- An expiry option and its argument in front. -/
theorem OptionsRead.cons_expiry {o o' : SetOpts} {t' : Int64}
    (h : OptionsRead now rest { o with expiration := expireAtMs opt t' now } o')
    (hkeyword : isExpiryKeyword opt = true) (harg : Resp.parseI64 arg = some t')
    (hwords : ∀ literal ∈ ["NX", "XX", "GET", "KEEPTTL"], eqIgnoreCase opt literal = false) :
    OptionsRead now (opt :: arg :: rest) o o' := by
  have hskip {literal : String} {d : UInt8} {tail : Bytes} (hlit : ascii literal = d :: tail)
      (hd : 65 ≤ d ∧ d ≤ 90) (hmem : literal ∈ ["NX", "XX", "GET", "KEEPTTL"]) :
      HasOption literal (opt :: arg :: rest) ↔ HasOption literal rest := by
    have harg' : eqIgnoreCase arg literal = false := by
      cases hword : eqIgnoreCase arg literal with
      | false => rfl
      | true =>
        rw [parseI64_word hlit hd hword] at harg
        cases harg
    rw [hasOption_cons, hasOption_cons, hwords literal hmem, harg']
    simp
  refine ⟨?_, ?_, ?_, ?_, fun keyword t hlast => ?_, fun hno => ?_⟩
  · rw [h.nx, hskip rfl (by decide) (by simp)]
  · rw [h.xx, hskip rfl (by decide) (by simp)]
  · rw [h.get, hskip rfl (by decide) (by simp)]
  · rw [h.keepTtl, hskip rfl (by decide) (by simp)]
  · rcases hlast.of_expiry harg with ⟨rfl, rfl, hback⟩ | hlast
    · exact h.noExpiry hback
    · exact h.expiry keyword t hlast
  · have hopt := hno opt List.mem_cons_self
    rw [hkeyword] at hopt
    cases hopt

theorem setOptsLoop_read {o o' : SetOpts} (h : setOptsLoop now opts o = .ok o') :
    OptionsRead now opts o o' := by
  fun_induction setOptsLoop now opts o with
  | case1 o =>
    obtain rfl := Except.ok.inj h
    refine ⟨?_, ?_, ?_, ?_, ?_, fun _ => rfl⟩
    case refine_5 =>
      rintro keyword t ⟨front, arg, back, heq, -⟩
      cases front <;> cases heq
    all_goals simp [HasOption]
  | case2 opt rest o hnx ih =>
    have hother (literal : String) (hne : ascii "NX" ≠ ascii literal) :
        eqIgnoreCase opt literal = false := eqIgnoreCase_unique hnx hne
    apply (ih h).cons_flag (o := o)
      (isExpiryKeyword_word hnx (by decide) (by decide) (by decide) (by decide)) rfl
    · simp [hnx]
    · simp [hother "XX" (by decide)]
    · simp [hother "GET" (by decide)]
    · simp [hother "KEEPTTL" (by decide)]
  | case3 opt rest o hnx hxx ih =>
    have hother (literal : String) (hne : ascii "XX" ≠ ascii literal) :
        eqIgnoreCase opt literal = false := eqIgnoreCase_unique hxx hne
    apply (ih h).cons_flag (o := o)
      (isExpiryKeyword_word hxx (by decide) (by decide) (by decide) (by decide)) rfl
    · simp [hnx]
    · simp [hxx]
    · simp [hother "GET" (by decide)]
    · simp [hother "KEEPTTL" (by decide)]
  | case4 opt rest o hnx hxx hget ih =>
    have hother (literal : String) (hne : ascii "GET" ≠ ascii literal) :
        eqIgnoreCase opt literal = false := eqIgnoreCase_unique hget hne
    apply (ih h).cons_flag (o := o)
      (isExpiryKeyword_word hget (by decide) (by decide) (by decide) (by decide)) rfl
    · simp [hnx]
    · simp [hxx]
    · simp [hget]
    · simp [hother "KEEPTTL" (by decide)]
  | case5 opt rest o hnx hxx hget hkeep ih =>
    apply (ih h).cons_flag (o := o)
      (isExpiryKeyword_word hkeep (by decide) (by decide) (by decide) (by decide)) rfl
    · simp [hnx]
    · simp [hxx]
    · simp [hget]
    · simp [hkeep]
  | case6 => cases h
  | case7 => cases h
  | case8 opt o hnx hxx hget hkeep hkeyword arg rest t' harg ih =>
    refine (ih h).cons_expiry hkeyword harg fun literal hmem => ?_
    simp only [List.mem_cons, List.not_mem_nil, or_false] at hmem
    rcases hmem with rfl | rfl | rfl | rfl <;> simp_all
  | case9 => cases h

end Lists

/-! ## Section 2: Exact deadlines -/

/-- The deadline that an expiry option stands for. -/
def exactDeadline (keyword : Bytes) (t now : Int64) : ℤ :=
  if eqIgnoreCase keyword "EX" then now.toInt + t.toInt * 1000
  else if eqIgnoreCase keyword "PX" then now.toInt + t.toInt
  else if eqIgnoreCase keyword "EXAT" then t.toInt * 1000
  else t.toInt

/-- The arguments that give a key the deadline `D`. -/
inductive DeadlineArgs (now : Int64) : CommandName → List Bytes → Bytes → ℤ → Prop
  | set (name key value : Bytes) (opts : List Bytes) (keyword : Bytes) (t : Int64)
      (h : IsLastExpiry opts keyword t) :
    DeadlineArgs now .set (name :: key :: value :: opts) key (exactDeadline keyword t now)
  | getex (name key : Bytes) (opts : List Bytes) (keyword : Bytes) (t : Int64)
      (h : IsLastExpiry opts keyword t) :
    DeadlineArgs now .getex (name :: key :: opts) key (exactDeadline keyword t now)
  | setex (name key time value : Bytes) (t : Int64) (h : Resp.parseI64 time = some t) :
    DeadlineArgs now .setex [name, key, time, value] key (now.toInt + t.toInt * 1000)
  | psetex (name key time value : Bytes) (t : Int64) (h : Resp.parseI64 time = some t) :
    DeadlineArgs now .psetex [name, key, time, value] key (now.toInt + t.toInt)
  | expire (name key time : Bytes) (t : Int64) (h : Resp.parseI64 time = some t) :
    DeadlineArgs now .expire [name, key, time] key (now.toInt + t.toInt * 1000)
  | pexpire (name key time : Bytes) (t : Int64) (h : Resp.parseI64 time = some t) :
    DeadlineArgs now .pexpire [name, key, time] key (now.toInt + t.toInt)
  | expireat (name key time : Bytes) (t : Int64) (h : Resp.parseI64 time = some t) :
    DeadlineArgs now .expireat [name, key, time] key (t.toInt * 1000)
  | pexpireat (name key time : Bytes) (t : Int64) (h : Resp.parseI64 time = some t) :
    DeadlineArgs now .pexpireat [name, key, time] key t.toInt

/-- A read at this time finds the key. -/
def VisibleAt (n : Int64) (record : Option RecordPtr) : Prop := (seenAt n record).isSome

instance (n : Int64) (record : Option RecordPtr) : Decidable (VisibleAt n record) :=
  inferInstanceAs (Decidable (_ = true))

/-- The key is there until the deadline, and not from then on. -/
def VisibleUntil (now : Int64) (D : ℤ) (record : Option RecordPtr) : Prop :=
  ∀ n, now ≤ n → (VisibleAt n record ↔ n.toInt < D)

/-- What becomes of a command that gives a key the deadline `D`: it is rejected with an error
    and changes nothing, or is carried out and the key is visible until `D`.  A command
    that is not carried out, such as SET NX of a key that is there, leaves the key as it is. -/
def DeadlineExact (now : Int64) (D : ℤ) (calls : List KeyCall) (reply : Bytes)
    (before after : Bytes → Option RecordPtr) : Prop :=
  (calls = [] ∧ (∃ text, reply = Resp.error text) ∧ after = before) ∨
    ∃ call, calls = [call] ∧ call.after = after call.key ∧
      (call.status.isUpdated = true → VisibleUntil now D call.after) ∧
      (call.status.isUpdated = false → SeenAlike now call.before call.after)

/-- The deadline that is left: the one the key has, where the form of SET keeps it, and the `i64`
    that `D` wraps around to anywhere else. -/
def leftDeadline (input : StringInput) (D : ℤ) (place : Place) (record : Option RecordPtr) : Int64 :=
  match aliveRecord input.nowMs record with
  | some r => if KeepsTtl input place r then r.expiration else Int64.ofInt D
  | none => Int64.ofInt D

/-- A key with this deadline is visible just until `D`: it is `D`, or both have passed, or it is 0,
    for none, and `D` is beyond all times. -/
def MeetsDeadline (now : Int64) (D : ℤ) (deadline : Int64) : Prop :=
  if deadline = 0 then 2 ^ 63 ≤ D else deadline.toInt = D ∨ deadline ≤ now ∧ D ≤ now.toInt

section Exact

variable {now n deadline : Int64} {D : ℤ} {keyword : Bytes} {t : Int64} {r : RecordPtr}
  {cmd : CommandName} {args : List Bytes} {key : Bytes}

theorem expireAtMs_eq (keyword : Bytes) (t now : Int64) :
    expireAtMs keyword t now = Int64.ofInt (exactDeadline keyword t now) := by
  unfold expireAtMs exactDeadline
  have h1000 : Int64.ofInt 1000 = 1000 := by decide
  split
  · rw [Int64.ofInt_add, Int64.ofInt_mul, Int64.ofInt_toInt, Int64.ofInt_toInt, h1000]
  · split
    · rw [Int64.ofInt_add, Int64.ofInt_toInt, Int64.ofInt_toInt]
    · split
      · rw [Int64.ofInt_mul, Int64.ofInt_toInt, h1000]
      · rw [Int64.ofInt_toInt]

theorem expired_iff : r.expired n = true ↔ r.expiration ≠ 0 ∧ r.expiration ≤ n := by
  unfold RecordPtr.expired
  cases hslot : r.hasExpirationSlot with
  | true => simp
  | false => simp [r.expiration_of_no_slot hslot]

theorem visibleAt_some : VisibleAt n (some r) ↔ r.expiration = 0 ∨ n < r.expiration := by
  unfold VisibleAt
  cases hexp : r.expired n with
  | true =>
    obtain ⟨hne, hle⟩ := expired_iff.mp hexp
    rw [seenAt_expired hexp]
    simp only [Option.isSome_none, Bool.false_eq_true, hne, false_or, false_iff]
    rw [Int64.not_lt]
    exact hle
  | false =>
    have hno : ¬ (r.expiration ≠ 0 ∧ r.expiration ≤ n) := fun h => by
      rw [expired_iff.mpr h] at hexp
      cases hexp
    rw [seenAt_alive hexp]
    refine iff_of_true rfl ?_
    by_cases hzero : r.expiration = 0
    · exact .inl hzero
    · exact .inr (Int64.not_le.mp fun hle => hno ⟨hzero, hle⟩)

/-- The record has passed its deadline at just the times at which `D` has passed. -/
theorem visibleUntil_iff : VisibleUntil now D (some r) ↔ MeetsDeadline now D r.expiration := by
  have hlast : (Int64.maxValue).toInt = 2 ^ 63 - 1 := by decide
  have hnow := now.toInt_lt
  have hnow' := now.le_toInt
  have hend : now ≤ Int64.maxValue := by
    rw [Int64.le_iff_toInt_le, hlast]
    omega
  unfold VisibleUntil MeetsDeadline
  simp only [visibleAt_some]
  by_cases hzero : r.expiration = 0
  · rw [if_pos hzero]
    simp only [hzero, true_or, true_iff]
    constructor
    · intro h
      have hmax := h Int64.maxValue hend
      omega
    · intro hD n _
      have hn := n.toInt_lt
      omega
  · rw [if_neg hzero]
    simp only [hzero, false_or]
    have hd := r.expiration.toInt_lt
    have hd' := r.expiration.le_toInt
    generalize r.expiration = d at *
    constructor
    · intro h
      have hat := h now (Int64.le_refl now)
      rw [Int64.lt_iff_toInt_lt] at hat
      by_cases hpast : D ≤ now.toInt
      · refine .inr ⟨?_, hpast⟩
        rw [Int64.le_iff_toInt_le]
        omega
      · -- `D` is to come: try the record's deadline, and the last time before it
        refine .inl ?_
        have hlater : now ≤ d := by
          rw [Int64.le_iff_toInt_le]
          omega
        have hatDeadline := h d hlater
        rw [Int64.lt_iff_toInt_lt] at hatDeadline
        have hbefore : (d - 1).toInt = d.toInt - 1 := by
          have hone : (1 : Int64).toInt = 1 := by decide
          rw [Int64.toInt_sub, hone, Int.bmod_def]
          split <;> omega
        have hatBefore := h (d - 1) (by rw [Int64.le_iff_toInt_le, hbefore]; omega)
        rw [Int64.lt_iff_toInt_lt, hbefore] at hatBefore
        omega
    · rintro (heq | ⟨hle, hpast⟩) n hn
      · rw [Int64.lt_iff_toInt_lt, heq]
      · rw [Int64.le_iff_toInt_le] at hle hn
        rw [Int64.lt_iff_toInt_lt]
        omega

/-- The command that the arguments come to, with the deadline that `D` wraps around to. -/
theorem DeadlineArgs.parsed (h : DeadlineArgs now cmd args key D) :
    (∃ text, parseKeyed args now cmd = some (.reply (Resp.error text))) ∨
      ∃ c, parseKeyed args now cmd = some (.one key c) ∧ c.SetsDeadline ∧
        (c.input now).expiration = Int64.ofInt D := by
  have h1000 : Int64.ofInt 1000 = 1000 := by decide
  cases h with
  | set name key value opts keyword t h =>
    show (∃ text, some (parsedSet (name :: key :: value :: opts) now) = _) ∨
      ∃ c, some (parsedSet (name :: key :: value :: opts) now) = _ ∧ _
    unfold parsedSet
    simp only
    cases hparse : parseSetOpts opts now with
    | error e => exact .inl ⟨e, rfl⟩
    | ok o =>
      refine .inr ⟨.set value o, rfl, trivial, ?_⟩
      unfold parseSetOpts at hparse
      cases hloop : setOptsLoop now opts ⟨0, false, false, false, false⟩ with
      | error e =>
        rw [hloop] at hparse
        cases hparse
      | ok o' =>
        rw [hloop] at hparse
        simp only at hparse
        split at hparse
        · cases hparse
        · obtain rfl := Except.ok.inj hparse
          show o'.expiration = _
          rw [(setOptsLoop_read hloop).expiry keyword t h, expireAtMs_eq]
  | getex name key opts keyword t h =>
    have hne : opts ≠ [] := by
      obtain ⟨front, arg, back, heq, -⟩ := h
      rw [heq]
      simp
    show (∃ text, some (parsedGetex now key opts) = _) ∨ ∃ c, some (parsedGetex now key opts) = _ ∧ _
    unfold parsedGetex
    rw [if_neg hne]
    cases hloop : getexLoop now opts 0 with
    | error e => exact .inl ⟨e, rfl⟩
    | ok e =>
      refine .inr ⟨.getex e, rfl, trivial, ?_⟩
      show e = _
      rw [(getexLoop_deadline hloop).1 h, expireAtMs_eq]
  | setex name key time value t h | psetex name key time value t h =>
    simp only [parseKeyed, parsed4, parsedSetex, h]
    by_cases hpos : 0 < t
    · have hfilter : (some t).filter (fun t => decide (0 < t)) = some t := by simp [hpos]
      rw [hfilter]
      refine .inr ⟨.setex value _, rfl, trivial, ?_⟩
      simp [KeyCommand.input, Int64.ofInt_add, Int64.ofInt_mul, h1000]
    · have hfilter : (some t).filter (fun t => decide (0 < t)) = none := by
        simp [Int64.not_lt.mp hpos]
      rw [hfilter]
      exact .inl ⟨_, rfl⟩
  | expire name key time t h | pexpire name key time t h | expireat name key time t h
    | pexpireat name key time t h =>
    refine .inr ⟨.expire _, by simp [parseKeyed, parsed3, parsedExpire, withInt, h]; rfl, trivial, ?_⟩
    simp [KeyCommand.input, Int64.ofInt_add, Int64.ofInt_mul, h1000]

theorem leftDeadline_eq {input : StringInput} {place : Place} {record : Option RecordPtr}
    (h : input.expiration = Int64.ofInt D) :
    takenTtl input place record = leftDeadline input D place record := by
  unfold takenTtl leftDeadline
  cases aliveRecord input.nowMs record with
  | none => exact h
  | some r =>
    simp only
    rw [h]

end Exact

/-- **Deadlines.**  In a store that serves the command, a command that sets a TTL is rejected or
    keeps the key visible just until its exact deadline, if and only if the deadline that
    is left meets it wherever the command is carried out. -/
theorem deadline_exact_iff (w : World) (raw : Bytes) {cmd : CommandName} {args : List Bytes}
    {key : Bytes} {D : ℤ} {s : RespSession} {st : Shared}
    (hcmd : commandOf args = some cmd) (hargs : DeadlineArgs s.nowMs cmd args key D)
    (hw : w.Serves) (hlive : st.panicked = false)
    (hfit : ∀ c, parseKeyed args s.nowMs cmd = some (.one key c) →
      c.Fits w.geometry key s.nowMs (st.record key)) :
    DeadlineExact s.nowMs D ((execBasic raw args).keyCalls w s st)
        ((execBasic raw args s).run w.handle st).1.1 st.record
        ((execBasic raw args s).run w.handle st).2.record ↔
      ∀ c, parseKeyed args s.nowMs cmd = some (.one key c) →
        (c.input s.nowMs).op.Takes s.nowMs (w.placeAt st.calls) (st.record key) →
        MeetsDeadline s.nowMs D
          (leftDeadline (c.input s.nowMs) D (w.placeAt st.calls) (st.record key)) := by
  rcases hargs.parsed with ⟨text, hparse⟩ | ⟨c, hparse, hsets, hexp⟩
  · -- rejected: no call is made
    have hexec : execBasic raw args s = .ret (Resp.error text, s) := by
      unfold execBasic
      rw [hcmd]
      exact execNamed_eq raw s hparse
    have hcalls : (execBasic raw args).keyCalls w s st = [] := by
      unfold Handler.keyCalls
      rw [hexec]
      rfl
    rw [hcalls, hexec]
    refine iff_of_true (.inl ⟨rfl, ⟨text, rfl⟩, rfl⟩) fun c hc => ?_
    rw [hparse] at hc
    cases hc
  · obtain ⟨res, hran, hres⟩ := @KeyCommand.ran_sets w raw key args s st c cmd hcmd hparse hsets hw hlive
      (hfit c hparse)
    have hnow := c.input_nowMs s.nowMs
    have hafter : ((execBasic raw args s).run w.handle st).2.record key = res.record := by
      rw [hran.record, Function.update_self]
    rw [hran.calls]
    constructor
    · rintro (⟨hnil, -⟩ | ⟨call, hcall, -, hvisible, -⟩) c' hc' htakes
      · cases hnil
      · rw [hparse] at hc'
        obtain ⟨-, rfl⟩ := Parsed.one.inj (Option.some.inj hc')
        obtain rfl := List.singleton_inj.mp hcall
        obtain ⟨hupdated, ⟨r, hr, -, httl⟩, -⟩ := hres.takes (by rw [hnow]; exact htakes)
        have huntil : VisibleUntil s.nowMs D res.record := hvisible hupdated
        rw [hr, visibleUntil_iff, httl, leftDeadline_eq hexp] at huntil
        exact huntil
    · intro h
      refine .inr ⟨_, rfl, hafter.symm, fun hupdated => ?_, fun hidle => ?_⟩
      · have htakes : (c.input s.nowMs).op.Takes (c.input s.nowMs).nowMs (w.placeAt st.calls)
            (st.record key) := by
          by_contra hno
          rw [(hres.leaves hno).1] at hupdated
          cases hupdated
        obtain ⟨-, ⟨r, hr, -, httl⟩, -⟩ := hres.takes htakes
        rw [hnow] at htakes
        show VisibleUntil s.nowMs D res.record
        rw [hr, visibleUntil_iff, httl, leftDeadline_eq hexp]
        exact h c hparse htakes
      · have hno : ¬ (c.input s.nowMs).op.Takes (c.input s.nowMs).nowMs (w.placeAt st.calls)
            (st.record key) := fun htakes => by
          rw [(hres.takes htakes).updated] at hidle
          cases hidle
        have hleft := (hres.leaves hno).2.1
        rw [hnow] at hleft
        exact hleft.seen

/-- The records of a SETEX, a SET or a TTL command on a key that is there. -/
theorem KeyCommand.Fits.of_some {c : KeyCommand} {g : Tsavorite.Geometry} {key : Bytes}
    {now : Int64} {r : RecordPtr} (hupsert : FitsInPage g (upsertSize key (c.input now)))
    (hinitial : FitsInPage g (initialSize key (c.input now)))
    (hcopy : FitsInPage g (copySize key (c.input now) r)) : c.Fits g key now (some r) where
  upsert := hupsert
  rmw := .of_some hinitial hcopy

/-- EXPIRE by ten seconds of a record that must be copied. -/
theorem deadline_exact_iff_expire :
    let s : RespSession := { RespSession.new true with nowMs := 4000 }
    let st := Shared.holding [([107], fortyOne)]
    let args : List Bytes := [ascii "EXPIRE", [107], ascii "10"]
    let x := (execBasic [] args s).run (World.calm .frozen).handle st
    DeadlineExact 4000 14000 ((execBasic [] args).keyCalls (World.calm .frozen) s st) x.1.1 st.record
      x.2.record := by
  intro s st args x
  have hparse : parseKeyed args 4000 .expire = some (.one [107] (.expire 14000)) := rfl
  have hargs : DeadlineArgs 4000 .expire args [107] 14000 :=
    .expire (ascii "EXPIRE") [107] (ascii "10") 10 (by decide)
  refine (@deadline_exact_iff (World.calm .frozen) [] .expire args [107] 14000 s st (by decide) hargs
    (World.calm_serves nofun) rfl fun c hc => ?_).mpr fun c hc _ => ?_
  · obtain ⟨-, rfl⟩ := Parsed.one.inj (Option.some.inj (hparse.symm.trans hc))
    exact .of_some (by decide) (by decide) (by decide)
  · obtain ⟨-, rfl⟩ := Parsed.one.inj (Option.some.inj (hparse.symm.trans hc))
    exact .inl (by decide)

/-- EXPIREAT to the time 0, which has passed, leaves the key for ever; EXPIRE by the greatest
    integer, which is to come, takes it at once. -/
theorem expire_misses_deadline :
    let s : RespSession := { RespSession.new true with nowMs := 4000 }
    let st := Shared.holding [([107], fortyOne)]
    let past : List Bytes := [ascii "EXPIREAT", [107], ascii "0"]
    let far : List Bytes := [ascii "EXPIRE", [107], ascii "9223372036854775807"]
    let w := World.calm .mutable_
    let x := (execBasic [] past s).run w.handle st
    let y := (execBasic [] far s).run w.handle st
    x.1.1 = Resp.integer 1 ∧ y.1.1 = Resp.integer 1 ∧
      VisibleAt Int64.maxValue (x.2.record [107]) ∧ ¬ VisibleAt 4000 (y.2.record [107]) ∧
      ¬ DeadlineExact 4000 0 ((execBasic [] past).keyCalls w s st) x.1.1 st.record x.2.record ∧
      ¬ DeadlineExact 4000 (4000 + (2 ^ 63 - 1) * 1000) ((execBasic [] far).keyCalls w s st) y.1.1
        st.record y.2.record := by
  intro s st past far w x y
  have hx : VisibleAt Int64.maxValue (x.2.record [107]) := by decide +kernel
  have hy : ¬ VisibleAt 4000 (y.2.record [107]) := by decide +kernel
  refine ⟨by decide +kernel, by decide +kernel, hx, hy, ?_, ?_⟩
  · have hcalls : ((execBasic [] past).keyCalls w s st).map (fun call => (call.key, call.status)) =
        [([107], .inPlaceUpdated)] := by decide +kernel
    rintro (⟨hnil, -⟩ | ⟨call, hcall, hafter, huntil, -⟩)
    · rw [hnil] at hcalls
      cases hcalls
    · rw [hcall] at hcalls
      obtain ⟨hkey, hstatus⟩ := Prod.mk.inj (List.singleton_inj.mp hcalls)
      have hvisible := huntil (by rw [hstatus]; rfl)
      rw [hafter, hkey] at hvisible
      exact absurd ((hvisible Int64.maxValue (by decide)).mp hx) (by decide)
  · have hcalls : ((execBasic [] far).keyCalls w s st).map (fun call => (call.key, call.status)) =
        [([107], .inPlaceUpdated)] := by decide +kernel
    rintro (⟨hnil, -⟩ | ⟨call, hcall, hafter, huntil, -⟩)
    · rw [hnil] at hcalls
      cases hcalls
    · rw [hcall] at hcalls
      obtain ⟨hkey, hstatus⟩ := Prod.mk.inj (List.singleton_inj.mp hcalls)
      have hvisible := huntil (by rw [hstatus]; rfl)
      rw [hafter, hkey] at hvisible
      exact hy ((hvisible 4000 (by decide)).mpr (by decide))

end Garnet
