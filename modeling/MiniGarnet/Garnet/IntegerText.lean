import MiniGarnet.Garnet.RespValue

/-! # Integers as text

    `I64Buf::fmt` writes the digits of an `i64` from the end of a buffer of
    20 bytes towards its front, `i64_digit_len` counts them without writing
    any, and two parsers read them: `parse_i64` for arguments and
    `parse_int` for the lengths of the framing.
-/

namespace Garnet.Resp

/-! ## Section 1: The buffer -/

/-- The bytes an `I64Buf` holds from earlier uses. -/
structure I64Buf where
  bytes : Bytes
  len_eq : bytes.length = 20

/-- `i -= 1; self.0[i] = c`: the buffer and `i` afterwards, or `none` where `i` is 0. -/
def putBefore (buf : Bytes) : ℕ → UInt8 → Option (Bytes × ℕ)
  | 0, _ => none
  | i + 1, c => some (buf.set i c, i)

/-- The digit loop of `fmt`, from index `i` downwards. -/
def fmtLoop : ℕ → Bytes → ℕ → Option (Bytes × ℕ)
  | 0, buf, u => if u = 0 then some (buf, 0) else none
  | i + 1, buf, u =>
    if u = 0 then some (buf, i + 1)
    else fmtLoop i (buf.set i (UInt8.ofNat (48 + u % 10))) (u / 10)

/-- `I64Buf::fmt`: the bytes it returns, or `none` where an index is out of range. -/
def I64Buf.fmt (self : I64Buf) (v : Int64) : Option Bytes := do
  let u := v.toInt.natAbs
  let (buf, i) ← if u = 0 then putBefore self.bytes self.bytes.length 48
    else some (self.bytes, self.bytes.length)
  let (buf, i) ← fmtLoop i buf u
  let (buf, i) ← if v < 0 then putBefore buf i 45 else some (buf, i)
  return buf.drop i

section Buffer

/-- A byte written in front of what has been written. -/
theorem drop_set (buf : Bytes) (i : ℕ) (c : UInt8) (h : i < buf.length) :
    (buf.set i c).drop i = c :: buf.drop (i + 1) := by
  rw [List.drop_eq_getElem_cons (by simpa using h), List.getElem_set_self,
    List.drop_set_of_lt (Nat.lt_succ_self i)]

theorem digitCount_le {m u : ℕ} (h : u < 10 ^ m) (n : ℕ) : digitCount n u ≤ m := by
  induction n generalizing m u with
  | zero => exact Nat.zero_le m
  | succ n ih =>
    unfold digitCount
    split
    · exact Nat.zero_le m
    · cases m with
      | zero => omega
      | succ m =>
        have hlt : u / 10 < 10 ^ m := by
          rw [Nat.pow_succ] at h
          omega
        exact Nat.succ_le_succ (ih hlt)

/-- The loop leaves the digits in front of what has been there. -/
theorem fmtLoop_spec {n u : ℕ} (hu : u < 10 ^ n) {i : ℕ} (hroom : digitCount n u ≤ i) (buf : Bytes)
    (hi : i ≤ buf.length) :
    ∃ buf', fmtLoop i buf u = some (buf', i - digitCount n u) ∧ buf'.length = buf.length ∧
      buf'.drop (i - digitCount n u) = (digitsRev n u).reverse ++ buf.drop i := by
  induction n generalizing u i buf with
  | zero =>
    obtain rfl : u = 0 := by simpa using hu
    refine ⟨buf, ?_, rfl, rfl⟩
    cases i <;> rfl
  | succ n ih =>
    unfold digitCount digitsRev
    unfold digitCount at hroom
    by_cases hzero : u = 0
    · subst hzero
      refine ⟨buf, ?_, rfl, rfl⟩
      cases i <;> rfl
    · rw [if_neg hzero] at hroom
      simp only [if_neg hzero]
      obtain ⟨j, rfl⟩ : ∃ j, i = j + 1 := ⟨i - 1, by omega⟩
      have hlt : u / 10 < 10 ^ n := by
        rw [Nat.pow_succ] at hu
        omega
      have hlen : (buf.set j (UInt8.ofNat (48 + u % 10))).length = buf.length := List.length_set
      obtain ⟨buf', hloop, hlen', hdrop⟩ := ih hlt (i := j) (by omega)
        (buf.set j (UInt8.ofNat (48 + u % 10))) (by omega)
      rw [Nat.add_sub_add_right]
      refine ⟨buf', ?_, hlen'.trans hlen, ?_⟩
      · rw [fmtLoop, if_neg hzero, hloop]
      · rw [hdrop, drop_set buf j _ (by omega), List.reverse_cons, List.append_assoc]
        rfl

/-- `fmt` stays inside the buffer and returns the digits. -/
theorem I64Buf.fmt_eq (self : I64Buf) (v : Int64) : self.fmt v = some (fmtI64 v) := by
  have habs : v.toInt.natAbs < 10 ^ 19 := by
    have h₁ := v.le_toInt
    have h₂ := v.toInt_lt
    omega
  have hsize := self.len_eq
  rw [fmtI64_eq]
  unfold I64Buf.fmt magnitude
  simp only [hsize]
  by_cases hzero : v.toInt.natAbs = 0
  · have hpos : ¬ v < 0 := by
      rw [Int64.lt_iff_toInt_lt, Int.natAbs_eq_zero.mp hzero]
      decide
    simp only [hzero, if_true, if_neg hpos]
    have hdrop := drop_set self.bytes 19 48 (by omega)
    rw [List.drop_of_length_le (Nat.le_of_eq hsize)] at hdrop
    exact congrArg some hdrop
  · have hcount := digitCount_le habs 20
    obtain ⟨buf, hloop, hlen, hdrop⟩ := fmtLoop_spec (natAbs_lt v) (i := 20) (by omega) self.bytes
      (Nat.le_of_eq hsize.symm)
    rw [List.drop_of_length_le (Nat.le_of_eq hsize), List.append_nil] at hdrop
    simp only [if_neg hzero, hloop, Option.bind_eq_bind, Option.bind_some]
    generalize hk : digitCount 20 v.toInt.natAbs = k at *
    by_cases hneg : v < 0
    · obtain ⟨j, hj⟩ : ∃ j, 20 - k = j + 1 := ⟨19 - k, by omega⟩
      rw [hj] at hdrop
      simp only [if_pos hneg, hj, putBefore, Option.bind_some]
      rw [drop_set buf j 45 (by omega), hdrop]
      rfl
    · simp only [if_neg hneg]
      rw [hdrop]
      rfl

end Buffer

/-! ## Section 2: Reading the digits -/

section Reading

/-- No digit in front is superfluous. -/
theorem digitsRev_last (n u : ℕ) (h : u < 10 ^ n) : (digitsRev n u).getLast? ≠ some 48 := by
  induction n generalizing u with
  | zero => simp [digitsRev]
  | succ n ih =>
    unfold digitsRev
    split
    · simp
    · rename_i hzero
      have hlt : u / 10 < 10 ^ n := by
        rw [Nat.pow_succ] at h
        omega
      rw [List.getLast?_cons]
      cases hlast : (digitsRev n (u / 10)).getLast? with
      | some c =>
        have := ih _ hlt
        rw [hlast] at this
        exact this
      | none =>
        -- A last digit that is also the first one is not 0.
        have hnil : digitsRev n (u / 10) = [] := List.getLast?_eq_none_iff.mp hlast
        have hval := decimal_digitsRev n (u / 10) hlt
        rw [hnil] at hval
        have hsmall : u / 10 = 0 := (Option.some.inj hval).symm
        have hspec := (digit_spec (u % 10) (Nat.mod_lt _ (by decide))).2
        rintro heq
        rw [Option.getD_none, Option.some.injEq] at heq
        rw [heq] at hspec
        have h48 : (48 : UInt8).toNat - 48 = 0 := rfl
        omega

theorem magnitude_head {v : Int64} (h : v.toInt ≠ 0) : (magnitude v).head? ≠ some 48 := by
  unfold magnitude
  rw [if_neg (Int.natAbs_ne_zero.mpr h), List.head?_reverse]
  exact digitsRev_last 20 _ (natAbs_lt v)

/-- Nothing is stripped in front of a byte that begins no whitespace. -/
theorem stripFront_cons {ws : List Bytes} {c : UInt8}
    (h : ∀ w ∈ ws, ∃ d rest, w = d :: rest ∧ d ≠ c) (n : ℕ) (s : Bytes) :
    stripFront ws n (c :: s) = c :: s := by
  cases n with
  | zero => rfl
  | succ n =>
    have hnone : (ws.find? fun w => w.isPrefixOf (c :: s)) = none := by
      rw [List.find?_eq_none]
      intro w hw hbefore
      obtain ⟨d, rest, rfl, hd⟩ := h w hw
      rw [List.isPrefixOf_cons_cons, Bool.and_eq_true, beq_iff_eq] at hbefore
      exact hd hbefore.1
    unfold stripFront
    rw [hnone]

/-- The bytes of a number as text. -/
def IsNumeral (c : UInt8) : Prop := c = 45 ∨ isDigit c = true

theorem IsNumeral.bounds {c : UInt8} (h : IsNumeral c) : 45 ≤ c.toNat ∧ c.toNat ≤ 57 := by
  rcases h with rfl | h
  · decide
  · simp only [isDigit, decide_eq_true_eq, UInt8.le_iff_toNat_le] at h
    have h48 : (48 : UInt8).toNat = 48 := rfl
    have h57 : (57 : UInt8).toNat = 57 := rfl
    omega

/-- Neither the first nor the last byte of a whitespace character is one of them. -/
theorem whitespace_ends : ∀ w ∈ whitespace, (∃ d rest, w = d :: rest ∧ (d.toNat < 45 ∨ 57 < d.toNat)) ∧
    ∃ d rest, w.reverse = d :: rest ∧ (d.toNat < 45 ∨ 57 < d.toNat) := by
  intro w hw
  simp only [whitespace, List.mem_cons, List.not_mem_nil, or_false] at hw
  rcases hw with rfl | rfl | rfl | rfl | rfl | rfl | rfl | rfl | rfl | rfl | rfl | rfl | rfl |
    rfl | rfl | rfl | rfl | rfl | rfl | rfl | rfl | rfl | rfl | rfl | rfl <;>
    exact ⟨⟨_, _, rfl, by decide⟩, _, _, rfl, by decide⟩

theorem trim_numeral {s : Bytes} (h : ∀ c ∈ s, IsNumeral c) : trim s = s := by
  have hne : ∀ {c d : UInt8}, IsNumeral c → d.toNat < 45 ∨ 57 < d.toNat → d ≠ c := by
    rintro c d hc hd rfl
    have := hc.bounds
    omega
  have hfront : stripFront whitespace s.length s = s := by
    cases s with
    | nil => rfl
    | cons c s =>
      refine stripFront_cons (fun w hw => ?_) _ _
      obtain ⟨⟨d, rest, rfl, hd⟩, -⟩ := whitespace_ends w hw
      exact ⟨d, rest, rfl, hne (h c List.mem_cons_self) hd⟩
  have hback : stripFront (whitespace.map List.reverse) s.length s.reverse = s.reverse := by
    cases hs : s.reverse with
    | nil =>
      rw [List.reverse_eq_nil_iff.mp hs]
      rfl
    | cons c rest =>
      have hc : c ∈ s := List.mem_reverse.mp (by rw [hs]; exact List.mem_cons_self)
      refine stripFront_cons (fun w hw => ?_) _ _
      obtain ⟨w', hw', rfl⟩ := List.mem_map.mp hw
      obtain ⟨-, d, rest', hw'', hd⟩ := whitespace_ends w' hw'
      exact ⟨d, rest', hw'', hne (h c hc) hd⟩
  unfold trim
  simp only [hfront, hback, List.reverse_reverse]

theorem fmtI64_numeral (v : Int64) : ∀ c ∈ fmtI64 v, IsNumeral c := by
  obtain ⟨-, -, hdigits⟩ := magnitude_spec v
  rw [fmtI64_eq]
  split
  · exact List.forall_mem_cons.mpr ⟨.inl rfl, fun c hc => .inr (hdigits c hc)⟩
  · exact fun c hc => .inr (hdigits c hc)

theorem decimal_ge {l : Bytes} {v n : ℕ} (h : decimal l v = some n) : v ≤ n := by
  induction l generalizing v with
  | nil => exact Nat.le_of_eq (Option.some.inj h)
  | cons c l ih =>
    rw [decimal] at h
    split at h
    · have := ih h
      omega
    · cases h

/-- No prefix of a number in range is out of range. -/
theorem parseDigits_of_decimal {l : Bytes} {v n : ℕ} (h : decimal l v = some n) (hn : n < 2 ^ 63) :
    parseDigits l v = .ok n := by
  induction l generalizing v with
  | nil =>
    obtain rfl := Option.some.inj h
    rfl
  | cons c l ih =>
    rw [decimal] at h
    split at h
    · rename_i hc
      have hle := decimal_ge h
      rw [parseDigits, if_neg (by simp [hc])]
      simp only
      rw [if_pos (by omega)]
      exact ih h
    · cases h

theorem parseInt_digits {s : Bytes} {n : ℕ} (hne : s ≠ []) (hdigits : ∀ c ∈ s, isDigit c = true)
    (h : decimal s 0 = some n) (hn : n < 2 ^ 63) : parseInt s = .ok n := by
  obtain ⟨c, rest, rfl⟩ := List.exists_cons_of_ne_nil hne
  have hminus : c ≠ 45 := by
    rintro rfl
    exact absurd (hdigits 45 List.mem_cons_self) (by decide)
  simp only [parseInt, if_neg hminus, parseDigits_of_decimal h hn]
  rfl

/-- A length is read back as it was written. -/
theorem parseInt_fmtI64 {v : Int64} (h : 0 ≤ v) : parseInt (fmtI64 v) = .ok v.toInt := by
  obtain ⟨hdec, hne, hdigits⟩ := magnitude_spec v
  have hnonneg : 0 ≤ v.toInt := by
    rw [Int64.le_iff_toInt_le] at h
    exact h
  have hneg : ¬ v < 0 := by
    rw [Int64.lt_iff_toInt_lt]
    have h0 : (0 : Int64).toInt = 0 := rfl
    omega
  have hlt := v.toInt_lt
  rw [fmtI64_eq, if_neg hneg, parseInt_digits hne hdigits hdec (by omega)]
  exact congrArg Except.ok (Int.natAbs_of_nonneg hnonneg)

end Reading

/-! ## Section 3: Every integer -/

/-- What `fmt` writes has the length that is counted without writing it, in the shortest form,
    and is read back by both parsers. -/
theorem integer_text (self : I64Buf) (v : Int64) :
    ∃ text, self.fmt v = some text ∧ text.length = i64DigitLen v ∧
      (v ≠ 0 → text.head? ≠ some 48 ∧ text.take 2 ≠ [45, 48]) ∧ parseI64 text = some v ∧
      (0 ≤ v → parseInt text = .ok v.toInt) := by
  refine ⟨_, self.fmt_eq v, length_fmtI64 v, fun hv => ?_, ?_, parseInt_fmtI64⟩
  · have hne : v.toInt ≠ 0 := fun h0 => hv (Int64.toInt_inj.mp h0)
    have hhead := magnitude_head hne
    rw [fmtI64_eq]
    split
    · refine ⟨by simp, fun htake => hhead ?_⟩
      cases hm : magnitude v with
      | nil => simp [hm] at htake
      | cons c rest =>
        rw [hm] at htake
        simpa using htake
    · refine ⟨hhead, fun htake => ?_⟩
      obtain ⟨-, -, hdigits⟩ := magnitude_spec v
      cases hm : magnitude v with
      | nil => simp [hm] at htake
      | cons c rest =>
        have hc : isDigit c = true := hdigits c (by rw [hm]; exact List.mem_cons_self)
        rw [hm] at htake
        obtain rfl : c = 45 := by simpa using congrArg List.head? htake
        exact absurd hc (by decide)
  · unfold parseI64
    rw [trim_numeral (fmtI64_numeral v), parseSigned_fmtI64]

end Garnet.Resp
