import MiniGarnet.Garnet.Connection

/-! # RESP values

    The values a reply can stand for, their encoding, and the reader a client
    uses (`parse_reply` of the tests).  A value whose texts hold no CRLF is
    read back from its encoding, whatever follows it.
-/

namespace Garnet

open Resp

/-! ## Section 1: Values -/

inductive Value where
  | simple (s : Bytes)
  | error (s : Bytes)
  | int (v : Int64)
  | nullBulk
  | bulk (data : Bytes)
  | nullArray
  | array (vs : List Value)
  deriving Repr

mutual

def Value.encode : Value → Bytes
  | .simple s => ascii "+" ++ s ++ CRLF
  | .error s => errorBytes s
  | .int v => integer v
  | .nullBulk => NULL_BULK
  | .bulk data => Resp.bulk data
  | .nullArray => NULL_ARRAY
  | .array vs => arrayHeader vs.length ++ Value.encodeList vs

def Value.encodeList : List Value → Bytes
  | [] => []
  | v :: vs => v.encode ++ Value.encodeList vs

end

/-- The text holds a CR LF pair. -/
def HasCrlf (s : Bytes) : Bool := (findCrlf s 0).isSome

/-- Texts without CRLF, and lengths that a vector can have. -/
inductive Value.Wf : Value → Prop where
  | simple {s : Bytes} : HasCrlf s = false → Wf (.simple s)
  | error {s : Bytes} : HasCrlf s = false → Wf (.error s)
  | int (v : Int64) : Wf (.int v)
  | nullBulk : Wf .nullBulk
  | bulk {data : Bytes} : data.length < 2 ^ 63 → Wf (.bulk data)
  | nullArray : Wf .nullArray
  | array {vs : List Value} : vs.length < 2 ^ 63 → (∀ v ∈ vs, Wf v) → Wf (.array vs)

/-! ## Section 2: The reader -/

/-- Read `n` values, one after the other. -/
def readMany {α : Type} (read : Bytes → Option (α × Bytes)) : ℕ → Bytes → Option (List α × Bytes)
  | 0, buf => some ([], buf)
  | n + 1, buf => do
    let (v, buf) ← read buf
    let (vs, buf) ← readMany read n buf
    return (v :: vs, buf)

/-- What a first line stands for, with `read` for the elements of an array. -/
def readTagged (read : Bytes → Option (Value × Bytes)) (tag : UInt8) (line rest : Bytes) :
    Option (Value × Bytes) :=
  match tag with
  | 43 => some (.simple line, rest)
  | 45 => some (.error line, rest)
  | 58 => (parseSigned line).map fun v => (.int v, rest)
  | 36 =>
    (parseSigned line).bind fun len =>
      if len < 0 then some (.nullBulk, rest)
      else if rest.length < len.toInt.toNat + 2 then none
      else some (.bulk (rest.take len.toInt.toNat), rest.drop (len.toInt.toNat + 2))
  | 42 =>
    (parseSigned line).bind fun len =>
      if len < 0 then some (.nullArray, rest)
      else (readMany read len.toInt.toNat rest).map fun (vs, rest) => (.array vs, rest)
  | _ => none

/-- `parse_reply`: the first value and what follows it; the first argument bounds the depth. -/
def readReply : ℕ → Bytes → Option (Value × Bytes)
  | 0, _ => none
  | n + 1, buf => do
    let lineEnd ← findCrlf buf 0
    let tag ← buf.head?
    readTagged (readReply n) tag ((buf.take lineEnd).drop 1) (buf.drop (lineEnd + 2))

/-- Read values until the buffer is empty; the first argument bounds their number. -/
def readReplies : ℕ → Bytes → Option (List Value)
  | 0, buf => if buf = [] then some [] else none
  | n + 1, buf =>
    if buf = [] then some []
    else do
      let (v, buf) ← readReply buf.length buf
      let vs ← readReplies n buf
      return v :: vs

/-! ## Section 3: Lines -/

section Lines

/-- The first CRLF behind a text without one. -/
theorem findCrlfIn_line {line : Bytes} {i : ℕ} (h : findCrlfIn line i = none) (rest : Bytes) :
    findCrlfIn (line ++ CRLF ++ rest) i = some (i + line.length) := by
  induction line generalizing i with
  | nil => rfl
  | cons a line ih =>
    cases line with
    | nil =>
      have hne : ¬ (a = CR ∧ CR = LF) := fun hboth => absurd hboth.2 (by decide)
      show findCrlfIn (a :: CR :: LF :: rest) i = _
      simp only [findCrlfIn, if_neg hne]
      rfl
    | cons b line =>
      simp only [findCrlfIn] at h
      split at h
      · cases h
      · rename_i hne
        simp only [List.cons_append, findCrlfIn, if_neg hne]
        have hrest := ih h
        simp only [List.cons_append] at hrest
        rw [hrest]
        simp only [List.length_cons]
        exact congrArg some (by omega)

theorem findCrlf_line {line : Bytes} (h : HasCrlf line = false) (rest : Bytes) :
    findCrlf (line ++ CRLF ++ rest) 0 = some line.length := by
  have hnone : findCrlfIn line 0 = none := by
    unfold HasCrlf findCrlf at h
    simpa using h
  unfold findCrlf
  rw [List.drop_zero, findCrlfIn_line hnone, Nat.zero_add]

/-- A text none of whose bytes is LF. -/
theorem hasCrlf_of_no_lf {l : Bytes} (h : ∀ c ∈ l, c ≠ LF) : HasCrlf l = false := by
  have hnone : ∀ i, findCrlfIn l i = none := by
    induction l with
    | nil => exact fun _ => rfl
    | cons a l ih =>
      cases l with
      | nil => exact fun _ => rfl
      | cons b l =>
        intro i
        have hb : b ≠ LF := h b (by simp)
        simp only [findCrlfIn, if_neg (fun hboth : a = CR ∧ b = LF => hb hboth.2)]
        exact ih (fun c hc => h c (List.mem_cons_of_mem _ hc)) (i + 1)
  unfold HasCrlf findCrlf
  rw [List.drop_zero, hnone]
  rfl

/-- What `readReply` makes of its first line. -/
theorem readReply_line {tag : UInt8} {line : Bytes} (h : HasCrlf (tag :: line) = false)
    (rest : Bytes) (n : ℕ) :
    readReply (n + 1) (tag :: line ++ CRLF ++ rest) = readTagged (readReply n) tag line rest := by
  have hline : ((tag :: line ++ CRLF ++ rest).take (tag :: line).length).drop 1 = line := by
    rw [List.append_assoc, List.take_left]
    rfl
  have hrest : (tag :: line ++ CRLF ++ rest).drop ((tag :: line).length + 2) = rest := by
    rw [← List.drop_drop, List.append_assoc, List.drop_left]
    rfl
  have hhead : (tag :: line ++ CRLF ++ rest).head? = some tag := rfl
  rw [readReply, findCrlf_line h, hhead]
  simp only [Option.bind_eq_bind, Option.bind_some, hline, hrest]

end Lines

/-! ## Section 4: Numbers -/

section Numbers

theorem decimal_append (l : Bytes) (c : UInt8) (v : ℕ) :
    decimal (l ++ [c]) v =
      (decimal l v).bind fun w => if isDigit c then some (w * 10 + (c.toNat - 48)) else none := by
  induction l generalizing v with
  | nil =>
    simp only [List.nil_append, decimal]
    rfl
  | cons d l ih =>
    simp only [List.cons_append, decimal]
    split
    · exact ih _
    · rfl

/-- A digit of `fmt`. -/
theorem digit_spec (d : ℕ) (h : d < 10) :
    isDigit (UInt8.ofNat (48 + d)) = true ∧ (UInt8.ofNat (48 + d)).toNat - 48 = d := by
  have hall : ∀ d : Fin 10, isDigit (UInt8.ofNat (48 + d)) = true ∧
      (UInt8.ofNat (48 + d)).toNat - 48 = d := by decide
  exact hall ⟨d, h⟩

theorem decimal_digitsRev (n u : ℕ) (h : u < 10 ^ n) :
    decimal (digitsRev n u).reverse 0 = some u := by
  induction n generalizing u with
  | zero =>
    obtain rfl : u = 0 := by simpa using h
    rfl
  | succ n ih =>
    rw [digitsRev]
    split
    · rename_i hzero
      rw [hzero]
      rfl
    · have hlt : u / 10 < 10 ^ n := by
        rw [Nat.pow_succ] at h
        omega
      obtain ⟨hdigit, hval⟩ := digit_spec (u % 10) (Nat.mod_lt _ (by decide))
      rw [List.reverse_cons, decimal_append, ih _ hlt]
      simp only [Option.bind_some, if_pos hdigit, hval]
      exact congrArg some (by omega)

theorem digitsRev_digits (n u : ℕ) : ∀ c ∈ digitsRev n u, isDigit c = true := by
  induction n generalizing u with
  | zero => simp [digitsRev]
  | succ n ih =>
    rw [digitsRev]
    split
    · simp
    · intro c hc
      rcases List.mem_cons.mp hc with rfl | hc
      · exact (digit_spec (u % 10) (Nat.mod_lt _ (by decide))).1
      · exact ih _ c hc

/-- The digits of a number, without its sign. -/
def magnitude (v : Int64) : Bytes :=
  if v.toInt.natAbs = 0 then [48] else (digitsRev 20 v.toInt.natAbs).reverse

theorem fmtI64_eq (v : Int64) : fmtI64 v = if v < 0 then 45 :: magnitude v else magnitude v := rfl

theorem natAbs_lt (v : Int64) : v.toInt.natAbs < 10 ^ 20 := by
  have h₁ := v.le_toInt
  have h₂ := v.toInt_lt
  omega

theorem magnitude_spec (v : Int64) :
    decimal (magnitude v) 0 = some v.toInt.natAbs ∧ magnitude v ≠ [] ∧
      ∀ c ∈ magnitude v, isDigit c = true := by
  unfold magnitude
  split
  · rename_i hzero
    rw [hzero]
    exact ⟨rfl, by simp, List.forall_mem_singleton.mpr rfl⟩
  · rename_i hne
    have hdec := decimal_digitsRev 20 _ (natAbs_lt v)
    refine ⟨hdec, ?_, ?_⟩
    · intro hnil
      rw [hnil] at hdec
      exact hne (Option.some.inj hdec).symm
    · intro c hc
      exact digitsRev_digits _ _ c (List.mem_reverse.mp hc)

/-- The last step of `parse`. -/
theorem checkRange_toInt (v : Int64) :
    (if -2 ^ 63 ≤ v.toInt ∧ v.toInt < 2 ^ 63 then some (Int64.ofInt v.toInt) else none) =
      some v := by
  have hrange : -2 ^ 63 ≤ v.toInt ∧ v.toInt < 2 ^ 63 := by
    have h₁ := v.le_toInt
    have h₂ := v.toInt_lt
    omega
  rw [if_pos hrange, Int64.ofInt_toInt]

theorem parseSigned_minus {m : Bytes} {n : ℕ} (hne : m ≠ []) (hdec : decimal m 0 = some n) :
    parseSigned (45 :: m) =
      if -2 ^ 63 ≤ -(n : ℤ) ∧ -(n : ℤ) < 2 ^ 63 then some (Int64.ofInt (-(n : ℤ))) else none := by
  unfold parseSigned
  simp only [if_neg hne, hdec, Option.bind_some, if_true]

theorem parseSigned_digits {m : Bytes} {n : ℕ} (hne : m ≠ []) (hdec : decimal m 0 = some n)
    (hdigits : ∀ c ∈ m, isDigit c = true) :
    parseSigned m =
      if -2 ^ 63 ≤ (n : ℤ) ∧ (n : ℤ) < 2 ^ 63 then some (Int64.ofInt n) else none := by
  obtain ⟨c, rest, rfl⟩ := List.exists_cons_of_ne_nil hne
  have hc : isDigit c = true := hdigits c List.mem_cons_self
  have hminus : c ≠ 45 := by rintro rfl; exact absurd hc (by decide)
  have hplus : c ≠ 43 := by rintro rfl; exact absurd hc (by decide)
  unfold parseSigned
  split
  rename_i neg digits heq
  -- the first byte is no sign
  obtain ⟨rfl, rfl⟩ : neg = false ∧ digits = c :: rest := by
    split at heq
    · rename_i hsign
      exact absurd (List.cons.inj hsign).1 hminus
    · rename_i hsign
      exact absurd (List.cons.inj hsign).1 hplus
    · cases heq
      exact ⟨rfl, rfl⟩
  rw [if_neg hne, hdec, Option.bind_some]
  simp only [Bool.false_eq_true, if_false]

/-- A number is read back from its digits. -/
theorem parseSigned_fmtI64 (v : Int64) : parseSigned (fmtI64 v) = some v := by
  obtain ⟨hdec, hne, hdigits⟩ := magnitude_spec v
  rw [fmtI64_eq]
  split
  · rename_i hneg
    have hlt : v.toInt < 0 := by simpa [Int64.lt_iff_toInt_lt] using hneg
    have hval : -(v.toInt.natAbs : ℤ) = v.toInt := by omega
    rw [parseSigned_minus hne hdec, hval]
    exact checkRange_toInt v
  · rename_i hneg
    have hge : ¬ v.toInt < 0 := by simpa [Int64.lt_iff_toInt_lt] using hneg
    have hval : (v.toInt.natAbs : ℤ) = v.toInt := by omega
    rw [parseSigned_digits hne hdec hdigits, hval]
    exact checkRange_toInt v

theorem fmtI64_no_lf (v : Int64) : ∀ c ∈ fmtI64 v, c ≠ LF := by
  obtain ⟨-, -, hdigits⟩ := magnitude_spec v
  have hdigit : ∀ c ∈ magnitude v, c ≠ LF := by
    rintro c hc rfl
    exact absurd (hdigits LF hc) (by decide)
  rw [fmtI64_eq]
  split
  · intro c hc
    rcases List.mem_cons.mp hc with rfl | hc
    · decide
    · exact hdigit c hc
  · exact hdigit

/-- A length as an `i64`. -/
theorem toInt_ofNat {n : ℕ} (h : n < 2 ^ 63) : (Int64.ofNat n).toInt = n :=
  Int64.toInt_ofNat_of_lt h

end Numbers

/-! ## Section 5: Reading values back -/

section RoundTrip

theorem encodeList_eq (vs : List Value) : Value.encodeList vs = (vs.map Value.encode).flatten := by
  induction vs with
  | nil => rfl
  | cons v vs ih => rw [Value.encodeList, ih, List.map_cons, List.flatten_cons]

/-- A first line that carries a number. -/
theorem readReply_number {tag : UInt8} (htag : tag ≠ LF) (v : Int64) (rest : Bytes) (n : ℕ) :
    readReply (n + 1) (tag :: fmtI64 v ++ CRLF ++ rest) =
      readTagged (readReply n) tag (fmtI64 v) rest := by
  apply readReply_line
  apply hasCrlf_of_no_lf
  intro c hc
  rcases List.mem_cons.mp hc with rfl | hc
  · exact htag
  · exact fmtI64_no_lf v c hc

theorem readMany_encode {vs : List Value} {read : Bytes → Option (Value × Bytes)}
    (h : ∀ v ∈ vs, ∀ rest, read (v.encode ++ rest) = some (v, rest)) (rest : Bytes) :
    readMany read vs.length (Value.encodeList vs ++ rest) = some (vs, rest) := by
  induction vs with
  | nil => rfl
  | cons v vs ih =>
    have hv := h v List.mem_cons_self (Value.encodeList vs ++ rest)
    have hvs := ih fun w hw => h w (List.mem_cons_of_mem _ hw)
    simp only [List.length_cons, Value.encodeList, List.append_assoc, readMany, hv, hvs,
      Option.bind_eq_bind, Option.bind_some, Option.pure_def]

theorem length_encode_le {vs : List Value} {v : Value} (h : v ∈ vs) :
    v.encode.length ≤ (Value.encodeList vs).length := by
  induction vs with
  | nil => cases h
  | cons w vs ih =>
    rw [Value.encodeList, List.length_append]
    rcases List.mem_cons.mp h with rfl | h
    · omega
    · have hle := ih h
      omega

theorem hasCrlf_cons {tag : UInt8} (htag : tag ≠ CR) {s : Bytes} (h : HasCrlf s = false) :
    HasCrlf (tag :: s) = false := by
  unfold HasCrlf findCrlf at h ⊢
  rw [List.drop_zero] at h ⊢
  cases s with
  | nil => rfl
  | cons b s =>
    simp only [findCrlfIn, if_neg (fun hboth : tag = CR ∧ b = LF => htag hboth.1)]
    rw [show (0 : ℕ) + 1 = 1 + 0 from rfl, findCrlfIn_shift]
    simpa using h

theorem length_encode_pos (v : Value) : 0 < v.encode.length := by
  cases v <;>
    simp [Value.encode, errorBytes, integer, NULL_BULK, NULL_ARRAY, Resp.bulk, arrayHeader, CRLF]

/-- A well-formed value is read back from its encoding, whatever follows it.  The bound on the
    depth can be the length of the encoding. -/
theorem Value.Wf.read {v : Value} (h : v.Wf) :
    ∀ (n : ℕ) (rest : Bytes), v.encode.length ≤ n →
      readReply n (v.encode ++ rest) = some (v, rest) := by
  have hfuel : ∀ {v : Value} {n : ℕ}, v.encode.length ≤ n → ∃ m, n = m + 1 := by
    intro v n hn
    have hpos := length_encode_pos v
    exact ⟨n - 1, by omega⟩
  induction h with
  | simple hs =>
    intro n rest hn
    obtain ⟨m, rfl⟩ := hfuel hn
    exact @readReply_line 43 _ (hasCrlf_cons (by decide) hs) rest m
  | error hs =>
    intro n rest hn
    obtain ⟨m, rfl⟩ := hfuel hn
    exact @readReply_line 45 _ (hasCrlf_cons (by decide) hs) rest m
  | int v =>
    intro n rest hn
    obtain ⟨m, rfl⟩ := hfuel hn
    refine (@readReply_number 58 (by decide) v rest m).trans ?_
    show (parseSigned (fmtI64 v)).map _ = _
    rw [parseSigned_fmtI64]
    rfl
  | nullBulk =>
    intro n rest hn
    obtain ⟨m, rfl⟩ := hfuel hn
    exact @readReply_line 36 (ascii "-1") (by decide) rest m
  | nullArray =>
    intro n rest hn
    obtain ⟨m, rfl⟩ := hfuel hn
    exact @readReply_line 42 (ascii "-1") (by decide) rest m
  | @bulk data hlen =>
    intro n rest hn
    obtain ⟨m, rfl⟩ := hfuel hn
    have hshape : (Value.bulk data).encode ++ rest =
        36 :: fmtI64 (Int64.ofNat data.length) ++ CRLF ++ (data ++ CRLF ++ rest) := by
      simp [Value.encode, Resp.bulk, ascii]
    have hval := toInt_ofNat hlen
    have hneg : ¬ Int64.ofNat data.length < 0 := by
      rw [Int64.lt_iff_toInt_lt, hval]
      simp
    have hlong : ¬ (data ++ CRLF ++ rest).length < data.length + 2 := by
      simp [CRLF]
    rw [hshape, @readReply_number 36 (by decide)]
    show (parseSigned _).bind _ = _
    rw [parseSigned_fmtI64]
    simp only [Option.bind_some, if_neg hneg, hval, Int.toNat_natCast, if_neg hlong]
    rw [List.append_assoc, List.take_left, ← List.drop_drop, List.drop_left]
    rfl
  | @array vs hlen hvs ih =>
    intro n rest hn
    obtain ⟨m, rfl⟩ := hfuel hn
    have hshape : (Value.array vs).encode ++ rest =
        42 :: fmtI64 (Int64.ofNat vs.length) ++ CRLF ++ (Value.encodeList vs ++ rest) := by
      simp [Value.encode, arrayHeader, ascii]
    have hval := toInt_ofNat hlen
    have hneg : ¬ Int64.ofNat vs.length < 0 := by
      rw [Int64.lt_iff_toInt_lt, hval]
      simp
    have hshort : (Value.encodeList vs).length ≤ m := by
      have hsum : (Value.array vs).encode.length =
          (arrayHeader vs.length).length + (Value.encodeList vs).length := by
        simp [Value.encode]
      have hhead : 0 < (arrayHeader vs.length).length := by simp [arrayHeader, CRLF]
      omega
    rw [hshape, @readReply_number 42 (by decide)]
    show (parseSigned _).bind _ = _
    rw [parseSigned_fmtI64]
    simp only [Option.bind_some, if_neg hneg, hval, Int.toNat_natCast]
    rw [readMany_encode fun v hv rest => ih v hv m rest
      (Nat.le_trans (length_encode_le hv) hshort)]
    rfl

/-- A reader of concatenated encodings recovers the values, one for each encoding. -/
theorem readReplies_encode {vs : List Value} (h : ∀ v ∈ vs, v.Wf) :
    readReplies vs.length (vs.map Value.encode).flatten = some vs := by
  induction vs with
  | nil => rfl
  | cons v vs ih =>
    have hpos := length_encode_pos v
    have hne : (v.encode ++ (vs.map Value.encode).flatten) ≠ [] := by
      intro hnil
      rw [(List.append_eq_nil_iff.mp hnil).1] at hpos
      exact absurd hpos (Nat.lt_irrefl _)
    have hv := (h v List.mem_cons_self).read (v.encode ++ (vs.map Value.encode).flatten).length
      (vs.map Value.encode).flatten (by rw [List.length_append]; omega)
    have hvs := ih fun w hw => h w (List.mem_cons_of_mem _ hw)
    rw [List.map_cons, List.flatten_cons, List.length_cons, readReplies, if_neg hne, hv]
    simp only [Option.bind_eq_bind, Option.bind_some, hvs]
    rfl

end RoundTrip

end Garnet
