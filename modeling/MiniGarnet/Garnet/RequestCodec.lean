import MiniGarnet.Garnet.IntegerText

/-! # Requests

    `RespSession::run` encodes a command as an array of bulk strings.
    `parse_command` finds it again wherever it stands in a buffer, and as
    long as part of it is missing it asks for more bytes.
-/

namespace Garnet

open Resp

/-! ## Section 1: The encoding -/

/-- The text of a `usize`. -/
def usizeText (n : ℕ) : Bytes := if n = 0 then [48] else (digitsRev 20 n).reverse

/-- One argument as `run` writes it. -/
def encodePart (p : Bytes) : Bytes := ascii "$" ++ usizeText p.length ++ CRLF ++ p ++ CRLF

/-- The bytes `run` builds from `parts`. -/
def encodeRequest (parts : List Bytes) : Bytes :=
  ascii "*" ++ usizeText parts.length ++ CRLF ++ (parts.map encodePart).flatten

section Headers

variable {n : ℕ}

theorem usizeText_eq (h : n < 2 ^ 63) : usizeText n = fmtI64 (Int64.ofNat n) := by
  have hint := toInt_ofNat h
  have hneg : ¬ Int64.ofNat n < 0 := by
    rw [Int64.lt_iff_toInt_lt, hint]
    have h0 : (0 : Int64).toInt = 0 := rfl
    omega
  rw [fmtI64_eq, if_neg hneg]
  unfold usizeText magnitude
  rw [hint, Int.natAbs_natCast]

theorem parseInt_usizeText (h : n < 2 ^ 63) : parseInt (usizeText n) = .ok n := by
  have hint := toInt_ofNat h
  have hnonneg : 0 ≤ Int64.ofNat n := by
    rw [Int64.le_iff_toInt_le, hint]
    exact Int.natCast_nonneg n
  rw [usizeText_eq h, parseInt_fmtI64 hnonneg, hint]

/-- The line of a header, behind its first byte. -/
theorem findCrlf_header (h : n < 2 ^ 63) (front : Bytes) (tag : UInt8) (rest : Bytes) :
    findCrlf (front ++ tag :: (usizeText n ++ CRLF ++ rest)) (front.length + 1) =
      some (front.length + (1 + (usizeText n).length)) := by
  have hline : HasCrlf (usizeText n) = false := by
    apply hasCrlf_of_no_lf
    rw [usizeText_eq h]
    exact fmtI64_no_lf _
  have htail : findCrlf (tag :: (usizeText n ++ CRLF ++ rest)) 1 =
      some (1 + (usizeText n).length) := by
    have hshift := findCrlf_shift [tag] (usizeText n ++ CRLF ++ rest) 0
    rw [findCrlf_line hline] at hshift
    exact hshift
  rw [findCrlf_shift, htail]
  rfl

/-- The digits of a header. -/
theorem header_digits (n : ℕ) (front : Bytes) (tag : UInt8) (rest : Bytes) :
    ((front ++ tag :: (usizeText n ++ CRLF ++ rest)).take
      (front.length + (1 + (usizeText n).length))).drop (front.length + 1) = usizeText n := by
  rw [take_drop_shift, Nat.add_comm 1, List.take_succ_cons, List.drop_succ_cons, List.drop_zero,
    List.append_assoc, List.take_left]

end Headers

/-! ## Section 2: Parsing it -/

section Parsing

/-- Where `encodePart p` has its bytes. -/
def partSlice (cur : ℕ) (p : Bytes) : ArgSlice :=
  ⟨cur + (1 + (usizeText p.length).length) + 2,
    cur + (1 + (usizeText p.length).length) + 2 + p.length⟩

theorem length_encodePart (p : Bytes) :
    (encodePart p).length = 1 + (usizeText p.length).length + 2 + p.length + 2 := by
  simp only [encodePart, List.length_append]
  rfl

theorem bytes_partSlice (front p rest : Bytes) :
    (partSlice front.length p).bytes (front ++ (encodePart p ++ rest)) = p := by
  have hsplit : front ++ (encodePart p ++ rest) =
      (front ++ (ascii "$" ++ usizeText p.length ++ CRLF)) ++ (p ++ (CRLF ++ rest)) := by
    simp only [encodePart, List.append_assoc]
  have hlen : (front ++ (ascii "$" ++ usizeText p.length ++ CRLF)).length =
      front.length + (1 + (usizeText p.length).length) + 2 := by
    simp only [List.length_append]
    have hdollar : (ascii "$").length = 1 := rfl
    have hcrlf : CRLF.length = 2 := rfl
    omega
  unfold partSlice ArgSlice.bytes
  simp only
  rw [hsplit, ← hlen, List.take_length_add_append, List.take_left, List.drop_left]

/-- One turn of the argument loop. -/
theorem parseBulks_part {p : Bytes} (hp : p.length < 2 ^ 63) (front rest : Bytes) (n : ℕ)
    (args : List ArgSlice) :
    parseBulks (front ++ (encodePart p ++ rest)) (n + 1) front.length args =
      parseBulks (front ++ (encodePart p ++ rest)) n (front.length + (encodePart p).length)
        (args ++ [partSlice front.length p]) := by
  have hform : encodePart p ++ rest =
      36 :: (usizeText p.length ++ CRLF ++ (p ++ CRLF ++ rest)) := by
    simp only [encodePart, List.append_assoc]
    rfl
  have hbuf : ∀ i, (encodePart p ++ rest)[1 + (usizeText p.length).length + 2 + p.length + i]? =
      (CRLF ++ rest)[i]? := by
    intro i
    have hsplit : encodePart p ++ rest =
        (ascii "$" ++ usizeText p.length ++ CRLF ++ p) ++ (CRLF ++ rest) := by
      simp only [encodePart, List.append_assoc]
    have hlen : (ascii "$" ++ usizeText p.length ++ CRLF ++ p).length =
        1 + (usizeText p.length).length + 2 + p.length := by
      simp only [List.length_append]
      rfl
    rw [hsplit, ← hlen, getElem?_shift]
  have hhead : (front ++ (encodePart p ++ rest))[front.length]? = some 36 := by
    rw [← Nat.add_zero front.length, getElem?_shift, hform]
    rfl
  have hcr : findCrlf (front ++ (encodePart p ++ rest)) (front.length + 1) =
      some (front.length + (1 + (usizeText p.length).length)) := by
    rw [hform]
    exact findCrlf_header hp front 36 _
  have hdigits : ((front ++ (encodePart p ++ rest)).take
      (front.length + (1 + (usizeText p.length).length))).drop (front.length + 1) =
      usizeText p.length := by
    rw [hform]
    exact header_digits p.length front 36 _
  have hterm : (front ++ (encodePart p ++ rest))[front.length +
      (1 + (usizeText p.length).length) + 2 + p.length]? = some CR ∧
      (front ++ (encodePart p ++ rest))[front.length +
        (1 + (usizeText p.length).length) + 2 + p.length + 1]? = some LF := by
    have h0 := hbuf 0
    have h1 := hbuf 1
    rw [← getElem?_shift front] at h0 h1
    constructor
    · rw [show front.length + (1 + (usizeText p.length).length) + 2 + p.length =
        front.length + (1 + (usizeText p.length).length + 2 + p.length + 0) by omega, h0]
      rfl
    · rw [show front.length + (1 + (usizeText p.length).length) + 2 + p.length + 1 =
        front.length + (1 + (usizeText p.length).length + 2 + p.length + 1) by omega, h1]
      rfl
  have hlen := length_encodePart p
  rw [parseBulks, hhead]
  simp only [ne_eq, not_true_eq_false, if_false, hcr, hdigits, parseInt_usizeText hp,
    Int.toNat_natCast]
  rw [if_neg (by omega), if_neg (by simp only [List.length_append]; omega),
    if_neg (by simp [hterm.1, hterm.2]), hlen]
  rw [show front.length + (1 + (usizeText p.length).length) + 2 + p.length + 2 =
    front.length + (1 + (usizeText p.length).length + 2 + p.length + 2) by omega]
  rfl

/-- The argument loop finds every part; the induction is on the parts still to come. -/
theorem parseBulks_parts {parts : List Bytes} (hparts : ∀ p ∈ parts, p.length < 2 ^ 63)
    (front : Bytes) (args : List ArgSlice) :
    ∃ slices, parseBulks (front ++ (parts.map encodePart).flatten) parts.length front.length args =
        .ok (some (args ++ slices, (front ++ (parts.map encodePart).flatten).length)) ∧
      slices.map (·.bytes (front ++ (parts.map encodePart).flatten)) = parts := by
  induction parts generalizing front args with
  | nil => exact ⟨[], by simp [parseBulks], rfl⟩
  | cons p parts ih =>
    obtain ⟨hp, hrest⟩ := List.forall_mem_cons.mp hparts
    have hsplit : front ++ ((p :: parts).map encodePart).flatten =
        (front ++ encodePart p) ++ (parts.map encodePart).flatten := by
      simp only [List.map_cons, List.flatten_cons, List.append_assoc]
    obtain ⟨slices, hparse, hbytes⟩ := ih hrest (front ++ encodePart p)
      (args ++ [partSlice front.length p])
    refine ⟨partSlice front.length p :: slices, ?_, ?_⟩
    · rw [List.map_cons, List.flatten_cons, List.length_cons, parseBulks_part hp,
        ← List.append_assoc, ← List.length_append, hparse, List.append_assoc args]
      rfl
    · rw [List.map_cons, hsplit, hbytes, List.append_assoc, bytes_partSlice]

/-- A request by itself. -/
theorem parseCommand_request {parts : List Bytes} (hcount : parts.length ≤ 1024 * 1024)
    (hparts : ∀ p ∈ parts, p.length < 2 ^ 63) :
    ∃ slices, parseCommand (encodeRequest parts) 0 =
        .ok (some (slices, (encodeRequest parts).length)) ∧
      slices.map (·.bytes (encodeRequest parts)) = parts := by
  have hn : parts.length < 2 ^ 63 := by omega
  have hform : encodeRequest parts =
      42 :: (usizeText parts.length ++ CRLF ++ (parts.map encodePart).flatten) := by
    simp only [encodeRequest, List.append_assoc]
    rfl
  have hsplit : encodeRequest parts =
      (ascii "*" ++ usizeText parts.length ++ CRLF) ++ (parts.map encodePart).flatten := rfl
  have hlen : (ascii "*" ++ usizeText parts.length ++ CRLF).length =
      1 + (usizeText parts.length).length + 2 := by
    simp only [List.length_append]
    rfl
  have hcr := findCrlf_header hn [] 42 (parts.map encodePart).flatten
  have hdigits := header_digits parts.length [] 42 (parts.map encodePart).flatten
  simp only [List.nil_append, List.length_nil, Nat.zero_add] at hcr hdigits
  rw [← hform] at hcr hdigits
  obtain ⟨slices, hparse, hbytes⟩ := parseBulks_parts hparts
    (ascii "*" ++ usizeText parts.length ++ CRLF) []
  rw [← hsplit, hlen, List.nil_append] at hparse
  rw [← hsplit] at hbytes
  refine ⟨slices, ?_, hbytes⟩
  have hhead : (encodeRequest parts)[0]? = some 42 := by
    rw [hform]
    rfl
  unfold parseCommand parseArray
  simp only [hhead, if_true, Nat.zero_add, hcr, hdigits, parseInt_usizeText hn,
    Int.toNat_natCast, hparse]
  rw [if_neg (by omega), if_neg (by omega)]

end Parsing

/-! ## Section 3: Anywhere in a buffer -/

theorem bytes_shift_append (front buf more : Bytes) {a : ArgSlice} (h : a.stop ≤ buf.length) :
    (a.shift front.length).bytes (front ++ buf ++ more) = a.bytes buf := by
  unfold ArgSlice.bytes ArgSlice.shift
  simp only
  rw [List.append_assoc, take_drop_shift, List.take_append_of_le_length h]

/-- A request is found behind `front` and in front of `more`, and none of its proper prefixes is
    taken for a command or for an error. -/
theorem request_codec {parts : List Bytes}
    (hcount : parts.length ≤ 1024 * 1024) (hparts : ∀ p ∈ parts, p.length < 2 ^ 63)
    (front more : Bytes) :
    (∃ args, parseCommand (front ++ encodeRequest parts ++ more) front.length =
        .ok (some (args, front.length + (encodeRequest parts).length)) ∧
      args.map (·.bytes (front ++ encodeRequest parts ++ more)) = parts) ∧
    ∀ k < (encodeRequest parts).length,
      parseCommand (front ++ (encodeRequest parts).take k) front.length = .ok none := by
  obtain ⟨slices, hparse, hbytes⟩ := parseCommand_request hcount hparts
  obtain ⟨-, -, hstops⟩ := parseCommand_bounds hparse
  have hfull : parseCommand (front ++ encodeRequest parts) front.length =
      .ok (some (slices.map (ArgSlice.shift front.length),
        front.length + (encodeRequest parts).length)) := by
    have hshift := parseCommand_shift front (encodeRequest parts) 0
    rw [hparse] at hshift
    exact hshift
  constructor
  · refine ⟨_, (parseCommand_append more (by rw [hfull]; exact nofun)).trans hfull, ?_⟩
    have hmoved : ∀ a ∈ slices, ((·.bytes (front ++ encodeRequest parts ++ more)) ∘
        ArgSlice.shift front.length) a = a.bytes (encodeRequest parts) :=
      fun a ha => bytes_shift_append _ _ _ (hstops a ha)
    rw [List.map_map]
    exact (List.map_congr_left hmoved).trans hbytes
  · intro k hk
    -- A result of the prefix would stand for the whole request, whose end is further on.
    by_contra hsome
    have hlong := parseCommand_append ((encodeRequest parts).drop k) hsome
    rw [List.append_assoc, List.take_append_drop, hfull] at hlong
    obtain ⟨-, hstop, -⟩ := parseCommand_bounds hlong.symm
    rw [List.length_append, List.length_take] at hstop
    omega

theorem request_codec_set :
    let parts := [ascii "SET", CRLF ++ ascii "$1", []]
    (∃ args, parseCommand (ascii "+" ++ encodeRequest parts ++ ascii "*1") 1 =
        .ok (some (args, 1 + (encodeRequest parts).length)) ∧
      args.map (·.bytes (ascii "+" ++ encodeRequest parts ++ ascii "*1")) = parts) ∧
    ∀ k < (encodeRequest parts).length,
      parseCommand (ascii "+" ++ (encodeRequest parts).take k) 1 = .ok none :=
  request_codec (by decide)
    (List.forall_mem_cons.mpr ⟨by decide, List.forall_mem_cons.mpr
      ⟨by decide, List.forall_mem_singleton.mpr (by decide)⟩⟩) (ascii "+") (ascii "*1")

end Garnet
