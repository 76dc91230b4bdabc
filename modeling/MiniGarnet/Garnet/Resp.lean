import Mathlib.Data.List.Basic
import MiniGarnet.Garnet.Aof

/-! # RESP

    `resp.rs`: parsing a command out of a receive buffer, and writing
    replies.  Arguments are byte ranges into the buffer.  A reply writer
    returns the bytes the source appends to the send buffer.
-/

namespace Garnet

/-- The bytes of an ASCII literal. -/
def ascii (s : String) : Bytes := s.toList.map fun c => UInt8.ofNat c.toNat

def CR : UInt8 := 13

def LF : UInt8 := 10

def CRLF : Bytes := [CR, LF]

namespace Resp

/-! ## Section 1: Parsing -/

/-- Argument byte range into the receive buffer. -/
structure ArgSlice where
  start : ℕ
  stop : ℕ
  deriving DecidableEq, Repr

def ArgSlice.bytes (a : ArgSlice) (buf : Bytes) : Bytes := (buf.take a.stop).drop a.start

/-- `ProtocolError::Malformed(msg)` -/
inductive ProtocolError where
  | malformed (msg : String)
  deriving DecidableEq, Repr

/-- The first CRLF of a suffix that starts at offset `i`. -/
def findCrlfIn : Bytes → ℕ → Option ℕ
  | a :: b :: rest, i => if a = CR ∧ b = LF then some i else findCrlfIn (b :: rest) (i + 1)
  | _, _ => none

/-- Find CRLF at or after `pos`; returns the index of CR. -/
def findCrlf (buf : Bytes) (pos : ℕ) : Option ℕ := findCrlfIn (buf.drop pos) pos

def isDigit (c : UInt8) : Bool := 48 ≤ c ∧ c ≤ 57

/-- The digit loop of `parse_int`, with the checks for `i64` overflow. -/
def parseDigits : Bytes → ℕ → Except ProtocolError ℕ
  | [], v => .ok v
  | c :: rest, v =>
    if ¬ isDigit c then .error (.malformed "non-digit in integer")
    else
      let v' := v * 10 + (c.toNat - 48)
      if v' < 2 ^ 63 then parseDigits rest v' else .error (.malformed "integer overflow")

/-- Parse a decimal integer of the protocol framing. -/
def parseInt (s : Bytes) : Except ProtocolError ℤ :=
  match s with
  | [] => .error (.malformed "empty integer")
  | c :: rest =>
    if c = 45 then
      if rest = [] then .error (.malformed "empty integer")
      else (parseDigits rest 0).map fun v => -(v : ℤ)
    else (parseDigits (c :: rest) 0).map fun v => (v : ℤ)

/-- The argument loop of `parse_array`, for `n` more bulk strings from `cur`. -/
def parseBulks (buf : Bytes) : ℕ → ℕ → List ArgSlice → Except ProtocolError (Option (List ArgSlice × ℕ))
  | 0, cur, args => .ok (some (args, cur))
  | n + 1, cur, args =>
    match buf[cur]? with
    | none => .ok none
    | some c =>
      if c ≠ 36 then .error (.malformed "expected bulk string")
      else
        match findCrlf buf (cur + 1) with
        | none => .ok none
        | some cr =>
          match parseInt ((buf.take cr).drop (cur + 1)) with
          | .error e => .error e
          | .ok len =>
            if len < 0 then .error (.malformed "negative bulk length")
            else
              let start := cr + 2
              let stop := start + len.toNat
              -- need data and trailing CRLF
              if buf.length < stop + 2 then .ok none
              else if buf[stop]? ≠ some CR ∨ buf[stop + 1]? ≠ some LF then
                .error (.malformed "bulk string not CRLF terminated")
              else parseBulks buf n (stop + 2) (args ++ [⟨start, stop⟩])

def parseArray (buf : Bytes) (pos : ℕ) : Except ProtocolError (Option (List ArgSlice × ℕ)) :=
  match findCrlf buf (pos + 1) with
  | none => .ok none
  | some cr =>
    match parseInt ((buf.take cr).drop (pos + 1)) with
    | .error e => .error e
    | .ok count =>
      if count < 0 then .error (.malformed "negative array length")
      else if 1024 * 1024 < count then .error (.malformed "array too large")
      else parseBulks buf count.toNat (cr + 2) []

/-- The words of an inline command: `i` is the offset of the first byte of the
    rest of the line, `start` that of the word it continues. -/
def inlineArgs : Bytes → ℕ → Option ℕ → List ArgSlice
  | [], i, some start => [⟨start, i⟩]
  | [], _, none => []
  | c :: rest, i, some start =>
    if c = 32 then ⟨start, i⟩ :: inlineArgs rest (i + 1) none
    else inlineArgs rest (i + 1) (some start)
  | c :: rest, i, none =>
    if c = 32 then inlineArgs rest (i + 1) none else inlineArgs rest (i + 1) (some i)

def parseInline (buf : Bytes) (pos : ℕ) : Except ProtocolError (Option (List ArgSlice × ℕ)) :=
  match findCrlf buf pos with
  | none => .ok none
  | some cr => .ok (some (inlineArgs ((buf.take cr).drop pos) pos none, cr + 2))

/-- Parse one command starting at `pos`: the argument ranges and the offset just
    past the command, or `none` when the buffer ends before it is complete. -/
def parseCommand (buf : Bytes) (pos : ℕ) : Except ProtocolError (Option (List ArgSlice × ℕ)) :=
  match buf[pos]? with
  | none => .ok none
  | some c => if c = 42 then parseArray buf pos else parseInline buf pos

/-! ## Section 2: Replies -/

/-- The decimal digits of `v`, least significant first, at most `n` of them. -/
def digitsRev : ℕ → ℕ → Bytes
  | 0, _ => []
  | n + 1, u => if u = 0 then [] else UInt8.ofNat (48 + u % 10) :: digitsRev n (u / 10)

/-- `I64Buf::fmt` -/
def fmtI64 (v : Int64) : Bytes :=
  let u := v.toInt.natAbs
  let digits := if u = 0 then [48] else (digitsRev 20 u).reverse
  if v < 0 then 45 :: digits else digits

/-- The number of decimal digits of `u`, counting at most `n`. -/
def digitCount : ℕ → ℕ → ℕ
  | 0, _ => 0
  | n + 1, u => if u = 0 then 0 else digitCount n (u / 10) + 1

/-- Decimal length of an `i64`. -/
def i64DigitLen (v : Int64) : ℕ :=
  let u := v.toInt.natAbs
  if u = 0 then 1 else (if v < 0 then 1 else 0) + digitCount 20 u

theorem length_digitsRev (n u : ℕ) : (digitsRev n u).length = digitCount n u := by
  induction n generalizing u with
  | zero => rfl
  | succ n ih =>
    unfold digitsRev digitCount
    split
    · rfl
    · rw [List.length_cons, ih]

/-- The digits of a number take up as many bytes as it is given. -/
theorem length_fmtI64 (v : Int64) : (fmtI64 v).length = i64DigitLen v := by
  unfold fmtI64 i64DigitLen
  by_cases hzero : v.toInt.natAbs = 0
  · have hnonneg : ¬ v < 0 := by
      rw [Int64.lt_iff_toInt_lt, Int.natAbs_eq_zero.mp hzero]
      decide
    simp [hzero, hnonneg]
  · by_cases hneg : v < 0
    · simp [hzero, hneg, length_digitsRev, Nat.add_comm]
    · simp [hzero, hneg, length_digitsRev]

def OK : Bytes := ascii "+OK" ++ CRLF

def PONG : Bytes := ascii "+PONG" ++ CRLF

def QUEUED : Bytes := ascii "+QUEUED" ++ CRLF

def NULL_BULK : Bytes := ascii "$-1" ++ CRLF

def NULL_ARRAY : Bytes := ascii "*-1" ++ CRLF

def EMPTY_ARRAY : Bytes := ascii "*0" ++ CRLF

def simple (s : String) : Bytes := ascii "+" ++ ascii s ++ CRLF

/-- `write_error` with the bytes of the message. -/
def errorBytes (s : Bytes) : Bytes := ascii "-" ++ s ++ CRLF

def error (s : String) : Bytes := errorBytes (ascii s)

def integer (v : Int64) : Bytes := ascii ":" ++ fmtI64 v ++ CRLF

def bulk (data : Bytes) : Bytes :=
  ascii "$" ++ fmtI64 (Int64.ofNat data.length) ++ CRLF ++ data ++ CRLF

def arrayHeader (n : ℕ) : Bytes := ascii "*" ++ fmtI64 (Int64.ofNat n) ++ CRLF

/-! ## Section 3: Text -/

/-- The ranges the bytes after the lead byte `b` of a UTF-8 sequence lie in. -/
def continuation (b : UInt8) : Option (List (UInt8 × UInt8)) :=
  if b ≤ 0x7F then some []
  else if 0xC2 ≤ b ∧ b ≤ 0xDF then some [(0x80, 0xBF)]
  else if b = 0xE0 then some [(0xA0, 0xBF), (0x80, 0xBF)]
  else if b = 0xED then some [(0x80, 0x9F), (0x80, 0xBF)]
  else if 0xE1 ≤ b ∧ b ≤ 0xEF then some [(0x80, 0xBF), (0x80, 0xBF)]
  else if b = 0xF0 then some [(0x90, 0xBF), (0x80, 0xBF), (0x80, 0xBF)]
  else if b = 0xF4 then some [(0x80, 0x8F), (0x80, 0xBF), (0x80, 0xBF)]
  else if 0xF1 ≤ b ∧ b ≤ 0xF3 then some [(0x80, 0xBF), (0x80, 0xBF), (0x80, 0xBF)]
  else none

/-- How many bytes of `s` fit the ranges, one after the other. -/
def fitting : List (UInt8 × UInt8) → Bytes → ℕ
  | (lo, hi) :: ranges, b :: s => if lo ≤ b ∧ b ≤ hi then fitting ranges s + 1 else 0
  | _, _ => 0

/-- `String::from_utf8_lossy`: each maximal ill-formed part becomes U+FFFD. -/
def utf8Lossy : ℕ → Bytes → Bytes
  | 0, _ => []
  | _ + 1, [] => []
  | n + 1, b :: s =>
    match continuation b with
    | none => [0xEF, 0xBF, 0xBD] ++ utf8Lossy n s
    | some ranges =>
      let m := fitting ranges s
      if m = ranges.length then b :: s.take m ++ utf8Lossy n (s.drop m)
      else [0xEF, 0xBF, 0xBD] ++ utf8Lossy n (s.drop m)

/-! ## Section 4: Integers in arguments -/

/-- The UTF-8 encodings of the characters `str::trim` removes. -/
def whitespace : List Bytes :=
  [[9], [10], [11], [12], [13], [32], [0xC2, 0x85], [0xC2, 0xA0], [0xE1, 0x9A, 0x80],
   [0xE2, 0x80, 0x80], [0xE2, 0x80, 0x81], [0xE2, 0x80, 0x82], [0xE2, 0x80, 0x83],
   [0xE2, 0x80, 0x84], [0xE2, 0x80, 0x85], [0xE2, 0x80, 0x86], [0xE2, 0x80, 0x87],
   [0xE2, 0x80, 0x88], [0xE2, 0x80, 0x89], [0xE2, 0x80, 0x8A], [0xE2, 0x80, 0xA8],
   [0xE2, 0x80, 0xA9], [0xE2, 0x80, 0xAF], [0xE2, 0x81, 0x9F], [0xE3, 0x80, 0x80]]

/-- Strip encodings listed in `ws` from the front, at most `n` of them. -/
def stripFront (ws : List Bytes) : ℕ → Bytes → Bytes
  | 0, s => s
  | n + 1, s =>
    match ws.find? fun w => w.isPrefixOf s with
    | some w => stripFront ws n (s.drop w.length)
    | none => s

def trim (s : Bytes) : Bytes :=
  let s := stripFront whitespace s.length s
  (stripFront (whitespace.map List.reverse) s.length s.reverse).reverse

/-- The digits of a decimal number. -/
def decimal : Bytes → ℕ → Option ℕ
  | [], v => some v
  | c :: rest, v => if isDigit c then decimal rest (v * 10 + (c.toNat - 48)) else none

/-- `str::parse::<i64>`: an optional sign, then digits, in range. -/
def parseSigned (s : Bytes) : Option Int64 :=
  let (neg, digits) : Bool × Bytes :=
    match s with
    | 45 :: rest => (true, rest)
    | 43 :: rest => (false, rest)
    | _ => (false, s)
  if digits = [] then none
  else
    (decimal digits 0).bind fun v =>
      let i : ℤ := if neg then -(v : ℤ) else v
      if -2 ^ 63 ≤ i ∧ i < 2 ^ 63 then some (Int64.ofInt i) else none

/-- Parse an `i64` from a command argument.  After trimming only ASCII digits and
    a sign are accepted, so an argument that is not UTF-8 is rejected with the rest. -/
def parseI64 (s : Bytes) : Option Int64 := parseSigned (trim s)

end Resp

end Garnet
