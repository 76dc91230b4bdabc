import MiniGarnet.Lib.Memory
import MiniGarnet.Tsavorite.Record

/-! # Records as bytes

    The layout of a record in memory (`record.rs`):

      [u64 info][u32 key_len][u32 value_len][u32 value_cap][u32 flags][expiration][key][value]

    where the eight bytes of the expiration are there if the flags say so.
    `RecordPtr` reads and writes the fields through raw pointers at offsets
    that depend on what the header says.  `RecordFields` is a record as its
    accessors show it; the operations through the pointer refine those on the
    fields (`RecordPtr.Stores`).
-/

namespace Tsavorite

/-! ## Section 1: The header word -/

namespace HeaderWord

def ADDRESS_MASK : BitVec 64 := BitVec.twoPow 64 48 - 1

def TOMBSTONE_BIT : BitVec 64 := BitVec.twoPow 64 48

def VALID_BIT : BitVec 64 := BitVec.twoPow 64 49

def IN_NEW_VERSION_BIT : BitVec 64 := BitVec.twoPow 64 50

def MODIFIED_BIT : BitVec 64 := BitVec.twoPow 64 51

def SEALED_BIT : BitVec 64 := BitVec.twoPow 64 52

/-- `RecordInfo::new` -/
def new (previousAddress : BitVec 64) (inNewVersion : Bool) : BitVec 64 :=
  let w := previousAddress &&& ADDRESS_MASK
  if inNewVersion then w ||| IN_NEW_VERSION_BIT else w

def previousAddress (w : BitVec 64) : BitVec 64 := w &&& ADDRESS_MASK

def isTombstone (w : BitVec 64) : Bool := w &&& TOMBSTONE_BIT != 0

def isValid (w : BitVec 64) : Bool := w &&& VALID_BIT != 0

def inNewVersion (w : BitVec 64) : Bool := w &&& IN_NEW_VERSION_BIT != 0

def isModified (w : BitVec 64) : Bool := w &&& MODIFIED_BIT != 0

def isSealed (w : BitVec 64) : Bool := w &&& SEALED_BIT != 0

def unsealAndValidate (w : BitVec 64) : BitVec 64 := (w ||| VALID_BIT) &&& ~~~SEALED_BIT

def trySeal (w : BitVec 64) : BitVec 64 :=
  if w &&& SEALED_BIT != 0 || w &&& VALID_BIT == 0 then w else w ||| SEALED_BIT

def sealAndInvalidate (w : BitVec 64) : BitVec 64 := (w ||| SEALED_BIT) &&& ~~~VALID_BIT

def setInvalid (w : BitVec 64) : BitVec 64 := w &&& ~~~VALID_BIT

def setTombstone (w : BitVec 64) : BitVec 64 := w ||| TOMBSTONE_BIT

def setModified (w : BitVec 64) : BitVec 64 := w ||| MODIFIED_BIT

/-- The fields of a word, as its accessors read them. -/
def decode (w : BitVec 64) : RecordInfo where
  previousAddress := (previousAddress w).toNat
  isTombstone := isTombstone w
  isValid := isValid w
  inNewVersion := inNewVersion w
  isModified := isModified w
  isSealed := isSealed w

theorem and_bit_ne_zero (w : BitVec 64) {k : ℕ} (hk : k < 64) :
    (w &&& BitVec.twoPow 64 k != 0) = w.getLsbD k := by
  rw [BitVec.and_twoPow]
  cases w.getLsbD k with
  | false => rfl
  | true =>
    have hne : BitVec.twoPow 64 k ≠ 0 := by
      intro h
      have hbit := congrArg (·.getLsbD k) h
      simp [hk] at hbit
    simpa using hne

theorem getLsbD_address_mask (i : ℕ) : ADDRESS_MASK.getLsbD i = decide (i < 48) := by
  have hmask : ADDRESS_MASK = BitVec.ofNat 64 (2 ^ 48 - 1) := rfl
  rw [hmask, BitVec.getLsbD_ofNat, Nat.testBit_two_pow_sub_one]
  by_cases h : i < 48
  · simp [h, show i < 64 by omega]
  · simp [h]

theorem decode_bits (w : BitVec 64) : decode w = ⟨(w &&& ADDRESS_MASK).toNat, w.getLsbD 48,
    w.getLsbD 49, w.getLsbD 50, w.getLsbD 51, w.getLsbD 52⟩ := by
  simp only [decode, previousAddress, isTombstone, isValid, inNewVersion, isModified, isSealed,
    TOMBSTONE_BIT, VALID_BIT, IN_NEW_VERSION_BIT, MODIFIED_BIT, SEALED_BIT,
    and_bit_ne_zero _ (by decide : 48 < 64), and_bit_ne_zero _ (by decide : 49 < 64),
    and_bit_ne_zero _ (by decide : 50 < 64), and_bit_ne_zero _ (by decide : 51 < 64),
    and_bit_ne_zero _ (by decide : 52 < 64)]

/-- The address field is the low 48 bits. -/
theorem address_congr {w w' : BitVec 64} (h : ∀ i < 48, w.getLsbD i = w'.getLsbD i) :
    w &&& ADDRESS_MASK = w' &&& ADDRESS_MASK := by
  apply BitVec.eq_of_getLsbD_eq
  intro i _
  rw [BitVec.getLsbD_and, BitVec.getLsbD_and, getLsbD_address_mask]
  by_cases hi : i < 48
  · rw [h i hi]
  · simp [hi]

theorem getLsbD_or_flag (w : BitVec 64) {k i : ℕ} (hk : k < 64) :
    (w ||| BitVec.twoPow 64 k).getLsbD i = (w.getLsbD i || decide (k = i)) := by
  rw [BitVec.getLsbD_or, BitVec.getLsbD_twoPow, decide_eq_true hk, Bool.true_and]

theorem getLsbD_clear_flag (w : BitVec 64) {k i : ℕ} :
    (w &&& ~~~BitVec.twoPow 64 k).getLsbD i = (w.getLsbD i && !decide (k = i)) := by
  by_cases hi : i < 64
  · simp [hi, eq_comm]
  · simp [BitVec.getLsbD_of_ge w i (by omega)]

/-- Setting and clearing flags leaves the address field alone. -/
theorem decode_of_flags {w w' : BitVec 64} (on off : ℕ → Bool)
    (hbits : ∀ i, w'.getLsbD i = ((w.getLsbD i || on i) && !off i))
    (hon : ∀ i < 48, on i = false) (hoff : ∀ i < 48, off i = false) :
    decode w' = ⟨(decode w).previousAddress, ((decode w).isTombstone || on 48) && !off 48,
      ((decode w).isValid || on 49) && !off 49, ((decode w).inNewVersion || on 50) && !off 50,
      ((decode w).isModified || on 51) && !off 51, ((decode w).isSealed || on 52) && !off 52⟩ := by
  have haddr : w' &&& ADDRESS_MASK = w &&& ADDRESS_MASK := by
    apply address_congr
    intro i hi
    rw [hbits, hon i hi, hoff i hi, Bool.or_false, Bool.not_false, Bool.and_true]
  simp only [decode_bits, haddr, hbits]

theorem decode_set (w : BitVec 64) {k : ℕ} (hk : 48 ≤ k) (hlt : k < 64) :
    decode (w ||| BitVec.twoPow 64 k) = ⟨(decode w).previousAddress,
      (decode w).isTombstone || decide (k = 48), (decode w).isValid || decide (k = 49),
      (decode w).inNewVersion || decide (k = 50), (decode w).isModified || decide (k = 51),
      (decode w).isSealed || decide (k = 52)⟩ := by
  rw [decode_of_flags (w := w) (fun i => decide (k = i)) (fun _ => false)
    (fun i => by rw [getLsbD_or_flag w hlt, Bool.not_false, Bool.and_true])
    (fun i hi => decide_eq_false (by omega)) (fun _ _ => rfl)]
  simp only [Bool.not_false, Bool.and_true]

theorem decode_clear (w : BitVec 64) {k : ℕ} (hk : 48 ≤ k) :
    decode (w &&& ~~~BitVec.twoPow 64 k) = ⟨(decode w).previousAddress,
      (decode w).isTombstone && !decide (k = 48), (decode w).isValid && !decide (k = 49),
      (decode w).inNewVersion && !decide (k = 50), (decode w).isModified && !decide (k = 51),
      (decode w).isSealed && !decide (k = 52)⟩ := by
  rw [decode_of_flags (w := w) (fun _ => false) (fun i => decide (k = i))
    (fun i => by rw [getLsbD_clear_flag w, Bool.or_false]) (fun _ _ => rfl)
    (fun i hi => decide_eq_false (by omega))]
  simp only [Bool.or_false]

theorem decode_setTombstone (w : BitVec 64) :
    decode (setTombstone w) = (decode w).setTombstone := by
  rw [setTombstone, TOMBSTONE_BIT, decode_set w (by decide) (by decide)]
  simp [RecordInfo.setTombstone]

theorem decode_setModified (w : BitVec 64) : decode (setModified w) = (decode w).setModified := by
  rw [setModified, MODIFIED_BIT, decode_set w (by decide) (by decide)]
  simp [RecordInfo.setModified]

theorem decode_setInvalid (w : BitVec 64) : decode (setInvalid w) = (decode w).setInvalid := by
  rw [setInvalid, VALID_BIT, decode_clear w (by decide)]
  simp [RecordInfo.setInvalid]

theorem decode_seal (w : BitVec 64) :
    decode (w ||| SEALED_BIT) = { decode w with isSealed := true } := by
  rw [SEALED_BIT, decode_set w (by decide) (by decide)]
  simp

theorem decode_unsealAndValidate (w : BitVec 64) :
    decode (unsealAndValidate w) = (decode w).unsealAndValidate := by
  rw [unsealAndValidate, VALID_BIT, SEALED_BIT, decode_clear _ (by decide),
    decode_set w (by decide) (by decide)]
  simp [RecordInfo.unsealAndValidate]

theorem decode_sealAndInvalidate (w : BitVec 64) :
    decode (sealAndInvalidate w) = (decode w).sealAndInvalidate := by
  rw [sealAndInvalidate, VALID_BIT, decode_clear _ (by decide), decode_seal]
  simp [RecordInfo.sealAndInvalidate]

theorem decode_trySeal (w : BitVec 64) : decode (trySeal w) = (decode w).trySeal := by
  have hclosed : (w &&& SEALED_BIT != 0 || w &&& VALID_BIT == 0) =
      ((decode w).isSealed || !(decode w).isValid) := by
    simp only [decode, isSealed, isValid, bne, Bool.not_not]
  unfold trySeal RecordInfo.trySeal
  rw [hclosed, apply_ite decode, decode_seal]

theorem decode_new (prev : BitVec 64) (inNewVersion : Bool) :
    decode (new prev inNewVersion) = RecordInfo.new prev.toNat inNewVersion := by
  have hmask : ∀ i, (prev &&& ADDRESS_MASK).getLsbD i = (prev.getLsbD i && decide (i < 48)) := by
    intro i
    rw [BitVec.getLsbD_and, getLsbD_address_mask]
  have haddr : (prev &&& ADDRESS_MASK).toNat = maskAddress prev.toNat := by
    rw [BitVec.toNat_and]
    exact Nat.and_two_pow_sub_one_eq_mod prev.toNat 48
  have hplain : decode (prev &&& ADDRESS_MASK) = RecordInfo.new prev.toNat false := by
    have hidem : prev &&& ADDRESS_MASK &&& ADDRESS_MASK = prev &&& ADDRESS_MASK := by
      rw [BitVec.and_assoc, BitVec.and_self]
    rw [decode_bits, hidem, haddr]
    simp only [hmask]
    simp [RecordInfo.new, RecordInfo.zero]
  unfold new
  cases inNewVersion with
  | false => exact hplain
  | true =>
    rw [if_pos rfl, IN_NEW_VERSION_BIT, decode_set _ (by decide) (by decide), hplain]
    rfl

end HeaderWord

/-! ## Section 2: Accessors -/

def RECORD_INFO_SIZE : ℕ := 8

def FLAG_HAS_EXPIRATION : ℕ := 1

/-- Raw accessor over a record living at `ptr`. -/
structure RecordPtr where
  ptr : ℕ
  deriving DecidableEq, Repr

/-- The little-endian bytes of an `i64`. -/
def i64Bytes (ts : Int64) : List UInt8 := LittleEndian.toBytes 8 ts.toUInt64.toNat

namespace RecordPtr

/-- `self.info().load()` -/
def info (self : RecordPtr) (m : Memory) : BitVec 64 := BitVec.ofNat 64 (m.readLE self.ptr 8)

/-- `self.info().store(w)` -/
def setInfo (self : RecordPtr) (w : BitVec 64) (m : Memory) : Memory :=
  m.writeLE self.ptr 8 w.toNat

def hdrU32 (self : RecordPtr) (m : Memory) (i : ℕ) : ℕ :=
  m.readLE (self.ptr + RECORD_INFO_SIZE + 4 * i) 4

def setHdrU32 (self : RecordPtr) (i v : ℕ) (m : Memory) : Memory :=
  m.writeLE (self.ptr + RECORD_INFO_SIZE + 4 * i) 4 v

def keyLen (self : RecordPtr) (m : Memory) : ℕ := self.hdrU32 m 0

def valueLen (self : RecordPtr) (m : Memory) : ℕ := self.hdrU32 m 1

def valueCap (self : RecordPtr) (m : Memory) : ℕ := self.hdrU32 m 2

def flags (self : RecordPtr) (m : Memory) : ℕ := self.hdrU32 m 3

def hasExpirationSlot (self : RecordPtr) (m : Memory) : Bool :=
  self.flags m &&& FLAG_HAS_EXPIRATION != 0

def keyOffset (self : RecordPtr) (m : Memory) : ℕ :=
  FIXED_HEADER_SIZE + if self.hasExpirationSlot m then EXPIRATION_SIZE else 0

def key (self : RecordPtr) (m : Memory) : List UInt8 :=
  m.read (self.ptr + self.keyOffset m) (self.keyLen m)

def value (self : RecordPtr) (m : Memory) : List UInt8 :=
  m.read (self.ptr + (self.keyOffset m + self.keyLen m)) (self.valueLen m)

/-- What `value_buf_mut` lends out. -/
def valueBuf (self : RecordPtr) (m : Memory) : List UInt8 :=
  m.read (self.ptr + (self.keyOffset m + self.keyLen m)) (self.valueCap m)

/-- `value_buf_mut()[i..i + bs.len()].copy_from_slice(bs)` -/
def writeValue (self : RecordPtr) (i : ℕ) (bs : List UInt8) (m : Memory) : Memory :=
  m.write (self.ptr + (self.keyOffset m + self.keyLen m) + i) bs

def setValueLen (self : RecordPtr) (n : ℕ) (m : Memory) : Memory := self.setHdrU32 1 n m

/-- Expiration timestamp (0 = none).  Returns 0 when the record has no slot. -/
def expiration (self : RecordPtr) (m : Memory) : Int64 :=
  if self.hasExpirationSlot m then
    (UInt64.ofNat (m.readLE (self.ptr + FIXED_HEADER_SIZE) 8)).toInt64
  else 0

/-- The memory afterwards, and false if the record has no expiration slot. -/
def setExpiration (self : RecordPtr) (ts : Int64) (m : Memory) : Memory × Bool :=
  if self.hasExpirationSlot m then (m.write (self.ptr + FIXED_HEADER_SIZE) (i64Bytes ts), true)
  else (m, false)

/-- Total bytes occupied by this record (8-aligned). -/
def totalSize (self : RecordPtr) (m : Memory) : ℕ :=
  align8 (self.keyOffset m + self.keyLen m + self.valueCap m)

/-- Copy the raw bytes of this record. -/
def toBytes (self : RecordPtr) (m : Memory) : List UInt8 := m.read self.ptr (self.totalSize m)

/-- Initialize a freshly allocated record, sealed and invalid. -/
def init (self : RecordPtr) (previousAddress : BitVec 64) (inNewVersion : Bool)
    (size : RecordSizeInfo) (key : Key) (m : Memory) : Memory :=
  let m := self.setInfo (HeaderWord.new previousAddress inNewVersion ||| HeaderWord.SEALED_BIT) m
  let m := self.setHdrU32 0 key.length m
  let m := self.setHdrU32 1 0 m
  let m := self.setHdrU32 2 size.valueCap m
  let m := self.setHdrU32 3 (if size.hasExpiration then FLAG_HAS_EXPIRATION else 0) m
  let m := if size.hasExpiration then (self.setExpiration 0 m).1 else m
  m.write (self.ptr + self.keyOffset m) key

end RecordPtr

/-- Given the first `MIN_DISK_READ` bytes of a record, compute its total size. -/
def totalSizeFromHeader (hdr : List UInt8) : ℕ :=
  let u := fun i => LittleEndian.ofBytes
    ((hdr.take (RECORD_INFO_SIZE + 4 * i + 4)).drop (RECORD_INFO_SIZE + 4 * i))
  let keyLen := u 0
  let valueCap := u 2
  let flags := u 3
  let exp := if flags &&& FLAG_HAS_EXPIRATION != 0 then EXPIRATION_SIZE else 0
  align8 (FIXED_HEADER_SIZE + exp + keyLen + valueCap)

/-! ## Section 3: The fields of a record -/

/-- A record as its accessors show it: `buffer` is the whole value capacity. -/
structure RecordFields where
  info : RecordInfo
  key : Key
  valueLen : ℕ
  buffer : List UInt8
  expiration : Option Int64

/-- What is done to a record through its pointer once it is initialised. -/
inductive RecordOp where
  | setValueLen (n : ℕ)
  | writeValue (i : ℕ) (bs : List UInt8)
  | setExpiration (ts : Int64)
  | unsealAndValidate
  | trySeal
  | sealAndInvalidate
  | setInvalid
  | setTombstone
  | setModified

/-- The operation stays within the capacity. -/
def RecordOp.Within (valueCap : ℕ) : RecordOp → Prop
  | setValueLen n => n ≤ valueCap
  | writeValue i bs => i + bs.length ≤ valueCap
  | _ => True

namespace RecordFields

/-- The fields of a record right after `init`; the value buffer is what was there before. -/
def init (previousAddress : BitVec 64) (inNewVersion : Bool) (size : RecordSizeInfo) (key : Key)
    (buffer : List UInt8) : RecordFields where
  info := { RecordInfo.new previousAddress.toNat inNewVersion with isSealed := true }
  key := key
  valueLen := 0
  buffer := buffer
  expiration := if size.hasExpiration then some 0 else none

/-- Each operation changes its own field. -/
def apply (f : RecordFields) : RecordOp → RecordFields
  | .setValueLen n => { f with valueLen := n }
  | .writeValue i bs => { f with buffer := f.buffer.take i ++ bs ++ f.buffer.drop (i + bs.length) }
  | .setExpiration ts => { f with expiration := f.expiration.map fun _ => ts }
  | .unsealAndValidate => { f with info := f.info.unsealAndValidate }
  | .trySeal => { f with info := f.info.trySeal }
  | .sealAndInvalidate => { f with info := f.info.sealAndInvalidate }
  | .setInvalid => { f with info := f.info.setInvalid }
  | .setTombstone => { f with info := f.info.setTombstone }
  | .setModified => { f with info := f.info.setModified }

/-- The lengths fit their fields, and the value its capacity. -/
structure Fits (f : RecordFields) : Prop where
  key : f.key.length < 2 ^ 32
  buffer : f.buffer.length < 2 ^ 32
  value : f.valueLen ≤ f.buffer.length

def slotSize (f : RecordFields) : ℕ := if f.expiration.isSome then EXPIRATION_SIZE else 0

def keyOffset (f : RecordFields) : ℕ := FIXED_HEADER_SIZE + f.slotSize

/-- The bytes in use, without the padding. -/
def rawSize (f : RecordFields) : ℕ := f.keyOffset + f.key.length + f.buffer.length

def totalSize (f : RecordFields) : ℕ := align8 f.rawSize

def flags (f : RecordFields) : ℕ := if f.expiration.isSome then FLAG_HAS_EXPIRATION else 0

def slot (f : RecordFields) : List UInt8 := (f.expiration.map i64Bytes).getD []

/-- The layout, with the header word `w`. -/
def segments (f : RecordFields) (w : BitVec 64) : List (List UInt8) :=
  [LittleEndian.toBytes 8 w.toNat, LittleEndian.toBytes 4 f.key.length,
    LittleEndian.toBytes 4 f.valueLen, LittleEndian.toBytes 4 f.buffer.length,
    LittleEndian.toBytes 4 f.flags, f.slot, f.key, f.buffer]

end RecordFields

/-- One operation through the pointer. -/
def RecordPtr.apply (self : RecordPtr) (m : Memory) : RecordOp → Memory
  | .setValueLen n => self.setValueLen n m
  | .writeValue i bs => self.writeValue i bs m
  | .setExpiration ts => (self.setExpiration ts m).1
  | .unsealAndValidate => self.setInfo (HeaderWord.unsealAndValidate (self.info m)) m
  | .trySeal => self.setInfo (HeaderWord.trySeal (self.info m)) m
  | .sealAndInvalidate => self.setInfo (HeaderWord.sealAndInvalidate (self.info m)) m
  | .setInvalid => self.setInfo (HeaderWord.setInvalid (self.info m)) m
  | .setTombstone => self.setInfo (HeaderWord.setTombstone (self.info m)) m
  | .setModified => self.setInfo (HeaderWord.setModified (self.info m)) m

/-- The memory at the pointer is the layout of these fields. -/
structure RecordPtr.Stores (p : RecordPtr) (m : Memory) (f : RecordFields) : Prop where
  fits : f.Fits
  layout : ∃ w, HeaderWord.decode w = f.info ∧ m.Holds p.ptr (f.segments w)

/-! ## Section 4: Reading the fields -/

namespace RecordFields

variable {f : RecordFields}

theorem flags_and (f : RecordFields) : (f.flags &&& FLAG_HAS_EXPIRATION != 0) =
    f.expiration.isSome := by
  unfold flags
  cases f.expiration.isSome <;> rfl

theorem length_slot (f : RecordFields) : f.slot.length = f.slotSize := by
  unfold slot slotSize
  cases f.expiration with
  | none => rfl
  | some ts => exact LittleEndian.length_toBytes 8 _

theorem length_segments (f : RecordFields) (w : BitVec 64) :
    (f.segments w).flatten.length = f.rawSize := by
  simp only [segments, List.flatten_cons, List.flatten_nil, List.length_append,
    LittleEndian.length_toBytes, length_slot, List.length_nil, rawSize, keyOffset]
  have : FIXED_HEADER_SIZE = 24 := rfl
  omega

theorem flags_lt (f : RecordFields) : f.flags < 256 ^ 4 := by
  unfold flags
  split <;> decide

end RecordFields

namespace RecordPtr.Stores

variable {p : RecordPtr} {m : Memory} {f : RecordFields}

theorem info (h : p.Stores m f) : HeaderWord.decode (p.info m) = f.info := by
  obtain ⟨w, hw, hm⟩ := h.layout
  have hread : m.readLE p.ptr 8 = w.toNat := hm.readLE [] _ w.isLt rfl
  rw [RecordPtr.info, hread, BitVec.ofNat_toNat, BitVec.setWidth_eq, hw]

theorem keyLen (h : p.Stores m f) : p.keyLen m = f.key.length := by
  obtain ⟨w, -, hm⟩ := h.layout
  exact hm.readLE [LittleEndian.toBytes 8 w.toNat] _ h.fits.key (by simp [RECORD_INFO_SIZE])

theorem valueLen (h : p.Stores m f) : p.valueLen m = f.valueLen := by
  obtain ⟨w, -, hm⟩ := h.layout
  exact hm.readLE [LittleEndian.toBytes 8 w.toNat, LittleEndian.toBytes 4 f.key.length] _
    (Nat.lt_of_le_of_lt h.fits.value h.fits.buffer) (by simp [RECORD_INFO_SIZE, Nat.add_assoc])

theorem valueCap (h : p.Stores m f) : p.valueCap m = f.buffer.length := by
  obtain ⟨w, -, hm⟩ := h.layout
  exact hm.readLE [LittleEndian.toBytes 8 w.toNat, LittleEndian.toBytes 4 f.key.length,
    LittleEndian.toBytes 4 f.valueLen] _ h.fits.buffer (by simp [RECORD_INFO_SIZE, Nat.add_assoc])

theorem flags (h : p.Stores m f) : p.flags m = f.flags := by
  obtain ⟨w, -, hm⟩ := h.layout
  exact hm.readLE [LittleEndian.toBytes 8 w.toNat, LittleEndian.toBytes 4 f.key.length,
    LittleEndian.toBytes 4 f.valueLen, LittleEndian.toBytes 4 f.buffer.length] _ f.flags_lt
    (by simp [RECORD_INFO_SIZE, Nat.add_assoc])

theorem hasExpirationSlot (h : p.Stores m f) :
    p.hasExpirationSlot m = f.expiration.isSome := by
  rw [RecordPtr.hasExpirationSlot, h.flags, f.flags_and]

theorem keyOffset (h : p.Stores m f) : p.keyOffset m = f.keyOffset := by
  rw [RecordPtr.keyOffset, h.hasExpirationSlot]
  rfl

theorem totalSize (h : p.Stores m f) : p.totalSize m = f.totalSize := by
  rw [RecordPtr.totalSize, h.keyOffset, h.keyLen, h.valueCap]
  rfl

/-- What stands in front of the expiration. -/
def header (f : RecordFields) (w : BitVec 64) : List (List UInt8) :=
  [LittleEndian.toBytes 8 w.toNat, LittleEndian.toBytes 4 f.key.length,
    LittleEndian.toBytes 4 f.valueLen, LittleEndian.toBytes 4 f.buffer.length,
    LittleEndian.toBytes 4 f.flags]

theorem length_header (f : RecordFields) (w : BitVec 64) :
    (header f w).flatten.length = FIXED_HEADER_SIZE := by
  simp [header, FIXED_HEADER_SIZE]

theorem length_header_slot (f : RecordFields) (w : BitVec 64) :
    (header f w ++ [f.slot]).flatten.length = f.keyOffset := by
  rw [List.flatten_append, List.length_append, length_header, List.flatten_singleton,
    f.length_slot]
  rfl

theorem length_header_key (f : RecordFields) (w : BitVec 64) :
    (header f w ++ [f.slot, f.key]).flatten.length = f.keyOffset + f.key.length := by
  rw [List.flatten_append, List.length_append, length_header]
  simp [f.length_slot, RecordFields.keyOffset, Nat.add_assoc]

theorem key (h : p.Stores m f) : p.key m = f.key := by
  obtain ⟨w, -, hm⟩ := h.layout
  have hread := Memory.Holds.read (header f w ++ [f.slot]) [f.buffer] hm
  rw [length_header_slot] at hread
  rw [RecordPtr.key, h.keyOffset, h.keyLen, hread]

theorem valueBuf (h : p.Stores m f) : p.valueBuf m = f.buffer := by
  obtain ⟨w, -, hm⟩ := h.layout
  have hread := Memory.Holds.read (header f w ++ [f.slot, f.key]) [] hm
  rw [length_header_key] at hread
  rw [RecordPtr.valueBuf, h.keyOffset, h.keyLen, h.valueCap, hread]

theorem value (h : p.Stores m f) : p.value m = f.buffer.take f.valueLen := by
  obtain ⟨rest, hrest⟩ := Nat.exists_eq_add_of_le h.fits.value
  have hbuf := h.valueBuf
  rw [RecordPtr.valueBuf, h.valueCap, hrest, Memory.read_add] at hbuf
  rw [RecordPtr.value, h.valueLen, ← hbuf, List.take_append_of_le_length (by simp),
    List.take_of_length_le (by simp)]

theorem expiration (h : p.Stores m f) : p.expiration m = f.expiration.getD 0 := by
  obtain ⟨w, -, hm⟩ := h.layout
  rw [RecordPtr.expiration, h.hasExpirationSlot]
  cases hexp : f.expiration with
  | none => rfl
  | some ts =>
    have hslot : f.slot = i64Bytes ts := by rw [RecordFields.slot, hexp]; rfl
    rw [RecordFields.segments, hslot] at hm
    have hread : m.readLE (p.ptr + FIXED_HEADER_SIZE) 8 = ts.toUInt64.toNat :=
      Memory.Holds.readLE (header f w) [f.key, f.buffer] hm ts.toUInt64.toNat_lt
        (by rw [length_header])
    rw [Option.isSome_some, if_pos rfl, hread, UInt64.ofNat_toNat, Option.getD_some]
    exact Int64.toInt64_toUInt64 ts

end RecordPtr.Stores

/-! ## Section 5: Writing the fields -/

namespace RecordFields

variable {f : RecordFields}

theorem Fits.apply (h : f.Fits) {op : RecordOp} (hop : op.Within f.buffer.length) :
    (f.apply op).Fits ∧ (f.apply op).buffer.length = f.buffer.length := by
  cases op with
  | setValueLen n => exact ⟨⟨h.key, h.buffer, hop⟩, rfl⟩
  | writeValue i bs =>
    have hlen : (f.buffer.take i ++ bs ++ f.buffer.drop (i + bs.length)).length =
        f.buffer.length := by
      have : i + bs.length ≤ f.buffer.length := hop
      simp only [List.length_append, List.length_take, List.length_drop]
      omega
    exact ⟨⟨h.key, hlen ▸ h.buffer, hlen ▸ h.value⟩, hlen⟩
  | setExpiration | unsealAndValidate | trySeal | sealAndInvalidate | setInvalid | setTombstone
  | setModified => exact ⟨⟨h.key, h.buffer, h.value⟩, rfl⟩

theorem apply_key (f : RecordFields) (op : RecordOp) : (f.apply op).key = f.key := by
  cases op <;> rfl

theorem apply_slotSize (f : RecordFields) (op : RecordOp) :
    (f.apply op).slotSize = f.slotSize := by
  cases op with
  | setExpiration ts =>
    unfold slotSize apply
    cases f.expiration <;> rfl
  | _ => rfl

theorem Fits.apply_rawSize (h : f.Fits) {op : RecordOp} (hop : op.Within f.buffer.length) :
    (f.apply op).rawSize = f.rawSize := by
  rw [rawSize, rawSize, keyOffset, keyOffset, f.apply_slotSize, f.apply_key, (h.apply hop).2]

theorem header_le_rawSize (f : RecordFields) : FIXED_HEADER_SIZE ≤ f.rawSize := by
  unfold rawSize keyOffset
  omega

end RecordFields

namespace RecordPtr.Stores

variable {p : RecordPtr} {m : Memory} {f : RecordFields}

theorem setInfo (h : p.Stores m f) (w : BitVec 64) :
    p.Stores (p.setInfo w m) { f with info := HeaderWord.decode w } := by
  obtain ⟨w₀, -, hm⟩ := h.layout
  refine ⟨⟨h.fits.key, h.fits.buffer, h.fits.value⟩, w, rfl, ?_⟩
  exact hm.writeLE [] _ (LittleEndian.length_toBytes 8 _) rfl

theorem setValueLen (h : p.Stores m f) {n : ℕ} (hn : n ≤ f.buffer.length) :
    p.Stores (p.setValueLen n m) { f with valueLen := n } := by
  obtain ⟨w, hw, hm⟩ := h.layout
  refine ⟨⟨h.fits.key, h.fits.buffer, hn⟩, w, hw, ?_⟩
  exact hm.writeLE [LittleEndian.toBytes 8 w.toNat, LittleEndian.toBytes 4 f.key.length] _
    (LittleEndian.length_toBytes 4 _) (by simp [RECORD_INFO_SIZE, Nat.add_assoc])

theorem setExpiration (h : p.Stores m f) (ts : Int64) :
    p.Stores (p.setExpiration ts m).1 { f with expiration := f.expiration.map fun _ => ts } ∧
      (p.setExpiration ts m).2 = f.expiration.isSome := by
  obtain ⟨w, hw, hm⟩ := h.layout
  rw [RecordPtr.setExpiration, h.hasExpirationSlot]
  cases hexp : f.expiration with
  | none =>
    refine ⟨⟨⟨h.fits.key, h.fits.buffer, h.fits.value⟩, w, hw, ?_⟩, rfl⟩
    have hsame : f.segments w = RecordFields.segments { f with expiration := none } w := by
      simp only [RecordFields.segments, RecordFields.flags, RecordFields.slot, hexp]
    exact hsame ▸ hm
  | some old =>
    refine ⟨⟨⟨h.fits.key, h.fits.buffer, h.fits.value⟩, w, hw, ?_⟩, rfl⟩
    have hslot : f.slot = i64Bytes old := by rw [RecordFields.slot, hexp]; rfl
    have hlen : (i64Bytes ts).length = f.slot.length := by
      rw [hslot, i64Bytes, i64Bytes, LittleEndian.length_toBytes, LittleEndian.length_toBytes]
    have haddr : p.ptr + FIXED_HEADER_SIZE = p.ptr + (header f w).flatten.length := by
      rw [length_header]
    have hwrite := hm.write (header f w) [f.key, f.buffer] hlen haddr
    have hflags : f.flags = RecordFields.flags { f with expiration := some ts } := by
      simp only [RecordFields.flags, hexp, Option.isSome_some]
    rw [header, hflags] at hwrite
    exact hwrite

theorem writeValue (h : p.Stores m f) {i : ℕ} {bs : List UInt8}
    (hi : i + bs.length ≤ f.buffer.length) :
    p.Stores (p.writeValue i bs m)
      { f with buffer := f.buffer.take i ++ bs ++ f.buffer.drop (i + bs.length) } := by
  obtain ⟨w, hw, hm⟩ := h.layout
  have hlen : (f.buffer.take i ++ bs ++ f.buffer.drop (i + bs.length)).length =
      f.buffer.length := by
    simp only [List.length_append, List.length_take, List.length_drop]
    omega
  have hwithin : (RecordOp.writeValue i bs).Within f.buffer.length := hi
  refine ⟨(h.fits.apply hwithin).1, w, hw, ?_⟩
  -- The buffer is cut at both ends of the range that is written.
  have hcut : m.Holds p.ptr (header f w ++ [f.slot, f.key, f.buffer.take i] ++
      (f.buffer.drop i).take bs.length :: [f.buffer.drop (i + bs.length)]) := by
    apply hm.recut
    have hback : (f.buffer.drop i).take bs.length ++ f.buffer.drop (i + bs.length) =
        f.buffer.drop i := by
      rw [← List.drop_drop, List.take_append_drop]
    simp only [RecordFields.segments, header, List.flatten_append, List.flatten_cons,
      List.flatten_nil, List.append_assoc, List.append_nil, hback, List.take_append_drop]
  have hmid : bs.length = ((f.buffer.drop i).take bs.length).length := by
    rw [List.length_take, List.length_drop]
    omega
  have haddr : p.ptr + (p.keyOffset m + p.keyLen m) + i =
      p.ptr + (header f w ++ [f.slot, f.key, f.buffer.take i]).flatten.length := by
    rw [h.keyOffset, h.keyLen, List.flatten_append, List.length_append, length_header]
    simp only [List.flatten_cons, List.flatten_nil, List.length_append, List.length_nil,
      List.length_take, f.length_slot, RecordFields.keyOffset]
    omega
  have hwrite := hcut.write _ _ hmid haddr
  apply hwrite.recut
  simp only [RecordFields.segments, RecordFields.flags, RecordFields.slot, header, hlen,
    List.flatten_append, List.flatten_cons, List.flatten_nil, List.append_nil]
  simp only [List.append_assoc]

/-- The operation on the bytes is the one on the fields. -/
theorem apply (h : p.Stores m f) {op : RecordOp} (hop : op.Within f.buffer.length) :
    p.Stores (p.apply m op) (f.apply op) := by
  have hinfo : ∀ {word : BitVec 64 → BitVec 64} {field : RecordInfo → RecordInfo},
      (∀ w, HeaderWord.decode (word w) = field (HeaderWord.decode w)) →
      p.Stores (p.setInfo (word (p.info m)) m) { f with info := field f.info } := by
    intro word field hword
    rw [← h.info, ← hword]
    exact h.setInfo _
  cases op with
  | setValueLen n => exact h.setValueLen hop
  | writeValue i bs => exact h.writeValue hop
  | setExpiration ts => exact (h.setExpiration ts).1
  | unsealAndValidate => exact hinfo HeaderWord.decode_unsealAndValidate
  | trySeal => exact hinfo HeaderWord.decode_trySeal
  | sealAndInvalidate => exact hinfo HeaderWord.decode_sealAndInvalidate
  | setInvalid => exact hinfo HeaderWord.decode_setInvalid
  | setTombstone => exact hinfo HeaderWord.decode_setTombstone
  | setModified => exact hinfo HeaderWord.decode_setModified

/-- The operation leaves everything outside the record alone, its padding included. -/
theorem apply_outside (h : p.Stores m f) {op : RecordOp} (hop : op.Within f.buffer.length) {x : ℕ}
    (hx : x < p.ptr ∨ p.ptr + f.rawSize ≤ x) : p.apply m op x = m x := by
  have hheader := f.header_le_rawSize
  have hsize : FIXED_HEADER_SIZE = 24 := rfl
  have hinfo : ∀ w, p.setInfo w m x = m x := fun w =>
    Memory.writeLE_apply_outside (by omega)
  cases op with
  | setValueLen n =>
    apply Memory.writeLE_apply_outside
    have : RECORD_INFO_SIZE = 8 := rfl
    omega
  | writeValue i bs =>
    apply Memory.write_apply_outside
    have : i + bs.length ≤ f.buffer.length := hop
    rw [h.keyOffset, h.keyLen]
    unfold RecordFields.rawSize at hx
    omega
  | setExpiration ts =>
    show (p.setExpiration ts m).1 x = m x
    rw [RecordPtr.setExpiration, h.hasExpirationSlot]
    cases hexp : f.expiration.isSome with
    | false => rfl
    | true =>
      apply Memory.write_apply_outside
      rw [i64Bytes, LittleEndian.length_toBytes]
      rw [RecordFields.rawSize, RecordFields.keyOffset, RecordFields.slotSize, if_pos hexp] at hx
      have : EXPIRATION_SIZE = 8 := rfl
      omega
  | unsealAndValidate => exact hinfo _
  | trySeal => exact hinfo _
  | sealAndInvalidate => exact hinfo _
  | setInvalid => exact hinfo _
  | setTombstone => exact hinfo _
  | setModified => exact hinfo _

end RecordPtr.Stores

/-! ## Section 6: Initialisation -/

/-- Where the value of a record initialised for `size` begins. -/
def RecordSizeInfo.valueOffset (size : RecordSizeInfo) : ℕ :=
  FIXED_HEADER_SIZE + (if size.hasExpiration then EXPIRATION_SIZE else 0) + size.keyLen

section Init

variable {p : RecordPtr} {m : Memory} {size : RecordSizeInfo} {key : Key}

theorem RecordPtr.holds_setHdrU32 (front behind : List (List UInt8)) {seg : List UInt8} {i v : ℕ}
    (h : m.Holds p.ptr (front ++ seg :: behind)) (hseg : seg.length = 4)
    (hfront : front.flatten.length = 8 + 4 * i) :
    (p.setHdrU32 i v m).Holds p.ptr (front ++ LittleEndian.toBytes 4 v :: behind) :=
  h.writeLE front behind hseg (by rw [hfront, RECORD_INFO_SIZE]; omega)

/-- The five header stores of `init`. -/
def RecordPtr.initHeader (self : RecordPtr) (w : BitVec 64) (size : RecordSizeInfo) (m : Memory) :
    Memory :=
  self.setHdrU32 3 (if size.hasExpiration then FLAG_HAS_EXPIRATION else 0)
    (self.setHdrU32 2 size.valueCap (self.setHdrU32 1 0 (self.setHdrU32 0 size.keyLen
      (self.setInfo w m))))

/-- The header `init` writes for `size`. -/
def RecordSizeInfo.header (size : RecordSizeInfo) (w : BitVec 64) : List (List UInt8) :=
  [LittleEndian.toBytes 8 w.toNat, LittleEndian.toBytes 4 size.keyLen, LittleEndian.toBytes 4 0,
    LittleEndian.toBytes 4 size.valueCap,
    LittleEndian.toBytes 4 (if size.hasExpiration then FLAG_HAS_EXPIRATION else 0)]

theorem RecordSizeInfo.length_header (size : RecordSizeInfo) (w : BitVec 64) :
    (size.header w).flatten.length = FIXED_HEADER_SIZE := by
  simp [header, FIXED_HEADER_SIZE]

/-- The header is written field by field, and what lies behind it is left as it is. -/
theorem RecordPtr.holds_initHeader {w : BitVec 64} {rest : List (List UInt8)}
    (h : m.Holds (p.ptr + FIXED_HEADER_SIZE) rest) :
    (p.initHeader w size m).Holds p.ptr (size.header w ++ rest) := by
  have h₀ : m.Holds p.ptr (m.read p.ptr 8 :: m.read (p.ptr + 8) 4 :: m.read (p.ptr + 12) 4 ::
      m.read (p.ptr + 16) 4 :: m.read (p.ptr + 20) 4 :: rest) := by
    simpa [Memory.holds_cons, Nat.add_assoc, FIXED_HEADER_SIZE] using h
  have h₁ : (p.setInfo w m).Holds p.ptr _ := h₀.writeLE [] _ Memory.length_read rfl
  have h₂ : (p.setHdrU32 0 size.keyLen _).Holds p.ptr _ :=
    RecordPtr.holds_setHdrU32 [_] _ h₁ Memory.length_read (by simp)
  have h₃ : (p.setHdrU32 1 0 _).Holds p.ptr _ :=
    RecordPtr.holds_setHdrU32 [_, _] _ h₂ Memory.length_read (by simp)
  have h₄ : (p.setHdrU32 2 size.valueCap _).Holds p.ptr _ :=
    RecordPtr.holds_setHdrU32 [_, _, _] _ h₃ Memory.length_read (by simp)
  exact RecordPtr.holds_setHdrU32 [_, _, _, _] _ h₄ Memory.length_read (by simp)

theorem RecordPtr.initHeader_outside {w : BitVec 64} {x : ℕ}
    (hx : x < p.ptr ∨ p.ptr + FIXED_HEADER_SIZE ≤ x) : p.initHeader w size m x = m x := by
  have hsize : FIXED_HEADER_SIZE = 24 := rfl
  have hhdr : ∀ {i v : ℕ} {m : Memory}, i < 4 → p.setHdrU32 i v m x = m x := by
    intro i v m hi
    apply Memory.writeLE_apply_outside
    have : RECORD_INFO_SIZE = 8 := rfl
    omega
  rw [initHeader, hhdr (by decide), hhdr (by decide), hhdr (by decide), hhdr (by decide)]
  exact Memory.writeLE_apply_outside (by omega)

/-- The pointer's test of the slot behind a written header. -/
theorem RecordPtr.hasExpirationSlot_of_header {w : BitVec 64} {rest : List (List UInt8)}
    (h : m.Holds p.ptr (size.header w ++ rest)) : p.hasExpirationSlot m = size.hasExpiration := by
  have hflags : p.flags m = if size.hasExpiration then FLAG_HAS_EXPIRATION else 0 :=
    Memory.Holds.readLE [_, _, _, _] rest h (by split <;> decide)
      (by simp [RECORD_INFO_SIZE, Nat.add_assoc])
  rw [RecordPtr.hasExpirationSlot, hflags]
  cases size.hasExpiration <;> rfl

/-- The slot of a new record. -/
def RecordSizeInfo.slot (size : RecordSizeInfo) : List UInt8 :=
  if size.hasExpiration then i64Bytes 0 else []

theorem RecordSizeInfo.length_slot (size : RecordSizeInfo) :
    size.slot.length = if size.hasExpiration then EXPIRATION_SIZE else 0 := by
  unfold slot
  split
  · exact LittleEndian.length_toBytes 8 _
  · rfl

/-- The third stage of `init`: the slot, if there is one. -/
theorem RecordPtr.holds_initSlot {w : BitVec 64} {seg : List UInt8} {rest : List (List UInt8)}
    (hseg : seg.length = size.slot.length) (h : m.Holds p.ptr (size.header w ++ seg :: rest)) :
    (if size.hasExpiration then (p.setExpiration 0 m).1 else m).Holds p.ptr
        (size.header w ++ size.slot :: rest) ∧
      ∀ x, x < p.ptr ∨ p.ptr + size.valueOffset ≤ x →
        (if size.hasExpiration then (p.setExpiration 0 m).1 else m) x = m x := by
  have hslot := RecordPtr.hasExpirationSlot_of_header h
  rw [RecordPtr.setExpiration, hslot]
  unfold RecordSizeInfo.valueOffset
  cases hexp : size.hasExpiration with
  | false =>
    rw [RecordSizeInfo.slot, hexp] at hseg ⊢
    rw [List.eq_nil_of_length_eq_zero hseg] at h
    exact ⟨h, fun _ _ => rfl⟩
  | true =>
    rw [RecordSizeInfo.slot, hexp, if_pos rfl] at hseg ⊢
    refine ⟨h.write _ _ hseg.symm (by rw [RecordSizeInfo.length_header]), fun x hx => ?_⟩
    apply Memory.write_apply_outside
    rw [i64Bytes, LittleEndian.length_toBytes]
    simp only [if_true, EXPIRATION_SIZE] at hx
    omega

/-- The new record has the fields it is initialised with, its value is what was there before,
    and nothing outside the header, the slot and the key is written. -/
theorem RecordPtr.stores_init (prev : BitVec 64) (nv : Bool) (hkey : size.keyLen = key.length)
    (hk : key.length < 2 ^ 32) (hc : size.valueCap < 2 ^ 32) :
    p.Stores (p.init prev nv size key m) (RecordFields.init prev nv size key
      (m.read (p.ptr + size.valueOffset) size.valueCap)) ∧
    ∀ x, x < p.ptr ∨ p.ptr + size.valueOffset ≤ x → p.init prev nv size key m x = m x := by
  have hlen := size.length_slot
  have hoffset : p.ptr + size.valueOffset =
      p.ptr + FIXED_HEADER_SIZE + size.slot.length + key.length := by
    rw [RecordSizeInfo.valueOffset, hlen, hkey]
    omega
  set buffer := m.read (p.ptr + size.valueOffset) size.valueCap
  set w := HeaderWord.new prev nv ||| HeaderWord.SEALED_BIT
  -- The stages: the header, the slot, the key.  The value's region is left as it is.
  have hbefore : m.Holds (p.ptr + FIXED_HEADER_SIZE)
      [m.read (p.ptr + FIXED_HEADER_SIZE) size.slot.length,
        m.read (p.ptr + FIXED_HEADER_SIZE + size.slot.length) key.length, buffer] := by
    simp [Memory.holds_cons, buffer, hoffset]
  obtain ⟨hslot, hslotOutside⟩ :=
    RecordPtr.holds_initSlot Memory.length_read (RecordPtr.holds_initHeader hbefore)
  set m₂ := if size.hasExpiration then (p.setExpiration 0 (p.initHeader w size m)).1
    else p.initHeader w size m with hm₂
  have hinit : p.init prev nv size key m = m₂.write (p.ptr + p.keyOffset m₂) key := by
    rw [RecordPtr.init, hm₂, RecordPtr.initHeader, hkey]
  have hkeyOffset : p.keyOffset m₂ = FIXED_HEADER_SIZE + size.slot.length := by
    rw [RecordPtr.keyOffset, RecordPtr.hasExpirationSlot_of_header hslot, hlen]
  have hkeyed : (p.init prev nv size key m).Holds p.ptr (size.header w ++ [size.slot] ++
      key :: [buffer]) := by
    have hcut : m₂.Holds p.ptr (size.header w ++ [size.slot] ++
        m.read (p.ptr + FIXED_HEADER_SIZE + size.slot.length) key.length :: [buffer]) :=
      hslot.recut (by simp)
    rw [hinit]
    apply hcut.write _ _ Memory.length_read.symm
    rw [hkeyOffset, List.flatten_append, List.length_append, RecordSizeInfo.length_header,
      List.flatten_singleton]
  constructor
  · refine ⟨⟨hk, ?_, Nat.zero_le _⟩, w, ?_, ?_⟩
    · show buffer.length < 2 ^ 32
      rwa [Memory.length_read]
    · rw [HeaderWord.decode_seal, HeaderWord.decode_new]
      rfl
    · have hseg : (RecordFields.init prev nv size key buffer).segments w =
          size.header w ++ [size.slot] ++ key :: [buffer] := by
        unfold RecordFields.segments RecordFields.flags RecordFields.slot RecordFields.init
          RecordSizeInfo.header RecordSizeInfo.slot
        rw [Memory.length_read, hkey]
        cases size.hasExpiration <;> rfl
      rw [hseg]
      exact hkeyed
  · intro x hx
    rw [hinit, Memory.write_apply_outside (by rw [hkeyOffset]; omega), hslotOutside x hx,
      RecordPtr.initHeader_outside (by omega)]

end Init

/-! ## Section 7: On the device -/

/-- The bytes of a device; reads past its end fail. -/
structure RawDevice where
  data : List UInt8

def RawDevice.readAt (self : RawDevice) (addr n : ℕ) : Option (List UInt8) :=
  if addr + n ≤ self.data.length then some ((self.data.drop addr).take n) else none

/-- Read the record at an on-disk address into an aligned buffer. -/
def RawDevice.readRecord (self : RawDevice) (addr : ℕ) : Option Memory := do
  let hdr ← self.readAt addr MIN_DISK_READ
  let size := totalSizeFromHeader hdr
  let bytes ← self.readAt addr size
  return Memory.ofList bytes

/-- The size computed from the header's bytes is the one computed through the pointer. -/
theorem totalSizeFromHeader_read (p : RecordPtr) (m : Memory) :
    totalSizeFromHeader (m.read p.ptr MIN_DISK_READ) = p.totalSize m := by
  have hword : ∀ i < 4, LittleEndian.ofBytes
      (((m.read p.ptr MIN_DISK_READ).take (RECORD_INFO_SIZE + 4 * i + 4)).drop
        (RECORD_INFO_SIZE + 4 * i)) = p.hdrU32 m i := by
    intro i hi
    have hle : RECORD_INFO_SIZE + 4 * i + 4 ≤ MIN_DISK_READ := by
      unfold RECORD_INFO_SIZE MIN_DISK_READ FIXED_HEADER_SIZE
      omega
    rw [Memory.take_read hle, Memory.drop_read, RecordPtr.hdrU32, Memory.readLE, Nat.add_assoc]
  simp only [totalSizeFromHeader, hword 0 (by decide), hword 2 (by decide), hword 3 (by decide)]
  rfl

theorem RecordPtr.le_totalSize (p : RecordPtr) (m : Memory) :
    p.keyOffset m + p.keyLen m + p.valueCap m ≤ p.totalSize m := align8_ge _

theorem RecordPtr.header_le_totalSize (p : RecordPtr) (m : Memory) :
    MIN_DISK_READ ≤ p.totalSize m := by
  have := p.le_totalSize m
  unfold keyOffset at this
  unfold MIN_DISK_READ
  omega

theorem RawDevice.readAt_take {dev : RawDevice} {addr n k : ℕ} {bs : List UInt8}
    (h : dev.readAt addr n = some bs) (hk : k ≤ n) : dev.readAt addr k = some (bs.take k) := by
  unfold readAt at h ⊢
  split at h
  · obtain rfl := Option.some.inj h
    rw [if_pos (by omega), List.take_take, Nat.min_eq_left hk]
  · exact absurd h nofun

/-- Reading back what was written of a record gives the bytes of the record. -/
theorem RawDevice.readRecord_toBytes {dev : RawDevice} {addr : ℕ} {p : RecordPtr} {m : Memory}
    (h : dev.readAt addr (p.totalSize m) = some (p.toBytes m)) :
    ∃ buf, dev.readRecord addr = some buf ∧
      buf.read 0 (p.totalSize m) = m.read p.ptr (p.totalSize m) := by
  have hhdr := RawDevice.readAt_take h (p.header_le_totalSize m)
  rw [RecordPtr.toBytes, Memory.take_read (p.header_le_totalSize m)] at hhdr
  refine ⟨Memory.ofList (p.toBytes m), ?_, ?_⟩
  · rw [readRecord, hhdr]
    show (dev.readAt addr (totalSizeFromHeader _)).bind _ = _
    rw [totalSizeFromHeader_read, h]
    rfl
  · have hlen : (p.toBytes m).length = p.totalSize m := Memory.length_read
    rw [← hlen, Memory.read_ofList, hlen, RecordPtr.toBytes]

/-! ## Section 8: Runs of operations -/

/-- Every accessor returns what the fields say. -/
structure RecordPtr.Shows (p : RecordPtr) (m : Memory) (f : RecordFields) : Prop where
  info : HeaderWord.decode (p.info m) = f.info
  key : p.key m = f.key
  valueLen : p.valueLen m = f.valueLen
  value : p.value m = f.buffer.take f.valueLen
  valueBuf : p.valueBuf m = f.buffer
  hasExpirationSlot : p.hasExpirationSlot m = f.expiration.isSome
  expiration : p.expiration m = f.expiration.getD 0
  totalSize : p.totalSize m = f.totalSize

namespace RecordPtr.Stores

variable {p : RecordPtr} {m : Memory} {f : RecordFields}

theorem shows_ (h : p.Stores m f) : p.Shows m f where
  info := h.info
  key := h.key
  valueLen := h.valueLen
  value := h.value
  valueBuf := h.valueBuf
  hasExpirationSlot := h.hasExpirationSlot
  expiration := h.expiration
  totalSize := h.totalSize

/-- The bytes of the record are the record, wherever they are. -/
theorem copied (h : p.Stores m f) {q : RecordPtr} {m' : Memory}
    (hread : m'.read q.ptr (p.totalSize m) = m.read p.ptr (p.totalSize m)) : q.Stores m' f := by
  obtain ⟨w, hw, hm⟩ := h.layout
  have hle : f.rawSize ≤ p.totalSize m := by
    rw [h.totalSize]
    exact align8_ge _
  refine ⟨h.fits, w, hw, ?_⟩
  unfold Memory.Holds at hm ⊢
  rw [f.length_segments] at hm ⊢
  rw [← hm, ← Memory.take_read hle, hread, Memory.take_read hle]

/-- A run of operations on the bytes is the run on the fields. -/
theorem run (h : p.Stores m f) {ops : List RecordOp}
    (hops : ∀ op ∈ ops, op.Within f.buffer.length) :
    p.Stores (ops.foldl p.apply m) (ops.foldl RecordFields.apply f) ∧
      (ops.foldl RecordFields.apply f).rawSize = f.rawSize ∧
      (ops.foldl RecordFields.apply f).key = f.key ∧
      (ops.foldl RecordFields.apply f).info.previousAddress = f.info.previousAddress ∧
      ∀ x, x < p.ptr ∨ p.ptr + f.rawSize ≤ x → ops.foldl p.apply m x = m x := by
  induction ops generalizing m f with
  | nil => exact ⟨h, rfl, rfl, rfl, fun _ _ => rfl⟩
  | cons op ops ih =>
    have hop := hops op List.mem_cons_self
    have hraw := h.fits.apply_rawSize hop
    obtain ⟨hstores, hsize, hkey, hprev, houtside⟩ := ih (h.apply hop) fun o ho => by
      rw [(h.fits.apply hop).2]
      exact hops o (List.mem_cons_of_mem _ ho)
    refine ⟨hstores, hsize.trans hraw, hkey.trans (f.apply_key op), hprev.trans ?_, ?_⟩
    · cases op with
      | trySeal =>
        show f.info.trySeal.previousAddress = _
        unfold RecordInfo.trySeal
        split <;> rfl
      | _ => rfl
    · intro x hx
      rw [List.foldl_cons, houtside x (by rwa [hraw]), h.apply_outside hop hx]

end RecordPtr.Stores

section Layout

variable {size : RecordSizeInfo} {key : Key} {ops : List RecordOp}

theorem RecordFields.init_rawSize {prev : BitVec 64} {nv : Bool} {buffer : List UInt8}
    (hkey : size.keyLen = key.length) (hbuf : buffer.length = size.valueCap) :
    (RecordFields.init prev nv size key buffer).rawSize = size.valueOffset + size.valueCap := by
  unfold RecordFields.rawSize RecordFields.keyOffset RecordFields.slotSize RecordFields.init
    RecordSizeInfo.valueOffset
  rw [hkey, hbuf]
  cases size.hasExpiration <;> rfl

/-- After `init` and any operations within the capacity the accessors show each field as it was
    last written, in memory and in the image read back from a device; nothing outside the record
    changes, and the three computations of its size agree. -/
theorem record_layout (p : RecordPtr) (m : Memory) (prev : BitVec 64) (nv : Bool)
    (hkey : size.keyLen = key.length) (hk : size.keyLen < 2 ^ 31) (hc : size.valueCap < 2 ^ 31)
    (hops : ∀ op ∈ ops, op.Within size.valueCap) :
    let f := ops.foldl RecordFields.apply (RecordFields.init prev nv size key
      (m.read (p.ptr + size.valueOffset) size.valueCap))
    let m' := ops.foldl p.apply (p.init prev nv size key m)
    p.Shows m' f ∧ f.key = key ∧ f.info.previousAddress = maskAddress prev.toNat ∧
      (∀ x, x < p.ptr ∨ p.ptr + (size.valueOffset + size.valueCap) ≤ x → m' x = m x) ∧
      p.totalSize m' = size.totalSize ∧
      totalSizeFromHeader ((p.toBytes m').take MIN_DISK_READ) = size.totalSize ∧
      size.totalSize % 8 = 0 ∧
      p.keyOffset m' + p.keyLen m' + p.valueCap m' ≤ size.totalSize ∧
      ∀ (dev : RawDevice) (addr : ℕ), dev.readAt addr size.totalSize = some (p.toBytes m') →
        ∃ buf, dev.readRecord addr = some buf ∧ RecordPtr.Shows ⟨0⟩ buf f := by
  intro f m'
  obtain ⟨hinit, hframe⟩ := RecordPtr.stores_init (p := p) (m := m) prev nv hkey
    (by omega) (by omega)
  have hbuf : (m.read (p.ptr + size.valueOffset) size.valueCap).length = size.valueCap :=
    Memory.length_read
  have hwithin : ∀ op ∈ ops, op.Within (RecordFields.init prev nv size key
      (m.read (p.ptr + size.valueOffset) size.valueCap)).buffer.length := by
    intro op hop
    show op.Within (m.read (p.ptr + size.valueOffset) size.valueCap).length
    rw [hbuf]
    exact hops op hop
  obtain ⟨hstores, hraw, hfkey, hprev, houtside⟩ := hinit.run hwithin
  rw [RecordFields.init_rawSize hkey hbuf] at hraw houtside
  have htotal : p.totalSize m' = size.totalSize := by
    rw [hstores.totalSize, RecordFields.totalSize, hraw]
    rfl
  refine ⟨hstores.shows_, hfkey, hprev, ?_, htotal, ?_, align8_mod _, ?_, ?_⟩
  · intro x hx
    exact (houtside x hx).trans (hframe x (by omega))
  · rw [RecordPtr.toBytes, Memory.take_read (p.header_le_totalSize m'), totalSizeFromHeader_read,
      htotal]
  · rw [← htotal]
    exact p.le_totalSize m'
  · intro dev addr hread
    rw [← htotal] at hread
    obtain ⟨buf, hbuf, hsame⟩ := RawDevice.readRecord_toBytes hread
    exact ⟨buf, hbuf, (hstores.copied hsame).shows_⟩

theorem record_layout_hello :
    let ops : List RecordOp := [.writeValue 0 [104, 101, 108, 108, 111], .setValueLen 5,
      .setExpiration 99, .unsealAndValidate, .setTombstone, .trySeal]
    let m' := ops.foldl (RecordPtr.apply ⟨64⟩)
      (RecordPtr.init ⟨64⟩ 0x1234 true ⟨3, 10, true⟩ [97, 98, 99] fun _ => 0)
    RecordPtr.value ⟨64⟩ m' = [104, 101, 108, 108, 111] ∧ RecordPtr.expiration ⟨64⟩ m' = 99 ∧
      RecordPtr.totalSize ⟨64⟩ m' = 48 := by
  obtain ⟨hshows, -, -, -, htotal, -⟩ := @record_layout ⟨3, 10, true⟩ [97, 98, 99]
    [.writeValue 0 [104, 101, 108, 108, 111], .setValueLen 5, .setExpiration 99,
      .unsealAndValidate, .setTombstone, .trySeal] ⟨64⟩ (fun _ => 0) 0x1234 true rfl (by decide)
    (by decide) (by simp [RecordOp.Within])
  exact ⟨hshows.value, hshows.expiration, htotal⟩

end Layout

/-! ## Section 9: The record of the log model

    Elsewhere a record is a decoded header and a body whose value is what
    `value_len` shows of the buffer.  `record` is that view of the fields.
-/

namespace RecordFields

variable {f : RecordFields} {size : RecordSizeInfo} {key : Key}

def record (f : RecordFields) : Record where
  info := f.info
  data := ⟨f.key, f.buffer.length, f.expiration.isSome,
    ⟨f.buffer.take f.valueLen, (f.expiration.getD 0).toInt⟩⟩

theorem record_totalSize (f : RecordFields) : f.record.totalSize = f.totalSize := rfl

theorem record_init {prev : BitVec 64} {nv : Bool} {buffer : List UInt8}
    (hbuf : buffer.length = size.valueCap) :
    (init prev nv size key buffer).record = Record.init prev.toNat nv size key := by
  unfold record init Record.init
  rw [hbuf, List.take_zero]
  cases size.hasExpiration <;> rfl

/-- Writing a value from the front and setting its length replaces the value. -/
theorem record_write {bs : List UInt8} (hlen : bs.length ≤ f.buffer.length) :
    ((f.apply (.writeValue 0 bs)).apply (.setValueLen bs.length)).record =
      { f.record with data := f.record.data.write ⟨bs, f.record.data.payload.expiration⟩ } := by
  have hbuf : (bs ++ f.buffer.drop bs.length).length = f.buffer.length := by
    rw [List.length_append, List.length_drop]
    omega
  simp only [record, apply, RecordData.write, List.take_zero, List.nil_append, Nat.zero_add, hbuf,
    List.take_left]

/-- The flags are set through the pointer as they are in the model. -/
theorem record_apply_info (f : RecordFields) :
    (f.apply .unsealAndValidate).record = { f.record with info := f.info.unsealAndValidate } ∧
      (f.apply .trySeal).record = { f.record with info := f.info.trySeal } ∧
      (f.apply .sealAndInvalidate).record = { f.record with info := f.info.sealAndInvalidate } ∧
      (f.apply .setInvalid).record = { f.record with info := f.info.setInvalid } ∧
      (f.apply .setTombstone).record = { f.record with info := f.info.setTombstone } ∧
      (f.apply .setModified).record = { f.record with info := f.info.setModified } :=
  ⟨rfl, rfl, rfl, rfl, rfl, rfl⟩

end RecordFields

end Tsavorite
