import Mathlib.Data.Int.Basic
import Mathlib.Tactic.Ring

/-! # Records

    A record of the hybrid log is a header word and a body (`record.rs`).
    The header word packs the previous address of the hash chain and five
    flag bits; since the fields are disjoint the model keeps them apart.
    The body is what the application callbacks see through a `RecordPtr`.

    Bytes of the value buffer beyond `value_len` are never read, so a value
    is the list of its `value_len` bytes together with the capacity.
-/

namespace Tsavorite

abbrev Key : Type := List UInt8

def ADDRESS_BITS : ℕ := 48

/-- Placeholder stored in a freshly claimed index slot before any record exists. -/
def TEMP_INVALID_ADDRESS : ℕ := 1

/-- `address & ADDRESS_MASK` -/
def maskAddress (a : ℕ) : ℕ := a % 2 ^ ADDRESS_BITS

/-! ## The header word -/

/-- A decoded `RecordInfo` word. -/
structure RecordInfo where
  previousAddress : ℕ
  isTombstone : Bool
  isValid : Bool
  inNewVersion : Bool
  isModified : Bool
  isSealed : Bool
  deriving DecidableEq, Repr

namespace RecordInfo

/-- `RecordInfo(0)`, the header word of zeroed memory. -/
def zero : RecordInfo := ⟨0, false, false, false, false, false⟩

/-- `RecordInfo::new` -/
def new (previousAddress : ℕ) (inNewVersion : Bool) : RecordInfo :=
  { zero with previousAddress := maskAddress previousAddress, inNewVersion := inNewVersion }

/-- "Closed" = not usable by an in-flight operation: invalid or sealed. -/
def isClosed (i : RecordInfo) : Bool := !i.isValid || i.isSealed

/-- Publish the record: set Valid and clear Sealed. -/
def unsealAndValidate (i : RecordInfo) : RecordInfo := { i with isValid := true, isSealed := false }

/-- Seal the source of a read-copy-update; sealed or invalid headers stay as they are. -/
def trySeal (i : RecordInfo) : RecordInfo :=
  if i.isSealed || !i.isValid then i else { i with isSealed := true }

def sealAndInvalidate (i : RecordInfo) : RecordInfo := { i with isSealed := true, isValid := false }

def setInvalid (i : RecordInfo) : RecordInfo := { i with isValid := false }

def setTombstone (i : RecordInfo) : RecordInfo := { i with isTombstone := true }

def setModified (i : RecordInfo) : RecordInfo := { i with isModified := true }

/-- `fetch_and(!SEALED_BIT)` -/
def clearSealed (i : RecordInfo) : RecordInfo := { i with isSealed := false }

end RecordInfo

/-! ## Layout arithmetic -/

/-- `RECORD_INFO_SIZE + DATA_HEADER_SIZE`; also `MIN_DISK_READ`. -/
def FIXED_HEADER_SIZE : ℕ := 24

def MIN_DISK_READ : ℕ := FIXED_HEADER_SIZE

def EXPIRATION_SIZE : ℕ := 8

/-- `(n + 7) & !7` -/
def align8 (n : ℕ) : ℕ := (n + 7) / 8 * 8

/-- What a record needs to look like; produced by the size callbacks. -/
structure RecordSizeInfo where
  keyLen : ℕ
  valueCap : ℕ
  hasExpiration : Bool
  deriving DecidableEq, Repr

def RecordSizeInfo.totalSize (s : RecordSizeInfo) : ℕ :=
  align8 (FIXED_HEADER_SIZE + (if s.hasExpiration then EXPIRATION_SIZE else 0) + s.keyLen
    + s.valueCap)

/-! ## Bodies and records -/

/-- What a writer callback leaves in a record. -/
structure Payload where
  value : List UInt8
  expiration : ℤ
  deriving DecidableEq, Repr

/-- The body of a record: everything a callback can see of it. -/
structure RecordData where
  key : Key
  valueCap : ℕ
  hasExpirationSlot : Bool
  payload : Payload
  deriving DecidableEq, Repr

namespace RecordData

def value (d : RecordData) : List UInt8 := d.payload.value

/-- Expiration timestamp (0 = none). Returns 0 when the record has no slot. -/
def expiration (d : RecordData) : ℤ := if d.hasExpirationSlot then d.payload.expiration else 0

/-- The body a writer callback leaves behind: key, capacity and slot are fixed. -/
def write (d : RecordData) (p : Payload) : RecordData := { d with payload := p }

/-- Total bytes occupied by the record. -/
def totalSize (d : RecordData) : ℕ :=
  align8 (FIXED_HEADER_SIZE + (if d.hasExpirationSlot then EXPIRATION_SIZE else 0) + d.key.length
    + d.valueCap)

@[simp] theorem write_key (d : RecordData) (p : Payload) : (d.write p).key = d.key := rfl

@[simp] theorem write_totalSize (d : RecordData) (p : Payload) :
    (d.write p).totalSize = d.totalSize := rfl

end RecordData

structure Record where
  info : RecordInfo
  data : RecordData
  deriving DecidableEq, Repr

namespace Record

/-- What zeroed memory reads as. -/
def zero : Record := ⟨RecordInfo.zero, ⟨[], 0, false, ⟨[], 0⟩⟩⟩

/-- `RecordPtr::init`: the header is written sealed and invalid, the value is empty and
    an expiration slot is cleared. -/
def init (previousAddress : ℕ) (inNewVersion : Bool) (size : RecordSizeInfo) (key : Key) :
    Record where
  info := { RecordInfo.new previousAddress inNewVersion with isSealed := true }
  data := ⟨key, size.valueCap, size.hasExpiration, ⟨[], 0⟩⟩

def totalSize (r : Record) : ℕ := r.data.totalSize

/-- The test that ends a walk over a page: an all-zero header. -/
def isZeroHeader (r : Record) : Bool :=
  r.info = RecordInfo.zero && r.data.key.length = 0 && r.data.valueCap = 0

end Record

theorem align8_ge (n : ℕ) : n ≤ align8 n := by unfold align8; omega

theorem align8_mod (n : ℕ) : align8 n % 8 = 0 := by unfold align8; omega

theorem RecordData.totalSize_ge (d : RecordData) : FIXED_HEADER_SIZE ≤ d.totalSize := by
  have := align8_ge (FIXED_HEADER_SIZE + (if d.hasExpirationSlot then EXPIRATION_SIZE else 0)
    + d.key.length + d.valueCap)
  unfold RecordData.totalSize
  omega

theorem RecordData.totalSize_mod (d : RecordData) : d.totalSize % 8 = 0 := align8_mod _

/-- A record initialised for a size has that size. -/
theorem Record.init_totalSize {prev : ℕ} {nv : Bool} {size : RecordSizeInfo} {key : Key}
    (h : size.keyLen = key.length) : (Record.init prev nv size key).totalSize = size.totalSize := by
  unfold RecordSizeInfo.totalSize
  rw [h]
  rfl

end Tsavorite
