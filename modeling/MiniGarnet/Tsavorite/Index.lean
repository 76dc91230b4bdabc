import Mathlib.Data.Nat.Log
import MiniGarnet.Lib.Bits
import MiniGarnet.Tsavorite.Hash

/-! # The hash index, as one thread at a time uses it

    A bucket chain is seven entries and then overflow buckets of seven
    entries each, taken from a fixed arena (`index.rs`).  Operations of this
    model run one at a time, slots are claimed in order and never given back
    except by `clear`, so a chain is the list of its entries in slot order: a
    new overflow bucket is linked exactly when the list is full.  The
    tentative protocol collapses to the claim of a slot.
-/

namespace Tsavorite

def ENTRIES_PER_BUCKET : ℕ := 7

def TAG_BITS : ℕ := 15

/-- A non-tentative entry. -/
structure HashEntry where
  tag : ℕ
  address : ℕ
  deriving DecidableEq, Repr

/-- `HashEntry::make(tag, address, false)` -/
def HashEntry.make (tag address : ℕ) : HashEntry := ⟨tag, maskAddress address⟩

/-- A located slot: main-table bucket and tag. -/
structure SlotRef where
  bucket : ℕ
  tag : ℕ
  deriving DecidableEq, Repr

structure HashIndex where
  mask : ℕ
  overflowLen : ℕ
  /-- The next overflow bucket to hand out; 0 means "no overflow bucket". -/
  overflowNext : ℕ
  /-- The entries of each bucket chain, in slot order. -/
  buckets : ℕ → List HashEntry

namespace HashIndex

/-- The number of buckets `HashIndex::new(size)` allocates. -/
def roundedSize (size : ℕ) : ℕ := 2 ^ Nat.clog 2 (max size 2)

/-- `HashIndex::new` -/
def new (size : ℕ) : HashIndex where
  mask := roundedSize size - 1
  overflowLen := max (roundedSize size * 2) 1024
  overflowNext := 1
  buckets := fun _ => []

/-- `hash & self.mask` -/
def bucketIndex (idx : HashIndex) (hash : ℕ) : ℕ := hash &&& idx.mask

/-- `hash >> (64 - TAG_BITS)` -/
def tagOf (hash : ℕ) : ℕ := hash >>> (64 - TAG_BITS)

def slotOf (idx : HashIndex) (hash : ℕ) : SlotRef := ⟨idx.bucketIndex hash, tagOf hash⟩

/-- `slot.load()`: the address stored in the slot, if the slot has been claimed. -/
def load (idx : HashIndex) (slot : SlotRef) : Option ℕ :=
  ((idx.buckets slot.bucket).find? fun e => e.tag = slot.tag).map (·.address)

/-- Find the entry for `hash`'s tag. -/
def findTag (idx : HashIndex) (hash : ℕ) : Option SlotRef :=
  if (idx.load (idx.slotOf hash)).isSome then some (idx.slotOf hash) else none

/-- `alloc_overflow_bucket`: `none` is the failed assertion
    "hash index overflow arena exhausted". -/
def allocOverflowBucket (idx : HashIndex) : Option HashIndex :=
  if idx.overflowNext ≤ idx.overflowLen then
    some { idx with overflowNext := idx.overflowNext + 1 }
  else none

/-- Is the chain full, so that the next entry needs another overflow bucket? -/
def chainFull (entries : List HashEntry) : Bool :=
  entries.length ≠ 0 && entries.length % ENTRIES_PER_BUCKET = 0

/-- Make room for one more entry behind `entries`. -/
def reserve (idx : HashIndex) (entries : List HashEntry) : Option HashIndex :=
  if chainFull entries then idx.allocOverflowBucket else some idx

def setBucket (idx : HashIndex) (b : ℕ) (entries : List HashEntry) : HashIndex :=
  { idx with buckets := fun i => if i = b then entries else idx.buckets i }

/-- Find the entry for this tag, or claim a new one holding `TEMP_INVALID_ADDRESS`. -/
def findOrCreateTag (idx : HashIndex) (hash : ℕ) : Option (HashIndex × SlotRef) :=
  let slot := idx.slotOf hash
  if (idx.load slot).isSome then some (idx, slot)
  else
    let entries := idx.buckets slot.bucket
    (idx.reserve entries).map fun idx =>
      (idx.setBucket slot.bucket (entries ++ [HashEntry.make slot.tag TEMP_INVALID_ADDRESS]), slot)

/-- `slot.try_cas(expected, new_address)`: `none` when the entry has changed. -/
def tryCas (idx : HashIndex) (slot : SlotRef) (expected newAddress : ℕ) : Option HashIndex :=
  if idx.load slot = some expected then
    some (idx.setBucket slot.bucket ((idx.buckets slot.bucket).map fun e =>
      if e.tag = slot.tag then HashEntry.make slot.tag newAddress else e))
  else none

/-- Reset every entry (used by recovery / FLUSHALL). -/
def clear (idx : HashIndex) : HashIndex := { idx with overflowNext := 1, buckets := fun _ => [] }

end HashIndex

end Tsavorite
