import Mathlib.Logic.Function.Basic
import MiniGarnet.Lib.Lts
import MiniGarnet.Tsavorite.Index

/-! # The tentative-entry protocol of the hash index

    Any number of threads call `find_tag` and `find_or_create_tag`
    (`index.rs`), with every load, compare-exchange, fetch-and-add and store
    of an index word a step of its own.  Chains grow under the scans: a full
    chain gets an overflow bucket from the arena.

    Entry 7 of a bucket also holds the bucket latch.  Latching is not part of
    the protocol, but it changes the word a linking thread compares against,
    so the latch bits may change at any time.
-/

namespace Tsavorite.TagProtocol

/-! ## Section 1: State -/

/-- A bucket of the main table, or of the overflow arena (whose addresses
    start at 1). -/
inductive BucketId where
  | main (index : ℕ)
  | overflow (addr : ℕ)
  deriving DecidableEq, Repr

/-- One of the first seven words of a bucket. -/
structure Slot where
  bucket : BucketId
  entry : ℕ
  deriving DecidableEq, Repr

/-- An entry word: `[tentative:1][tag:15][address:48]`. -/
structure Word where
  tag : ℕ
  address : ℕ
  tentative : Bool
  deriving DecidableEq, Repr

/-- The word 0. -/
def Word.zero : Word := ⟨0, 0, false⟩

/-- `HashEntry::make(tag, address, tentative)` -/
def Word.make (tag address : ℕ) (tentative : Bool) : Word := ⟨tag, maskAddress address, tentative⟩

/-- Entry 7: the overflow bucket (0 = none) and the latch bits. -/
structure OverflowWord where
  next : ℕ
  latch : ℕ
  deriving DecidableEq, Repr

def OverflowWord.bucket (w : OverflowWord) : Option BucketId :=
  if w.next = 0 then none else some (.overflow w.next)

/-- What a thread does next.  `k` is the bucket index and the tag it was called
    with; position `i` of a bucket is the word it loads next. -/
inductive Pc where
  | idle
  /-- `find_tag` -/
  | finding (k : SlotRef) (b : BucketId) (i : ℕ)
  /-- `find_tag_or_free` -/
  | scanning (k : SlotRef) (b : BucketId) (i : ℕ) (free : Option Slot)
  /-- `alloc_overflow_bucket` -/
  | allocating (k : SlotRef) (b : BucketId) (w : OverflowWord)
  /-- `find_tag_or_free`: link the bucket at `newAddr` behind `b`. -/
  | linking (k : SlotRef) (b : BucketId) (newAddr : ℕ) (cur : OverflowWord)
  /-- `find_or_create_tag`: write the tentative entry. -/
  | claiming (k : SlotRef) (free : Slot)
  /-- `other_slot_with_tag` -/
  | rescanning (k : SlotRef) (mine : Slot) (b : BucketId) (i : ℕ)
  /-- Lost the race: clear the slot. -/
  | clearing (k : SlotRef) (mine : Slot)
  /-- Clear the tentative bit. -/
  | finalizing (k : SlotRef) (mine : Slot)
  deriving DecidableEq, Repr

structure State (Thread : Type*) where
  entries : Slot → Word
  overflow : BucketId → OverflowWord
  overflowNext : ℕ
  pc : Thread → Pc
  /-- History: the buckets of each chain, in the order they were linked. -/
  chains : ℕ → List BucketId
  /-- History: the slots returned so far, with the bucket and tag asked for. -/
  returned : List (SlotRef × Slot)

/-- `HashIndex::new` -/
def initial {Thread : Type*} : State Thread where
  entries := fun _ => .zero
  overflow := fun _ => ⟨0, 0⟩
  overflowNext := 1
  pc := fun _ => .idle
  chains := fun bi => [.main bi]
  returned := []

/-- The buckets `walk_chain` visits from the main bucket `bi`. -/
inductive InChain {Thread : Type*} (s : State Thread) (bi : ℕ) : BucketId → Prop where
  | head : InChain s bi (.main bi)
  | next {b b' : BucketId} : InChain s bi b → (s.overflow b).bucket = some b' → InChain s bi b'

/-! ## Section 2: Steps -/

inductive Label (Thread : Type*) where
  | findTag (t : Thread) (hash : ℕ)
  | findOrCreateTag (t : Thread) (hash : ℕ)
  /-- Some thread locks or unlocks a bucket. -/
  | latch (b : BucketId) (bits : ℕ)
  | step (t : Thread)

section Transitions

variable {Thread : Type*} [DecidableEq Thread] (size : ℕ) (s : State Thread) (t : Thread)

namespace State

def goto (p : Pc) : State Thread := { s with pc := Function.update s.pc t p }

def store (p : Slot) (w : Word) : State Thread :=
  { s with entries := Function.update s.entries p w }

/-- The call for `k` returns the slot `p`. -/
def ret (k : SlotRef) (p : Slot) : State Thread :=
  { s with returned := (k, p) :: s.returned }.goto t .idle

/-- The start of a pass over the chain in `find_tag_or_free`. -/
def restart (k : SlotRef) : State Thread := s.goto t (.scanning k (.main k.bucket) 0 none)

/-- Link the overflow bucket at `addr` behind `b`, the last bucket of `k`'s chain. -/
def link (k : SlotRef) (b : BucketId) (cur : OverflowWord) (addr : ℕ) : State Thread :=
  { s with
    overflow := Function.update s.overflow b { cur with next := addr }
    chains := Function.update s.chains k.bucket (s.chains k.bucket ++ [.overflow addr]) }

end State

def stepPc : Pc → Option (State Thread)
  | .idle => none
  | .finding k b i =>
    if i < ENTRIES_PER_BUCKET then
      let e := s.entries ⟨b, i⟩
      if e ≠ .zero ∧ e.tag = k.tag ∧ e.tentative = false then some (s.ret t k ⟨b, i⟩)
      else some (s.goto t (.finding k b (i + 1)))
    else
      match (s.overflow b).bucket with
      | some b' => some (s.goto t (.finding k b' 0))
      | none => some (s.goto t .idle)
  | .scanning k b i free =>
    if i < ENTRIES_PER_BUCKET then
      let e := s.entries ⟨b, i⟩
      if e = .zero then some (s.goto t (.scanning k b (i + 1) (free.or (some ⟨b, i⟩))))
      else if e.tag = k.tag ∧ e.tentative = false then some (s.ret t k ⟨b, i⟩)
      else some (s.goto t (.scanning k b (i + 1) free))
    else
      match (s.overflow b).bucket, free with
      | some b', _ => some (s.goto t (.scanning k b' 0 free))
      | none, some f => some (s.goto t (.claiming k f))
      -- the chain is full
      | none, none => some (s.goto t (.allocating k b (s.overflow b)))
  | .allocating k b w =>
    -- the assertion "hash index overflow arena exhausted" must hold
    if s.overflowNext ≤ (HashIndex.new size).overflowLen then
      some ({ s with overflowNext := s.overflowNext + 1 }.goto t (.linking k b s.overflowNext w))
    else none
  | .linking k b newAddr cur =>
    if cur.next ≠ 0 then some (s.goto t (.scanning k b 0 none))
    else if s.overflow b = cur then some ((s.link k b cur newAddr).goto t (.scanning k b 0 none))
    else some (s.goto t (.linking k b newAddr (s.overflow b)))
  | .claiming k free =>
    if s.entries free = .zero then
      some ((s.store free (.make k.tag TEMP_INVALID_ADDRESS true)).goto t
        (.rescanning k free (.main k.bucket) 0))
    else some (s.restart t k)
  | .rescanning k mine b i =>
    if i < ENTRIES_PER_BUCKET then
      if (⟨b, i⟩ : Slot) = mine then some (s.goto t (.rescanning k mine b (i + 1)))
      else
        let e := s.entries ⟨b, i⟩
        if e ≠ .zero ∧ e.tag = k.tag then some (s.goto t (.clearing k mine))
        else some (s.goto t (.rescanning k mine b (i + 1)))
    else
      match (s.overflow b).bucket with
      | some b' => some (s.goto t (.rescanning k mine b' 0))
      | none => some (s.goto t (.finalizing k mine))
  | .clearing k mine => some ((s.store mine .zero).restart t k)
  | .finalizing k mine => some ((s.store mine (.make k.tag TEMP_INVALID_ADDRESS false)).ret t k mine)

def next : Label Thread → Option (State Thread)
  | .findTag t hash =>
    let k := (HashIndex.new size).slotOf hash
    if s.pc t = .idle then some (s.goto t (.finding k (.main k.bucket) 0)) else none
  | .findOrCreateTag t hash =>
    if s.pc t = .idle then some (s.restart t ((HashIndex.new size).slotOf hash)) else none
  | .latch b bits =>
    some { s with overflow := Function.update s.overflow b { s.overflow b with latch := bits } }
  | .step t => stepPc size s t (s.pc t)

end Transitions

end Tsavorite.TagProtocol
