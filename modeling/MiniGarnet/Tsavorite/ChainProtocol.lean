import MiniGarnet.Tsavorite.Chains
import MiniGarnet.Tsavorite.LatchWord
import MiniGarnet.Tsavorite.LogProtocol

/-! # Publication on the hash chains

    Upsert, the paths of rmw and the paths of delete add a record to a chain
    in the same way (`store.rs`): under the exclusive latch of the bucket load
    the entry, look for the key, allocate, initialise the record with the
    entry's address as its previous one, swap the entry, validate the new
    record and seal the old one.  Each of these is a step here, and so are the
    steps of the allocator and of the latch words, so that sessions on other
    buckets come in between anywhere.

    A session holds the latch of the bucket when it starts an attempt: the
    attempt has taken it, or `txn_lock` has.  What the callbacks, the phase
    and the boundaries of the log decide is left to the labels: whether the
    attempt appends or not, down to which address it looks for the key, and
    whether it seals what it has found.  Readers change nothing and are left
    out.

    Entries and headers keep 48 bits of an address.  The results are about
    runs in which the addresses that are published fit.
-/

namespace Tsavorite.ChainProtocol

/-! ## Section 1: Walks along a chain -/

/-- What a walk sees of a record. -/
structure Rec where
  info : RecordInfo
  key : Key
  deriving DecidableEq, Repr

/-- The loop shared by `trace_back`, `find_on_disk` and `is_latest`.  The first number
    bounds the turns; `none` when it is used up or there is no record. -/
def follow (records : ℕ → Option Rec) (goesOn : ℕ → Bool) (stops : ℕ → Rec → Bool) :
    ℕ → ℕ → Option Trace
  | 0, _ => none
  | n + 1, addr =>
    if goesOn addr then
      (records addr).bind fun r =>
        if stops addr r then some (.found addr)
        else follow records goesOn stops n r.info.previousAddress
    else some (.stopped addr)

def traceBack (records : ℕ → Option Rec) (key : Key) (min : ℕ) : ℕ → ℕ → Option Trace :=
  follow records (fun addr => min ≤ addr && FIRST_VALID_ADDRESS ≤ addr) fun _ r => r.key = key

/-- BeginAddress is where `HybridLog::new` has put it. -/
def findOnDisk (records : ℕ → Option Rec) (key : Key) : ℕ → ℕ → Option Trace :=
  follow records (fun addr => FIRST_VALID_ADDRESS ≤ addr && FIRST_VALID_ADDRESS ≤ addr)
    fun _ r => r.key = key

/-- The answer of `is_latest` is whether the loop stops at `addr`.  In memory it passes over
    invalid records. -/
def isLatest (records : ℕ → Option Rec) (key : Key) (head addr : ℕ) : ℕ → ℕ → Option Trace :=
  follow records (fun cur => addr < cur && FIRST_VALID_ADDRESS ≤ cur)
    fun cur r => r.key = key && (cur < head || r.info.isValid)

/-! ## Section 2: Chains -/

/-- Following previous addresses from `a` leads through the addresses of the list. -/
def Chained (records : ℕ → Option Rec) : ℕ → List ℕ → Prop
  | a, [] => a < FIRST_VALID_ADDRESS
  | a, x :: c => a = x ∧ FIRST_VALID_ADDRESS ≤ x ∧
      ∃ r, records x = some r ∧ Chained records r.info.previousAddress c

/-- The newest record of a key. -/
def newest (records : ℕ → Option Rec) (chain : List ℕ) (key : Key) : Option ℕ :=
  chain.find? fun a => (records a).any fun r => r.key = key

section Chains

variable {records records' : ℕ → Option Rec} {a : ℕ} {c : List ℕ} {key : Key}

theorem Chained.record (h : Chained records a c) {x : ℕ} (hx : x ∈ c) :
    FIRST_VALID_ADDRESS ≤ x ∧ ∃ r, records x = some r := by
  induction c generalizing a with
  | nil => cases hx
  | cons y c ih =>
    obtain ⟨-, hfirst, r, hr, htail⟩ := h
    rcases List.mem_cons.mp hx with rfl | hx
    · exact ⟨hfirst, r, hr⟩
    · exact ih htail hx

/-- A loop that does not go on below the first address ends. -/
theorem Chained.follow_ends (h : Chained records a c) {goesOn : ℕ → Bool} {stops : ℕ → Rec → Bool}
    (hgoes : ∀ x, goesOn x = true → FIRST_VALID_ADDRESS ≤ x) {n : ℕ} (hn : c.length < n) :
    ∃ t, follow records goesOn stops n a = some t := by
  induction c generalizing a n with
  | nil =>
    obtain ⟨n, rfl⟩ := Nat.exists_eq_add_of_lt hn
    have hstop : goesOn a = false := by
      cases hg : goesOn a with
      | false => rfl
      | true =>
        have := hgoes a hg
        have : a < FIRST_VALID_ADDRESS := h
        omega
    exact ⟨.stopped a, by simp [follow, hstop]⟩
  | cons x c ih =>
    obtain ⟨rfl, -, r, hr, htail⟩ := h
    obtain ⟨n, rfl⟩ : ∃ m, n = m + 1 := ⟨n - 1, by simp only [List.length_cons] at hn; omega⟩
    have hlen : c.length < n := by
      simp only [List.length_cons] at hn
      omega
    simp only [follow, hr, Option.bind_some]
    split
    · split
      · exact ⟨_, rfl⟩
      · exact ih htail hlen
    · exact ⟨_, rfl⟩

/-- Addresses descend, so there are no more of them than the first one says. -/
theorem Chained.length_le (h : Chained records a c) (hdesc : c.Pairwise (· > ·)) :
    c.length ≤ a := by
  induction c generalizing a with
  | nil => exact Nat.zero_le a
  | cons x c ih =>
    obtain ⟨rfl, hfirst, r, hr, htail⟩ := h
    obtain ⟨hbelow, hdesc⟩ := List.pairwise_cons.mp hdesc
    cases c with
    | nil =>
      have : (0 : ℕ) < FIRST_VALID_ADDRESS := by decide
      simp only [List.length_cons, List.length_nil]
      omega
    | cons y c =>
      have hle := ih htail hdesc
      have hprev : r.info.previousAddress = y := htail.1
      have hlt : y < a := hbelow y List.mem_cons_self
      simp only [List.length_cons] at hle ⊢
      omega

/-- `trace_back` finds the newest record of the key, if it looks that far. -/
theorem Chained.traceBack_found (h : Chained records a c) {min n addr : ℕ}
    (hfound : traceBack records key min n a = some (.found addr)) :
    newest records c key = some addr := by
  induction c generalizing a n with
  | nil =>
    cases n with
    | zero => cases hfound
    | succ n =>
      have hlt : a < FIRST_VALID_ADDRESS := h
      have hno : ¬ FIRST_VALID_ADDRESS ≤ a := by omega
      simp [traceBack, follow, hno] at hfound
  | cons x c ih =>
    obtain ⟨rfl, -, r, hr, htail⟩ := h
    cases n with
    | zero => cases hfound
    | succ n =>
      simp only [traceBack, follow, hr, Option.bind_some] at hfound
      split at hfound
      · split at hfound
        · rename_i hkey
          cases hfound
          unfold newest
          rw [List.find?_cons_of_pos]
          simpa [hr] using hkey
        · rename_i hkey
          unfold newest
          rw [List.find?_cons_of_neg (by simpa [hr] using hkey)]
          exact ih htail hfound
      · cases hfound

/-- A walk may start at any record of the chain. -/
theorem Chained.suffix (h : Chained records a c) {x : ℕ} (hx : x ∈ c) :
    ∃ c', Chained records x c' ∧ c'.length ≤ c.length := by
  induction c generalizing a with
  | nil => cases hx
  | cons y c ih =>
    obtain ⟨rfl, hfirst, r, hr, htail⟩ := h
    rcases List.mem_cons.mp hx with rfl | hx
    · exact ⟨x :: c, ⟨rfl, hfirst, r, hr, htail⟩, Nat.le_refl _⟩
    · obtain ⟨c', hc', hlen⟩ := ih htail hx
      exact ⟨c', hc', by simp only [List.length_cons]; omega⟩

/-- The loops end, wherever on the chain they start. -/
theorem Chained.loops_end (h : Chained records a c) {start : ℕ} (hstart : start = a ∨ start ∈ c)
    (key : Key) (min head addr : ℕ) :
    (∃ t, traceBack records key min (c.length + 1) start = some t) ∧
    (∃ t, findOnDisk records key (c.length + 1) start = some t) ∧
    (∃ t, isLatest records key head addr (c.length + 1) start = some t) := by
  obtain ⟨c', hc', hlen⟩ : ∃ c', Chained records start c' ∧ c'.length ≤ c.length := by
    rcases hstart with rfl | hmem
    · exact ⟨c, h, Nat.le_refl _⟩
    · exact h.suffix hmem
  have hlt : c'.length < c.length + 1 := by omega
  refine ⟨hc'.follow_ends ?_ hlt, hc'.follow_ends ?_ hlt, hc'.follow_ends ?_ hlt⟩
  · intro x hx
    simp only [Bool.and_eq_true, decide_eq_true_eq] at hx
    exact hx.2
  · intro x hx
    simp only [Bool.and_eq_true, decide_eq_true_eq] at hx
    exact hx.2
  · intro x hx
    simp only [Bool.and_eq_true, decide_eq_true_eq] at hx
    exact hx.2

/-- Two logs that agree on keys and previous addresses along a chain. -/
def SameLinks (records records' : ℕ → Option Rec) (c : List ℕ) : Prop :=
  ∀ x ∈ c, ∀ r, records x = some r → ∃ r', records' x = some r' ∧ r'.key = r.key ∧
    r'.info.previousAddress = r.info.previousAddress

theorem Chained.congr (h : Chained records a c) (hsame : SameLinks records records' c) :
    Chained records' a c := by
  induction c generalizing a with
  | nil => exact h
  | cons x c ih =>
    obtain ⟨rfl, hfirst, r, hr, htail⟩ := h
    obtain ⟨r', hr', -, hprev⟩ := hsame a List.mem_cons_self r hr
    refine ⟨rfl, hfirst, r', hr', ?_⟩
    rw [hprev]
    apply ih htail
    intro y hy
    exact hsame y (List.mem_cons_of_mem _ hy)

theorem newest_congr (hrecords : ∀ x ∈ c, ∃ r, records x = some r)
    (hsame : SameLinks records records' c) : newest records' c key = newest records c key := by
  induction c with
  | nil => rfl
  | cons x c ih =>
    obtain ⟨r, hr⟩ := hrecords x List.mem_cons_self
    obtain ⟨r', hr', hkey, -⟩ := hsame x List.mem_cons_self r hr
    have htail := ih (fun y hy => hrecords y (List.mem_cons_of_mem _ hy))
      (fun y hy => hsame y (List.mem_cons_of_mem _ hy))
    simp only [newest] at htail ⊢
    by_cases hk : r.key = key
    · rw [List.find?_cons_of_pos (by simp [hr', hkey, hk]), List.find?_cons_of_pos (by simp [hr, hk])]
    · rw [List.find?_cons_of_neg (by simp [hr', hkey, hk]), List.find?_cons_of_neg (by simp [hr, hk]),
        htail]

theorem newest_mem (h : newest records c key = some a) :
    a ∈ c ∧ ∃ r, records a = some r ∧ r.key = key := by
  refine ⟨List.mem_of_find?_eq_some h, ?_⟩
  have hp := List.find?_some h
  cases hr : records a with
  | none => simp [hr] at hp
  | some r => exact ⟨r, rfl, by simpa [hr] using hp⟩

end Chains

/-! ## Section 3: States -/

/-- A record on its way to the chain. -/
structure Append where
  key : Key
  /-- The entry's address, loaded under the latch. -/
  entry : ℕ
  /-- The record to seal. -/
  old : Option ℕ
  /-- `delete_rcu` -/
  tombstone : Bool
  inNewVersion : Bool
  deriving DecidableEq, Repr

/-- Where a session stands in an attempt. -/
inductive Pc where
  | idle
  /-- Latched: about to load the entry. -/
  | starting (key : Key)
  | loaded (key : Key) (entry : ℕ)
  /-- In `allocate_record`. -/
  | allocating (a : Append)
  /-- `try_allocate_retry_now` has returned this address. -/
  | granted (a : Append) (addr : ℕ)
  /-- The record is written: about to swap the entry. -/
  | swapping (a : Append) (addr : ℕ)
  /-- The record is on the chain: about to validate it. -/
  | validating (a : Append) (addr : ℕ)
  /-- About to seal the old record. -/
  | sealing (a : Append) (addr : ℕ)
  deriving DecidableEq, Repr

/-- `published` is history: the records swapped into each slot, the newest first. -/
structure State (Sid : Type) where
  tail : TailProtocol.State Sid
  latches : ℕ → LatchWord.State Sid
  /-- The records of the log, in memory or on the device. -/
  records : ℕ → Option Rec
  /-- The address in the entry of each bucket and tag. -/
  entries : SlotRef → ℕ
  pc : Sid → Pc
  published : SlotRef → List ℕ

inductive Move where
  /-- Start an attempt on a key. -/
  | start (key : Key)
  | load
  /-- `set_modified` on the record found at or above `min`. -/
  | modify (min : ℕ)
  /-- `set_tombstone` on it. -/
  | bury (min : ℕ)
  /-- Go to append a record, and perhaps to seal the one found. -/
  | append (min : ℕ) (sealsOld tombstone inNewVersion : Bool)
  /-- `rec.init` -/
  | init
  | cas
  | validate
  | sealOld
  /-- End the attempt without a new record. -/
  | quit
  deriving DecidableEq, Repr

inductive Label (Sid : Type) where
  /-- A step of `try_allocate_retry_now`, or of a page being closed. -/
  | tail (l : TailProtocol.Label Sid)
  /-- A step on the latch word of a bucket. -/
  | latch (bucket : ℕ) (l : LatchWord.Label Sid)
  | move (i : Sid) (m : Move)

section Steps

variable {Sid : Type} [DecidableEq Sid]

/-- `Store::new` -/
def State.init : State Sid where
  tail := TailProtocol.initial
  latches := fun _ => .init
  records := fun _ => none
  entries := fun _ => TEMP_INVALID_ADDRESS
  pc := fun _ => .idle
  published := fun _ => []

variable (g : Geometry) (mask : ℕ) (s : State Sid) (i : Sid)

def State.goto (p : Pc) : State Sid := { s with pc := Function.update s.pc i p }

def State.setRecord (addr : ℕ) (r : Option Rec) : State Sid :=
  { s with records := Function.update s.records addr r }

def State.setInfo (addr : ℕ) (f : RecordInfo → RecordInfo) : State Sid :=
  s.setRecord addr ((s.records addr).map fun r => { r with info := f r.info })

/-- The entry of the slot is swapped; it keeps 48 bits of the address. -/
def State.publish (slot : SlotRef) (addr : ℕ) : State Sid :=
  { s with
    entries := Function.update s.entries slot (maskAddress addr)
    published := Function.update s.published slot (addr :: s.published slot) }

/-- The record `rec.init` writes; `delete_rcu` adds the tombstone bit. -/
def Append.record (a : Append) : Rec where
  info := { RecordInfo.new a.entry a.inNewVersion with
    isSealed := true, isTombstone := a.tombstone }
  key := a.key

/-- The address a step of the allocator has returned. -/
def grant (old new : TailProtocol.State Sid) : Option ℕ :=
  if new.granted.length = old.granted.length then none else new.granted.head?.map (·.1)

/-- The record `trace_back` finds, if it is open; `none` when the loop does not end or the
    record is closed (`cpr_gate`). -/
def State.found (key : Key) (entry min : ℕ) : Option (Option ℕ) :=
  match traceBack s.records key min (entry + 1) entry with
  | some (.found addr) =>
    match s.records addr with
    | some r => if r.info.isClosed then none else some (some addr)
    | none => none
  | some (.stopped _) => some none
  | none => none

/-- A header word is changed where `trace_back` has found the record. -/
def State.edit (key : Key) (entry min : ℕ) (f : RecordInfo → RecordInfo) : Option (State Sid) :=
  match s.found key entry min with
  | some (some addr) => some (s.setInfo addr f)
  | _ => none

def stepPc : Pc → Move → Option (State Sid)
  | .idle, .start key =>
    if ((s.latches (keySlot mask key).bucket).threads i).exclusive then
      some (s.goto i (.starting key))
    else none
  | .starting key, .load => some (s.goto i (.loaded key (s.entries (keySlot mask key))))
  | .loaded key entry, .modify min => s.edit key entry min RecordInfo.setModified
  | .loaded key entry, .bury min => s.edit key entry min RecordInfo.setTombstone
  | .loaded key entry, .append min sealsOld tombstone nv =>
    (s.found key entry min).map fun found =>
      s.goto i (.allocating ⟨key, entry, if sealsOld then found else none, tombstone, nv⟩)
  | .loaded _ _, .quit => some (s.goto i .idle)
  | .allocating _, .quit =>
    -- the log is full
    if s.tail.pc i = .idle then some (s.goto i .idle) else none
  | .granted a addr, .init =>
    if addr ≤ a.entry then
      -- the header word of the space that was granted is cleared
      some ((s.setRecord addr (some ⟨RecordInfo.zero, []⟩)).goto i (.allocating a))
    else some ((s.setRecord addr (some a.record)).goto i (.swapping a addr))
  | .swapping a addr, .cas =>
    if s.entries (keySlot mask a.key) = a.entry then
      some ((s.publish (keySlot mask a.key) addr).goto i (.validating a addr))
    else some ((s.setInfo addr RecordInfo.sealAndInvalidate).goto i .idle)
  | .validating a addr, .validate =>
    some ((s.setInfo addr RecordInfo.unsealAndValidate).goto i (.sealing a addr))
  | .sealing a _, .sealOld =>
    match a.old with
    | some old => some ((s.setInfo old RecordInfo.trySeal).goto i .idle)
    | none => some (s.goto i .idle)
  | _, _ => none

/-- A step of the allocator belongs to a session that is allocating. -/
def stepTail (l : TailProtocol.Label Sid) : Option (State Sid) :=
  match LogProtocol.allocThread l with
  | none => (TailProtocol.next g s.tail l).map fun tail => { s with tail := tail }
  | some i =>
    match s.pc i with
    | .allocating a =>
      if LogProtocol.positiveSize l then
        (TailProtocol.next g s.tail l).map fun tail =>
          { s with tail := tail }.goto i
            (match grant s.tail tail with
            | some addr => .granted a addr
            | none => .allocating a)
      else none
    | _ => none

/-- A step on a latch word is made between attempts. -/
def stepLatch (b : ℕ) (l : LatchWord.Label Sid) : Option (State Sid) :=
  if s.pc l.thread = .idle then
    (LatchWord.next (s.latches b) l).map fun w =>
      { s with latches := Function.update s.latches b w }
  else none

def next (s : State Sid) : Label Sid → Option (State Sid)
  | .tail l => stepTail g s l
  | .latch b l => stepLatch s b l
  | .move i m => stepPc mask s i (s.pc i) m

end Steps

end Tsavorite.ChainProtocol
