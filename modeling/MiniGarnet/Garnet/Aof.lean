import Mathlib.Data.List.Basic
import MiniGarnet.Lib.LittleEndian

/-! # The append-only file

    `aof.rs`.  An entry is framed as

      [u32 payload_len][u8 version][u8 op_type][u16 reserved][i64 timestamp_ms][payload]

    and appended through a buffer; `commit` writes the buffer at `written`
    and syncs.  `replay` reads entries from the start of the file up to the
    committed address.

    I/O is assumed to succeed.  A crash is a cut of the file.
-/

namespace Garnet

abbrev Bytes : Type := List UInt8

/-! ## Section 1: Entries and their framing -/

def AOF_VERSION : UInt8 := 1

inductive AofOp where
  | command
  | txnStart
  | txnCommit
  deriving DecidableEq, Repr

namespace AofOp

/-- The discriminant, `op as u8`. -/
def toU8 : AofOp → UInt8
  | command => 1
  | txnStart => 2
  | txnCommit => 3

def fromU8 (v : UInt8) : Option AofOp :=
  if v = 1 then some command
  else if v = 2 then some txnStart
  else if v = 3 then some txnCommit
  else none

@[simp] theorem fromU8_toU8 (op : AofOp) : fromU8 op.toU8 = some op := by
  cases op <;> rfl

end AofOp

inductive CommitMode where
  | never
  | interval (ms : ℕ)
  | always
  deriving DecidableEq, Repr

structure AofEntry where
  op : AofOp
  timestampMs : Int64
  payload : Bytes
  deriving DecidableEq, Repr

def HEADER_LEN : ℕ := 4 + 1 + 1 + 2 + 8

namespace AofEntry

/-- The sixteen header bytes; the length is cut to 32 bits (`payload.len() as u32`). -/
def header (e : AofEntry) : Bytes :=
  LittleEndian.toBytes 4 e.payload.length ++ [AOF_VERSION, e.op.toU8, 0, 0] ++
    LittleEndian.toBytes 8 e.timestampMs.toUInt64.toNat

def encode (e : AofEntry) : Bytes := e.header ++ e.payload

/-- The length of the payload fits the header field. -/
def Fits (e : AofEntry) : Prop := e.payload.length < 2 ^ 32

instance (e : AofEntry) : Decidable e.Fits := inferInstanceAs (Decidable (_ < _))

@[simp] theorem length_header (e : AofEntry) : e.header.length = HEADER_LEN := by
  simp [header, HEADER_LEN]

@[simp] theorem length_encode (e : AofEntry) :
    e.encode.length = HEADER_LEN + e.payload.length := by
  simp [encode]

end AofEntry

/-- The bytes of a list of entries. -/
def encodeAll (es : List AofEntry) : Bytes := (es.map AofEntry.encode).flatten

@[simp] theorem encodeAll_nil : encodeAll [] = [] := rfl

@[simp] theorem encodeAll_cons (e : AofEntry) (es : List AofEntry) :
    encodeAll (e :: es) = e.encode ++ encodeAll es := rfl

@[simp] theorem encodeAll_append (es fs : List AofEntry) :
    encodeAll (es ++ fs) = encodeAll es ++ encodeAll fs := by
  simp [encodeAll]

/-! ## Section 2: The log -/

/-- `Inner` together with the atomic tail. -/
structure Aof where
  file : Bytes
  /-- Bytes appended but not yet written to the file. -/
  buf : Bytes
  /-- Total bytes handed to the OS. -/
  written : ℕ
  /-- Bytes fsynced. -/
  committed : ℕ
  tail : ℕ
  mode : CommitMode
  deriving DecidableEq, Repr

/-- `seek` to `pos` and `write_all`; a gap is filled with zeros. -/
def writeAt (file : Bytes) (pos : ℕ) (bytes : Bytes) : Bytes :=
  file.take pos ++ List.replicate (pos - file.length) 0 ++ bytes ++ file.drop (pos + bytes.length)

namespace Aof

/-- `Aof::open`: the log appends at the end of whatever the file holds. -/
def «open» (file : Bytes) (mode : CommitMode) : Aof where
  file := file
  buf := []
  written := file.length
  committed := file.length
  tail := file.length
  mode := mode

def flushBufferLocked (a : Aof) : Aof :=
  if a.buf.isEmpty then a
  else { a with
    file := writeAt a.file a.written a.buf
    written := a.written + a.buf.length
    buf := [] }

def commit (a : Aof) : Aof :=
  let a := a.flushBufferLocked
  if a.committed < a.written then { a with committed := a.written } else a

/-- Append an entry; returns the address just past it. -/
def enqueue (a : Aof) (e : AofEntry) : ℕ × Aof :=
  let buf := a.buf ++ e.header ++ e.payload
  let tail := a.written + buf.length
  let a := { a with buf := buf, tail := tail }
  let a := if 64 * 1024 ≤ a.buf.length then a.flushBufferLocked else a
  (tail, if a.mode = .always then a.commit else a)

def truncate (a : Aof) : Aof :=
  { a with buf := [], file := [], written := 0, committed := 0, tail := 0 }

/-- The loop of `replay`: `r` is what the reader has not yet returned. -/
def replayLoop (durable pos : ℕ) (r : Bytes) : List AofEntry :=
  if durable < pos + HEADER_LEN then []
  else if _hr : r.length < HEADER_LEN then []
  else
    let plen := LittleEndian.ofBytes (r.take 4)
    let version := r.getD 4 0
    match AofOp.fromU8 (r.getD 5 0) with
    | none => []
    | some op =>
      let ts := (UInt64.ofNat (LittleEndian.ofBytes ((r.drop 8).take 8))).toInt64
      if version ≠ AOF_VERSION ∨ durable < pos + HEADER_LEN + plen then [] -- torn entry
      else
        let r := r.drop HEADER_LEN
        if r.length < plen then []
        else ⟨op, ts, r.take plen⟩ :: replayLoop durable (pos + HEADER_LEN + plen) (r.drop plen)
termination_by r.length
decreasing_by simp [HEADER_LEN] at *; omega

/-- The entries handed to the callback, in order. -/
def replay (a : Aof) : List AofEntry :=
  let a := a.commit
  replayLoop a.committed 0 a.file

end Aof

/-! ## Section 3: What the calls of a process leave in the file -/

/-- The calls that move the log forward: the background thread of
    `CommitMode::Interval` and `wait_committed` only call `commit`. -/
inductive AofCall where
  | enqueue (e : AofEntry)
  | commit
  deriving DecidableEq, Repr

namespace AofCall

def entry : AofCall → Option AofEntry
  | enqueue e => some e
  | commit => none

end AofCall

/-- The entries enqueued by a list of calls. -/
def entriesOf (cs : List AofCall) : List AofEntry := cs.filterMap AofCall.entry

@[simp] theorem entriesOf_nil : entriesOf [] = [] := rfl

@[simp] theorem entriesOf_enqueue (e : AofEntry) (cs : List AofCall) :
    entriesOf (.enqueue e :: cs) = e :: entriesOf cs := rfl

@[simp] theorem entriesOf_commit (cs : List AofCall) :
    entriesOf (.commit :: cs) = entriesOf cs := rfl

namespace Aof

def call (a : Aof) : AofCall → Aof
  | .enqueue e => (a.enqueue e).2
  | .commit => a.commit

/-- The file left by a process that opens `file`, makes the calls and commits. -/
def session (file : Bytes) (mode : CommitMode) (cs : List AofCall) : Bytes :=
  (cs.foldl call («open» file mode)).commit.file

/-- `bytes` is what has been appended, in the file or still in the buffer. -/
structure Holds (a : Aof) (bytes : Bytes) : Prop where
  written_eq : a.written = a.file.length
  committed_le : a.committed ≤ a.written
  tail_eq : a.tail = a.written + a.buf.length
  content : a.file ++ a.buf = bytes

theorem holds_open (file : Bytes) (mode : CommitMode) : Holds («open» file mode) file where
  written_eq := rfl
  committed_le := Nat.le_refl _
  tail_eq := rfl
  content := List.append_nil _

variable {a : Aof} {bytes : Bytes}

theorem Holds.flush (h : Holds a bytes) :
    Holds a.flushBufferLocked bytes ∧ a.flushBufferLocked.buf = [] := by
  have hw := h.written_eq
  have hc := h.committed_le
  have ht := h.tail_eq
  unfold flushBufferLocked
  split
  · rename_i hempty
    exact ⟨h, List.isEmpty_iff.mp hempty⟩
  · have hfile : writeAt a.file a.written a.buf = a.file ++ a.buf := by
      simp [writeAt, hw]
    refine ⟨⟨?_, ?_, ?_, ?_⟩, rfl⟩
    · simp only [hfile, List.length_append]; omega
    · simp only; omega
    · simp only [List.length_nil]; omega
    · simp only [hfile, List.append_nil, h.content]

/-- After a commit everything is in the file, and committed. -/
theorem Holds.commit (h : Holds a bytes) :
    Holds a.commit bytes ∧ a.commit.file = bytes ∧ a.commit.committed = bytes.length := by
  obtain ⟨hf, hbuf⟩ := h.flush
  have hw := hf.written_eq
  have hle := hf.committed_le
  have hfile : a.flushBufferLocked.file = bytes := by
    simpa [hbuf] using hf.content
  rw [hfile] at hw
  simp only [Aof.commit]
  split
  · exact ⟨⟨hf.written_eq, Nat.le_refl _, hf.tail_eq, hf.content⟩, hfile, hw⟩
  · exact ⟨hf, hfile, by omega⟩

theorem Holds.enqueue (h : Holds a bytes) (e : AofEntry) :
    Holds (a.enqueue e).2 (bytes ++ e.encode) := by
  have happ : Holds { a with
      buf := a.buf ++ e.header ++ e.payload
      tail := a.written + (a.buf ++ e.header ++ e.payload).length } (bytes ++ e.encode) :=
    ⟨h.written_eq, h.committed_le, rfl, by simp [← h.content, AofEntry.encode]⟩
  simp only [Aof.enqueue]
  split
  · split
    · exact happ.flush.1.commit.1
    · exact happ.flush.1
  · split
    · exact happ.commit.1
    · exact happ

theorem Holds.calls (h : Holds a bytes) (cs : List AofCall) :
    Holds (cs.foldl call a) (bytes ++ encodeAll (entriesOf cs)) := by
  induction cs generalizing a bytes with
  | nil => simpa using h
  | cons c cs ih =>
    cases c with
    | enqueue e => simpa [call] using ih (h.enqueue e)
    | commit => simpa [call] using ih h.commit.1

/-- A session appends exactly its entries, whatever the commit mode. -/
theorem session_eq (file : Bytes) (mode : CommitMode) (cs : List AofCall) :
    session file mode cs = file ++ encodeAll (entriesOf cs) :=
  ((holds_open file mode).calls cs).commit.2.1

/-- Right after `open`, `replay` scans the whole file. -/
theorem replay_open (file : Bytes) (mode : CommitMode) :
    («open» file mode).replay = replayLoop file.length 0 file := by
  obtain ⟨-, hfile, hcommitted⟩ := (holds_open file mode).commit
  simp only [replay, hfile, hcommitted]

end Aof

/-! ## Section 4: Scanning framed bytes -/

namespace AofEntry

variable (e : AofEntry) (rest : Bytes)

/-- What `replay` makes of the framed entry: the payload is as long as the
    header says, which is its length modulo `2 ^ 32`. -/
def clipped : AofEntry := { e with payload := e.payload.take (e.payload.length % 2 ^ 32) }

theorem clipped_eq (h : e.Fits) : e.clipped = e := by
  have hmod : e.payload.length % 2 ^ 32 = e.payload.length := Nat.mod_eq_of_lt h
  simp only [clipped, hmod, List.take_length]

theorem fits_of_clipped_eq (h : e.clipped = e) : e.Fits := by
  have hlen := congrArg (fun e => e.payload.length) h
  simp only [clipped, List.length_take] at hlen
  have hlt : e.payload.length % 2 ^ 32 < 2 ^ 32 := Nat.mod_lt _ (by decide)
  unfold Fits
  omega

theorem take_encode : (e.encode ++ rest).take 4 = LittleEndian.toBytes 4 e.payload.length := by
  simp [encode, header]

theorem getElem?_version : (e.encode ++ rest)[4]? = some AOF_VERSION := by
  simp [encode, header]

theorem getElem?_op : (e.encode ++ rest)[5]? = some e.op.toU8 := by
  simp [encode, header, List.getElem?_append]

theorem timestamp_encode :
    (UInt64.ofNat (LittleEndian.ofBytes (((e.encode ++ rest).drop 8).take 8))).toInt64 =
      e.timestampMs := by
  have hbytes : ((e.encode ++ rest).drop 8).take 8 =
      LittleEndian.toBytes 8 e.timestampMs.toUInt64.toNat := by
    simp [encode, header, List.drop_append, List.take_append]
  rw [hbytes, LittleEndian.ofBytes_toBytes_of_lt e.timestampMs.toUInt64.toNat_lt]
  simp

theorem drop_encode : (e.encode ++ rest).drop HEADER_LEN = e.payload ++ rest := by
  rw [encode, List.append_assoc, ← e.length_header, List.drop_left]

end AofEntry

namespace Aof

theorem replayLoop_end (pos : ℕ) (r : Bytes) : replayLoop pos pos r = [] := by
  rw [replayLoop, if_pos (by unfold HEADER_LEN; omega)]

/-- One turn of the loop on a framed entry. -/
theorem replayLoop_encode (pos : ℕ) (e : AofEntry) (rest : Bytes) :
    replayLoop (pos + (e.encode ++ rest).length) pos (e.encode ++ rest) =
      e.clipped :: replayLoop (pos + (e.encode ++ rest).length)
        (pos + HEADER_LEN + e.payload.length % 2 ^ 32)
        ((e.payload ++ rest).drop (e.payload.length % 2 ^ 32)) := by
  have hmod : e.payload.length % 2 ^ 32 ≤ e.payload.length := Nat.mod_le _ _
  have hplen : LittleEndian.ofBytes ((e.encode ++ rest).take 4) = e.payload.length % 2 ^ 32 := by
    rw [e.take_encode, LittleEndian.ofBytes_toBytes, show 256 ^ 4 = 2 ^ 32 from rfl]
  rw [replayLoop, if_neg (by simp; omega), dif_neg (by simp; omega)]
  simp only [List.getD_eq_getElem?_getD, e.getElem?_version, e.getElem?_op, Option.getD_some,
    AofOp.fromU8_toU8, hplen, e.timestamp_encode, e.drop_encode]
  rw [if_neg (by simp; omega), if_neg (by simp; omega), List.take_append_of_le_length hmod]
  rfl

/-- Whole entries whose length fits the header are read back. -/
theorem replayLoop_encodeAll (pos : ℕ) (es : List AofEntry) (rest : Bytes)
    (h : ∀ e ∈ es, e.Fits) :
    replayLoop (pos + (encodeAll es ++ rest).length) pos (encodeAll es ++ rest) =
      es ++ replayLoop (pos + (encodeAll es).length + rest.length)
        (pos + (encodeAll es).length) rest := by
  induction es generalizing pos with
  | nil => simp
  | cons e es ih =>
    have hfits : e.Fits := h e List.mem_cons_self
    have hmod : e.payload.length % 2 ^ 32 = e.payload.length := Nat.mod_eq_of_lt hfits
    have hlen : pos + (e.encode ++ (encodeAll es ++ rest)).length =
        pos + HEADER_LEN + e.payload.length + (encodeAll es ++ rest).length := by
      simp; omega
    have hih := ih (pos + HEADER_LEN + e.payload.length) fun f hf => h f (List.mem_cons_of_mem _ hf)
    rw [encodeAll_cons, List.append_assoc, replayLoop_encode, e.clipped_eq hfits, hmod,
      List.drop_left, hlen, hih, List.cons_append]
    simp only [List.length_append, AofEntry.length_encode, Nat.add_assoc]

/-- Entries can only be read back if their lengths fit the header. -/
theorem fits_of_replayLoop (pos : ℕ) (es more : List AofEntry) (rest : Bytes)
    (h : replayLoop (pos + (encodeAll es ++ rest).length) pos (encodeAll es ++ rest) = es ++ more) :
    ∀ e ∈ es, e.Fits := by
  induction es generalizing pos with
  | nil => simp
  | cons e es ih =>
    rw [encodeAll_cons, List.append_assoc, replayLoop_encode, List.cons_append,
      List.cons.injEq] at h
    obtain ⟨hhead, htail⟩ := h
    have hfits : e.Fits := e.fits_of_clipped_eq hhead
    have hmod : e.payload.length % 2 ^ 32 = e.payload.length := Nat.mod_eq_of_lt hfits
    have hlen : pos + (e.encode ++ (encodeAll es ++ rest)).length =
        pos + HEADER_LEN + e.payload.length + (encodeAll es ++ rest).length := by
      simp; omega
    rw [hmod, List.drop_left, hlen] at htail
    intro f hf
    rcases List.mem_cons.mp hf with rfl | hf
    · exact hfits
    · exact ih _ htail f hf

/-- What the header of the first entry returned must have been. -/
theorem replayLoop_head {durable pos : ℕ} {r : Bytes} {y : AofEntry} {ys : List AofEntry}
    (h : replayLoop durable pos r = y :: ys) :
    r.getD 4 0 = AOF_VERSION ∧ y.payload.length = LittleEndian.ofBytes (r.take 4) := by
  rw [replayLoop] at h
  split at h
  · cases h
  split at h
  · cases h
  simp only at h
  split at h
  · cases h
  split at h
  · cases h
  split at h
  · cases h
  rename_i hversion hlen
  rw [List.cons.injEq] at h
  obtain ⟨rfl, -⟩ := h
  refine ⟨by simpa using fun hv => hversion (.inl hv), ?_⟩
  simp only [List.length_take]
  omega

end Aof

/-! ## Section 5: A crash between two sessions

    A crash keeps the first `n` bytes.  `open` appends behind whatever is
    left, so the next session's entries are read back exactly when the cut
    left no piece of an entry in front of them.
-/

/-- The entries wholly contained in the first `n` bytes. -/
def wholeIn : ℕ → List AofEntry → List AofEntry
  | _, [] => []
  | n, e :: es => if e.encode.length ≤ n then e :: wholeIn (n - e.encode.length) es else []

/-- The first `n` bytes are whole entries and nothing else. -/
def OnBoundary (es : List AofEntry) (n : ℕ) : Prop :=
  (encodeAll es).take n = encodeAll (wholeIn n es)

instance (es : List AofEntry) (n : ℕ) : Decidable (OnBoundary es n) :=
  inferInstanceAs (Decidable (_ = _))

/-- What a cut leaves: whole entries, then a proper piece of the next one. -/
theorem take_encodeAll (es : List AofEntry) (n : ℕ) :
    ∃ torn, (encodeAll es).take n = encodeAll (wholeIn n es) ++ torn ∧
      (torn = [] ∨ ∃ (e : AofEntry) (k : ℕ), e ∈ es ∧ 0 < k ∧ k < e.encode.length ∧
        torn = e.encode.take k) := by
  induction es generalizing n with
  | nil => exact ⟨[], by simp [wholeIn], .inl rfl⟩
  | cons e es ih =>
    by_cases hle : e.encode.length ≤ n
    · obtain ⟨torn, htake, htorn⟩ := ih (n - e.encode.length)
      refine ⟨torn, ?_, htorn.imp id fun ⟨f, k, hf, hk⟩ => ⟨f, k, List.mem_cons_of_mem _ hf, hk⟩⟩
      rw [encodeAll_cons, List.take_append, List.take_of_length_le hle, htake, wholeIn,
        if_pos hle, encodeAll_cons, List.append_assoc]
    · have hlt : n < e.encode.length := by omega
      refine ⟨e.encode.take n, ?_, ?_⟩
      · rw [encodeAll_cons, List.take_append_of_le_length (by omega), wholeIn, if_neg hle,
          encodeAll_nil, List.nil_append]
      · rcases Nat.eq_zero_or_pos n with rfl | hpos
        · exact .inl (by simp)
        · exact .inr ⟨e, n, List.mem_cons_self, hpos, hlt, rfl⟩

/-- The entry used to expose a torn tail: its length differs from `len`. -/
def probe (len : ℕ) : AofEntry := ⟨.command, 0, if len = 0 then [0] else []⟩

theorem fits_probe (len : ℕ) : (probe len).Fits := by
  unfold AofEntry.Fits probe
  split <;> decide

theorem length_probe_ne (len : ℕ) : (probe len).payload.length ≠ len := by
  unfold probe
  split
  · simp_all
  · simp only [List.length_nil]
    omega

/-- An entry written behind a piece of another one is not read back. -/
theorem replayLoop_torn (pos : ℕ) (e : AofEntry) {k : ℕ} (hk : 0 < k) :
    ∃ x : AofEntry, x.Fits ∧ ∀ durable,
      Aof.replayLoop durable pos (e.encode.take k ++ x.encode) ≠ [x] := by
  refine ⟨probe (e.payload.length % 2 ^ 32), fits_probe _, fun durable h => ?_⟩
  obtain ⟨hversion, hlen⟩ := Aof.replayLoop_head h
  have hkeep : (e.encode.take k).length = min k e.encode.length := List.length_take
  have hge : HEADER_LEN ≤ e.encode.length := by simp
  have hheader : HEADER_LEN = 16 := rfl
  by_cases hfour : 4 ≤ k
  · -- the length field is the torn entry's
    have htake : (e.encode.take k ++ (probe (e.payload.length % 2 ^ 32)).encode).take 4 =
        LittleEndian.toBytes 4 e.payload.length := by
      have h4 := e.take_encode []
      rw [List.append_nil] at h4
      rw [List.take_append_of_le_length (by omega), List.take_take, Nat.min_eq_left hfour, h4]
    rw [htake, LittleEndian.ofBytes_toBytes] at hlen
    exact length_probe_ne _ hlen
  · -- the version byte is one of the upper length bytes of the entry behind it
    have hbyte : (e.encode.take k ++ (probe (e.payload.length % 2 ^ 32)).encode)[4]? = some 0 := by
      have hsmall : (probe (e.payload.length % 2 ^ 32)).payload.length < 256 := by
        unfold probe
        split <;> simp
      rw [List.getElem?_append_right (by omega), hkeep, Nat.min_eq_left (by omega),
        AofEntry.encode, AofEntry.header, List.append_assoc, List.append_assoc,
        List.getElem?_append_left (by simp; omega)]
      exact LittleEndian.getElem?_toBytes_of_lt hsmall (by omega) (by omega)
    rw [List.getD_eq_getElem?_getD, hbyte] at hversion
    exact absurd hversion (by decide)

section TornTail

variable (m₁ m₂ m₃ : CommitMode)

/-- One session logs, a crash cuts its file to `n` bytes, a second session
    logs behind the cut: a third one replays the whole entries of the first
    and everything of the second. -/
def SurvivesCrash (cs₁ : List AofCall) (n : ℕ) (cs₂ : List AofCall) : Prop :=
  (Aof.open (Aof.session ((Aof.session [] m₁ cs₁).take n) m₂ cs₂) m₃).replay =
    wholeIn n (entriesOf cs₁) ++ entriesOf cs₂

instance (cs₁ : List AofCall) (n : ℕ) (cs₂ : List AofCall) :
    Decidable (SurvivesCrash m₁ m₂ m₃ cs₁ n cs₂) := inferInstanceAs (Decidable (_ = _))

theorem survivesCrash_iff (cs₁ : List AofCall) (n : ℕ) (cs₂ : List AofCall) :
    SurvivesCrash m₁ m₂ m₃ cs₁ n cs₂ ↔
      let file := (encodeAll (entriesOf cs₁)).take n ++ encodeAll (entriesOf cs₂)
      Aof.replayLoop file.length 0 file = wholeIn n (entriesOf cs₁) ++ entriesOf cs₂ := by
  simp only [SurvivesCrash, Aof.session_eq, Aof.replay_open, List.nil_append]

/-- On an entry boundary the second session is read back if and only if its
    lengths fit. -/
theorem survivesCrash_onBoundary {cs₁ : List AofCall} {n : ℕ}
    (hcut : OnBoundary (entriesOf cs₁) n) (hfits : ∀ e ∈ wholeIn n (entriesOf cs₁), e.Fits)
    (cs₂ : List AofCall) :
    SurvivesCrash m₁ m₂ m₃ cs₁ n cs₂ ↔ ∀ e ∈ entriesOf cs₂, e.Fits := by
  rw [survivesCrash_iff, hcut]
  simp only [← encodeAll_append]
  constructor
  · intro h e he
    refine Aof.fits_of_replayLoop 0 (wholeIn n (entriesOf cs₁) ++ entriesOf cs₂) [] [] ?_ e
      (List.mem_append_right _ he)
    simpa using h
  · intro h
    have hall : ∀ e ∈ wholeIn n (entriesOf cs₁) ++ entriesOf cs₂, e.Fits := by
      intro e he
      rcases List.mem_append.mp he with he | he
      · exact hfits e he
      · exact h e he
    simpa [Aof.replayLoop_end] using Aof.replayLoop_encodeAll 0 _ [] hall

/-- Exactly when entries logged after a crash survive the next restart: the
    cut fell between two entries, and every length fits its header field. -/
theorem survives_crash_iff_on_boundary (cs₁ : List AofCall) (n : ℕ) :
    ((∀ cs₂, (∀ e ∈ entriesOf cs₂, e.Fits) → SurvivesCrash m₁ m₂ m₃ cs₁ n cs₂) ↔
      OnBoundary (entriesOf cs₁) n ∧ ∀ e ∈ wholeIn n (entriesOf cs₁), e.Fits) ∧
    (OnBoundary (entriesOf cs₁) n → (∀ e ∈ wholeIn n (entriesOf cs₁), e.Fits) →
      ∀ cs₂, SurvivesCrash m₁ m₂ m₃ cs₁ n cs₂ ↔ ∀ e ∈ entriesOf cs₂, e.Fits) := by
  refine ⟨⟨fun h => ?_, fun ⟨hcut, hfits⟩ cs₂ h₂ => ?_⟩, survivesCrash_onBoundary m₁ m₂ m₃⟩
  · obtain ⟨torn, htake, htorn⟩ := take_encodeAll (entriesOf cs₁) n
    have hfits : ∀ e ∈ wholeIn n (entriesOf cs₁), e.Fits := by
      have hnone := (survivesCrash_iff m₁ m₂ m₃ cs₁ n []).mp (h [] (by simp))
      simp only [htake, List.append_assoc] at hnone
      exact Aof.fits_of_replayLoop 0 _ [] torn (by simpa using hnone)
    refine ⟨?_, hfits⟩
    rcases htorn with rfl | ⟨e, k, -, hk, -, rfl⟩
    · simpa [OnBoundary] using htake
    · obtain ⟨x, hx, hne⟩ := replayLoop_torn (encodeAll (wholeIn n (entriesOf cs₁))).length e hk
      have hone := (survivesCrash_iff m₁ m₂ m₃ cs₁ n [.enqueue x]).mp (h _ (by simpa using hx))
      simp only [htake, List.append_assoc, entriesOf_enqueue, entriesOf_nil, encodeAll_cons,
        encodeAll_nil, List.append_nil] at hone
      have hscan := Aof.replayLoop_encodeAll 0 _ (e.encode.take k ++ x.encode) hfits
      simp only [Nat.zero_add] at hscan
      rw [hscan, List.append_cancel_left_eq] at hone
      exact absurd hone (hne _)
  · exact (survivesCrash_onBoundary m₁ m₂ m₃ hcut hfits cs₂).mpr h₂

end TornTail

theorem survives_crash_whole_entry :
    SurvivesCrash .always .always .never
      [.enqueue ⟨.command, 1, [104, 101, 108, 108, 111]⟩] 21
      [.enqueue ⟨.command, 2, [119, 111, 114, 108, 100]⟩] :=
  (survives_crash_iff_on_boundary .always .always .never _ 21).1.mpr
    ⟨by decide +kernel, by decide +kernel⟩ _ (by decide +kernel)

/-- One entry cut two bytes short, then one more entry: replay returns a
    single entry with the old header and the new header's bytes as payload. -/
theorem torn_entry_swallows_next :
    ¬ SurvivesCrash .always .always .never
      [.enqueue ⟨.command, 1, [104, 101, 108, 108, 111]⟩] 19
      [.enqueue ⟨.command, 2, [119, 111, 114, 108, 100]⟩] := by
  decide +kernel

/-! ## Section 6: A cut log, and files of any content -/

/-- What is left of an entry behind the last whole one is not read. -/
theorem replayLoop_piece {e : AofEntry} (h : e.Fits) (pos : ℕ) {k : ℕ} (hk : k < e.encode.length) :
    Aof.replayLoop (pos + (e.encode.take k).length) pos (e.encode.take k) = [] := by
  have hlen : (e.encode.take k).length = k := by
    rw [List.length_take]
    omega
  rw [hlen, Aof.replayLoop]
  by_cases hheader : k < HEADER_LEN
  · rw [if_pos (by omega)]
  · -- the header is complete, so the length it announces is past the end
    have hplen : LittleEndian.ofBytes ((e.encode.take k).take 4) = e.payload.length := by
      have hfour := e.take_encode []
      rw [List.append_nil] at hfour
      have hsixteen : HEADER_LEN = 16 := rfl
      rw [List.take_take, Nat.min_eq_left (by omega), hfour, LittleEndian.ofBytes_toBytes]
      exact Nat.mod_eq_of_lt h
    rw [AofEntry.length_encode] at hk
    rw [if_neg (by omega), dif_neg (by omega)]
    simp only [hplen]
    split
    · rfl
    · rw [if_pos (.inr (by omega))]

/-- The whole entries are the first ones, as many as end at or before the cut. -/
theorem wholeIn_eq_take (n : ℕ) (es : List AofEntry) :
    ∃ k, wholeIn n es = es.take k ∧
      ∀ i < es.length, i < k ↔ (encodeAll (es.take (i + 1))).length ≤ n := by
  induction es generalizing n with
  | nil => exact ⟨0, rfl, by simp⟩
  | cons e es ih =>
    by_cases hle : e.encode.length ≤ n
    · obtain ⟨k, hk, hends⟩ := ih (n - e.encode.length)
      refine ⟨k + 1, by rw [wholeIn, if_pos hle, hk, List.take_succ_cons], ?_⟩
      intro i hi
      rw [List.take_succ_cons, encodeAll_cons, List.length_append]
      cases i with
      | zero => simp only [List.take_zero, encodeAll_nil, List.length_nil]; omega
      | succ i =>
        have := hends i (by simpa using hi)
        omega
    · refine ⟨0, by rw [wholeIn, if_neg hle, List.take_zero], ?_⟩
      intro i hi
      rw [List.take_succ_cons, encodeAll_cons, List.length_append]
      omega

namespace Aof

/-- The payloads `replay` reads, by offset and length; the last read may find the file too
    short. -/
def payloadReadsLoop (durable pos : ℕ) (r : Bytes) : List (ℕ × ℕ) :=
  if durable < pos + HEADER_LEN then []
  else if _hr : r.length < HEADER_LEN then []
  else
    let plen := LittleEndian.ofBytes (r.take 4)
    let version := r.getD 4 0
    match AofOp.fromU8 (r.getD 5 0) with
    | none => []
    | some _ =>
      if version ≠ AOF_VERSION ∨ durable < pos + HEADER_LEN + plen then []
      else
        let r := r.drop HEADER_LEN
        (pos + HEADER_LEN, plen) ::
          if r.length < plen then []
          else payloadReadsLoop durable (pos + HEADER_LEN + plen) (r.drop plen)
termination_by r.length
decreasing_by simp [HEADER_LEN] at *; omega

def payloadReads (a : Aof) : List (ℕ × ℕ) :=
  let a := a.commit
  payloadReadsLoop a.committed 0 a.file

/-- No payload read goes past the durable length. -/
theorem payloadReadsLoop_le (durable pos : ℕ) (r : Bytes) :
    ∀ x ∈ payloadReadsLoop durable pos r, x.1 + x.2 ≤ durable := by
  fun_induction payloadReadsLoop durable pos r with
  | case1 | case2 | case3 | case4 =>
    intro x hx
    cases hx
  | case5 pos r _ _ plen version _ _ hfits r' ih =>
    intro x hx
    rcases List.mem_cons.mp hx with rfl | hx
    · simp only
      omega
    · split at hx
      · cases hx
      · exact ih x hx

/-- The payloads that are returned are the ones that were read; only the last read may have
    failed. -/
theorem replayLoop_payloads (durable pos : ℕ) (r : Bytes) :
    (replayLoop durable pos r).map (fun e => e.payload.length) <+:
      (payloadReadsLoop durable pos r).map Prod.snd := by
  fun_induction replayLoop durable pos r with
  | case1 | case2 | case3 | case4 | case5 => exact List.nil_prefix
  | case6 pos r hdurable hr plen version op hop ts hfits r' hlen ih =>
    rw [payloadReadsLoop, if_neg hdurable, dif_neg hr]
    simp only [hop]
    rw [if_neg hfits, if_neg hlen, List.map_cons, List.map_cons]
    have hpayload : (r'.take plen).length = plen := by
      rw [List.length_take]
      omega
    simp only [hpayload]
    exact (List.prefix_cons_inj _).mpr ih

/-- The entries that are returned lie one after the other in the file. -/
theorem length_replayLoop_le (durable pos : ℕ) (r : Bytes) :
    (encodeAll (replayLoop durable pos r)).length ≤ r.length := by
  fun_induction replayLoop durable pos r with
  | case1 | case2 | case3 | case4 | case5 => exact Nat.zero_le _
  | case6 pos r hdurable hr plen version op hop ts hfits r' hlen ih =>
    have hpayload : (r'.take plen).length = plen := by
      rw [List.length_take]
      omega
    have hrest : r'.length = r.length - HEADER_LEN := List.length_drop
    have htail : (r'.drop plen).length = r'.length - plen := List.length_drop
    rw [encodeAll_cons, List.length_append, AofEntry.length_encode]
    simp only [hpayload]
    omega

end Aof

/-- **Log codec.**  The log cut to `n` bytes replays exactly the entries whose encodings end at
    or before `n`.  Whatever the file holds, replay returns entries that lie in it one after
    the other, and reads no payload past the durable length. -/
theorem replay_of_cut_log (mode : CommitMode) :
    (∀ (es : List AofEntry) (n : ℕ), (∀ e ∈ es, e.Fits) →
      ∃ k, (Aof.open ((encodeAll es).take n) mode).replay = es.take k ∧
        ∀ i < es.length, i < k ↔ (encodeAll (es.take (i + 1))).length ≤ n) ∧
    ∀ a : Aof, (encodeAll a.replay).length ≤ a.commit.file.length ∧
      a.replay.map (fun e => e.payload.length) <+: a.payloadReads.map Prod.snd ∧
      ∀ x ∈ a.payloadReads, x.1 + x.2 ≤ a.commit.committed := by
  refine ⟨?_, ?_⟩
  · intro es n hfits
    obtain ⟨k, hk, hends⟩ := wholeIn_eq_take n es
    refine ⟨k, ?_, hends⟩
    obtain ⟨torn, htake, htorn⟩ := take_encodeAll es n
    have hwhole : ∀ e ∈ wholeIn n es, e.Fits := by
      intro e he
      rw [hk] at he
      exact hfits e (List.mem_of_mem_take he)
    have hscan := Aof.replayLoop_encodeAll 0 (wholeIn n es) torn hwhole
    simp only [Nat.zero_add] at hscan
    rw [Aof.replay_open, htake, hscan, ← hk]
    rcases htorn with rfl | ⟨e, j, he, -, hj, rfl⟩
    · rw [List.length_nil, Nat.add_zero, Aof.replayLoop_end, List.append_nil]
    · rw [replayLoop_piece (hfits e he) _ hj, List.append_nil]
  · intro a
    exact ⟨Aof.length_replayLoop_le _ _ _, Aof.replayLoop_payloads _ _ _,
      Aof.payloadReadsLoop_le _ _ _⟩

/-- Two entries, the second of which is cut. -/
theorem replay_of_cut_log_two :
    ∃ k, (Aof.open ((encodeAll [⟨.command, 1, [104, 105]⟩, ⟨.txnStart, 2, []⟩]).take 20)
        .always).replay = [⟨.command, 1, [104, 105]⟩, ⟨.txnStart, 2, []⟩].take k ∧ (0 < k ∧ ¬ 1 < k) := by
  obtain ⟨k, hk, hends⟩ := (replay_of_cut_log .always).1
    [⟨.command, 1, [104, 105]⟩, ⟨.txnStart, 2, []⟩] 20 (by decide)
  exact ⟨k, hk, (hends 0 (by decide)).mpr (by decide),
    fun hlt => absurd ((hends 1 (by decide)).mp hlt) (by decide)⟩

end Garnet
