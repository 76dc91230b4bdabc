import Mathlib.Data.List.Induction
import MiniGarnet.Garnet.Aof

/-! # The log under I/O errors

    The calls of `aof.rs` again, each file operation of which may fail.
    What fails is part of the call: a seek, a `write_all` after it has
    written some bytes, a sync, the cut of the file.  A call returns whether
    it came to its end (`Ok`) together with the log it leaves.
-/

namespace Garnet

/-! ## Section 1: Calls -/

/-- How writing the buffer to the file goes. -/
inductive WriteOutcome where
  | ok
  /-- The seek fails. -/
  | noSeek
  /-- `write_all` fails behind the first `n` bytes. -/
  | partly (n : ℕ)
  deriving DecidableEq, Repr

/-- What `wait_committed` comes to. -/
inductive WaitResult where
  | ok
  | error
  /-- It parks until somebody else commits. -/
  | parked
  deriving DecidableEq, Repr

namespace Aof

/-- `flush_buffer_locked` -/
def tryFlush (w : WriteOutcome) (a : Aof) : Bool × Aof :=
  if a.buf.isEmpty then (true, a)
  else
    match w with
    | .ok => (true, { a with
        file := writeAt a.file a.written a.buf
        written := a.written + a.buf.length
        buf := [] })
    | .noSeek => (false, a)
    | .partly n => (false, { a with file := writeAt a.file a.written (a.buf.take n) })

/-- `commit`; `synced` is whether `sync_data` succeeds. -/
def tryCommit (w : WriteOutcome) (synced : Bool) (a : Aof) : Bool × Aof :=
  match a.tryFlush w with
  | (false, a) => (false, a)
  | (true, a) =>
    if a.committed < a.written then
      if synced then (true, { a with committed := a.written }) else (false, a)
    else (true, a)

/-- The lock section of `enqueue`: `none` when it returns with an error. -/
def tryAppend (e : AofEntry) (w : WriteOutcome) (a : Aof) : Option ℕ × Aof :=
  let buf := a.buf ++ e.header ++ e.payload
  let tail := a.written + buf.length
  let a := { a with buf := buf, tail := tail }
  if 64 * 1024 ≤ a.buf.length then
    match a.tryFlush w with
    | (false, a) => (none, a)
    | (true, a) => (some tail, a)
  else (some tail, a)

/-- `enqueue`: the address just past the entry, `none` for an error. -/
def tryEnqueue (e : AofEntry) (w w' : WriteOutcome) (synced : Bool) (a : Aof) : Option ℕ × Aof :=
  match a.tryAppend e w with
  | (none, a) => (none, a)
  | (some tail, a) =>
    if a.mode = .always then
      match a.tryCommit w' synced with
      | (false, a) => (none, a)
      | (true, a) => (some tail, a)
    else (some tail, a)

def tryWaitCommitted (addr : ℕ) (w : WriteOutcome) (synced : Bool) (a : Aof) : WaitResult × Aof :=
  if addr ≤ a.committed then (.ok, a)
  else
    match a.tryCommit w synced with
    | (false, a) => (.error, a)
    | (true, a) => if a.committed < addr then (.parked, a) else (.ok, a)

/-- `truncate`; `cut` and `synced` are whether `set_len` and `sync_all` succeed. -/
def tryTruncate (cut synced : Bool) (a : Aof) : Bool × Aof :=
  let a := { a with buf := [] }
  if cut then
    let a := { a with file := [] }
    if synced then (true, { a with written := 0, committed := 0, tail := 0 }) else (false, a)
  else (false, a)

/-! ### Without errors these are the calls of the log -/

theorem tryFlush_ok (a : Aof) : a.tryFlush .ok = (true, a.flushBufferLocked) := by
  unfold tryFlush flushBufferLocked
  split <;> rfl

theorem tryCommit_ok (a : Aof) : a.tryCommit .ok true = (true, a.commit) := by
  simp only [tryCommit, tryFlush_ok, commit, if_true]
  split <;> rfl

theorem tryEnqueue_ok (e : AofEntry) (a : Aof) :
    a.tryEnqueue e .ok .ok true = (some (a.enqueue e).1, (a.enqueue e).2) := by
  by_cases hbig : 64 * 1024 ≤ (a.buf ++ e.header ++ e.payload).length
  · simp only [tryEnqueue, tryAppend, tryFlush_ok, enqueue, if_pos hbig, tryCommit_ok]
    split <;> rfl
  · simp only [tryEnqueue, tryAppend, enqueue, if_neg hbig, tryCommit_ok]
    split <;> rfl

theorem tryTruncate_ok (a : Aof) : a.tryTruncate true true = (true, a.truncate) := rfl

end Aof

/-- A call of the log, with what happens to its file operations. -/
inductive FaultyCall where
  | enqueue (e : AofEntry) (w w' : WriteOutcome) (synced : Bool)
  | commit (w : WriteOutcome) (synced : Bool)
  | waitCommitted (addr : ℕ) (w : WriteOutcome) (synced : Bool)
  | truncate (cut synced : Bool)
  deriving DecidableEq, Repr

namespace FaultyCall

/-- The log the call leaves. -/
def run (a : Aof) : FaultyCall → Aof
  | .enqueue e w w' synced => (a.tryEnqueue e w w' synced).2
  | .commit w synced => (a.tryCommit w synced).2
  | .waitCommitted addr w synced => (a.tryWaitCommitted addr w synced).2
  | .truncate cut synced => (a.tryTruncate cut synced).2

/-- The entries enqueued since the last truncation that took effect. -/
def entries (es : List AofEntry) : FaultyCall → List AofEntry
  | .enqueue e _ _ _ => es ++ [e]
  | .commit _ _ | .waitCommitted _ _ _ => es
  | .truncate cut synced => if cut && synced then [] else es

end FaultyCall

/-! ## Section 2: Consistency -/

/-- The first `written` bytes of the file and then the buffer are the log `es`, and the
    counters agree with them. -/
structure Consistent (a : Aof) (es : List AofEntry) : Prop where
  written_le : a.written ≤ a.file.length
  content : a.file.take a.written ++ a.buf = encodeAll es
  tail : a.tail = a.written + a.buf.length
  committed : a.committed ≤ a.written

instance (a : Aof) (es : List AofEntry) : Decidable (Consistent a es) :=
  decidable_of_iff (a.written ≤ a.file.length ∧ a.file.take a.written ++ a.buf = encodeAll es ∧
      a.tail = a.written + a.buf.length ∧ a.committed ≤ a.written)
    ⟨fun ⟨h₁, h₂, h₃, h₄⟩ => ⟨h₁, h₂, h₃, h₄⟩, fun ⟨h₁, h₂, h₃, h₄⟩ => ⟨h₁, h₂, h₃, h₄⟩⟩

/-- A truncation that fails has nothing to lose: the buffer is empty when the file cannot be
    cut, the whole log when the cut cannot be synced. -/
def Harmless (a : Aof) : FaultyCall → Prop
  | .truncate cut synced =>
    (cut = false → a.buf = []) ∧ (cut = true → synced = false → a.written = 0 ∧ a.buf = [])
  | _ => True

instance (a : Aof) : (c : FaultyCall) → Decidable (Harmless a c)
  | .truncate _ _ => inferInstanceAs (Decidable (_ ∧ _))
  | .enqueue _ _ _ _ | .commit _ _ | .waitCommitted _ _ _ => .isTrue trivial

section Steps

variable {a : Aof} {es : List AofEntry}

/-- Writing at `written` leaves the bytes in front of it alone. -/
theorem take_writeAt {file : Bytes} {pos : ℕ} (h : pos ≤ file.length) (bytes : Bytes) :
    (writeAt file pos bytes).take pos = file.take pos := by
  have hgap : pos - file.length = 0 := by omega
  have hlen : (file.take pos).length = pos := by
    rw [List.length_take]
    omega
  rw [writeAt, hgap, List.replicate_zero, List.append_nil, List.append_assoc,
    List.take_append_of_le_length (by omega), List.take_take, Nat.min_self]

theorem take_writeAt_all {file : Bytes} {pos : ℕ} (h : pos ≤ file.length) (bytes : Bytes) :
    (writeAt file pos bytes).take (pos + bytes.length) = file.take pos ++ bytes := by
  have hgap : pos - file.length = 0 := by omega
  have hlen : (file.take pos ++ bytes).length = pos + bytes.length := by
    rw [List.length_append, List.length_take]
    omega
  rw [writeAt, hgap, List.replicate_zero, List.append_nil, ← hlen, List.take_left]

theorem length_writeAt {file : Bytes} {pos : ℕ} (h : pos ≤ file.length) (bytes : Bytes) :
    pos + bytes.length ≤ (writeAt file pos bytes).length := by
  simp only [writeAt, List.length_append, List.length_take, List.length_replicate]
  omega

theorem Consistent.flush (h : Consistent a es) (w : WriteOutcome) :
    Consistent (a.tryFlush w).2 es := by
  unfold Aof.tryFlush
  split
  · exact h
  · cases w with
    | ok =>
      refine ⟨length_writeAt h.written_le _, ?_, ?_, ?_⟩
      · show (writeAt a.file a.written a.buf).take (a.written + a.buf.length) ++ [] = _
        rw [take_writeAt_all h.written_le, List.append_nil, h.content]
      · exact h.tail
      · exact Nat.le_trans h.committed (Nat.le_add_right _ _)
    | noSeek => exact h
    | partly n =>
      refine ⟨?_, ?_, h.tail, h.committed⟩
      · exact Nat.le_trans (Nat.le_add_right _ _) (length_writeAt h.written_le (a.buf.take n))
      · show (writeAt a.file a.written (a.buf.take n)).take a.written ++ a.buf = _
        rw [take_writeAt h.written_le, h.content]

theorem Consistent.commit (h : Consistent a es) (w : WriteOutcome) (synced : Bool) :
    Consistent (a.tryCommit w synced).2 es := by
  have hf := h.flush w
  unfold Aof.tryCommit
  split
  · rename_i a' heq
    rw [heq] at hf
    exact hf
  · rename_i a' heq
    rw [heq] at hf
    split
    · split
      · exact ⟨hf.written_le, hf.content, hf.tail, Nat.le_refl _⟩
      · exact hf
    · exact hf

theorem Consistent.append (h : Consistent a es) (e : AofEntry) (w : WriteOutcome) :
    Consistent (a.tryAppend e w).2 (es ++ [e]) := by
  have happ : Consistent { a with
      buf := a.buf ++ e.header ++ e.payload
      tail := a.written + (a.buf ++ e.header ++ e.payload).length } (es ++ [e]) := by
    refine ⟨h.written_le, ?_, rfl, h.committed⟩
    simp [← h.content, AofEntry.encode]
  simp only [Aof.tryAppend]
  split
  · have hf := happ.flush w
    split <;> rename_i a' heq <;> rw [heq] at hf <;> exact hf
  · exact happ

theorem Consistent.enqueue (h : Consistent a es) (e : AofEntry) (w w' : WriteOutcome)
    (synced : Bool) : Consistent (a.tryEnqueue e w w' synced).2 (es ++ [e]) := by
  have happ := h.append e w
  unfold Aof.tryEnqueue
  split
  · rename_i a' heq
    rw [heq] at happ
    exact happ
  · rename_i tail a' heq
    rw [heq] at happ
    split
    · have hc := Consistent.commit happ w' synced
      split <;> rename_i a'' heq' <;> rw [heq'] at hc <;> exact hc
    · exact happ

theorem Consistent.waitCommitted (h : Consistent a es) (addr : ℕ) (w : WriteOutcome)
    (synced : Bool) : Consistent (a.tryWaitCommitted addr w synced).2 es := by
  have hc := h.commit w synced
  unfold Aof.tryWaitCommitted
  split
  · exact h
  · split
    · rename_i a' heq
      rw [heq] at hc
      exact hc
    · rename_i a' heq
      rw [heq] at hc
      split <;> exact hc

/-- A truncation keeps the log consistent exactly when it is harmless. -/
theorem Consistent.truncate_iff (h : Consistent a es) (cut synced : Bool) :
    Consistent (a.tryTruncate cut synced).2 (if cut && synced then [] else es) ↔
      Harmless a (.truncate cut synced) := by
  cases cut with
  | false =>
    show Consistent { a with buf := [] } es ↔ _
    constructor
    · intro h'
      refine ⟨fun _ => ?_, nofun⟩
      have htail : a.tail = a.written + 0 := h'.tail
      have hbuf := h.tail
      exact List.eq_nil_of_length_eq_zero (by omega)
    · intro hok
      have hbuf := hok.1 rfl
      have hsame : { a with buf := [] } = a := by rw [← hbuf]
      rw [hsame]
      exact h
  | true =>
    cases synced with
    | true => exact ⟨fun _ => ⟨nofun, nofun⟩, fun _ => ⟨Nat.le_refl _, rfl, rfl, Nat.le_refl _⟩⟩
    | false =>
      show Consistent { a with buf := [], file := [] } es ↔ _
      constructor
      · intro h'
        refine ⟨nofun, fun _ _ => ?_⟩
        have hwritten : a.written ≤ 0 := h'.written_le
        have htail : a.tail = a.written + 0 := h'.tail
        have hbuf := h.tail
        exact ⟨by omega, List.eq_nil_of_length_eq_zero (by omega)⟩
      · intro hok
        obtain ⟨hwritten, hbuf⟩ := hok.2 rfl rfl
        have hcontent := h.content
        rw [hwritten, hbuf, List.take_zero, List.append_nil] at hcontent
        refine ⟨Nat.le_of_eq hwritten, ?_, ?_, h.committed⟩
        · show ([] : Bytes).take a.written ++ [] = _
          rw [List.take_nil, List.append_nil, hcontent]
        · show a.tail = a.written + 0
          rw [h.tail, hbuf]
          rfl

/-- What one call does to a consistent log. -/
theorem Consistent.run_iff (h : Consistent a es) (c : FaultyCall) :
    Consistent (c.run a) (c.entries es) ↔ Harmless a c := by
  cases c with
  | enqueue e w w' synced => exact iff_of_true (h.enqueue e w w' synced) trivial
  | commit w synced => exact iff_of_true (h.commit w synced) trivial
  | waitCommitted addr w synced => exact iff_of_true (h.waitCommitted addr w synced) trivial
  | truncate cut synced => exact h.truncate_iff cut synced

end Steps

/-! ## Section 3: Whole runs -/

/-- A log file that holds entries, opened. -/
theorem consistent_open (es : List AofEntry) (mode : CommitMode) :
    Consistent (Aof.open (encodeAll es) mode) es where
  written_le := Nat.le_refl _
  content := by simp [Aof.open]
  tail := rfl
  committed := Nat.le_refl _

/-- The log after some calls, and the entries it should hold. -/
def afterCalls (a : Aof) (es : List AofEntry) (cs : List FaultyCall) : Aof × List AofEntry :=
  cs.foldl (fun s c => (c.run s.1, c.entries s.2)) (a, es)

theorem afterCalls_snoc (a : Aof) (es : List AofEntry) (cs : List FaultyCall) (c : FaultyCall) :
    afterCalls a es (cs ++ [c]) =
      (c.run (afterCalls a es cs).1, c.entries (afterCalls a es cs).2) := by
  simp [afterCalls]

/-- **The log under I/O errors.**  The log is consistent after every call exactly when every
    truncation that fails finds nothing to lose. -/
theorem consistent_under_faults_iff (mode : CommitMode) (es : List AofEntry)
    (calls : List FaultyCall) :
    (∀ done rest, calls = done ++ rest →
      Consistent (afterCalls (Aof.open (encodeAll es) mode) es done).1
        (afterCalls (Aof.open (encodeAll es) mode) es done).2) ↔
    ∀ done c rest, calls = done ++ c :: rest →
      Harmless (afterCalls (Aof.open (encodeAll es) mode) es done).1 c := by
  constructor
  · intro hall done c rest hcalls
    have hbefore := hall done (c :: rest) hcalls
    have hafter := hall (done ++ [c]) rest (by rw [hcalls, List.append_assoc]; rfl)
    rw [afterCalls_snoc] at hafter
    exact (hbefore.run_iff c).mp hafter
  · intro hharmless done
    induction done using List.reverseRecOn with
    | nil =>
      intro rest _
      exact consistent_open es mode
    | append_singleton done c ih =>
      intro rest hcalls
      rw [List.append_assoc, List.singleton_append] at hcalls
      have hbefore := ih (c :: rest) hcalls
      rw [afterCalls_snoc]
      exact (hbefore.run_iff c).mpr (hharmless done c rest hcalls)

/-- An entry is buffered and the file cannot be cut: the buffer is gone, the tail is not. -/
theorem failed_truncate_loses_buffer :
    ¬ Consistent
      (afterCalls (Aof.open (encodeAll []) .never) []
        [.enqueue ⟨.command, 1, [42]⟩ .ok .ok true, .truncate false true]).1
      (afterCalls (Aof.open (encodeAll []) .never) []
        [.enqueue ⟨.command, 1, [42]⟩ .ok .ok true, .truncate false true]).2 := by
  decide +kernel

end Garnet
