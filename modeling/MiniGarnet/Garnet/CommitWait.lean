import MiniGarnet.Lib.Lts
import Mathlib.Logic.Function.Basic
import MiniGarnet.Garnet.AofFaults

/-! # Commit before acknowledge

    With `aof_commit_wait` a session calls `wait_committed` behind each entry
    it logs for a command, and only then hands the reply to the socket
    (`log_write`, `cmd_exec`).  Sessions and the commit thread take turns at
    the lock of the log, so every section under the lock is a step.

    The callers drop the errors: a failed `enqueue` counts as address 0, for
    which there is nothing to wait, and what `wait_committed` returns is not
    looked at.
-/

namespace Garnet.CommitWait

/-! ## Section 1: Steps -/

/-- The entries a command logs, with whether the session waits behind each: one for a write
    command; for an EXEC the bracket, of which only the end is waited for, and what its
    commands log. -/
abbrev Block : Type := List (AofEntry × Bool)

/-- Where a session stands in logging a command. -/
inductive Pc where
  | idle
  /-- About to enqueue the next entry, or to reply when there is none. -/
  | logging (todo : Block)
  /-- In `enqueue` under `CommitMode::Always`, behind its first section. -/
  | committing (stop : ℕ) (waits : Bool) (todo : Block)
  /-- In `wait_committed`, about to look at the committed address. -/
  | checking (addr : ℕ) (todo : Block)
  /-- About to call `commit`. -/
  | forcing (addr : ℕ) (todo : Block)
  /-- In the wait loop. -/
  | parked (addr : ℕ) (todo : Block)
  /-- The reply is handed to the socket. -/
  | replied
  deriving DecidableEq, Repr

/-- `disk` is what survives a crash: the file as of the last sync that succeeded.  `entries`
    and `logged` are history: all entries enqueued, and those of each session's command with
    the address just past them. -/
structure State (Sid : Type) where
  aof : Aof
  disk : Bytes
  pc : Sid → Pc
  entries : List AofEntry
  logged : Sid → List (ℕ × AofEntry)

inductive Label (Sid : Type) where
  /-- The session starts to log a command. -/
  | start (i : Sid) (block : Block)
  /-- The section of `enqueue`. -/
  | append (i : Sid) (w : WriteOutcome)
  /-- The section of `commit` inside `enqueue` or `wait_committed`. -/
  | commit (i : Sid) (w : WriteOutcome) (synced : Bool)
  | check (i : Sid)
  | wake (i : Sid)
  | reply (i : Sid)
  /-- The commit thread of `CommitMode::Interval`. -/
  | background (w : WriteOutcome) (synced : Bool)

section Steps

variable {Sid : Type} [DecidableEq Sid]

/-- A log that holds some entries, all on disk, and sessions at rest. -/
def State.init (mode : CommitMode) (es : List AofEntry) : State Sid where
  aof := Aof.open (encodeAll es) mode
  disk := encodeAll es
  pc := fun _ => .idle
  entries := es
  logged := fun _ => []

variable (s : State Sid) (i : Sid)

def State.goto (p : Pc) : State Sid := { s with pc := Function.update s.pc i p }

/-- Has this `commit` reached the disk? -/
def reachesDisk (a : Aof) (w : WriteOutcome) (synced : Bool) : Bool :=
  decide ((a.tryFlush w).1 = true ∧ (a.tryFlush w).2.committed < (a.tryFlush w).2.written) && synced

/-- The log and the disk behind a section of `commit`. -/
def State.commit (w : WriteOutcome) (synced : Bool) : State Sid :=
  { s with
    aof := (s.aof.tryCommit w synced).2
    disk := if reachesDisk s.aof w synced then (s.aof.tryCommit w synced).2.file else s.disk }

/-- Where an entry that is waited for, or not, leads with this address. -/
def afterEnqueue (waits : Bool) (addr : ℕ) (todo : Block) : Pc :=
  if waits then .checking addr todo else .logging todo

def stepAppend (w : WriteOutcome) : Option (State Sid) :=
  match s.pc i with
  | .logging ((e, waits) :: todo) =>
    let stop := s.aof.written + s.aof.buf.length + e.encode.length
    let (result, a) := s.aof.tryAppend e w
    let s := { s with
      aof := a
      entries := s.entries ++ [e]
      logged := Function.update s.logged i ((stop, e) :: s.logged i) }
    some (s.goto i (match result with
      -- `unwrap_or(0)`
      | none => afterEnqueue waits 0 todo
      | some tail =>
        if a.mode = .always then .committing tail waits todo else afterEnqueue waits tail todo))
  | _ => none

def stepCommit (w : WriteOutcome) (synced : Bool) : Option (State Sid) :=
  let ok := (s.aof.tryCommit w synced).1
  match s.pc i with
  | .committing tail waits todo =>
    some ((s.commit w synced).goto i (afterEnqueue waits (if ok then tail else 0) todo))
  | .forcing addr todo =>
    -- the error of `wait_committed` is dropped
    some ((s.commit w synced).goto i (if ok then .parked addr todo else .logging todo))
  | _ => none

def next (s : State Sid) : Label Sid → Option (State Sid)
  | .start i block =>
    if (s.pc i = .idle ∨ s.pc i = .replied) ∧ block.getLast?.map Prod.snd = some true then
      some ({ s with logged := Function.update s.logged i [] }.goto i (.logging block))
    else none
  | .append i w => stepAppend s i w
  | .commit i w synced => stepCommit s i w synced
  | .check i =>
    match s.pc i with
    | .checking addr todo =>
      some (s.goto i (if addr ≤ s.aof.committed then .logging todo else .forcing addr todo))
    | _ => none
  | .wake i =>
    match s.pc i with
    | .parked addr todo =>
      if addr ≤ s.aof.committed then some (s.goto i (.logging todo)) else none
    | _ => none
  | .reply i => if s.pc i = .logging [] then some (s.goto i .replied) else none
  | .background w synced => some (s.commit w synced)

/-- No file operation that `enqueue` makes in its own section fails. -/
def AppendSucceeds (a : Aof) (e : AofEntry) (w : WriteOutcome) : Prop :=
  64 * 1024 ≤ a.buf.length + e.encode.length → w = .ok

/-- No file operation that `commit` makes fails. -/
def CommitSucceeds (a : Aof) (w : WriteOutcome) (synced : Bool) : Prop :=
  (a.buf ≠ [] → w = .ok) ∧ (a.committed < a.written + a.buf.length → synced = true)

/-- No file operation fails in the calls for the last entry of a command. -/
def Unfailing (s : State Sid) : Label Sid → Prop
  | .append i w =>
    match s.pc i with
    | .logging [(e, _)] => AppendSucceeds s.aof e w
    | _ => True
  | .commit i w synced =>
    match s.pc i with
    | .committing _ _ [] | .forcing _ [] => CommitSucceeds s.aof w synced
    | _ => True
  | _ => True

instance (a : Aof) (e : AofEntry) (w : WriteOutcome) : Decidable (AppendSucceeds a e w) :=
  inferInstanceAs (Decidable (_ → _))

instance (a : Aof) (w : WriteOutcome) (synced : Bool) : Decidable (CommitSucceeds a w synced) :=
  inferInstanceAs (Decidable (_ ∧ _))

instance (s : State Sid) (l : Label Sid) : Decidable (Unfailing s l) := by
  unfold Unfailing
  split <;> (try split) <;> infer_instance

end Steps

/-! ## Section 2: Sections of the log -/

section Sections

variable {a : Aof} {es : List AofEntry}

theorem length_of_consistent (h : Consistent a es) :
    (encodeAll es).length = a.written + a.buf.length := by
  have hlen := congrArg List.length h.content
  have hwritten := h.written_le
  rw [List.length_append, List.length_take] at hlen
  omega

/-- What is below `written` is in the file. -/
theorem file_take (h : Consistent a es) {n : ℕ} (hn : n ≤ a.written) :
    a.file.take n = (encodeAll es).take n := by
  have hwritten := h.written_le
  have hlen : (a.file.take a.written).length = a.written := by
    rw [List.length_take]
    omega
  rw [← h.content, List.take_append_of_le_length (by omega), List.take_take, Nat.min_eq_left hn]

theorem tryFlush_committed (w : WriteOutcome) (a : Aof) :
    (a.tryFlush w).2.committed = a.committed ∧ (a.tryFlush w).2.mode = a.mode := by
  unfold Aof.tryFlush
  split
  · exact ⟨rfl, rfl⟩
  · cases w <;> exact ⟨rfl, rfl⟩

/-- The first section of `enqueue` commits nothing; without a fault it returns the address
    just past the entry. -/
theorem tryAppend_spec (e : AofEntry) (w : WriteOutcome) (a : Aof) :
    (a.tryAppend e w).2.committed = a.committed ∧
    (∀ tail, (a.tryAppend e w).1 = some tail →
      tail = a.written + a.buf.length + e.encode.length) ∧
    (AppendSucceeds a e w → (a.tryAppend e w).1 ≠ none) := by
  have hlen : a.written + (a.buf ++ e.header ++ e.payload).length =
      a.written + a.buf.length + e.encode.length := by
    simp only [List.length_append, AofEntry.encode]
    omega
  unfold Aof.tryAppend
  simp only
  split
  · rename_i hbig
    have hflush := tryFlush_committed w { a with
      buf := a.buf ++ e.header ++ e.payload
      tail := a.written + (a.buf ++ e.header ++ e.payload).length }
    split
    · rename_i a' heq
      rw [heq] at hflush
      refine ⟨hflush.1, by simp, ?_⟩
      intro hok
      obtain rfl := hok (by omega)
      rw [Aof.tryFlush_ok] at heq
      cases heq
    · rename_i a' heq
      rw [heq] at hflush
      exact ⟨hflush.1, fun tail htail => by rw [← hlen]; exact (Option.some.inj htail).symm, by simp⟩
  · exact ⟨rfl, fun tail htail => by rw [← hlen]; exact (Option.some.inj htail).symm, by simp⟩

/-- A section of `commit`: without a fault everything is committed. -/
theorem tryCommit_spec (h : Consistent a es) (w : WriteOutcome) (synced : Bool) :
    a.committed ≤ (a.tryCommit w synced).2.committed ∧
    (reachesDisk a w synced = false → (a.tryCommit w synced).2.committed = a.committed) ∧
    (CommitSucceeds a w synced → (a.tryCommit w synced).1 = true ∧
      (a.tryCommit w synced).2.committed = (encodeAll es).length) := by
  have hf := h.flush w
  obtain ⟨hkept, -⟩ := tryFlush_committed w a
  have hle := hf.committed
  have hlen := length_of_consistent hf
  have htotal := length_of_consistent h
  have hempty : CommitSucceeds a w synced →
      (a.tryFlush w).1 = true ∧ (a.tryFlush w).2.buf = [] := by
    intro hok
    unfold Aof.tryFlush
    split
    · rename_i hbuf
      exact ⟨rfl, List.isEmpty_iff.mp hbuf⟩
    · rename_i hbuf
      obtain rfl := hok.1 (by simpa using hbuf)
      exact ⟨rfl, rfl⟩
  unfold Aof.tryCommit reachesDisk
  rcases hflush : a.tryFlush w with ⟨ok, a'⟩
  rw [hflush] at hkept hle hlen hempty
  simp only at hkept hle hlen hempty
  cases ok with
  | false =>
    refine ⟨Nat.le_of_eq hkept.symm, fun _ => hkept, ?_⟩
    intro hok
    cases (hempty hok).1
  | true =>
    simp only
    split
    · rename_i hlt
      cases synced with
      | true =>
        refine ⟨?_, ?_, ?_⟩
        · show a.committed ≤ a'.written
          omega
        · intro hno
          simp [hlt] at hno
        · intro hok
          have hbuf := (hempty hok).2
          rw [hbuf, List.length_nil] at hlen
          exact ⟨rfl, hlen.symm⟩
      | false =>
        refine ⟨Nat.le_of_eq hkept.symm, fun _ => hkept, ?_⟩
        intro hok
        cases hok.2 (by omega)
    · rename_i hlt
      refine ⟨Nat.le_of_eq hkept.symm, fun _ => hkept, ?_⟩
      intro hok
      have hbuf := (hempty hok).2
      rw [hbuf, List.length_nil] at hlen
      refine ⟨rfl, ?_⟩
      show a'.committed = (encodeAll es).length
      omega

end Sections

/-! ## Section 3: Invariant -/

/-- The last entry of the command is waited for. -/
def LastWaits (todo : Block) : Prop := todo.getLast?.map Prod.snd = some true

/-- All entries of the command are below `addr`. -/
def AllBelow (logged : List (ℕ × AofEntry)) (addr : ℕ) : Prop := ∀ x ∈ logged, x.1 ≤ addr

/-- What holds with `todo` still to log: behind the last entry, `addr` covers them all. -/
def Ahead (logged : List (ℕ × AofEntry)) (addr : ℕ) (todo : Block) : Prop :=
  (todo = [] → AllBelow logged addr) ∧ (todo ≠ [] → LastWaits todo)

def PcOk (committed : ℕ) (logged : List (ℕ × AofEntry)) : Pc → Prop
  | .idle => True
  | .logging todo => Ahead logged committed todo
  | .committing tail waits todo => Ahead logged tail todo ∧ (todo = [] → waits = true)
  | .checking addr todo | .forcing addr todo | .parked addr todo => Ahead logged addr todo
  | .replied => AllBelow logged committed

structure Inv {Sid : Type} (s : State Sid) : Prop where
  consistent : Consistent s.aof s.entries
  disk_len : s.aof.committed ≤ s.disk.length
  disk : s.disk.take s.aof.committed = (encodeAll s.entries).take s.aof.committed
  /-- Every logged entry stands in the log, in front of its address. -/
  logged : ∀ i, ∀ x ∈ s.logged i, x.1 ≤ (encodeAll s.entries).length ∧
    ∃ pre, (encodeAll s.entries).take x.1 = pre ++ x.2.encode
  pcs : ∀ i, PcOk s.aof.committed (s.logged i) (s.pc i)

section Invariant

variable {Sid : Type} [DecidableEq Sid] {s s' : State Sid} {i : Sid}

omit [DecidableEq Sid] in
theorem AllBelow.mono {logged : List (ℕ × AofEntry)} {a b : ℕ} (h : AllBelow logged a)
    (hle : a ≤ b) : AllBelow logged b := fun x hx => Nat.le_trans (h x hx) hle

omit [DecidableEq Sid] in
theorem PcOk.mono {logged : List (ℕ × AofEntry)} {a b : ℕ} {p : Pc} (h : PcOk a logged p)
    (hle : a ≤ b) : PcOk b logged p := by
  cases p with
  | logging todo => exact ⟨fun hnil => (h.1 hnil).mono hle, h.2⟩
  | replied => exact AllBelow.mono h hle
  | idle => trivial
  | committing tail waits todo => exact h
  | checking addr todo => exact h
  | forcing addr todo => exact h
  | parked addr todo => exact h

theorem Inv.goto (h : Inv s) {p : Pc} (hp : PcOk s.aof.committed (s.logged i) p) :
    Inv (s.goto i p) := by
  refine ⟨h.consistent, h.disk_len, h.disk, h.logged, ?_⟩
  intro j
  show PcOk s.aof.committed (s.logged j) (Function.update s.pc i p j)
  by_cases hj : j = i
  · subst hj
    rw [Function.update_self]
    exact hp
  · rw [Function.update_of_ne hj]
    exact h.pcs j

omit [DecidableEq Sid] in
/-- A section of `commit`, whoever makes it. -/
theorem Inv.commit (h : Inv s) (w : WriteOutcome) (synced : Bool) : Inv (s.commit w synced) := by
  obtain ⟨hle, hsame, -⟩ := tryCommit_spec h.consistent w synced
  have hcons := h.consistent.commit w synced
  refine ⟨hcons, ?_, ?_, h.logged, fun j => (h.pcs j).mono hle⟩
  · show (s.aof.tryCommit w synced).2.committed ≤
      (if reachesDisk s.aof w synced then (s.aof.tryCommit w synced).2.file else s.disk).length
    cases hreach : reachesDisk s.aof w synced with
    | true => exact Nat.le_trans hcons.committed hcons.written_le
    | false =>
      rw [hsame hreach]
      exact h.disk_len
  · show (if reachesDisk s.aof w synced then (s.aof.tryCommit w synced).2.file else s.disk).take
      (s.aof.tryCommit w synced).2.committed =
        (encodeAll s.entries).take (s.aof.tryCommit w synced).2.committed
    cases hreach : reachesDisk s.aof w synced with
    | true => exact file_take hcons hcons.committed
    | false =>
      rw [hsame hreach]
      exact h.disk

omit [DecidableEq Sid] in
theorem LastWaits.tail {e : AofEntry} {waits : Bool} {todo : Block}
    (h : LastWaits ((e, waits) :: todo)) :
    (todo = [] → waits = true) ∧ (todo ≠ [] → LastWaits todo) := by
  constructor
  · rintro rfl
    exact Option.some.inj h
  · intro hne
    cases todo with
    | nil => exact absurd rfl hne
    | cons y rest => simpa [LastWaits] using h

omit [DecidableEq Sid] in
theorem pcOk_afterEnqueue {logged : List (ℕ × AofEntry)} {committed addr : ℕ} {waits : Bool}
    {todo : Block} (h : Ahead logged addr todo) (hwaits : todo = [] → waits = true) :
    PcOk committed logged (afterEnqueue waits addr todo) := by
  unfold afterEnqueue
  split
  · exact h
  · rename_i hno
    exact ⟨fun hnil => absurd (hwaits hnil) hno, h.2⟩

/-- An entry is added to the log, whatever the session does next. -/
theorem Inv.append (h : Inv s) (e : AofEntry) (w : WriteOutcome) {p : Pc}
    (hp : PcOk s.aof.committed
      ((s.aof.written + s.aof.buf.length + e.encode.length, e) :: s.logged i) p) :
    Inv { s with
      aof := (s.aof.tryAppend e w).2
      entries := s.entries ++ [e]
      logged := Function.update s.logged i
        ((s.aof.written + s.aof.buf.length + e.encode.length, e) :: s.logged i)
      pc := Function.update s.pc i p } := by
  obtain ⟨hkept, -, -⟩ := tryAppend_spec e w s.aof
  have hlen := length_of_consistent h.consistent
  have hlt := h.consistent.committed
  have htake : ∀ n ≤ (encodeAll s.entries).length,
      (encodeAll (s.entries ++ [e])).take n = (encodeAll s.entries).take n := by
    intro n hn
    rw [encodeAll_append, List.take_append_of_le_length hn]
  have hlonger : (encodeAll (s.entries ++ [e])).length =
      (encodeAll s.entries).length + e.encode.length := by
    simp [encodeAll]
  constructor
  · exact h.consistent.append e w
  · show (s.aof.tryAppend e w).2.committed ≤ s.disk.length
    rw [hkept]
    exact h.disk_len
  · show s.disk.take (s.aof.tryAppend e w).2.committed =
      (encodeAll (s.entries ++ [e])).take (s.aof.tryAppend e w).2.committed
    rw [hkept, htake _ (by omega)]
    exact h.disk
  · have hold : ∀ j, ∀ x ∈ s.logged j, x.1 ≤ (encodeAll (s.entries ++ [e])).length ∧
        ∃ pre, (encodeAll (s.entries ++ [e])).take x.1 = pre ++ x.2.encode := by
      intro j x hx
      obtain ⟨hle, hpre⟩ := h.logged j x hx
      rw [htake x.1 hle]
      exact ⟨by omega, hpre⟩
    intro j x hx
    simp only at hx ⊢
    by_cases hj : j = i
    · subst hj
      rw [Function.update_self, List.mem_cons] at hx
      rcases hx with rfl | hx
      · -- the new entry ends the log
        refine ⟨by rw [hlonger, hlen], encodeAll s.entries, ?_⟩
        rw [List.take_of_length_le (by rw [hlonger, hlen]), encodeAll_append]
        simp [encodeAll]
      · exact hold j x hx
    · rw [Function.update_of_ne hj] at hx
      exact hold j x hx
  · intro j
    show PcOk (s.aof.tryAppend e w).2.committed (Function.update s.logged i _ j)
      (Function.update s.pc i p j)
    rw [hkept]
    by_cases hj : j = i
    · subst hj
      rw [Function.update_self, Function.update_self]
      exact hp
    · rw [Function.update_of_ne hj, Function.update_of_ne hj]
      exact h.pcs j

theorem inv_stepAppend {w : WriteOutcome} (h : Inv s) (hok : Unfailing s (.append i w))
    (hs : stepAppend s i w = some s') : Inv s' := by
  have hpc := h.pcs i
  unfold stepAppend at hs
  split at hs
  case h_2 => cases hs
  case h_1 e waits todo heq =>
    rw [heq] at hpc
    obtain ⟨hwaits, hlast⟩ := LastWaits.tail (hpc.2 nofun)
    obtain ⟨-, htail, hsome⟩ := tryAppend_spec e w s.aof
    simp only [Option.some.injEq] at hs
    subst hs
    apply h.append
    cases hresult : (s.aof.tryAppend e w).1 with
    | none =>
      -- then more entries follow, the last of which is waited for
      have hne : todo ≠ [] := by
        rintro rfl
        have hclear : AppendSucceeds s.aof e w := by simpa only [Unfailing, heq] using hok
        exact hsome hclear hresult
      exact pcOk_afterEnqueue ⟨fun hnil => absurd hnil hne, hlast⟩ hwaits
    | some tail =>
      obtain rfl := htail tail hresult
      have hahead : Ahead ((s.aof.written + s.aof.buf.length + e.encode.length, e) :: s.logged i)
          (s.aof.written + s.aof.buf.length + e.encode.length) todo := by
        refine ⟨?_, hlast⟩
        intro _ x hx
        rcases List.mem_cons.mp hx with rfl | hx
        · exact Nat.le_refl _
        · have hle := (h.logged i x hx).1
          rw [length_of_consistent h.consistent] at hle
          omega
      simp only
      split
      · exact ⟨hahead, hwaits⟩
      · exact pcOk_afterEnqueue hahead hwaits

theorem inv_stepCommit {w : WriteOutcome} {synced : Bool} (h : Inv s)
    (hok : Unfailing s (.commit i w synced)) (hs : stepCommit s i w synced = some s') :
    Inv s' := by
  have hpc := h.pcs i
  have hc := h.commit w synced
  obtain ⟨-, -, hsuccess⟩ := tryCommit_spec h.consistent w synced
  unfold stepCommit at hs
  simp only at hs
  split at hs
  case h_3 => cases hs
  case h_1 tail waits todo heq =>
    rw [heq] at hpc
    obtain ⟨hahead, hwaits⟩ := hpc
    obtain rfl := Option.some.inj hs
    apply hc.goto
    apply pcOk_afterEnqueue _ hwaits
    refine ⟨?_, hahead.2⟩
    rintro rfl
    have hclear : CommitSucceeds s.aof w synced := by simpa only [Unfailing, heq] using hok
    rw [(hsuccess hclear).1]
    exact hahead.1 rfl
  case h_2 addr todo heq =>
    rw [heq] at hpc
    obtain rfl := Option.some.inj hs
    apply hc.goto
    split
    · exact hpc
    · rename_i hfail
      refine ⟨?_, hpc.2⟩
      rintro rfl
      have hclear : CommitSucceeds s.aof w synced := by simpa only [Unfailing, heq] using hok
      exact absurd (hsuccess hclear).1 hfail

theorem Inv.start (h : Inv s) {block : Block} (hlast : LastWaits block) :
    Inv ({ s with logged := Function.update s.logged i [] }.goto i (.logging block)) := by
  refine ⟨h.consistent, h.disk_len, h.disk, ?_, ?_⟩
  · intro j x hx
    by_cases hj : j = i
    · subst hj
      rw [show State.logged _ j = _ from Function.update_self ..] at hx
      cases hx
    · rw [show State.logged _ j = _ from Function.update_of_ne hj ..] at hx
      exact h.logged j x hx
  · intro j
    show PcOk s.aof.committed (Function.update s.logged i [] j)
      (Function.update s.pc i (.logging block) j)
    by_cases hj : j = i
    · subst hj
      rw [Function.update_self, Function.update_self]
      exact ⟨fun _ x hx => absurd hx (List.not_mem_nil), fun _ => hlast⟩
    · rw [Function.update_of_ne hj, Function.update_of_ne hj]
      exact h.pcs j

theorem inv_next {l : Label Sid} (h : Inv s) (hok : Unfailing s l) (hs : next s l = some s') :
    Inv s' := by
  cases l with
  | append i w => exact inv_stepAppend h hok hs
  | commit i w synced => exact inv_stepCommit h hok hs
  | background w synced =>
    obtain rfl := Option.some.inj hs
    exact h.commit w synced
  | start i block =>
    simp only [next, Option.ite_none_right_eq_some] at hs
    obtain ⟨⟨-, hlast⟩, hs⟩ := hs
    obtain rfl := Option.some.inj hs
    exact h.start hlast
  | check i =>
    have hpc := h.pcs i
    simp only [next] at hs
    split at hs
    case h_2 => cases hs
    case h_1 addr todo heq =>
      rw [heq] at hpc
      obtain rfl := Option.some.inj hs
      apply h.goto
      split
      · rename_i hle
        exact ⟨fun hnil => (hpc.1 hnil).mono hle, hpc.2⟩
      · exact hpc
  | wake i =>
    have hpc := h.pcs i
    simp only [next] at hs
    split at hs
    case h_2 => cases hs
    case h_1 addr todo heq =>
      rw [heq] at hpc
      simp only [Option.ite_none_right_eq_some] at hs
      obtain ⟨hle, hs⟩ := hs
      obtain rfl := Option.some.inj hs
      apply h.goto
      exact ⟨fun hnil => (hpc.1 hnil).mono hle, hpc.2⟩
  | reply i =>
    have hpc := h.pcs i
    simp only [next, Option.ite_none_right_eq_some] at hs
    obtain ⟨heq, hs⟩ := hs
    obtain rfl := Option.some.inj hs
    rw [heq] at hpc
    apply h.goto
    exact hpc.1 rfl

omit [DecidableEq Sid] in
theorem inv_init (mode : CommitMode) (es : List AofEntry) :
    Inv (State.init mode es : State Sid) where
  consistent := consistent_open es mode
  disk_len := Nat.le_refl _
  disk := rfl
  logged := nofun
  pcs := fun _ => trivial

end Invariant

/-! ## Section 4: Replies -/

/-- **Commit before acknowledge.**  In every run in which no file operation fails in the calls
    for the last entry of a command, a command that is replied to has all its entries below
    the committed address and on disk. -/
theorem commit_before_acknowledge {Sid : Type} [DecidableEq Sid] (mode : CommitMode)
    (es : List AofEntry) {ls : List (Label Sid)} {s : State Sid}
    (hrun : Lts.Steps next Unfailing (State.init mode es) ls s) :
    ∀ i, s.pc i = .replied → ∀ x ∈ s.logged i,
      x.1 ≤ s.aof.committed ∧ s.aof.committed ≤ s.disk.length ∧
      ∃ pre, s.disk.take x.1 = pre ++ x.2.encode := by
  have hinv := hrun.invariant (fun h hok hs => inv_next h hok hs) (inv_init mode es)
  intro i hreplied x hx
  have hpc := hinv.pcs i
  rw [hreplied] at hpc
  have hbelow := hpc x hx
  obtain ⟨-, pre, hpre⟩ := hinv.logged i x hx
  refine ⟨hbelow, hinv.disk_len, pre, ?_⟩
  have hdisk := congrArg (List.take x.1) hinv.disk
  rw [List.take_take, List.take_take, Nat.min_eq_left hbelow] at hdisk
  rw [hdisk, hpre]

/-- An EXEC of one write, whose sync for the write fails but not the one for its end, beside a
    session that writes. -/
def execRun : List (Label Bool) :=
  [.start true [(⟨.txnStart, 5, []⟩, false), (⟨.command, 5, [1]⟩, true), (⟨.txnCommit, 5, []⟩, true)],
   .start false [(⟨.command, 6, [2]⟩, true)],
   .append true .ok, .append true .ok, .check true, .append false .ok,
   .commit true .ok false, .append true .ok, .check false, .check true,
   .commit true .ok true, .wake true, .reply true]

theorem commit_before_acknowledge_exec :
    ∃ s, Lts.Steps next Unfailing (State.init .never []) execRun s ∧ s.pc true = .replied ∧
      s.logged true ≠ [] ∧
      ∀ x ∈ s.logged true, x.1 ≤ s.aof.committed ∧ s.aof.committed ≤ s.disk.length ∧
        ∃ pre, s.disk.take x.1 = pre ++ x.2.encode := by
  obtain ⟨s, hrun, hp⟩ := Lts.exists_steps next Unfailing (State.init .never []) execRun
    (fun s => decide (s.pc true = .replied ∧ s.logged true ≠ [])) (by decide +kernel)
  obtain ⟨hreplied, hne⟩ := of_decide_eq_true hp
  exact ⟨s, hrun, hreplied, hne, commit_before_acknowledge .never [] hrun true hreplied⟩

/-- The write of a command stays in the buffer: the commit of its wait fails, and the reply is
    sent. -/
theorem acknowledged_not_committed :
    ∃ s, Lts.Runs next (State.init .never [] : State Bool)
        [.start true [(⟨.command, 5, [1]⟩, true)], .append true .ok, .check true,
          .commit true .noSeek true, .reply true] s ∧
      s.pc true = .replied ∧
      ∃ x ∈ s.logged true, ¬ x.1 ≤ s.aof.committed ∧ s.disk = [] := by
  obtain ⟨s, hrun, hp⟩ := Lts.exists_runs next (State.init .never [] : State Bool)
    [.start true [(⟨.command, 5, [1]⟩, true)], .append true .ok, .check true,
      .commit true .noSeek true, .reply true]
    (fun s => decide (s.pc true = .replied ∧
      ∃ x ∈ s.logged true, ¬ x.1 ≤ s.aof.committed ∧ s.disk = [])) (by decide +kernel)
  exact ⟨s, hrun, of_decide_eq_true hp⟩

end Garnet.CommitWait
