import Mathlib.Logic.Relation
import MiniGarnet.Garnet.TxnLocks
import MiniGarnet.Lib.Lts
import MiniGarnet.Tsavorite.LatchWord

/-! # Latches of many sessions

    Sessions latch one bucket for a single operation, or many for a
    transaction, and FLUSHALL overwrites the latch words of all buckets
    whether they are latched or not (`store.rs`, `index.rs`).  A step is one
    successful change of a latch word, one failed `try_lock`, or one decision
    of a session; the loops inside the `try_lock` functions change nothing
    (they are modelled with the word itself).  Operations inside a
    transaction take no latch and are left out.
-/

namespace Garnet.LatchTable

open Tsavorite (EXCLUSIVE_BIT SHARED_MASK ADDRESS_MASK)
open Tsavorite.LatchWord (addReader subReader setExclusive clearExclusive link pack
  pack_and_exclusive pack_and_shared pack_and_address addReader_pack subReader_pack
  setExclusive_pack clearExclusive_pack link_pack)

/-! ## Section 1: Sessions and latch words -/

/-- Where a session stands. -/
inductive Pc where
  /-- Outside any call; in transaction mode, inside the block. -/
  | idle
  /-- A single operation, about to try the latch of its bucket. -/
  | latching (b : ℕ) (lock : LockType)
  /-- The same, with the exclusive bit set. -/
  | draining (b : ℕ)
  | holding (b : ℕ) (lock : LockType)
  /-- In `txn_lock`, with the latches still to take. -/
  | locking (rest : List (ℕ × LockType))
  /-- The same, with the exclusive bit of the next one set. -/
  | lockDraining (rest : List (ℕ × LockType))
  /-- In `txn_unlock`. -/
  | unlocking
  /-- In `HashIndex::clear`, at this bucket. -/
  | clearing (b : ℕ)
  deriving DecidableEq, Repr

structure Local where
  txnMode : Bool
  txnLocks : List (ℕ × LockType)
  pc : Pc
  deriving DecidableEq, Repr

/-- `readers` is bookkeeping: the sessions that have the shared latch of a bucket. -/
structure State (Sid : Type) where
  words : ℕ → ℕ
  sessions : Sid → Local
  readers : ℕ → List Sid

inductive Move where
  /-- Call an operation on a key. -/
  | call (key : Bytes) (lock : LockType)
  /-- Set the exclusive bit, or count a reader. -/
  | take
  /-- A `try_lock` ends without success. -/
  | fail
  /-- The operation ends with `Status::Error`. -/
  | giveUp
  /-- The last reader has been seen to leave. -/
  | drained
  /-- Drop a latch. -/
  | release
  /-- Call `txn_lock`. -/
  | lock (keys : List (Bytes × LockType))
  | locked
  /-- Call `txn_unlock`. -/
  | unlock
  | unlocked
  /-- FLUSHALL. -/
  | clear
  /-- Overwrite the latch word of one bucket. -/
  | clearOne
  | cleared
  /-- Link an overflow bucket. -/
  | link (b addr : ℕ)
  deriving DecidableEq, Repr

structure Label (Sid : Type) where
  actor : Sid
  move : Move

/-- A successful compare-and-swap of `try_lock_shared` or `try_lock_exclusive`. -/
def takeWord (w : ℕ) : LockType → Option ℕ
  | .shared =>
    if w &&& EXCLUSIVE_BIT = 0 ∧ w &&& SHARED_MASK ≠ SHARED_MASK then some (addReader w) else none
  | .exclusive => if w &&& EXCLUSIVE_BIT = 0 then some (setExclusive w) else none

/-- `unlock_shared` or `unlock_exclusive`. -/
def dropWord (w : ℕ) : LockType → ℕ
  | .shared => subReader w
  | .exclusive => clearExclusive w

/-- A successful compare-and-swap of the linking in `find_tag_or_free`. -/
def linkWord (w addr : ℕ) : Option ℕ :=
  if w &&& ADDRESS_MASK = 0 ∧ addr < 2 ^ 48 then some (link w addr) else none

section Steps

variable {Sid : Type} [DecidableEq Sid]

/-- The readers with `t`, if it takes the latch as one. -/
def joined (t : Sid) (l : List Sid) : LockType → List Sid
  | .shared => t :: l
  | .exclusive => l

/-- The readers without `t`, if it had the latch as one. -/
def left (t : Sid) (l : List Sid) : LockType → List Sid
  | .shared => l.erase t
  | .exclusive => l

namespace State

def init : State Sid where
  words := fun _ => 0
  sessions := fun _ => ⟨false, [], .idle⟩
  readers := fun _ => []

def set (s : State Sid) (t : Sid) (lo : Local) : State Sid :=
  { s with sessions := fun u => if u = t then lo else s.sessions u }

def goto (s : State Sid) (t : Sid) (pc : Pc) : State Sid := s.set t { s.sessions t with pc := pc }

def setWord (s : State Sid) (b w : ℕ) : State Sid :=
  { s with words := fun c => if c = b then w else s.words c }

def setReaders (s : State Sid) (b : ℕ) (l : List Sid) : State Sid :=
  { s with readers := fun c => if c = b then l else s.readers c }

def take (s : State Sid) (t : Sid) (b : ℕ) (lock : LockType) : Option (State Sid) :=
  (takeWord (s.words b) lock).map fun w =>
    (s.setWord b w).setReaders b (joined t (s.readers b) lock)

def drop (s : State Sid) (t : Sid) (b : ℕ) (lock : LockType) : State Sid :=
  (s.setWord b (dropWord (s.words b) lock)).setReaders b (left t (s.readers b) lock)

def link (s : State Sid) (b addr : ℕ) : Option (State Sid) :=
  (linkWord (s.words b) addr).map (s.setWord b)

omit [DecidableEq Sid] in
@[simp] theorem setWord_sessions (s : State Sid) (b w : ℕ) :
    (s.setWord b w).sessions = s.sessions := rfl

omit [DecidableEq Sid] in
@[simp] theorem setReaders_sessions (s : State Sid) (b : ℕ) (l : List Sid) :
    (s.setReaders b l).sessions = s.sessions := rfl

@[simp] theorem drop_sessions (s : State Sid) (t : Sid) (b : ℕ) (lock : LockType) :
    (s.drop t b lock).sessions = s.sessions := rfl

end State

variable (mask : ℕ) (s : State Sid) (t : Sid)

/-- The next latch has been taken. -/
def push (b : ℕ) (lock : LockType) (rest : List (ℕ × LockType)) : Local :=
  { s.sessions t with txnLocks := (s.sessions t).txnLocks ++ [(b, lock)], pc := .locking rest }

def stepIdle (txnMode : Bool) : Move → Option (State Sid)
  | .call key lock => if txnMode then none else some (s.goto t (.latching (bucketOf mask key) lock))
  | .lock keys => if txnMode then none else some (s.goto t (.locking (wantedLocks mask keys)))
  | .unlock => if txnMode then some (s.goto t .unlocking) else none
  | .clear => some (s.goto t (.clearing 0))
  | .link b addr => if txnMode then s.link b addr else none
  | _ => none

def stepLatching (b : ℕ) (lock : LockType) : Move → Option (State Sid)
  | .take =>
    (s.take t b lock).map fun s' =>
      s'.goto t (if lock = .exclusive then .draining b else .holding b .shared)
  | .fail => some s
  | .giveUp => some (s.goto t .idle)
  | _ => none

def stepDraining (b : ℕ) : Move → Option (State Sid)
  | .drained =>
    if s.words b &&& SHARED_MASK = 0 then some (s.goto t (.holding b .exclusive)) else none
  | .fail => some ((s.drop t b .exclusive).goto t (.latching b .exclusive))
  | _ => none

def stepHolding (b : ℕ) (lock : LockType) : Move → Option (State Sid)
  | .release => some ((s.drop t b lock).goto t .idle)
  | .link c addr => if c = b then s.link b addr else none
  | _ => none

def stepLocking : List (ℕ × LockType) → Move → Option (State Sid)
  | (b, lock) :: rest, .take =>
    (s.take t b lock).map fun s' =>
      if lock = .exclusive then s'.goto t (.lockDraining ((b, lock) :: rest))
      else s'.set t (push s t b lock rest)
  | _ :: _, .fail => some s
  | [], .locked => some (s.set t { s.sessions t with txnMode := true, pc := .idle })
  | _, _ => none

def stepLockDraining : List (ℕ × LockType) → Move → Option (State Sid)
  | (b, lock) :: rest, .drained =>
    if s.words b &&& SHARED_MASK = 0 then some (s.set t (push s t b lock rest)) else none
  | (b, lock) :: rest, .fail =>
    some ((s.drop t b .exclusive).goto t (.locking ((b, lock) :: rest)))
  | _, _ => none

def stepUnlocking : List (ℕ × LockType) → Move → Option (State Sid)
  | (b, lock) :: rest, .release =>
    some ((s.drop t b lock).set t { s.sessions t with txnLocks := rest })
  | [], .unlocked => some (s.set t { s.sessions t with txnMode := false, pc := .idle })
  | _, _ => none

def stepClearing (b : ℕ) : Move → Option (State Sid)
  | .clearOne => if b ≤ mask then some ((s.setWord b 0).goto t (.clearing (b + 1))) else none
  | .cleared => if mask < b then some (s.goto t .idle) else none
  | _ => none

def stepPc (m : Move) : Pc → Option (State Sid)
  | .idle => stepIdle mask s t (s.sessions t).txnMode m
  | .latching b lock => stepLatching s t b lock m
  | .draining b => stepDraining s t b m
  | .holding b lock => stepHolding s t b lock m
  | .locking rest => stepLocking s t rest m
  | .lockDraining rest => stepLockDraining s t rest m
  | .unlocking => stepUnlocking s t (s.sessions t).txnLocks m
  | .clearing b => stepClearing mask s t b m

def next (s : State Sid) (l : Label Sid) : Option (State Sid) :=
  stepPc mask s l.actor l.move (s.sessions l.actor).pc

end Steps

/-! ## Section 2: The invariant -/

namespace Local

/-- The session has the shared latch of the bucket. -/
def HasShared (lo : Local) (b : ℕ) : Prop := (b, .shared) ∈ lo.txnLocks ∨ lo.pc = .holding b .shared

/-- The call in progress has set the exclusive bit of the bucket. -/
def pcBit : Pc → Option ℕ
  | .draining b | .holding b .exclusive | .lockDraining ((b, _) :: _) => some b
  | _ => none

/-- The session has set the exclusive bit of the bucket and not cleared it. -/
def HasBit (lo : Local) (b : ℕ) : Prop := (b, .exclusive) ∈ lo.txnLocks ∨ pcBit lo.pc = some b

/-- In ascending order of the buckets, none above the mask. -/
structure Ascending (mask : ℕ) (l : List (ℕ × LockType)) : Prop where
  sorted : l.Pairwise fun x y => x.1 < y.1
  bounded : ∀ x ∈ l, x.1 ≤ mask

/-- What is true of a session at each place of its code. -/
def Ok (mask : ℕ) (lo : Local) : Prop :=
  match lo.pc with
  | .idle | .clearing _ => Ascending mask lo.txnLocks ∧ (lo.txnMode = false → lo.txnLocks = [])
  | .latching b _ | .draining b | .holding b _ =>
    lo.txnMode = false ∧ lo.txnLocks = [] ∧ b ≤ mask
  | .locking rest => lo.txnMode = false ∧ Ascending mask (lo.txnLocks ++ rest)
  | .lockDraining rest => lo.txnMode = false ∧ Ascending mask (lo.txnLocks ++ rest) ∧
      ∃ b tail, rest = (b, .exclusive) :: tail
  | .unlocking => lo.txnMode = true ∧ Ascending mask lo.txnLocks

end Local

section Invariant

variable {Sid : Type}

/-- The word counts the readers, and its exclusive bit is somebody's. -/
structure WordOk (s : State Sid) (b : ℕ) : Prop where
  word : ∃ (p : ℕ) (x : Bool), p < 2 ^ 48 ∧ s.words b = pack p (s.readers b).length x ∧
    (x = true → ∃ t, (s.sessions t).HasBit b)
  few : (s.readers b).length < 2 ^ 15
  nodup : (s.readers b).Nodup
  readers : ∀ t, t ∈ s.readers b ↔ (s.sessions t).HasShared b

structure Inv (mask : ℕ) (s : State Sid) : Prop where
  locals : ∀ t, (s.sessions t).Ok mask
  words : ∀ b, WordOk s b

/-- The bucket whose latch word the step overwrites. -/
def overwritten : Pc → Move → Option ℕ
  | .clearing b, .clearOne => some b
  | _, _ => none

/-- FLUSHALL overwrites the latch word of a bucket only when it has no reader. -/
def Unread (s : State Sid) (l : Label Sid) : Prop :=
  ∀ b ∈ overwritten (s.sessions l.actor).pc l.move, s.words b &&& SHARED_MASK = 0

instance (s : State Sid) (l : Label Sid) : Decidable (Unread s l) :=
  inferInstanceAs (Decidable (∀ b ∈ overwritten (s.sessions l.actor).pc l.move,
    s.words b &&& SHARED_MASK = 0))

theorem WordOk.exclusive_zero {s : State Sid} {b : ℕ} (h : WordOk s b)
    (hbit : s.words b &&& EXCLUSIVE_BIT = 0) :
    ∃ p < 2 ^ 48, s.words b = pack p (s.readers b).length false := by
  obtain ⟨p, x, hp, hx, -⟩ := h.word
  rw [hx, pack_and_exclusive hp h.few] at hbit
  cases x with
  | false => exact ⟨p, hp, hx⟩
  | true => cases hbit

theorem WordOk.and_shared {s : State Sid} {b : ℕ} (h : WordOk s b) :
    s.words b &&& SHARED_MASK = 2 ^ 48 * (s.readers b).length := by
  obtain ⟨p, x, hp, hx, -⟩ := h.word
  rw [hx, pack_and_shared hp h.few]

theorem WordOk.readers_nil {s : State Sid} {b : ℕ} (h : WordOk s b)
    (hempty : s.words b &&& SHARED_MASK = 0) : s.readers b = [] := by
  rw [h.and_shared] at hempty
  rw [← List.length_eq_zero_iff]
  omega

theorem take_eq {s s' : State Sid} {t : Sid} {b : ℕ} {lock : LockType}
    (h : s.take t b lock = some s') :
    ∃ w, takeWord (s.words b) lock = some w ∧
      s' = (s.setWord b w).setReaders b (joined t (s.readers b) lock) := by
  obtain ⟨w, hw, heq⟩ := Option.map_eq_some_iff.mp h
  exact ⟨w, hw, heq.symm⟩

variable [DecidableEq Sid] {mask : ℕ} {s : State Sid} {t : Sid} {lo : Local} {b c w : ℕ}

/-- The state after a step of `t` that changes the latch of at most one bucket. -/
def State.after (s : State Sid) (t : Sid) (lo : Local) (b w : ℕ) (l : List Sid) : State Sid :=
  ((s.setWord b w).setReaders b l).set t lo

theorem after_self (s : State Sid) (t : Sid) (lo : Local) (b w : ℕ) (l : List Sid) :
    (s.after t lo b w l).sessions t = lo := if_pos rfl

theorem after_ne (s : State Sid) {t u : Sid} (lo : Local) (b w : ℕ) (l : List Sid) (h : u ≠ t) :
    (s.after t lo b w l).sessions u = s.sessions u := if_neg h

theorem after_words (s : State Sid) (t : Sid) (lo : Local) (b w : ℕ) (l : List Sid) :
    (s.after t lo b w l).words b = w := if_pos rfl

theorem after_readers (s : State Sid) (t : Sid) (lo : Local) (b w : ℕ) (l : List Sid) :
    (s.after t lo b w l).readers b = l := if_pos rfl

/-- A step that changes no latch. -/
theorem after_same (s : State Sid) (t : Sid) (lo : Local) (b : ℕ) :
    s.set t lo = s.after t lo b (s.words b) (s.readers b) := by
  have hwords : (fun c => if c = b then s.words b else s.words c) = s.words := by
    funext c
    split
    · rename_i hc
      rw [hc]
    · rfl
  have hreaders : (fun c => if c = b then s.readers b else s.readers c) = s.readers := by
    funext c
    split
    · rename_i hc
      rw [hc]
    · rfl
  simp only [State.after, State.setWord, State.setReaders, hwords, hreaders]

/-- Somebody has the exclusive bit, also after the step. -/
theorem exists_hasBit_after {l : List Sid} (h : ∃ u, (s.sessions u).HasBit c)
    (hbit : (s.sessions t).HasBit c → lo.HasBit c) :
    ∃ u, ((s.after t lo b w l).sessions u).HasBit c := by
  obtain ⟨u, hu⟩ := h
  by_cases hut : u = t
  · subst hut
    exact ⟨u, by rw [after_self]; exact hbit hu⟩
  · exact ⟨u, by rwa [after_ne s lo b w l hut]⟩

/-- The readers of a bucket whose list does not change. -/
theorem readers_after {l l' : List Sid} (h : ∀ u, u ∈ l' ↔ (s.sessions u).HasShared c)
    (hshared : lo.HasShared c ↔ (s.sessions t).HasShared c) (u : Sid) :
    u ∈ l' ↔ ((s.after t lo b w l).sessions u).HasShared c := by
  by_cases hut : u = t
  · subst hut
    rw [after_self, hshared, h u]
  · rw [after_ne s lo b w l hut, h u]

/-- Other buckets than the one the step is about. -/
theorem WordOk.other {l : List Sid} (h : WordOk s c) (hc : c ≠ b)
    (hshared : lo.HasShared c ↔ (s.sessions t).HasShared c)
    (hbit : (s.sessions t).HasBit c → lo.HasBit c) : WordOk (s.after t lo b w l) c := by
  have hwords : (s.after t lo b w l).words c = s.words c := if_neg hc
  have hreaders : (s.after t lo b w l).readers c = s.readers c := if_neg hc
  obtain ⟨p, x, hp, hx, hsome⟩ := h.word
  refine ⟨⟨p, x, hp, by rw [hwords, hreaders, hx], fun hxt => ?_⟩, by rw [hreaders]; exact h.few,
    by rw [hreaders]; exact h.nodup, ?_⟩
  · exact exists_hasBit_after (hsome hxt) hbit
  · rw [hreaders]
    exact readers_after h.readers hshared

/-- A step that leaves the bucket's latch alone. -/
theorem WordOk.same (h : WordOk s b) (hshared : lo.HasShared b ↔ (s.sessions t).HasShared b)
    (hbit : (s.sessions t).HasBit b → lo.HasBit b) :
    WordOk (s.after t lo b (s.words b) (s.readers b)) b := by
  obtain ⟨p, x, hp, hx, hsome⟩ := h.word
  refine ⟨⟨p, x, hp, by rw [after_words, after_readers, hx], fun hxt => ?_⟩,
    by rw [after_readers]; exact h.few, by rw [after_readers]; exact h.nodup, ?_⟩
  · exact exists_hasBit_after (hsome hxt) hbit
  · rw [after_readers]
    exact readers_after h.readers hshared

theorem WordOk.takeShared (h : WordOk s b) (htake : takeWord (s.words b) .shared = some w)
    (hnot : ¬ (s.sessions t).HasShared b) (hnew : lo.HasShared b) :
    WordOk (s.after t lo b w (t :: s.readers b)) b := by
  simp only [takeWord] at htake
  split at htake
  · rename_i hcheck
    obtain rfl := Option.some.inj htake
    obtain ⟨p, hp, hword⟩ := h.exclusive_zero hcheck.1
    have hroom : (s.readers b).length + 1 < 2 ^ 15 := by
      have hne : (s.readers b).length ≠ 2 ^ 15 - 1 := by
        intro heq
        exact hcheck.2 (by rw [h.and_shared, heq]; decide)
      have := h.few
      omega
    refine ⟨⟨p, false, hp, ?_, nofun⟩, by rw [after_readers]; exact hroom, ?_, ?_⟩
    · rw [after_words, after_readers, hword, addReader_pack hp hroom]
      rfl
    · rw [after_readers]
      exact List.nodup_cons.mpr ⟨fun hmem => hnot ((h.readers t).mp hmem), h.nodup⟩
    · intro u
      rw [after_readers]
      by_cases hut : u = t
      · subst hut
        rw [after_self]
        exact ⟨fun _ => hnew, fun _ => List.mem_cons_self⟩
      · rw [after_ne s lo b _ _ hut, List.mem_cons, ← h.readers u]
        exact ⟨fun hmem => hmem.resolve_left hut, .inr⟩
  · cases htake

theorem WordOk.takeExclusive (h : WordOk s b) (htake : takeWord (s.words b) .exclusive = some w)
    (hshared : lo.HasShared b ↔ (s.sessions t).HasShared b) (hnew : lo.HasBit b) :
    WordOk (s.after t lo b w (s.readers b)) b := by
  simp only [takeWord] at htake
  split at htake
  · rename_i hcheck
    obtain rfl := Option.some.inj htake
    obtain ⟨p, hp, hword⟩ := h.exclusive_zero hcheck
    refine ⟨⟨p, true, hp, ?_, fun _ => ⟨t, by rwa [after_self]⟩⟩, by rw [after_readers]; exact h.few,
      by rw [after_readers]; exact h.nodup, ?_⟩
    · rw [after_words, after_readers, hword]
      exact setExclusive_pack hp h.few
    · rw [after_readers]
      exact readers_after h.readers hshared
  · cases htake

theorem WordOk.dropShared (h : WordOk s b) (hhad : (s.sessions t).HasShared b)
    (hnot : ¬ lo.HasShared b) (hbit : (s.sessions t).HasBit b → lo.HasBit b) :
    WordOk (s.after t lo b (dropWord (s.words b) .shared) ((s.readers b).erase t)) b := by
  have hmem : t ∈ s.readers b := (h.readers t).mpr hhad
  have hlen : ((s.readers b).erase t).length + 1 = (s.readers b).length := by
    rw [List.length_erase_of_mem hmem]
    have := List.length_pos_of_mem hmem
    omega
  have hfew := h.few
  obtain ⟨p, x, hp, hx, hsome⟩ := h.word
  refine ⟨⟨p, x, hp, ?_, fun hxt => exists_hasBit_after (hsome hxt) hbit⟩,
    by rw [after_readers]; omega, by rw [after_readers]; exact h.nodup.erase t, ?_⟩
  · rw [after_words, after_readers, hx, ← hlen]
    exact subReader_pack hp (by omega)
  · intro u
    rw [after_readers]
    by_cases hut : u = t
    · subst hut
      rw [after_self]
      exact ⟨fun hin => absurd rfl (h.nodup.mem_erase_iff.mp hin).1, fun hin => absurd hin hnot⟩
    · rw [after_ne s lo b _ _ hut, ← h.readers u, List.mem_erase_of_ne hut]

theorem WordOk.dropExclusive (h : WordOk s b)
    (hshared : lo.HasShared b ↔ (s.sessions t).HasShared b) :
    WordOk (s.after t lo b (dropWord (s.words b) .exclusive) (s.readers b)) b := by
  obtain ⟨p, x, hp, hx, -⟩ := h.word
  refine ⟨⟨p, false, hp, ?_, nofun⟩, by rw [after_readers]; exact h.few,
    by rw [after_readers]; exact h.nodup, ?_⟩
  · rw [after_words, after_readers, hx]
    exact clearExclusive_pack hp h.few
  · rw [after_readers]
    exact readers_after h.readers hshared

omit [DecidableEq Sid] in
/-- Linking changes only the address in the word. -/
theorem WordOk.link (h : WordOk s b) {addr : ℕ} (hlink : linkWord (s.words b) addr = some w) :
    WordOk (s.setWord b w) b := by
  obtain ⟨p, x, hp, hx, hsome⟩ := h.word
  simp only [linkWord] at hlink
  split at hlink
  · rename_i hcheck
    obtain rfl := Option.some.inj hlink
    obtain ⟨hnone, haddr⟩ := hcheck
    rw [hx, pack_and_address hp] at hnone
    refine ⟨⟨addr, x, haddr, ?_, hsome⟩, h.few, h.nodup, h.readers⟩
    show (if b = b then Tsavorite.LatchWord.link (s.words b) addr else _) = _
    rw [if_pos rfl, hx, hnone]
    exact link_pack haddr h.few
  · cases hlink

omit [DecidableEq Sid] in
theorem Inv.link (h : Inv mask s) {addr : ℕ} {s' : State Sid} (hlink : s.link b addr = some s') :
    Inv mask s' := by
  obtain ⟨w, hw, rfl⟩ := Option.map_eq_some_iff.mp hlink
  refine ⟨h.locals, fun c => ?_⟩
  by_cases hc : c = b
  · subst hc
    exact (h.words c).link hw
  · have hwords : (s.setWord b w).words c = s.words c := if_neg hc
    have hword := h.words c
    exact ⟨by rw [hwords]; exact hword.word, hword.few, hword.nodup, hword.readers⟩

/-- The invariant after a step of `t`, from what the step does to `t` and to one bucket. -/
theorem Inv.step_of (h : Inv mask s) {l : List Sid} (lo : Local) (hok : lo.Ok mask)
    (hword : WordOk (s.after t lo b w l) b)
    (hshared : ∀ c, c ≠ b → (lo.HasShared c ↔ (s.sessions t).HasShared c))
    (hbit : ∀ c, c ≠ b → (s.sessions t).HasBit c → lo.HasBit c) :
    Inv mask (s.after t lo b w l) where
  locals := by
    intro u
    by_cases hut : u = t
    · subst hut
      rwa [after_self]
    · rw [after_ne s lo b w l hut]
      exact h.locals u
  words := by
    intro c
    by_cases hc : c = b
    · subst hc
      exact hword
    · exact (h.words c).other hc (hshared c hc) (hbit c hc)

/-- A step that changes no latch. -/
theorem Inv.quiet (h : Inv mask s) (hok : lo.Ok mask)
    (hshared : ∀ c, lo.HasShared c ↔ (s.sessions t).HasShared c)
    (hbit : ∀ c, (s.sessions t).HasBit c → lo.HasBit c) : Inv mask (s.set t lo) := by
  rw [after_same s t lo 0]
  exact h.step_of _ hok ((h.words 0).same (hshared 0) (hbit 0)) (fun c _ => hshared c)
    fun c _ => hbit c

theorem bucketOf_le (mask : ℕ) (key : Bytes) : bucketOf mask key ≤ mask := Nat.and_le_right

theorem wantedLocks_bounded (mask : ℕ) (keys : List (Bytes × LockType)) :
    Local.Ascending mask (wantedLocks mask keys) := by
  refine ⟨wantedLocks_ascending mask keys, fun x hx => ?_⟩
  obtain ⟨y, -, hy⟩ := wantedLocks_bucket hx
  rw [hy]
  exact bucketOf_le mask y.1

theorem Local.Ascending.append_nil {l : List (ℕ × LockType)} (h : Local.Ascending mask (l ++ [])) :
    Local.Ascending mask l := by
  rwa [List.append_nil] at h

theorem Local.Ascending.push {l rest : List (ℕ × LockType)} {x : ℕ × LockType}
    (h : Local.Ascending mask (l ++ x :: rest)) : Local.Ascending mask (l ++ [x] ++ rest) := by
  rwa [List.append_assoc, List.singleton_append]

/-- A session that waits for a bucket does not have it. -/
theorem Local.Ascending.lt {l rest : List (ℕ × LockType)} {x y : ℕ × LockType}
    (h : Local.Ascending mask (l ++ x :: rest)) (hy : y ∈ l) : y.1 < x.1 :=
  (List.pairwise_append.mp h.sorted).2.2 y hy x List.mem_cons_self

section Step

variable {s' : State Sid} {m : Move}

theorem Inv.stepIdle (h : Inv mask s) (hpc : (s.sessions t).pc = .idle)
    (hstep : stepIdle mask s t (s.sessions t).txnMode m = some s') : Inv mask s' := by
  have hok := h.locals t
  simp only [Local.Ok, hpc] at hok
  unfold LatchTable.stepIdle at hstep
  split at hstep
  · split at hstep
    · cases hstep
    · rename_i hmode
      cases hstep
      have hmode : (s.sessions t).txnMode = false := by simpa using hmode
      refine h.quiet ⟨hmode, hok.2 hmode, bucketOf_le mask _⟩ (fun c => ?_) fun c => ?_
      · simp [Local.HasShared, hpc]
      · simp [Local.HasBit, Local.pcBit, hpc]
  · split at hstep
    · cases hstep
    · rename_i hmode
      cases hstep
      have hmode : (s.sessions t).txnMode = false := by simpa using hmode
      refine h.quiet ⟨hmode, ?_⟩ (fun c => ?_) fun c => ?_
      · show Local.Ascending mask ((s.sessions t).txnLocks ++ _)
        rw [hok.2 hmode, List.nil_append]
        exact wantedLocks_bounded mask _
      · simp [Local.HasShared, hpc]
      · simp [Local.HasBit, Local.pcBit, hpc]
  · split at hstep
    · rename_i hmode
      cases hstep
      refine h.quiet ⟨hmode, hok.1⟩ (fun c => ?_) fun c => ?_
      · simp [Local.HasShared, hpc]
      · simp [Local.HasBit, Local.pcBit, hpc]
    · cases hstep
  · cases hstep
    refine h.quiet hok (fun c => ?_) fun c => ?_
    · simp [Local.HasShared, hpc]
    · simp [Local.HasBit, Local.pcBit, hpc]
  · split at hstep
    · exact h.link hstep
    · cases hstep
  · cases hstep

theorem Inv.stepLatching (h : Inv mask s) {lock : LockType}
    (hpc : (s.sessions t).pc = .latching b lock)
    (hstep : stepLatching s t b lock m = some s') : Inv mask s' := by
  have hok := h.locals t
  simp only [Local.Ok, hpc] at hok
  obtain ⟨hmode, hlocks, hb⟩ := hok
  unfold LatchTable.stepLatching at hstep
  split at hstep
  · obtain ⟨s₁, htake, rfl⟩ := Option.map_eq_some_iff.mp hstep
    obtain ⟨w, hw, rfl⟩ := take_eq htake
    cases lock with
    | shared =>
      refine h.step_of (⟨_, _, .holding b .shared⟩) ⟨hmode, hlocks, hb⟩
        ((h.words b).takeShared hw ?_ (.inr rfl)) (fun c hc => ?_) fun c _ => ?_
      · simp [Local.HasShared, hpc, hlocks]
      · simp [Local.HasShared, hpc, Ne.symm hc]
      · simp [Local.HasBit, Local.pcBit, hpc]
    | exclusive =>
      refine h.step_of (⟨_, _, .draining b⟩) ⟨hmode, hlocks, hb⟩
        ((h.words b).takeExclusive hw ?_ (.inr rfl)) (fun c _ => ?_) fun c hc => ?_
      · simp [Local.HasShared, hpc]
      · simp [Local.HasShared, hpc]
      · simp [Local.HasBit, Local.pcBit, hpc, hlocks]
  · cases hstep
    exact h
  · cases hstep
    refine h.quiet ⟨?_, fun _ => hlocks⟩ (fun c => ?_) fun c => ?_
    · show Local.Ascending mask (s.sessions t).txnLocks
      rw [hlocks]
      exact ⟨.nil, nofun⟩
    · simp [Local.HasShared, hpc]
    · simp [Local.HasBit, Local.pcBit, hpc]
  · cases hstep

theorem Inv.stepDraining (h : Inv mask s) (hpc : (s.sessions t).pc = .draining b)
    (hstep : stepDraining s t b m = some s') : Inv mask s' := by
  have hok := h.locals t
  simp only [Local.Ok, hpc] at hok
  unfold LatchTable.stepDraining at hstep
  split at hstep
  · split at hstep
    · cases hstep
      refine h.quiet hok (fun c => ?_) fun c => ?_
      · simp [Local.HasShared, hpc]
      · simp [Local.HasBit, Local.pcBit, hpc]
    · cases hstep
  · cases hstep
    refine h.step_of (⟨_, _, .latching b .exclusive⟩) hok ((h.words b).dropExclusive ?_)
      (fun c _ => ?_) fun c hc => ?_
    · simp [Local.HasShared, hpc]
    · simp [Local.HasShared, hpc]
    · simp [Local.HasBit, Local.pcBit, hpc, hok.2.1, Ne.symm hc]
  · cases hstep

theorem Inv.release (h : Inv mask s) {lock : LockType}
    (hpc : (s.sessions t).pc = .holding b lock) :
    Inv mask ((s.drop t b lock).goto t .idle) := by
  have hok := h.locals t
  simp only [Local.Ok, hpc] at hok
  obtain ⟨hmode, hlocks, -⟩ := hok
  have hidle : Local.Ok mask ⟨(s.sessions t).txnMode, (s.sessions t).txnLocks, .idle⟩ := by
    refine ⟨?_, fun _ => hlocks⟩
    show Local.Ascending mask (s.sessions t).txnLocks
    rw [hlocks]
    exact ⟨.nil, nofun⟩
  cases lock with
  | shared =>
    refine h.step_of _ hidle ((h.words b).dropShared (.inr hpc) ?_ ?_) (fun c hc => ?_) fun c _ => ?_
    · simp [Local.HasShared, hlocks]
    · simp [Local.HasBit, Local.pcBit, hpc]
    · simp [Local.HasShared, hpc, Ne.symm hc]
    · simp [Local.HasBit, Local.pcBit, hpc]
  | exclusive =>
    refine h.step_of _ hidle ((h.words b).dropExclusive ?_) (fun c _ => ?_) fun c hc => ?_
    · simp [Local.HasShared, hpc]
    · simp [Local.HasShared, hpc]
    · simp [Local.HasBit, Local.pcBit, hpc, Ne.symm hc]

theorem Inv.stepHolding (h : Inv mask s) {lock : LockType}
    (hpc : (s.sessions t).pc = .holding b lock)
    (hstep : stepHolding s t b lock m = some s') : Inv mask s' := by
  unfold LatchTable.stepHolding at hstep
  split at hstep
  · cases hstep
    exact h.release hpc
  · split at hstep
    · exact h.link hstep
    · cases hstep
  · cases hstep

theorem Inv.stepLocking (h : Inv mask s) {rest : List (ℕ × LockType)}
    (hpc : (s.sessions t).pc = .locking rest) (hstep : stepLocking s t rest m = some s') :
    Inv mask s' := by
  have hok := h.locals t
  simp only [Local.Ok, hpc] at hok
  obtain ⟨hmode, hasc⟩ := hok
  unfold LatchTable.stepLocking at hstep
  split at hstep
  · rename_i b lock rest
    have hnot : ∀ lock', (b, lock') ∉ (s.sessions t).txnLocks := fun _ hmem =>
      absurd (hasc.lt hmem) (Nat.lt_irrefl b)
    obtain ⟨s₁, htake, rfl⟩ := Option.map_eq_some_iff.mp hstep
    obtain ⟨w, hw, rfl⟩ := take_eq htake
    cases lock with
    | shared =>
      refine h.step_of (push s t b .shared rest) ⟨hmode, hasc.push⟩
        ((h.words b).takeShared hw ?_ ?_) (fun c hc => ?_) fun c _ => ?_
      · simp [Local.HasShared, hpc, hnot]
      · simp [Local.HasShared, push]
      · simp [Local.HasShared, push, hpc, hc]
      · simp [Local.HasBit, Local.pcBit, push, hpc]
    | exclusive =>
      refine h.step_of (⟨_, _, .lockDraining ((b, .exclusive) :: rest)⟩)
        ⟨hmode, hasc, b, rest, rfl⟩ ((h.words b).takeExclusive hw ?_ (.inr rfl)) (fun c _ => ?_)
        fun c _ => ?_
      · simp [Local.HasShared, hpc]
      · simp [Local.HasShared, hpc]
      · intro hbit
        rcases hbit with hmem | hcall
        · exact .inl hmem
        · rw [hpc] at hcall
          cases hcall
  · cases hstep
    exact h
  · cases hstep
    refine h.quiet ⟨hasc.append_nil, nofun⟩ (fun c => ?_) fun c => ?_
    · simp [Local.HasShared, hpc]
    · simp [Local.HasBit, Local.pcBit, hpc]
  · cases hstep

theorem Inv.stepLockDraining (h : Inv mask s) {rest : List (ℕ × LockType)}
    (hpc : (s.sessions t).pc = .lockDraining rest) (hstep : stepLockDraining s t rest m = some s') :
    Inv mask s' := by
  have hok := h.locals t
  simp only [Local.Ok, hpc] at hok
  obtain ⟨hmode, hasc, b₀, tail, hrest⟩ := hok
  unfold LatchTable.stepLockDraining at hstep
  split at hstep
  · rename_i b lock rest
    obtain ⟨⟨rfl, rfl⟩, rfl⟩ : (b = b₀ ∧ lock = .exclusive) ∧ rest = tail := by simpa using hrest
    split at hstep
    · cases hstep
      refine h.quiet ⟨hmode, hasc.push⟩ (fun c => ?_) fun c => ?_
      · simp [Local.HasShared, push, hpc]
      · simp only [Local.HasBit, Local.pcBit, push, hpc, List.mem_append, List.mem_singleton,
          Prod.mk.injEq, and_true, Option.some.injEq]
        rintro (hmem | rfl)
        · exact .inl (.inl hmem)
        · exact .inl (.inr rfl)
    · cases hstep
  · rename_i b lock rest
    cases hstep
    refine h.step_of (⟨_, _, .locking ((b, lock) :: rest)⟩) ⟨hmode, hasc⟩
      ((h.words b).dropExclusive ?_) (fun c _ => ?_) fun c hc => ?_
    · simp [Local.HasShared, hpc]
    · simp [Local.HasShared, hpc]
    · intro hbit
      rcases hbit with hmem | hcall
      · exact .inl hmem
      · rw [hpc] at hcall
        exact absurd (Option.some.inj hcall).symm hc
  · cases hstep

theorem Inv.stepUnlocking (h : Inv mask s) (hpc : (s.sessions t).pc = .unlocking)
    (hstep : stepUnlocking s t (s.sessions t).txnLocks m = some s') : Inv mask s' := by
  have hok := h.locals t
  simp only [Local.Ok, hpc] at hok
  obtain ⟨hmode, hasc⟩ := hok
  unfold LatchTable.stepUnlocking at hstep
  split at hstep
  · rename_i b lock rest hlocks
    cases hstep
    rw [hlocks] at hasc
    have hsorted := List.pairwise_cons.mp hasc.sorted
    have hrest : Local.Ascending mask rest :=
      ⟨hsorted.2, fun x hx => hasc.bounded x (List.mem_cons_of_mem _ hx)⟩
    have hnot : ∀ lock', (b, lock') ∉ rest := fun _ hmem =>
      absurd (hsorted.1 _ hmem) (Nat.lt_irrefl b)
    have hok : Local.Ok mask { s.sessions t with txnLocks := rest } := by
      simp only [Local.Ok, hpc]
      exact ⟨hmode, hrest⟩
    cases lock with
    | shared =>
      refine h.step_of _ hok ((h.words b).dropShared (.inl ?_) ?_ ?_) (fun c hc => ?_) fun c _ => ?_
      · rw [hlocks]
        exact List.mem_cons_self
      · simp [Local.HasShared, hpc, hnot]
      · simp [Local.HasBit, Local.pcBit, hpc, hlocks]
      · simp [Local.HasShared, hpc, hlocks, hc]
      · simp [Local.HasBit, Local.pcBit, hpc, hlocks]
    | exclusive =>
      refine h.step_of _ hok ((h.words b).dropExclusive ?_) (fun c _ => ?_) fun c hc => ?_
      · simp [Local.HasShared, hpc, hlocks]
      · simp [Local.HasShared, hpc, hlocks]
      · simp [Local.HasBit, Local.pcBit, hpc, hlocks, hc]
  · rename_i hlocks
    cases hstep
    rw [hlocks] at hasc
    refine h.quiet ⟨?_, fun _ => hlocks⟩ (fun c => ?_) fun c => ?_
    · show Local.Ascending mask (s.sessions t).txnLocks
      rw [hlocks]
      exact hasc
    · simp [Local.HasShared, hpc]
    · simp [Local.HasBit, Local.pcBit, hpc]
  · cases hstep

theorem Inv.stepClearing (h : Inv mask s) (hpc : (s.sessions t).pc = .clearing b)
    (hunread : m = .clearOne → s.words b &&& SHARED_MASK = 0)
    (hstep : stepClearing mask s t b m = some s') : Inv mask s' := by
  have hok := h.locals t
  simp only [Local.Ok, hpc] at hok
  unfold LatchTable.stepClearing at hstep
  split at hstep
  · split at hstep
    · cases hstep
      have hnil := (h.words b).readers_nil (hunread rfl)
      have heq : (s.setWord b 0).goto t (.clearing (b + 1)) =
          s.after t { s.sessions t with pc := .clearing (b + 1) } b 0 (s.readers b) := by
        have hreaders : (fun c => if c = b then s.readers b else s.readers c) = s.readers := by
          funext c
          split
          · rename_i hc
            rw [hc]
          · rfl
        simp only [State.after, State.goto, State.set, State.setWord, State.setReaders, hreaders]
      rw [heq]
      refine h.step_of _ hok ⟨⟨0, false, by decide, ?_, nofun⟩, ?_, ?_, ?_⟩ (fun c _ => ?_) fun c _ => ?_
      · rw [after_words, after_readers, hnil]
        rfl
      · rw [after_readers]
        exact (h.words b).few
      · rw [after_readers]
        exact (h.words b).nodup
      · rw [after_readers]
        refine readers_after (h.words b).readers ?_
        simp [Local.HasShared, hpc]
      · simp [Local.HasShared, hpc]
      · simp [Local.HasBit, Local.pcBit, hpc]
    · cases hstep
  · split at hstep
    · cases hstep
      refine h.quiet hok (fun c => ?_) fun c => ?_
      · simp [Local.HasShared, hpc]
      · simp [Local.HasBit, Local.pcBit, hpc]
    · cases hstep
  · cases hstep

theorem Inv.step (h : Inv mask s) {l : Label Sid} (hunread : Unread s l)
    (hstep : next mask s l = some s') : Inv mask s' := by
  obtain ⟨t, m⟩ := l
  simp only [next] at hstep
  cases hpc : (s.sessions t).pc with
  | idle =>
    rw [hpc] at hstep
    exact h.stepIdle hpc hstep
  | latching b lock =>
    rw [hpc] at hstep
    exact h.stepLatching hpc hstep
  | draining b =>
    rw [hpc] at hstep
    exact h.stepDraining hpc hstep
  | holding b lock =>
    rw [hpc] at hstep
    exact h.stepHolding hpc hstep
  | locking rest =>
    rw [hpc] at hstep
    exact h.stepLocking hpc hstep
  | lockDraining rest =>
    rw [hpc] at hstep
    exact h.stepLockDraining hpc hstep
  | unlocking =>
    rw [hpc] at hstep
    exact h.stepUnlocking hpc hstep
  | clearing b =>
    rw [hpc] at hstep
    refine h.stepClearing hpc (fun hm => hunread b ?_) hstep
    rw [hpc, hm]
    rfl

end Step

omit [DecidableEq Sid] in
theorem Inv.init : Inv mask (State.init : State Sid) where
  locals := fun _ => ⟨⟨.nil, nofun⟩, fun _ => rfl⟩
  words := fun _ => ⟨⟨0, false, by decide, rfl, nofun⟩, Nat.two_pow_pos 15, .nil, fun _ => by
    simp [State.init, Local.HasShared]⟩

end Invariant

/-! ## Section 3: Latches are given back -/

section GivenBack

variable {Sid : Type} [DecidableEq Sid] {mask : ℕ} {s : State Sid}

/-- No operation and no transaction is in progress. -/
def Local.Resting (lo : Local) : Prop := lo.pc = .idle ∧ lo.txnMode = false

instance (lo : Local) : Decidable lo.Resting := inferInstanceAs (Decidable (_ ∧ _))

end GivenBack

namespace Local

/-- The session tries to take the latch of the bucket. -/
def Tries (lo : Local) (b : ℕ) : Prop :=
  ∃ lock, lo.pc = .latching b lock ∨ ∃ rest, lo.pc = .locking ((b, lock) :: rest)

/-- The session has set the exclusive bit and waits until the readers have left. -/
def Drains (lo : Local) (b : ℕ) : Prop :=
  lo.pc = .draining b ∨ ∃ lock rest, lo.pc = .lockDraining ((b, lock) :: rest)

def WaitsFor (lo : Local) (b : ℕ) : Prop := lo.Tries b ∨ lo.Drains b

/-- The session has the latch of the bucket. -/
def Holds (lo : Local) (b : ℕ) : Prop := ∃ lock, (b, lock) ∈ lo.txnLocks ∨ lo.pc = .holding b lock

/-- Twice the bucket waited for, and one more while draining it. -/
def rank (lo : Local) : ℕ :=
  match lo.pc with
  | .latching b _ | .locking ((b, _) :: _) => 2 * b
  | .draining b | .lockDraining ((b, _) :: _) => 2 * b + 1
  | _ => 0

theorem Tries.rank {lo : Local} {b : ℕ} (h : lo.Tries b) : lo.rank = 2 * b := by
  obtain ⟨lock, hpc | ⟨rest, hpc⟩⟩ := h <;> simp [Local.rank, hpc]

theorem Drains.rank {lo : Local} {b : ℕ} (h : lo.Drains b) : lo.rank = 2 * b + 1 := by
  obtain hpc | ⟨lock, rest, hpc⟩ := h <;> simp [Local.rank, hpc]

theorem HasShared.holds {lo : Local} {b : ℕ} (h : lo.HasShared b) : lo.Holds b := ⟨.shared, h⟩

variable {mask : ℕ} {lo : Local} {b c : ℕ}

end Local

section NoDeadlock

variable {Sid : Type} {mask : ℕ} {s : State Sid} {t u : Sid}

theorem Local.WaitsFor.rank {lo : Local} {b : ℕ} (h : lo.WaitsFor b) :
    2 * b ≤ lo.rank ∧ lo.rank ≤ 2 * b + 1 := by
  rcases h with htry | hdrain
  · have := htry.rank
    omega
  · have := hdrain.rank
    omega

variable [DecidableEq Sid]

omit [DecidableEq Sid] in
theorem WordOk.reader {b : ℕ} (h : WordOk s b) (hne : s.words b &&& SHARED_MASK ≠ 0) :
    ∃ u, (s.sessions u).Holds b := by
  have hlen : 0 < (s.readers b).length := by
    rw [h.and_shared] at hne
    omega
  obtain ⟨u, hu⟩ := List.exists_mem_of_length_pos hlen
  exact ⟨u, ((h.readers u).mp hu).holds⟩

/-- Not a step of FLUSHALL. -/
def Label.Locking (l : Label Sid) : Prop := l.move ≠ .clear ∧ l.move ≠ .clearOne

instance (l : Label Sid) : Decidable l.Locking := inferInstanceAs (Decidable (_ ∧ _))

end NoDeadlock

end Garnet.LatchTable
