import MiniGarnet.Garnet.LockSet
import MiniGarnet.Garnet.TxnLocks
import MiniGarnet.Lib.Lts

/-! # Sessions side by side

    Any number of connections run commands against one store.  A command is
    the program `dispatch` makes of it; the sessions perform the operations
    of their programs in any interleaving.

    A store call is a loop of attempts (`store.rs`): find the slot of the
    key, latch its bucket, look at the record, drop the latch.  Each of these
    is a step.  In transaction mode no latch is taken: `txn_lock` has taken
    them all, one after another, and `txn_unlock` drops them again.

    Of the records only one cell a key is kept, and an attempt works on it in
    one step, under the latch.  An `rmw` or `delete` whose record is only on
    disk drops the latch, reads the device, and comes back with what it has
    read (`src`); it may then find a newer record in memory, or none.  What
    the callbacks make of a cell is a parameter.  When an operation stops
    retrying is left open, and so is what the calls outside the store return.
    FLUSHDB and FLUSHALL are not part of this model.
-/

namespace Garnet

open Tsavorite (Status SlotRef keySlot)

/-! ## Section 1: Latches -/

/-- The latch bits of a bucket, with the sessions that have set them. -/
structure Latch (Sid : Type) where
  exclusive : Option Sid
  shared : List Sid
  deriving DecidableEq

/-- The greatest count in `SHARED_MASK`. -/
def SHARED_MAX : ℕ := 2 ^ 15 - 1

namespace Latch

variable {Sid : Type} [DecidableEq Sid]

/-- The successful `compare_exchange` of `try_lock_shared` or `try_lock_exclusive`. -/
def take (l : Latch Sid) (lock : LockType) (i : Sid) : Option (Latch Sid) :=
  match lock with
  | .shared =>
    if l.exclusive = none ∧ l.shared.length < SHARED_MAX then some { l with shared := i :: l.shared }
    else none
  | .exclusive => if l.exclusive = none then some { l with exclusive := some i } else none

/-- `unlock_shared` or `unlock_exclusive`. -/
def drop (l : Latch Sid) (lock : LockType) (i : Sid) : Latch Sid :=
  match lock with
  | .shared => { l with shared := l.shared.erase i }
  | .exclusive => { l with exclusive := none }

end Latch

/-! ## Section 2: Store calls -/

namespace Effect

/-- The key of a store call. -/
def storeKey : Effect → Option Bytes
  | .read key _ _ | .upsert key _ _ | .rmw key _ _ | .delete key => some key
  | _ => none

/-- The latch a store call takes. -/
def latch : Effect → LockType
  | .read .. => .shared
  | _ => .exclusive

/-- `find_or_create_tag`, where the others use `find_tag`. -/
def createsTag : Effect → Bool
  | .upsert .. | .rmw .. => true
  | _ => false

/-- The calls that come back with a record from disk. -/
def takesSource : Effect → Bool
  | .rmw .. | .delete _ => true
  | _ => false

/-- The call returns with this status and its output as it is. -/
def ends (status : Status) : (e : Effect) → Option e.Result
  | .read _ _ out | .upsert _ _ out | .rmw _ _ out => some (status, out)
  | .delete _ => some status
  | _ => none

end Effect

/-- What store calls do to the cell of their key.  `ω` is what else decides the outcome:
    where the record lies, and how much room it has. -/
structure RecordOps (ω Cell : Type) where
  /-- No record. -/
  absent : Cell
  reader : ω → Bytes → StringInput → StringOutput → Cell → Status × StringOutput
  upserter : ω → Bytes → StringInput → StringOutput → Cell → (Status × StringOutput) × Cell
  /-- With the new cell, if the call writes one. -/
  updater : ω → Bytes → StringInput → StringOutput → Cell → (Status × StringOutput) × Option Cell
  deleter : ω → Bytes → Cell → Status × Option Cell
  /-- The tombstone an `rmw` sets on an expired record before it adds a new one. -/
  expire : ω → Bytes → StringInput → Cell → Cell

/-- The result of a call and the cell it writes. -/
def RecordOps.act {ω Cell : Type} (ops : RecordOps ω Cell) (w : ω) (c : Cell) :
    (e : Effect) → Option (e.Result × Option Cell)
  | .read key input out => some (ops.reader w key input out c, none)
  | .upsert key input out =>
    let (r, c') := ops.upserter w key input out c
    some (r, some c')
  | .rmw key input out => some (ops.updater w key input out c)
  | .delete key => some (ops.deleter w key c)
  | _ => none

/-! ## Section 3: States -/

/-- The rest of a command. -/
abbrev Prog : Type := Program Effect Effect.Result ((Bytes × Action) × RespSession)

/-- Where a session stands.  The program is the rest of the command, with the operation in
    progress as its first. -/
inductive Pc (Cell : Type) where
  /-- Waiting for a command. -/
  | idle (session : RespSession)
  /-- About to start the next operation, or its next attempt with the record from disk. -/
  | ready (p : Prog) (src : Option Cell)
  /-- With the slot of the key, in `latch`. -/
  | latching (p : Prog) (src : Option Cell)
  /-- The exclusive bit is set; readers may still be there. -/
  | draining (p : Prog) (src : Option Cell)
  /-- Latched, or in transaction mode. -/
  | holding (p : Prog) (src : Option Cell)
  /-- About to drop the latch, and to go on with `p`. -/
  | releasing (bucket : ℕ) (lock : LockType) (p : Prog) (src : Option Cell)
  /-- In `txn_lock`, with the latches still to take. -/
  | locking (p : Prog) (rest : List (ℕ × LockType))
  /-- In `txn_lock`; the exclusive bit of the next latch is set. -/
  | lockDraining (p : Prog) (rest : List (ℕ × LockType))
  /-- In `txn_unlock`. -/
  | unlocking (p : Prog)

/-- A session.  `block` is bookkeeping: the lock set of the EXEC whose queue is running. -/
structure Local (Cell : Type) where
  txnMode : Bool
  txnLocks : List (ℕ × LockType)
  pc : Pc Cell
  block : Option (List (Bytes × LockType))

/-- What has happened, for the record. -/
inductive Event (Sid Cell : Type) where
  | command (i : Sid) (args : List Bytes)
  /-- WATCH has read the version of the key. -/
  | watched (i : Sid) (key : Bytes)
  | bumped (i : Sid) (key : Bytes)
  /-- EXEC has compared the version of a slot. -/
  | checked (i : Sid) (slot : ℕ)
  /-- EXEC has its latches. -/
  | began (i : Sid) (locks : List (Bytes × LockType))
  /-- EXEC is about to drop them. -/
  | ended (i : Sid)
  /-- A store call found the cell `found`; its result and what it has written were computed
      from `worked`. -/
  | did (i : Sid) (e : Effect) (worked found : Cell) (written : Option Cell)

structure State (Sid Cell : Type) where
  latches : ℕ → Latch Sid
  /-- The claimed slots of the index. -/
  tags : SlotRef → Bool
  cells : Bytes → Cell
  /-- The watch table. -/
  watch : ℕ → ℕ
  locals : Sid → Local Cell
  /-- Newest first. -/
  trace : List (Event Sid Cell)

namespace State

variable {Sid Cell : Type} [DecidableEq Sid]

def setLocal (s : State Sid Cell) (i : Sid) (lo : Local Cell) : State Sid Cell :=
  { s with locals := fun j => if j = i then lo else s.locals j }

def goto (s : State Sid Cell) (i : Sid) (pc : Pc Cell) : State Sid Cell :=
  s.setLocal i { s.locals i with pc := pc }

def setLatch (s : State Sid Cell) (b : ℕ) (l : Latch Sid) : State Sid Cell :=
  { s with latches := fun c => if c = b then l else s.latches c }

def setCell (s : State Sid Cell) (key : Bytes) (c : Cell) : State Sid Cell :=
  { s with cells := fun k => if k = key then c else s.cells k }

def setTag (s : State Sid Cell) (slot : SlotRef) : State Sid Cell :=
  { s with tags := fun x => x = slot || s.tags x }

def log (s : State Sid Cell) (ev : Event Sid Cell) : State Sid Cell :=
  { s with trace := ev :: s.trace }

/-- An empty store with no session in a command. -/
def init (absent : Cell) (aof : Bool) : State Sid Cell where
  latches := fun _ => ⟨none, []⟩
  tags := fun _ => false
  cells := fun _ => absent
  watch := fun _ => 0
  locals := fun _ => ⟨false, [], .idle (.new aof), none⟩
  trace := []

end State

/-! ## Section 4: Steps -/

/-- What a session may do next; most moves are possible at one place of its code only. -/
inductive Move (ω : Type) where
  /-- A command arrives. -/
  | command (clock : Int64) (raw : Bytes) (args : List Bytes)
  /-- The reply is complete. -/
  | finish
  /-- Look for the slot of the key, or claim one. -/
  | find
  /-- `MAX_RETRIES` are over. -/
  | giveUp
  /-- Set a latch bit, or count a reader. -/
  | latch
  /-- The bounded wait of `try_lock_shared` or `try_lock_exclusive` is over. -/
  | fail
  /-- The last reader has been seen to leave. -/
  | drained
  /-- Complete an attempt, from the record in memory or from the one read from disk. -/
  | act (w : ω) (fromSrc : Bool)
  /-- Tombstone an expired record, without room for the record that replaces it. -/
  | expire (w : ω)
  /-- Leave an attempt without effect, and perhaps read the record from disk. -/
  | retry (toDisk : Bool)
  /-- Drop a latch. -/
  | release
  /-- Enter `txn_lock`. -/
  | lock
  /-- Leave `txn_lock`. -/
  | locked
  /-- Enter `txn_unlock`. -/
  | unlock
  /-- Leave `txn_unlock`. -/
  | unlocked
  /-- Perform an operation outside the store. -/
  | service (answers : (e : Effect) → e.Result)

structure Label (Sid ω : Type) where
  actor : Sid
  move : Move ω

section Steps

variable {Sid Cell ω : Type} [DecidableEq Sid] (ops : RecordOps ω Cell) (mask : ℕ)
  (s : State Sid Cell) (i : Sid)

/-- The operations outside the store, one step each. -/
def service (answers : (e : Effect) → e.Result) : (e : Effect) → Option (e.Result × State Sid Cell)
  | .bump key =>
    let slot := watchSlot key
    some ((), { s with watch := fun x => if x = slot then (s.watch slot + 1) % 2 ^ 64 else s.watch x
      }.log (.bumped i key))
  | .slotVersion key => some ((watchSlot key, s.watch (watchSlot key)), s.log (.watched i key))
  | .versionAt slot => some (s.watch slot, s.log (.checked i slot))
  | .enqueue _ => some ((), s)
  | .countLive => some (answers .countLive, s)
  | .scanLive pattern => some (answers (.scanLive pattern), s)
  | .checkpoint => some (answers .checkpoint, s)
  | .lastSaveMs => some (answers .lastSaveMs, s)
  | _ => none

/-- With the slot of the key: `latch`, which does nothing in transaction mode. -/
def toLatch (lo : Local Cell) (p : Prog) (src : Option Cell) : Pc Cell :=
  if lo.txnMode then .holding p src else .latching p src

/-- The end of an attempt: the latch is dropped, if there is one. -/
def leave (lo : Local Cell) (key : Bytes) (e : Effect) (p : Prog) (src : Option Cell) : Pc Cell :=
  if lo.txnMode then .ready p src else .releasing (bucketOf mask key) e.latch p src

def stepReady (src : Option Cell) : Prog → Move ω → Option (State Sid Cell)
  | .ret x, .finish => some (s.goto i (.idle x.2))
  | .op e k, .find =>
    e.storeKey.bind fun key =>
      if e.createsTag || s.tags (keySlot mask key) then
        some ((s.setTag (keySlot mask key)).goto i (toLatch (s.locals i) (.op e k) src))
      else
        -- no slot: `Op::Done(Status::NotFound)`, without a latch
        (e.ends .notFound).map fun r =>
          (s.log (.did i e ops.absent (s.cells key) none)).goto i (.ready (k r) none)
  | .op e k, .giveUp => (e.ends .error).map fun r => s.goto i (.ready (k r) none)
  | .op (.txnLock keys) k, .lock =>
    some (s.goto i (.locking (.op (.txnLock keys) k) (wantedLocks mask keys)))
  | .op .txnUnlock k, .unlock =>
    some ((s.log (.ended i)).setLocal i
      { s.locals i with pc := .unlocking (.op .txnUnlock k), block := none })
  | .op e k, .service answers =>
    (service s i answers e).map fun x => x.2.goto i (.ready (k x.1) none)
  | _, _ => none

def stepLatching (src : Option Cell) : Prog → Move ω → Option (State Sid Cell)
  | .op e k, .latch =>
    e.storeKey.bind fun key =>
      ((s.latches (bucketOf mask key)).take e.latch i).map fun l =>
        (s.setLatch (bucketOf mask key) l).goto i
          (if e.latch = .exclusive then .draining (.op e k) src else .holding (.op e k) src)
  | p, .fail => some (s.goto i (.ready p src))
  | _, _ => none

def stepDraining (src : Option Cell) : Prog → Move ω → Option (State Sid Cell)
  | .op e k, .drained =>
    e.storeKey.bind fun key =>
      if (s.latches (bucketOf mask key)).shared = [] then some (s.goto i (.holding (.op e k) src))
      else none
  | .op e k, .fail =>
    e.storeKey.map fun key =>
      (s.setLatch (bucketOf mask key) ((s.latches (bucketOf mask key)).drop .exclusive i)).goto i
        (.ready (.op e k) src)
  | _, _ => none

/-- The cell an attempt works on. -/
def workedOn (src : Option Cell) (current : Cell) : Bool → Option Cell
  | true => src
  | false => some current

def stepHolding (src : Option Cell) : Prog → Move ω → Option (State Sid Cell)
  | .op e k, .act w fromSrc =>
    e.storeKey.bind fun key =>
      (workedOn src (s.cells key) fromSrc).bind fun c =>
        (ops.act w c e).map fun x =>
          ((s.setCell key (x.2.getD (s.cells key))).log (.did i e c (s.cells key) x.2)).goto i
            (leave mask (s.locals i) key e (k x.1) none)
  | .op (.rmw key input out) k, .expire w =>
    let left := ops.expire w key input (s.cells key)
    some (((s.setCell key left).log (.did i (.rmw key input out) (s.cells key) (s.cells key)
      (some left))).goto i (leave mask (s.locals i) key (.rmw key input out) (.op (.rmw key input out) k) src))
  | .op e k, .retry toDisk =>
    e.storeKey.map fun key =>
      s.goto i (leave mask (s.locals i) key e (.op e k)
        (if toDisk && e.takesSource then some (s.cells key) else src))
  | _, _ => none

def stepLocking : Prog → List (ℕ × LockType) → Move ω → Option (State Sid Cell)
  | p, (b, lock) :: rest, .latch =>
    ((s.latches b).take lock i).map fun l =>
      (s.setLatch b l).setLocal i
        (if lock = .exclusive then { s.locals i with pc := .lockDraining p ((b, lock) :: rest) }
        else { s.locals i with
          pc := .locking p rest
          txnLocks := (s.locals i).txnLocks ++ [(b, lock)] })
  | .op (.txnLock keys) k, [], .locked =>
    some ((s.log (.began i keys)).setLocal i
      { s.locals i with txnMode := true, pc := .ready (k ()) none, block := some keys })
  | _, _, _ => none

def stepLockDraining : Prog → List (ℕ × LockType) → Move ω → Option (State Sid Cell)
  | p, (b, lock) :: rest, .drained =>
    if (s.latches b).shared = [] then
      some (s.setLocal i { s.locals i with
        pc := .locking p rest
        txnLocks := (s.locals i).txnLocks ++ [(b, lock)] })
    else none
  | p, (b, lock) :: rest, .fail =>
    some ((s.setLatch b ((s.latches b).drop .exclusive i)).goto i (.locking p ((b, lock) :: rest)))
  | _, _, _ => none

def stepUnlocking : Prog → List (ℕ × LockType) → Move ω → Option (State Sid Cell)
  | p, (b, lock) :: rest, .release =>
    some ((s.setLatch b ((s.latches b).drop lock i)).setLocal i
      { s.locals i with pc := .unlocking p, txnLocks := rest })
  | .op .txnUnlock k, [], .unlocked =>
    some (s.setLocal i { s.locals i with txnMode := false, pc := .ready (k ()) none })
  | _, _, _ => none

/-- One step of session `i`. -/
def stepPc (m : Move ω) : Pc Cell → Option (State Sid Cell)
  | .idle rs =>
    match m with
    | .command clock raw args =>
      some ((s.log (.command i args)).goto i (.ready (dispatch clock raw args rs) none))
    | _ => none
  | .ready p src => stepReady ops mask s i src p m
  | .latching p src => stepLatching mask s i src p m
  | .draining p src => stepDraining mask s i src p m
  | .holding p src => stepHolding ops mask s i src p m
  | .releasing b lock p src =>
    match m with
    | .release => some ((s.setLatch b ((s.latches b).drop lock i)).goto i (.ready p src))
    | _ => none
  | .locking p rest => stepLocking s i p rest m
  | .lockDraining p rest => stepLockDraining s i p rest m
  | .unlocking p => stepUnlocking s i p (s.locals i).txnLocks m

def next (s : State Sid Cell) (l : Label Sid ω) : Option (State Sid Cell) :=
  stepPc ops mask s l.actor l.move (s.locals l.actor).pc

end Steps

/-! ## Section 5: What a step can do -/

section Taken

variable {Sid Cell ω : Type} [DecidableEq Sid]

/-- The steps of session `i` from `s`, one case each. -/
inductive Taken (ops : RecordOps ω Cell) (mask : ℕ) (s : State Sid Cell) (i : Sid) :
    Move ω → State Sid Cell → Prop where
  | command {rs clock raw args} (hpc : (s.locals i).pc = .idle rs) :
      Taken ops mask s i (.command clock raw args)
        ((s.log (.command i args)).goto i (.ready (dispatch clock raw args rs) none))
  | finish {x src} (hpc : (s.locals i).pc = .ready (.ret x) src) :
      Taken ops mask s i .finish (s.goto i (.idle x.2))
  | found {e k src key} (hpc : (s.locals i).pc = .ready (.op e k) src) (hkey : e.storeKey = some key)
      (htag : e.createsTag = true ∨ s.tags (keySlot mask key) = true) :
      Taken ops mask s i .find
        ((s.setTag (keySlot mask key)).goto i (toLatch (s.locals i) (.op e k) src))
  | missing {e k src key r} (hpc : (s.locals i).pc = .ready (.op e k) src)
      (hkey : e.storeKey = some key) (htag : s.tags (keySlot mask key) = false)
      (hends : e.ends .notFound = some r) :
      Taken ops mask s i .find
        ((s.log (.did i e ops.absent (s.cells key) none)).goto i (.ready (k r) none))
  | gaveUp {e k src r} (hpc : (s.locals i).pc = .ready (.op e k) src)
      (hends : e.ends .error = some r) :
      Taken ops mask s i .giveUp (s.goto i (.ready (k r) none))
  | lockEntered {keys k src} (hpc : (s.locals i).pc = .ready (.op (.txnLock keys) k) src) :
      Taken ops mask s i .lock
        (s.goto i (.locking (.op (.txnLock keys) k) (wantedLocks mask keys)))
  | unlockEntered {k src} (hpc : (s.locals i).pc = .ready (.op .txnUnlock k) src) :
      Taken ops mask s i .unlock
        ((s.log (.ended i)).setLocal i
          { s.locals i with pc := .unlocking (.op .txnUnlock k), block := none })
  | served {e k src answers r s₁} (hpc : (s.locals i).pc = .ready (.op e k) src)
      (hserved : service s i answers e = some (r, s₁)) :
      Taken ops mask s i (.service answers) (s₁.goto i (.ready (k r) none))
  | latchTaken {e k src key l} (hpc : (s.locals i).pc = .latching (.op e k) src)
      (hkey : e.storeKey = some key) (hl : (s.latches (bucketOf mask key)).take e.latch i = some l) :
      Taken ops mask s i .latch
        ((s.setLatch (bucketOf mask key) l).goto i
          (if e.latch = .exclusive then .draining (.op e k) src else .holding (.op e k) src))
  | latchFailed {p src} (hpc : (s.locals i).pc = .latching p src) :
      Taken ops mask s i .fail (s.goto i (.ready p src))
  | drained {e k src key} (hpc : (s.locals i).pc = .draining (.op e k) src)
      (hkey : e.storeKey = some key) (hempty : (s.latches (bucketOf mask key)).shared = []) :
      Taken ops mask s i .drained (s.goto i (.holding (.op e k) src))
  | drainFailed {e k src key} (hpc : (s.locals i).pc = .draining (.op e k) src)
      (hkey : e.storeKey = some key) :
      Taken ops mask s i .fail
        ((s.setLatch (bucketOf mask key) ((s.latches (bucketOf mask key)).drop .exclusive i)).goto i
          (.ready (.op e k) src))
  | acted {e k src key w fromSrc c r written} (hpc : (s.locals i).pc = .holding (.op e k) src)
      (hkey : e.storeKey = some key) (hworked : workedOn src (s.cells key) fromSrc = some c)
      (hact : ops.act w c e = some (r, written)) :
      Taken ops mask s i (.act w fromSrc)
        (((s.setCell key (written.getD (s.cells key))).log
          (.did i e c (s.cells key) written)).goto i
          (leave mask (s.locals i) key e (k r) none))
  | expired {key input out k src w}
      (hpc : (s.locals i).pc = .holding (.op (.rmw key input out) k) src) :
      Taken ops mask s i (.expire w)
        (((s.setCell key (ops.expire w key input (s.cells key))).log
          (.did i (.rmw key input out) (s.cells key) (s.cells key)
            (some (ops.expire w key input (s.cells key))))).goto i
          (leave mask (s.locals i) key (.rmw key input out) (.op (.rmw key input out) k) src))
  | retried {e k src key toDisk} (hpc : (s.locals i).pc = .holding (.op e k) src)
      (hkey : e.storeKey = some key) :
      Taken ops mask s i (.retry toDisk)
        (s.goto i (leave mask (s.locals i) key e (.op e k)
          (if toDisk && e.takesSource then some (s.cells key) else src)))
  | released {b lock p src} (hpc : (s.locals i).pc = .releasing b lock p src) :
      Taken ops mask s i .release
        ((s.setLatch b ((s.latches b).drop lock i)).goto i (.ready p src))
  | lockTaken {p b lock rest l} (hpc : (s.locals i).pc = .locking p ((b, lock) :: rest))
      (hl : (s.latches b).take lock i = some l) :
      Taken ops mask s i .latch
        ((s.setLatch b l).setLocal i
          (if lock = .exclusive then { s.locals i with pc := .lockDraining p ((b, lock) :: rest) }
          else { s.locals i with
            pc := .locking p rest
            txnLocks := (s.locals i).txnLocks ++ [(b, lock)] }))
  | lockedAll {keys k} (hpc : (s.locals i).pc = .locking (.op (.txnLock keys) k) []) :
      Taken ops mask s i .locked
        ((s.log (.began i keys)).setLocal i
          { s.locals i with txnMode := true, pc := .ready (k ()) none, block := some keys })
  | lockDrained {p b lock rest} (hpc : (s.locals i).pc = .lockDraining p ((b, lock) :: rest))
      (hempty : (s.latches b).shared = []) :
      Taken ops mask s i .drained
        (s.setLocal i { s.locals i with
          pc := .locking p rest
          txnLocks := (s.locals i).txnLocks ++ [(b, lock)] })
  | lockDrainFailed {p b lock rest} (hpc : (s.locals i).pc = .lockDraining p ((b, lock) :: rest)) :
      Taken ops mask s i .fail
        ((s.setLatch b ((s.latches b).drop .exclusive i)).goto i (.locking p ((b, lock) :: rest)))
  | unlockedOne {p b lock rest} (hpc : (s.locals i).pc = .unlocking p)
      (hlocks : (s.locals i).txnLocks = (b, lock) :: rest) :
      Taken ops mask s i .release
        ((s.setLatch b ((s.latches b).drop lock i)).setLocal i
          { s.locals i with pc := .unlocking p, txnLocks := rest })
  | unlockedAll {k} (hpc : (s.locals i).pc = .unlocking (.op .txnUnlock k))
      (hlocks : (s.locals i).txnLocks = []) :
      Taken ops mask s i .unlocked
        (s.setLocal i { s.locals i with txnMode := false, pc := .ready (k ()) none })

variable {ops : RecordOps ω Cell} {mask : ℕ} {s s' : State Sid Cell} {i : Sid} {m : Move ω}

theorem stepReady_taken {p : Prog} {src : Option Cell} (hpc : (s.locals i).pc = .ready p src)
    (h : stepReady ops mask s i src p m = some s') : Taken ops mask s i m s' := by
  unfold stepReady at h
  split at h
  · cases h
    exact .finish hpc
  · obtain ⟨key, hkey, h⟩ := Option.bind_eq_some_iff.mp h
    split at h
    · rename_i htag
      cases h
      exact .found hpc hkey (by simpa using htag)
    · rename_i htag
      obtain ⟨r, hends, rfl⟩ := Option.map_eq_some_iff.mp h
      simp only [Bool.or_eq_true, not_or, Bool.not_eq_true] at htag
      exact .missing hpc hkey htag.2 hends
  · obtain ⟨r, hends, rfl⟩ := Option.map_eq_some_iff.mp h
    exact .gaveUp hpc hends
  · cases h
    exact .lockEntered hpc
  · cases h
    exact .unlockEntered hpc
  · obtain ⟨⟨r, s₁⟩, hserved, rfl⟩ := Option.map_eq_some_iff.mp h
    exact .served hpc hserved
  · cases h

theorem stepHolding_taken {p : Prog} {src : Option Cell} (hpc : (s.locals i).pc = .holding p src)
    (h : stepHolding ops mask s i src p m = some s') : Taken ops mask s i m s' := by
  unfold stepHolding at h
  split at h
  · obtain ⟨key, hkey, h⟩ := Option.bind_eq_some_iff.mp h
    obtain ⟨c, hworked, h⟩ := Option.bind_eq_some_iff.mp h
    obtain ⟨⟨r, written⟩, hact, rfl⟩ := Option.map_eq_some_iff.mp h
    exact .acted hpc hkey hworked hact
  · cases h
    exact .expired hpc
  · obtain ⟨key, hkey, rfl⟩ := Option.map_eq_some_iff.mp h
    exact .retried hpc hkey
  · cases h

theorem next_taken {l : Label Sid ω} (h : next ops mask s l = some s') :
    Taken ops mask s l.actor l.move s' := by
  obtain ⟨i, m⟩ := l
  simp only [next] at h ⊢
  cases hpc : (s.locals i).pc with
  | idle rs =>
    rw [hpc] at h
    simp only [stepPc] at h
    split at h
    · cases h
      exact .command hpc
    · cases h
  | ready p src =>
    rw [hpc] at h
    exact stepReady_taken hpc h
  | latching p src =>
    rw [hpc] at h
    simp only [stepPc] at h
    unfold stepLatching at h
    split at h
    · obtain ⟨key, hkey, h⟩ := Option.bind_eq_some_iff.mp h
      obtain ⟨l, hl, rfl⟩ := Option.map_eq_some_iff.mp h
      exact .latchTaken hpc hkey hl
    · cases h
      exact .latchFailed hpc
    · cases h
  | draining p src =>
    rw [hpc] at h
    simp only [stepPc] at h
    unfold stepDraining at h
    split at h
    · obtain ⟨key, hkey, h⟩ := Option.bind_eq_some_iff.mp h
      split at h
      · rename_i hempty
        cases h
        exact .drained hpc hkey hempty
      · cases h
    · obtain ⟨key, hkey, rfl⟩ := Option.map_eq_some_iff.mp h
      exact .drainFailed hpc hkey
    · cases h
  | holding p src =>
    rw [hpc] at h
    exact stepHolding_taken hpc h
  | releasing b lock p src =>
    rw [hpc] at h
    simp only [stepPc] at h
    split at h
    · cases h
      exact .released hpc
    · cases h
  | locking p rest =>
    rw [hpc] at h
    simp only [stepPc] at h
    unfold stepLocking at h
    split at h
    · obtain ⟨l, hl, rfl⟩ := Option.map_eq_some_iff.mp h
      exact .lockTaken hpc hl
    · cases h
      exact .lockedAll hpc
    · cases h
  | lockDraining p rest =>
    rw [hpc] at h
    simp only [stepPc] at h
    unfold stepLockDraining at h
    split at h
    · split at h
      · rename_i hempty
        cases h
        exact .lockDrained hpc hempty
      · cases h
    · cases h
      exact .lockDrainFailed hpc
    · cases h
  | unlocking p =>
    rw [hpc] at h
    simp only [stepPc] at h
    unfold stepUnlocking at h
    split at h
    · rename_i hlocks
      cases h
      exact .unlockedOne hpc hlocks
    · rename_i hlocks
      cases h
      exact .unlockedAll hpc hlocks
    · cases h

end Taken

end Garnet
