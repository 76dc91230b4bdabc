import MiniGarnet.Lib.Lts
import MiniGarnet.Tsavorite.Checkpoint

/-! # Sessions

    Any number of sessions run operations on one store while a checkpoint
    may be taken.  A session's operation is a loop: enter the epoch and read
    the global state, make one attempt, then either return, read the device
    without protection, or back off and go round again.  Each of these is a
    step, and any interleaving of the sessions' steps is a run.
-/

namespace Tsavorite

/-! ## Section 1: Operations -/

inductive Request (I : Type) where
  | read (key : Key) (input : I)
  | upsert (key : Key) (input : I)
  | rmw (key : Key) (input : I)
  | delete (key : Key)
  deriving DecidableEq, Repr

def Request.key {I : Type} : Request I → Key
  | .read key _ | .upsert key _ | .rmw key _ | .delete key => key

def MAX_RETRIES : ℕ := 1000000

variable {I O : Type} (g : Geometry) (f : SessionFunctions I O)

/-- One attempt of an operation. -/
def attempt (store : Store) (state : SystemState) (req : Request I) (src : Option DiskSrc)
    (out : O) : Attempt O :=
  match req with
  | .read key input => internalRead g f store state key input out
  | .upsert key input => internalUpsert g f store state key input out
  | .rmw key input => internalRmw g f store state key input out src
  | .delete key =>
    internalDelete g store state key out (src.map fun s => (existsOnDisk s.1, s.2))

/-! ## Section 2: State -/

/-- Where a session stands in its operation.  `retries` counts calls of `handle_retry`. -/
inductive Pc (I : Type) where
  | idle
  /-- About to enter the epoch. -/
  | ready (req : Request I) (src : Option DiskSrc) (retries : ℕ)
  /-- Protected, with the state it read on entering. -/
  | entered (req : Request I) (src : Option DiskSrc) (retries : ℕ) (state : SystemState)
  /-- Unprotected, about to read the chain on disk. -/
  | reading (req : Request I) (retries addr latest : ℕ)
  /-- About to bump the epoch. -/
  | backoff (req : Request I) (src : Option DiskSrc) (retries : ℕ)

structure Session (I O : Type) where
  pc : Pc I
  out : O

/-- One attempt, or one read of the device that ended a `read`. -/
structure Event (I O : Type) where
  session : ℕ
  req : Request I
  version : ℕ
  /-- The output buffer it started with. -/
  input : O
  shown : Shown O

/-- The store, its sessions and a checkpoint.  `published` and `history` are
    bookkeeping: what the attempts have made of each key, and what they have shown,
    newest first. -/
structure System (I O : Type) where
  store : Store
  sessions : ℕ → Session I O
  checkpoint : CheckpointPc
  metadata : Option CheckpointInfo
  published : Key → Option RecordData
  history : List (Event I O)

def System.new (store : Store) (out : O) : System I O where
  store := store
  sessions := fun _ => ⟨.idle, out⟩
  checkpoint := .idle
  metadata := none
  published := fun _ => none
  history := []

def System.setSession (s : System I O) (t : ℕ) (x : Session I O) : System I O :=
  { s with sessions := fun u => if u = t then x else s.sessions u }

/-! ## Section 3: Steps -/

inductive Label (I O : Type) where
  /-- Session `t` calls an operation with the output buffer `out`. -/
  | start (t : ℕ) (req : Request I) (out : O)
  /-- `protect` and `sync_state`. -/
  | enter (t : ℕ)
  /-- The body of `protected`, `unprotect`, and the decision what to do next. -/
  | attempt (t : ℕ)
  /-- `find_on_disk`. -/
  | diskRead (t : ℕ)
  /-- The epoch bump of `handle_retry`. -/
  | backoff (t : ℕ)
  /-- An epoch bump by a thread without a session. -/
  | bump
  /-- A step of `take_checkpoint(_, user_data)`. -/
  | checkpoint (userData : ℕ)

def Store.protect (store : Store) (t : ℕ) : Store :=
  { store with log := { store.log with epoch := store.log.epoch.protect t } }

def Store.unprotect (store : Store) (t : ℕ) : Store :=
  { store with log := { store.log with epoch := store.log.epoch.unprotect t } }

def Store.bumpCurrentEpoch (store : Store) : Store :=
  { store with log := store.log.bumpCurrentEpoch g }

/-- `read` on the record `find_on_disk` returned. -/
def readFromDisk (key : Key) (input : I) (out : O) (r : Option Record) : Shown O :=
  match r with
  | some r =>
    if r.info.isTombstone then ⟨some .notFound, out, [], none⟩
    else
      let (ok, out) := f.reader key input r.data out
      ⟨some (if ok then .found else .notFound), out, [.reader r.data], none⟩
  | none => ⟨some .notFound, out, [], none⟩

/-- `handle_retry`: `none` is the end of the operation with `Status::Error`. -/
def handleRetry (req : Request I) (src : Option DiskSrc) (retries : ℕ) (outcome : Op) :
    Option (Pc I) :=
  if MAX_RETRIES < retries + 1 then none
  else if outcome = .retryLater then some (.backoff req src (retries + 1))
  else some (.ready req src (retries + 1))

/-- Where a session goes from an attempt, and the status it returns if it returns. -/
def afterAttempt (req : Request I) (src : Option DiskSrc) (retries : ℕ) :
    Op → Option (Pc I × Option Status)
  | .done s => some (.idle, some s)
  | .recordOnDisk addr latest => some (.reading req retries addr latest, none)
  | .aborted _ => none
  | outcome =>
    match handleRetry req src retries outcome with
    | some pc => some (pc, none)
    | none => some (.idle, some .error)

def next (s : System I O) : Label I O → Option (System I O)
  | .start t req out =>
    match (s.sessions t).pc with
    | .idle => some (s.setSession t ⟨.ready req none 0, out⟩)
    | _ => none
  | .enter t =>
    match (s.sessions t).pc with
    | .ready req src n =>
      some ({ s with store := s.store.protect t }.setSession t
        { s.sessions t with pc := .entered req src n s.store.systemState })
    | _ => none
  | .attempt t =>
    match (s.sessions t).pc with
    | .entered req src n state =>
      let out := (s.sessions t).out
      let a := attempt g f s.store state req src out
      (afterAttempt req src n a.outcome).map fun (pc, status) =>
        ({ s with
          store := a.store.unprotect t
          published := applyWrote s.published req.key a.wrote
          history := ⟨t, req, state.version, out, { a.shown with status := status }⟩ :: s.history
          }).setSession t ⟨pc, a.out⟩
    | _ => none
  | .diskRead t =>
    match (s.sessions t).pc with
    | .reading req n addr latest =>
      let out := (s.sessions t).out
      let r := findOnDisk s.store.log req.key (addr + 1) addr
      match req with
      | .read key input =>
        let shown := readFromDisk f key input out r
        some ({ s with history := ⟨t, req, s.store.systemState.version, out, shown⟩ :: s.history
          }.setSession t ⟨.idle, shown.out⟩)
      | _ => some (s.setSession t { s.sessions t with pc := .ready req (some (r, latest)) n })
    | _ => none
  | .backoff t =>
    match (s.sessions t).pc with
    | .backoff req src n =>
      some ({ s with store := s.store.bumpCurrentEpoch g }.setSession t
        { s.sessions t with pc := .ready req src n })
    | _ => none
  | .bump => some { s with store := s.store.bumpCurrentEpoch g }
  | .checkpoint userData =>
    (checkpointStep g userData s.store s.checkpoint).map fun (store, pc, info) =>
      { s with store := store, checkpoint := pc, metadata := info.or s.metadata }

end Tsavorite
