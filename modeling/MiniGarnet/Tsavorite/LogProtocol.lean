import Mathlib.Data.Fintype.Defs
import Mathlib.Logic.Function.Basic
import MiniGarnet.Tsavorite.Log
import MiniGarnet.Tsavorite.TailProtocol

/-! # The boundary protocol of the hybrid log

    Any number of threads allocate, turn pages, shift the boundaries, flush
    and close pages (`log.rs`), with every load, compare-exchange, store and
    lock operation a step of its own.  Allocation is the tail protocol; this
    module adds `issue_shift_addresses`, the two shift functions, the two
    drain actions with `flush_until`, and the part of `take_checkpoint` that
    moves the log.

    A registered action may be picked up by any thread outside a call, in
    any order.  What the epoch guarantees about *when* an action starts is a
    condition on steps (`EpochSafe`), so that results which do not need it
    hold without it.

    History: the protected section each thread is in, the bounds it has
    loaded and the addresses it has allocated there, and for every page slot
    and address the number of the page turn it belongs to.
-/

namespace Tsavorite.LogProtocol

/-! ## Section 1: State -/

/-- What follows `shift_read_only_address` in its caller. -/
inductive After where
  /-- `issue_shift_addresses(next)` goes on to the head. -/
  | issueHead (next : ℕ)
  /-- `take_checkpoint` waits for the flush. -/
  | waitFlushed (final : ℕ)
  deriving DecidableEq, Repr

/-- What a thread does next outside `try_allocate`. -/
inductive Pc where
  | idle
  /-- `issue_shift_addresses`: load ReadOnly. -/
  | issuing (next : ℕ)
  /-- `shift_read_only_address`: first load. -/
  | loadingRo (new : ℕ) (k : After)
  | casingRo (cur new : ℕ) (k : After)
  /-- `bump_with_action(on_pages_marked_read_only)` -/
  | registeringRo (new : ℕ) (k : After)
  /-- `issue_shift_addresses`: load Head. -/
  | issuingHead (next : ℕ)
  /-- `shift_head_address`: load FlushedUntil. -/
  | clamping (desired : ℕ)
  | loadingHead (new : ℕ)
  | casingHead (cur new : ℕ)
  /-- `bump_with_action(on_pages_closed)` -/
  | registeringHead (new : ℕ)
  /-- `take_checkpoint`: `tail_address`. -/
  | loadingTail
  /-- `wait_flushed` -/
  | waiting (final : ℕ)
  /-- `on_pages_marked_read_only`: raise SafeReadOnly. -/
  | marking (new : ℕ)
  /-- `flush_until`: take the flush lock. -/
  | lockingFlush (until_ : ℕ)
  | loadingFlushed (until_ : ℕ)
  /-- `flush_until`: write the page of `addr`, or raise FlushedUntil. -/
  | flushing (until_ addr : ℕ)
  | unlockingFlush
  /-- `on_pages_closed`: raise SafeHead. -/
  | raising (new : ℕ)
  | lockingClose (new : ℕ)
  /-- `on_pages_closed`: load ClosedUntil. -/
  | closing (new : ℕ)
  /-- `on_pages_closed`: store ClosedUntil. -/
  | storingClosed (new pageEnd : ℕ)
  | unlockingClose
  deriving DecidableEq, Repr

/-- A registered action, with the protected sections of the moment. -/
structure Registered (Thread : Type*) where
  action : DrainAction
  published : Thread → Option ℕ

structure State (Thread : Type*) where
  /-- The tail word, ClosedUntil and the threads inside `try_allocate`. -/
  alloc : TailProtocol.State Thread
  safeHead : ℕ
  head : ℕ
  flushedUntil : ℕ
  safeReadOnly : ℕ
  readOnly : ℕ
  actions : List (Registered Thread)
  flushLock : Bool
  closeLock : Bool
  pc : Thread → Pc
  /-- The protected section a thread is in. -/
  sections : Thread → Option ℕ
  clock : ℕ
  /-- Head and ReadOnly values loaded in the section. -/
  loaded : Thread → List ℕ
  /-- Addresses allocated in the section. -/
  allocated : Thread → List ℕ
  /-- The number of page turns so far. -/
  turns : ℕ
  /-- The page a buffer slot was last zeroed for, and the turn that did it. -/
  slots : ℕ → ℕ × ℕ
  /-- The turn of the page an address was granted in. -/
  born : ℕ → ℕ

/-- The log `HybridLog::new` returns: the slots hold the first pages. -/
def initial {Thread : Type*} : State Thread where
  alloc := TailProtocol.initial
  safeHead := FIRST_VALID_ADDRESS
  head := FIRST_VALID_ADDRESS
  flushedUntil := FIRST_VALID_ADDRESS
  safeReadOnly := FIRST_VALID_ADDRESS
  readOnly := FIRST_VALID_ADDRESS
  actions := []
  flushLock := false
  closeLock := false
  pc := fun _ => .idle
  sections := fun _ => none
  clock := 0
  loaded := fun _ => []
  allocated := fun _ => []
  turns := 0
  slots := fun i => (i, 0)
  born := fun _ => 0

/-! ## Section 2: Steps -/

inductive Label (Thread : Type*) where
  /-- A step of `try_allocate_retry_now`. -/
  | alloc (l : TailProtocol.Label Thread)
  /-- A thread outside a call enters or leaves a protected section. -/
  | protect (t : Thread)
  | unprotect (t : Thread)
  /-- A thread in a section loads Head or ReadOnly. -/
  | loadHead (t : Thread)
  | loadRo (t : Thread)
  /-- `take_checkpoint` reaches `tail_address`. -/
  | checkpoint (t : Thread)
  /-- A drain starts the `i`-th registered action. -/
  | startAction (t : Thread) (i : ℕ)
  | step (t : Thread)
  /-- A device write fails. -/
  | failWrite (t : Thread)

/-- The thread that takes an allocation step; `close` is not one. -/
def allocThread {Thread : Type*} : TailProtocol.Label Thread → Option Thread
  | .fetchAdd t _ => some t
  | .checkFree t => some t
  | .refuse t => some t
  | .zero t => some t
  | .publish t => some t
  | .close _ => none

/-- Requests are record sizes, and a record has a header. -/
def positiveSize {Thread : Type*} : TailProtocol.Label Thread → Bool
  | .fetchAdd _ size => 0 < size
  | _ => true

section Transitions

variable {Thread : Type*} [DecidableEq Thread] (g : Geometry) (s : State Thread) (t : Thread)

namespace State

def goto (p : Pc) : State Thread := { s with pc := Function.update s.pc t p }

/-- What follows `shift_read_only_address`. -/
def resume (k : After) : State Thread :=
  match k with
  | .issueHead next => s.goto t (.issuingHead next)
  | .waitFlushed final => s.goto t (.waiting final)

/-- `bump_with_action` -/
def register (a : DrainAction) : State Thread :=
  { s with actions := s.actions ++ [⟨a, s.sections⟩] }

/-- The page turn after which a thread issues the shifts. -/
def afterTurn : TailProtocol.Label Thread → Pc
  | .refuse t =>
    match s.alloc.pc t with
    | .refusing page => .issuing (page + 1)
    | _ => .idle
  | .publish t =>
    match s.alloc.pc t with
    | .publishing page _ => .issuing (page + 1)
    | _ => .idle
  | _ => .idle

/-- The history of a page slot: zeroing belongs to a new page turn. -/
def recordZero : TailProtocol.Label Thread → State Thread
  | .zero t =>
    match s.alloc.pc t with
    | .zeroing page _ => { s with
        turns := s.turns + 1
        slots := Function.update s.slots (g.slotOf (page + 1)) (page + 1, s.turns + 1) }
    | _ => s
  | _ => s

/-- The history of an allocation: the addresses granted since `old`. -/
def recordGrant (old : List (ℕ × ℕ)) : State Thread :=
  match s.alloc.granted, decide (s.alloc.granted.length = old.length) with
  | (addr, _) :: _, false => { s with
      born := Function.update s.born addr s.turns
      allocated := Function.update s.allocated t (addr :: s.allocated t) }
  | _, _ => s

/-- The state after an allocation step that leaves the allocator at `alloc`. -/
def afterAlloc (l : TailProtocol.Label Thread) (alloc : TailProtocol.State Thread) :
    State Thread :=
  ({ s.recordZero g l with alloc := alloc }.recordGrant t s.alloc.granted).goto t (s.afterTurn l)

end State

/-- One step of the allocator by `t`, with the history it leaves. -/
def allocStep (l : TailProtocol.Label Thread) : Option (State Thread) :=
  (TailProtocol.next g s.alloc l).map (s.afterAlloc g t l)

/-- The next step of a thread outside `try_allocate`; `none` when it has to wait. -/
def stepPc : Pc → Option (State Thread)
  | .idle => none
  | .issuing next =>
    some (if s.readOnly < HybridLog.desiredRo g next then
      s.goto t (.loadingRo (HybridLog.desiredRo g next) (.issueHead next))
    else s.goto t (.issuingHead next))
  | .loadingRo new k => some (s.goto t (.casingRo s.readOnly new k))
  | .casingRo cur new k =>
    if new ≤ cur then some (s.resume t k)
    else if s.readOnly = cur then
      some ({ s with readOnly := new }.goto t (.registeringRo new k))
    else some (s.goto t (.casingRo s.readOnly new k))
  | .registeringRo new k => some ((s.register (.markReadOnly new)).resume t k)
  | .issuingHead next =>
    some (if s.head < HybridLog.desiredHead g next then
      s.goto t (.clamping (HybridLog.desiredHead g next))
    else s.goto t .idle)
  | .clamping desired => some (s.goto t (.loadingHead (min desired s.flushedUntil)))
  | .loadingHead new => some (s.goto t (.casingHead s.head new))
  | .casingHead cur new =>
    if new ≤ cur then some (s.goto t .idle)
    else if s.head = cur then some ({ s with head := new }.goto t (.registeringHead new))
    else some (s.goto t (.casingHead s.head new))
  | .registeringHead new => some ((s.register (.closePages new)).goto t .idle)
  | .loadingTail =>
    -- spins while a page turn is in progress
    (tailAddress g s.alloc.tail).map fun final => s.goto t (.loadingRo final (.waitFlushed final))
  | .waiting final =>
    if final ≤ s.flushedUntil then some (s.goto t (.lockingFlush final)) else none
  | .marking new =>
    some ({ s with safeReadOnly := max s.safeReadOnly new }.goto t (.lockingFlush new))
  | .lockingFlush u =>
    if s.flushLock then none
    else some ({ s with flushLock := true }.goto t (.loadingFlushed u))
  | .loadingFlushed u =>
    some (if u ≤ s.flushedUntil then s.goto t .unlockingFlush
      else s.goto t (.flushing u s.flushedUntil))
  | .flushing u addr =>
    some (if addr < u then
      s.goto t (.flushing u (min u ((g.pageOf addr + 1) * g.pageSize)))
    else { s with flushedUntil := max s.flushedUntil u }.goto t .unlockingFlush)
  | .unlockingFlush => some ({ s with flushLock := false }.goto t .idle)
  | .raising new => some ({ s with safeHead := max s.safeHead new }.goto t (.lockingClose new))
  | .lockingClose new =>
    if s.closeLock then none
    else some ({ s with closeLock := true }.goto t (.closing new))
  | .closing new =>
    let pageEnd := s.alloc.closedUntil + g.pageSize
    some (if new < pageEnd then s.goto t .unlockingClose else s.goto t (.storingClosed new pageEnd))
  | .storingClosed new pageEnd =>
    some ({ s with alloc := { s.alloc with closedUntil := pageEnd } }.goto t (.closing new))
  | .unlockingClose => some ({ s with closeLock := false }.goto t .idle)

/-- Where an action begins. -/
def firstPc : DrainAction → Pc
  | .markReadOnly new => .marking new
  | .closePages new => .raising new
  | .observe => .idle

/-- A thread outside every call. -/
def Outside : Prop := s.pc t = .idle ∧ s.alloc.pc t = .idle

instance : Decidable (Outside s t) := inferInstanceAs (Decidable (_ ∧ _))

def next : Label Thread → Option (State Thread)
  | .alloc l =>
    match allocThread l with
    | some t => if s.pc t = .idle ∧ positiveSize l then allocStep g s t l else none
    | none => none
  | .protect t =>
    if Outside s t ∧ s.sections t = none then
      some { s with
        sections := Function.update s.sections t (some s.clock)
        clock := s.clock + 1
        loaded := Function.update s.loaded t []
        allocated := Function.update s.allocated t [] }
    else none
  | .unprotect t =>
    if Outside s t then some { s with sections := Function.update s.sections t none } else none
  | .loadHead t =>
    if Outside s t ∧ s.sections t ≠ none then
      some { s with loaded := Function.update s.loaded t (s.head :: s.loaded t) }
    else none
  | .loadRo t =>
    if Outside s t ∧ s.sections t ≠ none then
      some { s with loaded := Function.update s.loaded t (s.readOnly :: s.loaded t) }
    else none
  | .checkpoint t => if Outside s t then some (s.goto t .loadingTail) else none
  | .startAction t i =>
    match s.actions[i]? with
    | some a => if Outside s t then
        some ({ s with actions := s.actions.eraseIdx i }.goto t (firstPc a.action))
      else none
    | none => none
  | .step t => stepPc g s t (s.pc t)
  | .failWrite t =>
    match s.pc t with
    | .flushing _ _ => some (s.goto t .unlockingFlush)
    | _ => none

end Transitions

/-! ## Section 3: What the epoch guarantees -/

/-- Every protected section in which the action was registered is over. -/
def Registered.SectionsOver {Thread : Type*} (s : State Thread) (a : Registered Thread) : Prop :=
  ∀ u, a.published u = none ∨ s.sections u ≠ a.published u

/-- A drain starts an action only when the sections it was registered in are
    over: `EpochProtocol.action_starts_after_sections`. -/
def EpochSafe {Thread : Type*} (s : State Thread) : Label Thread → Prop
  | .startAction _ i =>
    match s.actions[i]? with
    | some a => a.SectionsOver s
    | none => True
  | _ => True

instance {Thread : Type*} [Fintype Thread] (s : State Thread) (a : Registered Thread) :
    Decidable (a.SectionsOver s) := inferInstanceAs (Decidable (∀ _, _ ∨ _))

instance {Thread : Type*} [Fintype Thread] (s : State Thread) (l : Label Thread) :
    Decidable (EpochSafe s l) :=
  match l with
  | .startAction _ i =>
    match h : s.actions[i]? with
    | some a => decidable_of_iff (a.SectionsOver s) (by simp [EpochSafe, h])
    | none => .isTrue (by simp [EpochSafe, h])
  | .alloc _ | .protect _ | .unprotect _ | .loadHead _ | .loadRo _ | .checkpoint _ | .step _
  | .failWrite _ => .isTrue trivial

end Tsavorite.LogProtocol
