import MiniGarnet.Tsavorite.CheckpointCalls
import MiniGarnet.Tsavorite.EpochProtocol

/-! # The phase barrier

    An attempt of an operation publishes its epoch (`protect`) and only then
    loads the system state (`sync_state`); it works under that state until
    `unprotect`.  `transition_and_wait` swaps the state first and registers a
    drain action afterwards, and returns once the action has run.  So whoever
    loaded the old state was in its section when the action was registered,
    and the action waits for it.

    The module puts the steps of one `take_checkpoint` at a time and the steps
    of any number of sessions on top of the epoch protocol.  Besides its
    attempts a thread may make every call on the epoch that the engine makes:
    the bumps of `handle_retry`, of page turns and of `wait_flushed`, the guard
    of `scan_live`, and `release_thread`.
-/

namespace Tsavorite.PhaseBarrier

open EpochProtocol (Thread)

/-! ## Section 1: Sessions and a checkpoint -/

/-- The state an attempt has loaded; `stamp` is history: the number of transitions made
    before. -/
structure Loaded where
  state : SystemState
  stamp : ℕ
  deriving DecidableEq, Repr

/-- What a thread is in the middle of. -/
inductive Task where
  /-- Between attempts. -/
  | idle
  /-- `protected`: in `protect`, and then about to load the state. -/
  | entering
  /-- `protected`: in the body. -/
  | attempt (l : Loaded)
  /-- `protected`: in `unprotect`. -/
  | leaving (l : Loaded)
  /-- `take_checkpoint` -/
  | checkpoint
  deriving DecidableEq, Repr

/-- How far `transition_and_wait` is after its compare-and-swap. -/
inductive Wait where
  /-- Not there. -/
  | off
  /-- About to call `bump_with_action`. -/
  | calling
  /-- `bump_with_action` is about to load the epoch. -/
  | registering
  /-- Registered, and `observed` is not set. -/
  | pending (a : EpochProtocol.DrainAction)
  /-- `observed` is set. -/
  | observed

structure State where
  epoch : EpochProtocol.State
  /-- The system state and the one call of `take_checkpoint`. -/
  checkpoint : CheckpointCalls.State Unit
  tasks : Thread → Task
  wait : Wait
  /-- History: the number of transitions made. -/
  transitions : ℕ

def State.init : State where
  epoch := EpochProtocol.init
  checkpoint := .init
  tasks := fun _ => .idle
  wait := .off
  transitions := 0

inductive Label where
  /-- `protected` calls `protect`. -/
  | enter (t : Thread)
  /-- `sync_state` -/
  | sync (t : Thread)
  /-- The body is done; the guard calls `unprotect`. -/
  | leave (t : Thread)
  /-- Another call on the epoch. -/
  | call (t : Thread) (c : EpochProtocol.Call)
  /-- The next step inside a call on the epoch. -/
  | step (t : Thread)
  /-- A drain starts the action of `transition_and_wait`. -/
  | observe (t : Thread)
  /-- The next step of `take_checkpoint` outside its calls on the epoch. -/
  | checkpoint (t : Thread) (m : CheckpointCalls.Move)
  deriving DecidableEq, Repr

def isIdle : EpochProtocol.Pc → Bool
  | .idle => true
  | _ => false

section Steps

variable (s : State) (t : Thread)

/-- The thread is in no call on the epoch. -/
def State.free : Bool := isIdle (s.epoch.pc t) && (s.epoch.suspended t).isEmpty

def State.become (k : Task) : State := { s with tasks := Function.update s.tasks t k }

/-- The calls on the epoch a thread makes besides those of `protected`.  The body of an
    attempt and `take_checkpoint` only bump the epoch. -/
def State.mayCall (c : EpochProtocol.Call) : Bool :=
  match s.tasks t, c with
  | .idle, _ => true
  | .attempt _, .bumpCurrentEpoch | .attempt _, .bumpWithAction => true
  | .checkpoint, .bumpCurrentEpoch =>
    match s.wait with
    | .calling => false
    | _ => true
  | .checkpoint, .bumpWithAction => true
  | _, _ => false

/-- `wait` after a call on the epoch. -/
def State.waitAfterCall (c : EpochProtocol.Call) : Wait :=
  match s.tasks t, s.wait, c with
  | .checkpoint, .calling, .bumpWithAction => .registering
  | _, w, _ => w

/-- `wait` after a step inside a call: the action is the one `bump_with_action` builds. -/
def State.waitAfterStep : Wait :=
  match s.tasks t, s.wait, s.epoch.pc t with
  | .checkpoint, .registering, .loadingPrior => .pending ⟨s.epoch.current, s.epoch.sections⟩
  | _, w, _ => w

/-- The task after a step inside a call: the store of `unprotect` is the last step of an
    attempt. -/
def State.taskAfterStep (e : EpochProtocol.State) : Task :=
  match s.tasks t with
  | .leaving l => if isIdle (e.pc t) then .idle else .leaving l
  | k => k

/-- `take_checkpoint` may take the step: it is running in `t`, or starts there. -/
def State.mayStep (m : CheckpointCalls.Move) : Bool :=
  match s.tasks t, m with
  | .idle, .call _ => true
  -- `while !observed.load(..)`
  | .checkpoint, .observed =>
    match s.wait with
    | .observed => true
    | _ => false
  | .checkpoint, _ => true
  | _, _ => false

/-- The step was the compare-and-swap of a transition, and it succeeded. -/
def swapped (m : CheckpointCalls.Move) (c : CheckpointCalls.State Unit) : Bool :=
  match m, c.calls () with
  | .cas, .waiting _ _ => true
  | _, _ => false

/-- The state after a step of `take_checkpoint`. -/
def State.afterCheckpoint (m : CheckpointCalls.Move) (c : CheckpointCalls.State Unit) : State :=
  { s with
    checkpoint := c
    tasks := Function.update s.tasks t (if c.calls () = .idle then .idle else .checkpoint)
    wait := if swapped m c then .calling else if m = .observed then .off else s.wait
    transitions := if swapped m c then s.transitions + 1 else s.transitions }

end Steps

def next (s : State) : Label → Option State
  | .enter t =>
    if s.tasks t = .idle ∧ s.free t then
      (EpochProtocol.next s.epoch (.call t (.slot .protect))).map fun e =>
        { s with epoch := e }.become t .entering
    else none
  | .sync t =>
    if s.tasks t = .entering ∧ s.free t then
      some (s.become t (.attempt ⟨s.checkpoint.word, s.transitions⟩))
    else none
  | .leave t =>
    match s.tasks t with
    | .attempt l =>
      if s.free t then
        (EpochProtocol.next s.epoch (.call t (.slot .unprotect))).map fun e =>
          { s with epoch := e }.become t (.leaving l)
      else none
    | _ => none
  | .call t c =>
    if s.mayCall t c then
      (EpochProtocol.next s.epoch (.call t c)).map fun e =>
        { s with epoch := e, wait := s.waitAfterCall t c }
    else none
  | .step t =>
    (EpochProtocol.next s.epoch (.step t)).map fun e =>
      { s with epoch := e, wait := s.waitAfterStep t }.become t (s.taskAfterStep t e)
  | .observe t =>
    match s.epoch.pc t, s.wait with
    | .running (a :: _), .pending b =>
      -- actions of one epoch are not told apart: any of them may be the one
      if a.epoch = b.epoch then
        (EpochProtocol.next s.epoch (.step t)).map fun e =>
          { s with epoch := e, wait := .observed }.become t (s.taskAfterStep t e)
      else none
    | _, _ => none
  | .checkpoint t m =>
    if s.free t ∧ s.mayStep t m then
      (CheckpointCalls.next s.checkpoint ⟨(), m⟩).map (s.afterCheckpoint t m)
    else none

/-! ## Section 2: The invariant -/

def Task.loaded : Task → Option Loaded
  | .attempt l | .leaving l => some l
  | _ => none

/-- An attempt of `t` is running under the state it has loaded. -/
def Running (s : State) (t : Thread) (l : Loaded) : Prop := (s.tasks t).loaded = some l

/-- The next state of the diagram, as the word holds it. -/
def following (st : SystemState) : SystemState :=
  match st.phase with
  | .rest => ⟨.prepare, st.version⟩
  | .prepare => ⟨.inProgress, (st.version + 1) % 2 ^ 56⟩
  | .inProgress => ⟨.waitFlush, st.version⟩
  | .waitFlush => ⟨.rest, st.version⟩

/-- Not on the way to a store to the thread's slot. -/
def keepsSection : EpochProtocol.Pc → Bool
  | .checkingCached _ | .claiming _ _ | .loadingEpoch _ _ | .publishing _ _ _ | .leaving _
  | .releasing | .clearingEpoch _ | .clearingOwner _ => false
  | _ => true

/-- In `protect`, or past it. -/
def inProtect : EpochProtocol.Pc → Bool
  | .idle | .checkingCached .protect | .claiming .protect _ | .loadingEpoch .protect _
  | .publishing .protect _ _ | .panicked => true
  | _ => false

/-- In `unprotect`, before its store. -/
def inUnprotect : EpochProtocol.Pc → Bool
  | .checkingCached .unprotect | .leaving _ => true
  | _ => false

/-- Where a thread is in its calls on the epoch: an attempt that has loaded the state is
    in the section it opened before. -/
def TaskOk (e : EpochProtocol.State) (t : Thread) : Task → Prop
  | .idle | .checkpoint => True
  | .entering => inProtect (e.pc t) = true ∧ e.suspended t = [] ∧
      (isIdle (e.pc t) = true → (e.sections t).isSome = true)
  | .attempt _ => keepsSection (e.pc t) = true ∧ (e.sections t).isSome = true
  | .leaving _ => inUnprotect (e.pc t) = true ∧ (e.sections t).isSome = true

/-- Loaded after the latest transition. -/
def Fresh (s : State) (l : Loaded) : Prop := l = ⟨s.checkpoint.word, s.transitions⟩

/-- Loaded between the latest transition and the one before. -/
def Stale (s : State) (l : Loaded) : Prop :=
  l.stamp + 1 = s.transitions ∧ s.checkpoint.word = following l.state ∧ l.state.version < 2 ^ 56

/-- The action of `transition_and_wait` waits for every attempt that loaded the old
    state. -/
def WaitOk (s : State) : Wait → Prop
  | .off | .observed => ∀ t l, Running s t l → Fresh s l
  | .calling | .registering => True
  | .pending a => EpochProtocol.Vouched s.epoch a ∧
      ∀ t l, Running s t l → l.stamp < s.transitions → a.published t = s.epoch.sections t

def isWaiting : CheckpointCalls.Pc → Bool
  | .waiting _ _ => true
  | _ => false

structure Inv (s : State) : Prop where
  epoch : EpochProtocol.Inv s.epoch
  ready : ∀ a, EpochProtocol.Ready s.epoch a → a.epoch < s.epoch.current
  checkpoint : CheckpointCalls.Inv s.checkpoint
  tasks : ∀ t, TaskOk s.epoch t (s.tasks t)
  loaded : ∀ t l, Running s t l → Fresh s l ∨ Stale s l
  wait : WaitOk s s.wait
  off : isWaiting (s.checkpoint.calls ()) = false → s.wait = .off

theorem Inv.init : Inv State.init where
  epoch := EpochProtocol.inv_init
  ready := by
    rintro a ⟨t, h | ⟨ready, h, -⟩⟩
    · cases h
    · cases h
  checkpoint := CheckpointCalls.Inv.init
  tasks := fun _ => trivial
  loaded := nofun
  wait := nofun
  off := fun _ => rfl

/-! ## Section 3: Steps of the sessions -/

variable {s s' : State} {t u : Thread} {e e' : EpochProtocol.State}

theorem become_self (s : State) (t : Thread) : s.become t (s.tasks t) = s := by
  unfold State.become
  rw [Function.update_eq_self]

@[simp] theorem become_tasks_self (s : State) (t : Thread) (k : Task) :
    (s.become t k).tasks t = k := Function.update_self _ _ _

theorem become_tasks_ne (s : State) (k : Task) (h : u ≠ t) :
    (s.become t k).tasks u = s.tasks u := Function.update_of_ne h _ _

theorem pc_of_isIdle {p : EpochProtocol.Pc} (h : isIdle p = true) : p = .idle := by
  cases p with
  | idle => rfl
  | _ => cases h

/-- Outside the calls that store to its slot a thread stays in its section. -/
theorem keepsSection_step (h : EpochProtocol.next e (.step t) = some e')
    (hk : keepsSection (e.pc t) = true) :
    keepsSection (e'.pc t) = true ∧ e'.sections = e.sections := by
  simp only [EpochProtocol.next] at h
  generalize hp : e.pc t = p at h hk
  have hgoto : ∀ {e₁ : EpochProtocol.State} {q : EpochProtocol.Pc}, some (e₁.goto t q) = some e' →
      e₁.sections = e.sections → keepsSection q = true →
      keepsSection (e'.pc t) = true ∧ e'.sections = e.sections := by
    intro e₁ q heq hsec hq
    obtain rfl := Option.some.inj heq
    rw [EpochProtocol.goto_pc]
    exact ⟨hq, hsec⟩
  cases p with
  | idle =>
    simp only [EpochProtocol.stepPc] at h
    split at h
    · cases h
    · exact hgoto h rfl rfl
  | checkingCount =>
    refine hgoto h rfl ?_
    split <;> rfl
  | pushing a =>
    simp only [EpochProtocol.stepPc] at h
    split at h
    · cases h
    · exact hgoto h rfl rfl
  | scanning j min =>
    simp only [EpochProtocol.stepPc] at h
    split at h
    · exact hgoto h rfl rfl
    · exact hgoto h rfl rfl
  | partitioning safe =>
    simp only [EpochProtocol.stepPc] at h
    split at h
    · exact hgoto h rfl rfl
    split at h
    · exact hgoto h rfl rfl
    · exact hgoto h rfl rfl
  | running ready =>
    cases ready with
    | nil => exact hgoto h rfl rfl
    | cons a ready => exact hgoto h rfl rfl
  | bumping => exact hgoto h rfl rfl
  | advancing => exact hgoto h rfl rfl
  | countingPushed => exact hgoto h rfl rfl
  | unlockingPushed => exact hgoto h rfl rfl
  | countingDrained ready => exact hgoto h rfl rfl
  | unlockingDrained ready => exact hgoto h rfl rfl
  | loadingPrior => exact hgoto h rfl rfl
  | loadingCurrent => exact hgoto h rfl rfl
  | panicked => cases h
  | _ => cases hk

/-- `protect` opens a section before it returns. -/
theorem inProtect_step (h : EpochProtocol.next e (.step t) = some e')
    (hok : TaskOk e t .entering) : TaskOk e' t .entering := by
  obtain ⟨hin, hsusp, -⟩ := hok
  simp only [EpochProtocol.next] at h
  have hgoto : ∀ {e₁ : EpochProtocol.State} {q : EpochProtocol.Pc}, some (e₁.goto t q) = some e' →
      e₁.suspended = e.suspended → inProtect q = true →
      (isIdle q = true → (e₁.sections t).isSome = true) → TaskOk e' t .entering := by
    intro e₁ q heq hs hq hsec
    obtain rfl := Option.some.inj heq
    refine ⟨by rwa [EpochProtocol.goto_pc], hs ▸ hsusp, ?_⟩
    rw [EpochProtocol.goto_pc]
    exact hsec
  generalize hp : e.pc t = p at h hin
  cases p with
  | idle =>
    simp only [EpochProtocol.stepPc, hsusp] at h
    cases h
  | checkingCached c =>
    cases c with
    | protect =>
      simp only [EpochProtocol.stepPc] at h
      split at h
      · exact hgoto h rfl rfl (by simp [isIdle])
      · exact hgoto h rfl rfl (by simp [isIdle])
    | refresh => cases hin
    | unprotect => cases hin
  | claiming c i =>
    cases c with
    | protect =>
      simp only [EpochProtocol.stepPc] at h
      split at h
      · exact hgoto h rfl rfl (by simp [isIdle])
      split at h
      · exact hgoto h rfl rfl (by simp [isIdle])
      · exact hgoto h rfl rfl (by simp [isIdle])
    | refresh => cases hin
    | unprotect => cases hin
  | loadingEpoch c idx =>
    cases c with
    | protect => exact hgoto h rfl rfl (by simp [isIdle])
    | refresh => cases hin
    | unprotect => cases hin
  | publishing c idx ep =>
    cases c with
    | protect =>
      refine hgoto h rfl rfl ?_
      intro _
      show (Function.update e.sections t (some e.clock) t).isSome = true
      rw [Function.update_self]
      rfl
    | refresh => cases hin
    | unprotect => cases hin
  | panicked => cases h
  | _ => cases hin

/-- `unprotect` finds the slot, and its store is its last step. -/
theorem inUnprotect_step (inv : EpochProtocol.Inv e) (h : EpochProtocol.next e (.step t) = some e')
    (hin : inUnprotect (e.pc t) = true) (hsec : (e.sections t).isSome = true) :
    isIdle (e'.pc t) = true ∨ inUnprotect (e'.pc t) = true ∧ isIdle (e'.pc t) = false ∧
      e'.sections t = e.sections t := by
  simp only [EpochProtocol.next] at h
  generalize hp : e.pc t = p at h hin
  cases p with
  | checkingCached c =>
    cases c with
    | unprotect =>
      simp only [EpochProtocol.stepPc] at h
      split at h
      · obtain rfl := Option.some.inj h
        right
        show inUnprotect ((e.goto t _).pc t) = true ∧ isIdle ((e.goto t _).pc t) = false ∧ _
        rw [EpochProtocol.goto_pc]
        exact ⟨rfl, rfl, rfl⟩
      · rename_i hnone
        rw [inv.section_none hnone] at hsec
        cases hsec
    | refresh => cases hin
    | protect => cases hin
  | leaving idx =>
    obtain rfl := Option.some.inj h
    left
    rw [EpochProtocol.goto_pc]
    rfl
  | _ => cases hin

/-- The task of the thread that moves in a call on the epoch. -/
theorem Inv.taskAfterStep (inv : Inv s) (h : EpochProtocol.next s.epoch (.step t) = some e) :
    TaskOk e t (s.taskAfterStep t e) ∧
      ∀ l, (s.taskAfterStep t e).loaded = some l →
        Running s t l ∧ e.sections t = s.epoch.sections t := by
  have hok := inv.tasks t
  unfold State.taskAfterStep Running
  cases hk : s.tasks t with
  | idle => exact ⟨trivial, nofun⟩
  | checkpoint => exact ⟨trivial, nofun⟩
  | entering =>
    rw [hk] at hok
    exact ⟨inProtect_step h hok, nofun⟩
  | attempt l =>
    rw [hk] at hok
    obtain ⟨hkeeps, hsec⟩ := keepsSection_step h hok.1
    exact ⟨⟨hkeeps, by rw [hsec]; exact hok.2⟩, fun _ hl => ⟨hl, by rw [hsec]⟩⟩
  | leaving l =>
    rw [hk] at hok
    rcases inUnprotect_step inv.epoch h hok.1 hok.2 with hidle | ⟨hin, hidle, hsec⟩
    · simp only [hidle, if_true]
      exact ⟨trivial, nofun⟩
    · simp only [hidle, Bool.false_eq_true, if_false]
      exact ⟨⟨hin, by rw [hsec]; exact hok.2⟩, fun _ hl => ⟨hl, hsec⟩⟩

theorem TaskOk.congr {k : Task} (h : TaskOk e t k) (hpc : e'.pc t = e.pc t)
    (hsec : e'.sections t = e.sections t) (hsusp : e'.suspended t = e.suspended t) :
    TaskOk e' t k := by
  cases k with
  | idle | checkpoint => trivial
  | entering | attempt | leaving =>
    simp only [TaskOk, hpc, hsec, hsusp] at h ⊢
    exact h

/-- The state after a thread has moved in a call on the epoch. -/
def moved (s : State) (t : Thread) (e : EpochProtocol.State) (k : Task) (w : Wait) : State :=
  { s with epoch := e, wait := w }.become t k

/-- What is left to show after a step on the epoch: about the thread that moved, and about
    the wait. -/
theorem Inv.moved {l : EpochProtocol.Label} {k : Task} {w : Wait} (inv : Inv s)
    (h : EpochProtocol.next s.epoch l = some e) (htask : TaskOk e l.thread k)
    (hloaded : ∀ x, k.loaded = some x → Running s l.thread x)
    (hwait : WaitOk (moved s l.thread e k w) w) (hoff : s.wait = .off → w = .off) :
    Inv (moved s l.thread e k w) := by
  have hadv := EpochProtocol.advances_step h
  have hself : (PhaseBarrier.moved s l.thread e k w).tasks l.thread = k := become_tasks_self _ _ _
  have hother : ∀ u, u ≠ l.thread → (PhaseBarrier.moved s l.thread e k w).tasks u = s.tasks u :=
    fun u hu => become_tasks_ne _ _ hu
  refine ⟨inv.epoch.step h, EpochProtocol.ready_lt_step inv.epoch h inv.ready, inv.checkpoint, ?_,
    ?_, hwait, fun hw => hoff (inv.off hw)⟩
  · intro u
    by_cases hu : u = l.thread
    · rw [hu, hself]
      exact htask
    · rw [hother u hu]
      exact (inv.tasks u).congr (hadv.pc_other u hu) (hadv.sections_other u hu)
        (hadv.suspended_other u hu)
  · intro u x hx
    by_cases hu : u = l.thread
    · rw [Running, hu, hself] at hx
      exact inv.loaded l.thread x (hloaded x hx)
    · rw [Running, hother u hu] at hx
      exact inv.loaded u x hx

/-- Nobody starts to run by a step on the epoch. -/
theorem running_of_moved {k : Task} {w : Wait} {x : Loaded}
    (hloaded : ∀ x, k.loaded = some x → Running s t x ∧ e.sections t = s.epoch.sections t)
    (hother : ∀ u, u ≠ t → e.sections u = s.epoch.sections u)
    (hx : Running (moved s t e k w) u x) : Running s u x ∧ e.sections u = s.epoch.sections u := by
  by_cases hu : u = t
  · subst hu
    rw [Running, moved, become_tasks_self] at hx
    exact hloaded x hx
  · rw [Running, moved, become_tasks_ne _ _ hu] at hx
    exact ⟨hx, hother u hu⟩

/-- A wait that goes on. -/
theorem WaitOk.moved {l : EpochProtocol.Label} {k : Task} (inv : Inv s)
    (h : EpochProtocol.next s.epoch l = some e)
    (hloaded : ∀ x, k.loaded = some x →
      Running s l.thread x ∧ e.sections l.thread = s.epoch.sections l.thread) :
    WaitOk (moved s l.thread e k s.wait) s.wait := by
  have hadv := EpochProtocol.advances_step h
  have hok := inv.wait
  cases hw : s.wait with
  | calling | registering => trivial
  | off | observed =>
    rw [hw] at hok
    intro u x hx
    exact hok u x (running_of_moved hloaded hadv.sections_other hx).1
  | pending a =>
    rw [hw] at hok
    refine ⟨hok.1.step inv.epoch h, ?_⟩
    intro u x hx hlt
    obtain ⟨hrun, hsec⟩ := running_of_moved hloaded hadv.sections_other hx
    exact (hok.2 u x hrun hlt).trans hsec.symm

/-- A step on the epoch while the wait goes on. -/
theorem Inv.moved_same {l : EpochProtocol.Label} {k : Task} (inv : Inv s)
    (h : EpochProtocol.next s.epoch l = some e) (htask : TaskOk e l.thread k)
    (hloaded : ∀ x, k.loaded = some x →
      Running s l.thread x ∧ e.sections l.thread = s.epoch.sections l.thread) :
    Inv (PhaseBarrier.moved s l.thread e k s.wait) :=
  inv.moved h htask (fun x hx => (hloaded x hx).1) (WaitOk.moved inv h hloaded) id

theorem next_call {c : EpochProtocol.Call} (h : EpochProtocol.next e (.call t c) = some e') :
    e' = e.goto t (EpochProtocol.firstPc c) := by
  simp only [EpochProtocol.next] at h
  split at h
  · exact (Option.some.inj h).symm
  · cases h

theorem Inv.enter (inv : Inv s) (h : next s (.enter t) = some s') : Inv s' := by
  simp only [next] at h
  split at h
  · rename_i hguard
    obtain ⟨e, he, rfl⟩ := Option.map_eq_some_iff.mp h
    have hsusp : s.epoch.suspended t = [] := by
      have := hguard.2
      simp only [State.free, Bool.and_eq_true, List.isEmpty_iff] at this
      exact this.2
    have heq := next_call he
    refine inv.moved_same he ?_ nofun
    show TaskOk e t .entering
    rw [heq]
    refine ⟨?_, hsusp, ?_⟩
    · rw [EpochProtocol.goto_pc]
      rfl
    · rw [EpochProtocol.goto_pc]
      nofun
  · cases h

theorem Inv.leave (inv : Inv s) (h : next s (.leave t) = some s') : Inv s' := by
  simp only [next] at h
  split at h
  · rename_i l hk
    split at h
    · obtain ⟨e, he, rfl⟩ := Option.map_eq_some_iff.mp h
      have heq := next_call he
      have hok := inv.tasks t
      rw [hk] at hok
      refine inv.moved_same he ?_ ?_
      · show TaskOk e t (.leaving l)
        rw [heq]
        refine ⟨?_, hok.2⟩
        rw [EpochProtocol.goto_pc]
        rfl
      · intro x hx
        refine ⟨?_, by rw [heq]; rfl⟩
        show (s.tasks t).loaded = some x
        rw [hk]
        exact hx
    · cases h
  · cases h

theorem Inv.call {c : EpochProtocol.Call} (inv : Inv s) (h : next s (.call t c) = some s') :
    Inv s' := by
  simp only [next] at h
  split at h
  · rename_i hmay
    obtain ⟨e, he, rfl⟩ := Option.map_eq_some_iff.mp h
    have heq := next_call he
    have hsec : e.sections = s.epoch.sections := by rw [heq]; rfl
    have htask : TaskOk e t (s.tasks t) := by
      have hok := inv.tasks t
      unfold State.mayCall at hmay
      split at hmay
      · rename_i hk
        rw [hk]
        trivial
      · rename_i hk
        rw [hk] at hok ⊢
        rw [heq]
        exact ⟨by rw [EpochProtocol.goto_pc]; rfl, hok.2⟩
      · rename_i hk
        rw [hk] at hok ⊢
        rw [heq]
        exact ⟨by rw [EpochProtocol.goto_pc]; rfl, hok.2⟩
      · rename_i hk
        rw [hk]
        trivial
      · rename_i hk
        rw [hk]
        trivial
      · cases hmay
    have hloaded : ∀ x, (s.tasks t).loaded = some x →
        Running s t x ∧ e.sections t = s.epoch.sections t := fun x hx => ⟨hx, by rw [hsec]⟩
    have hsame : ∀ w, ({ s with epoch := e, wait := w } : State) =
        PhaseBarrier.moved s t e (s.tasks t) w := fun w => (become_self _ t).symm
    rw [hsame]
    unfold State.waitAfterCall
    split
    · rename_i hcalling
      exact inv.moved he htask (fun x hx => hx) trivial (by rw [hcalling]; nofun)
    · exact inv.moved_same he htask hloaded
  · cases h

theorem Inv.step_epoch (inv : Inv s) (h : next s (.step t) = some s') : Inv s' := by
  simp only [next] at h
  obtain ⟨e, he, rfl⟩ := Option.map_eq_some_iff.mp h
  obtain ⟨htask, hloaded⟩ := inv.taskAfterStep he
  show Inv (PhaseBarrier.moved s t e (s.taskAfterStep t e) (s.waitAfterStep t))
  unfold State.waitAfterStep
  split
  · -- `bump_with_action` loads the epoch and builds the action
    rename_i _ hw hpc
    refine inv.moved he htask (fun x hx => (hloaded x hx).1) ⟨?_, ?_⟩ (by rw [hw]; nofun)
    · exact EpochProtocol.Vouched.register inv.epoch inv.ready hpc he
    · intro u x hx _
      have hadv := EpochProtocol.advances_step he
      exact (running_of_moved hloaded hadv.sections_other hx).2.symm
  · exact inv.moved_same he htask hloaded

/-- When the action starts, everybody who loaded the old state has left. -/
theorem Inv.observe (inv : Inv s) (h : next s (.observe t) = some s') : Inv s' := by
  simp only [next] at h
  split at h
  · rename_i a ready b hpc hw
    split at h
    · rename_i hepoch
      obtain ⟨e, he, rfl⟩ := Option.map_eq_some_iff.mp h
      obtain ⟨htask, hloaded⟩ := inv.taskAfterStep he
      have hok := inv.wait
      rw [hw] at hok
      obtain ⟨hvouched, hpublished⟩ := hok
      have hready : EpochProtocol.Ready s.epoch a :=
        ⟨t, .inl (by rw [hpc]; exact List.mem_cons_self)⟩
      have hclear := hvouched.ready a hready (Nat.le_of_eq hepoch.symm)
      refine inv.moved he htask (fun x hx => (hloaded x hx).1) ?_ (by rw [hw]; nofun)
      intro u x hx
      have hadv := EpochProtocol.advances_step he
      obtain ⟨hrun, -⟩ := running_of_moved hloaded hadv.sections_other hx
      rcases inv.loaded u x hrun with hfresh | hstale
      · exact hfresh
      · exfalso
        have hlt : x.stamp < s.transitions := by
          have := hstale.1
          omega
        have hsec : (s.epoch.sections u).isSome = true := by
          have hok := inv.tasks u
          unfold Running at hrun
          cases hk : s.tasks u with
          | idle | entering | checkpoint => simp [hk, Task.loaded] at hrun
          | attempt l | leaving l =>
            rw [hk] at hok
            exact hok.2
        obtain ⟨n, hn⟩ := Option.isSome_iff_exists.mp hsec
        exact hclear u ⟨n, (hpublished u x hrun hlt).trans hn, hn⟩
    · cases h
  · cases h

/-- The state is loaded inside the section. -/
theorem Inv.sync (inv : Inv s) (h : next s (.sync t) = some s') : Inv s' := by
  simp only [next] at h
  split at h
  · rename_i hguard
    obtain rfl := Option.some.inj h
    obtain ⟨hk, hfree⟩ := hguard
    simp only [State.free, Bool.and_eq_true] at hfree
    have hok := inv.tasks t
    rw [hk] at hok
    have hrunning : ∀ u x, Running (s.become t (.attempt ⟨s.checkpoint.word, s.transitions⟩)) u x →
        Running s u x ∨ Fresh s x := by
      intro u x hx
      by_cases hu : u = t
      · subst hu
        rw [Running, become_tasks_self] at hx
        exact .inr (Option.some.inj hx).symm
      · rw [Running, become_tasks_ne _ _ hu] at hx
        exact .inl hx
    refine ⟨inv.epoch, inv.ready, inv.checkpoint, ?_, ?_, ?_, inv.off⟩
    · intro u
      by_cases hu : u = t
      · subst hu
        rw [become_tasks_self]
        refine ⟨?_, hok.2.2 hfree.1⟩
        show keepsSection (s.epoch.pc u) = true
        rw [pc_of_isIdle hfree.1]
        rfl
      · rw [become_tasks_ne _ _ hu]
        exact inv.tasks u
    · intro u x hx
      rcases hrunning u x hx with hx | hx
      · exact inv.loaded u x hx
      · exact .inl hx
    · have hwait := inv.wait
      show WaitOk _ s.wait
      cases hw : s.wait with
      | calling | registering => trivial
      | off | observed =>
        rw [hw] at hwait
        intro u x hx
        rcases hrunning u x hx with hx | hx
        · exact hwait u x hx
        · exact hx
      | pending a =>
        rw [hw] at hwait
        refine ⟨hwait.1, ?_⟩
        intro u x hx hlt
        rcases hrunning u x hx with hx | hx
        · exact hwait.2 u x hx hlt
        · rw [hx] at hlt
          exact absurd hlt (Nat.lt_irrefl _)
  · cases h

/-! ## Section 4: Steps of the checkpoint -/

variable {c c' : CheckpointCalls.State Unit} {m : CheckpointCalls.Move}

/-- A transition moves the word to the next state of the diagram, and only a transition
    moves it. -/
theorem word_step (hinv : CheckpointCalls.Inv c) (h : CheckpointCalls.next c ⟨(), m⟩ = some c') :
    c'.word = if swapped m c' then following c.word else c.word := by
  simp only [CheckpointCalls.next] at h
  generalize hpc : c.calls () = pc at h
  unfold CheckpointCalls.stepPc at h
  split at h
  case h_1 => split at h <;> obtain rfl := Option.some.inj h <;> rfl
  case h_5 =>
    rename_i t i cur
    have hexp := hinv.loaded () t i cur hpc
    have hcur := hinv.expected () cur hexp
    rw [if_pos hcur] at h
    obtain rfl := Option.some.inj h
    show t.state i.version = following c.word
    rw [hpc] at hexp
    have hversion := hinv.version
    rw [hcur] at hversion ⊢
    cases t with
    | prepare =>
      obtain rfl : (⟨.rest, i.version⟩ : SystemState) = cur := Option.some.inj hexp
      show (⟨.prepare, i.version % 2 ^ 56⟩ : SystemState) = ⟨.prepare, i.version⟩
      rw [Nat.mod_eq_of_lt hversion]
    | inProgress =>
      obtain rfl : CheckpointCalls.Target.prepare.state i.version = cur := Option.some.inj hexp
      show (⟨.inProgress, (i.version + 1) % 2 ^ 56⟩ : SystemState) =
        ⟨.inProgress, (i.version % 2 ^ 56 + 1) % 2 ^ 56⟩
      rw [Nat.mod_add_mod]
    | waitFlush =>
      obtain rfl : CheckpointCalls.Target.inProgress.state i.version = cur := Option.some.inj hexp
      rfl
    | rest =>
      obtain rfl : CheckpointCalls.Target.waitFlush.state i.version = cur := Option.some.inj hexp
      rfl
  case h_6 =>
    rename_i t i
    obtain rfl := Option.some.inj h
    cases t <;> rfl
  case h_12 => cases h
  all_goals
    obtain rfl := Option.some.inj h
    rfl

/-- A call that waits takes no step but the return of `transition_and_wait`. -/
theorem isWaiting_step (h : CheckpointCalls.next c ⟨(), m⟩ = some c') (hm : m ≠ .observed) :
    isWaiting (c.calls ()) = false := by
  simp only [CheckpointCalls.next] at h
  cases hpc : c.calls () with
  | waiting t i =>
    rw [hpc] at h
    cases m with
    | observed => exact absurd rfl hm
    | _ => cases h
  | _ => rfl

theorem isWaiting_swapped (h : swapped m c' = true) : isWaiting (c'.calls ()) = true := by
  unfold swapped at h
  split at h
  · rename_i hpc
    rw [hpc]
    rfl
  · cases h

/-- Whenever `take_checkpoint` takes a step, every attempt works under the present state:
    the barrier of the latest transition is behind it. -/
theorem Inv.fresh (inv : Inv s) (hmay : s.mayStep t m = true)
    (h : CheckpointCalls.next s.checkpoint ⟨(), m⟩ = some c') (u : Thread) (l : Loaded)
    (hrun : Running s u l) : Fresh s l := by
  have hwait := inv.wait
  by_cases hm : m = .observed
  · subst hm
    have hw : s.wait = .observed := by
      unfold State.mayStep at hmay
      cases hk : s.tasks t with
      | checkpoint =>
        rw [hk] at hmay
        cases hw : s.wait with
        | observed => rfl
        | _ =>
          rw [hw] at hmay
          cases hmay
      | _ =>
        rw [hk] at hmay
        cases hmay
    rw [hw] at hwait
    exact hwait u l hrun
  · rw [inv.off (isWaiting_step h hm)] at hwait
    exact hwait u l hrun

/-- No transition is waited for after a step that made none. -/
theorem Inv.wait_afterCheckpoint (inv : Inv s)
    (h : CheckpointCalls.next s.checkpoint ⟨(), m⟩ = some c) (hs : swapped m c = false) :
    (s.afterCheckpoint t m c).wait = .off := by
  unfold State.afterCheckpoint
  rw [hs]
  by_cases hm : m = .observed
  · simp [hm]
  · simp [hm, inv.off (isWaiting_step h hm)]

theorem fresh_afterCheckpoint {l : Loaded}
    (hword : c.word = if swapped m c then following s.checkpoint.word else s.checkpoint.word)
    (hs : swapped m c = false) (h : Fresh s l) : Fresh (s.afterCheckpoint t m c) l := by
  rw [hs] at hword
  have hword : c.word = s.checkpoint.word := hword
  unfold Fresh State.afterCheckpoint
  rw [hs, hword]
  exact h

theorem Inv.step_checkpoint (inv : Inv s) (h : next s (.checkpoint t m) = some s') : Inv s' := by
  simp only [next] at h
  split at h
  · rename_i hguard
    obtain ⟨c, hc, rfl⟩ := Option.map_eq_some_iff.mp h
    have hmay := hguard.2
    have hfresh := fun u l hrun => inv.fresh hmay hc u l hrun
    have hrunning : ∀ u l, Running (s.afterCheckpoint t m c) u l → Running s u l := by
      intro u l hl
      unfold Running State.afterCheckpoint at hl
      by_cases hu : u = t
      · subst hu
        simp only [Function.update_self] at hl
        split at hl <;> cases hl
      · simp only [Function.update_of_ne hu] at hl
        exact hl
    have hapart : CheckpointCalls.Apart s.checkpoint ⟨(), m⟩ := by
      unfold CheckpointCalls.Apart
      split
      · rename_i d hm
        subst hm
        rintro ⟨⟩
        have hnone := hc
        simp only [CheckpointCalls.next] at hnone
        cases hpc : s.checkpoint.calls () with
        | idle =>
          intro hwaits
          cases hwaits
        | _ =>
          rw [hpc] at hnone
          cases hnone
      · trivial
    have hword := word_step inv.checkpoint hc
    refine ⟨inv.epoch, inv.ready, inv.checkpoint.step hapart hc, ?_, ?_, ?_, ?_⟩
    · intro u
      by_cases hu : u = t
      · subst hu
        unfold State.afterCheckpoint
        simp only [Function.update_self]
        split <;> trivial
      · unfold State.afterCheckpoint
        simp only [Function.update_of_ne hu]
        exact inv.tasks u
    · intro u l hl
      have hl' := hfresh u l (hrunning u l hl)
      cases hs : swapped m c with
      | true =>
        rw [hs] at hword
        rw [hl']
        exact .inr ⟨by simp [State.afterCheckpoint, hs], hword, inv.checkpoint.version⟩
      | false => exact .inl (fresh_afterCheckpoint hword hs hl')
    · cases hs : swapped m c with
      | true => simp [State.afterCheckpoint, hs, WaitOk]
      | false =>
        rw [inv.wait_afterCheckpoint hc hs]
        intro u l hl
        exact fresh_afterCheckpoint hword hs (hfresh u l (hrunning u l hl))
    · intro hnot
      cases hs : swapped m c with
      | false => exact inv.wait_afterCheckpoint hc hs
      | true =>
        have hwaits : isWaiting (c.calls ()) = true := isWaiting_swapped hs
        cases hnot.symm.trans hwaits
  · cases h

theorem Inv.step {l : Label} (inv : Inv s) (h : next s l = some s') : Inv s' := by
  cases l with
  | enter t => exact inv.enter h
  | sync t => exact inv.sync h
  | leave t => exact inv.leave h
  | call t c => exact inv.call h
  | step t => exact inv.step_epoch h
  | observe t => exact inv.observe h
  | checkpoint t m => exact inv.step_checkpoint h

theorem inv_run {ls : List Label} (h : Lts.Runs next State.init ls s) : Inv s :=
  h.invariant (fun inv _ hnext => inv.step hnext) .init

/-! ## Section 5: The barrier -/

theorem following_inj {a b : SystemState} (ha : a.version < 2 ^ 56) (hb : b.version < 2 ^ 56)
    (h : following a = following b) : a = b := by
  obtain ⟨p, v⟩ := a
  obtain ⟨q, w⟩ := b
  change v < 2 ^ 56 at ha
  change w < 2 ^ 56 at hb
  cases p <;> cases q <;> simp only [following, SystemState.mk.injEq, reduceCtorEq, false_and,
    true_and] at h ⊢
  all_goals omega

/-- When the final address is read, the word and every attempt are at the new version. -/
theorem Inv.finalising (inv : Inv s) {i : CheckpointInfo}
    (hpc : s.checkpoint.calls () = .finalising i) {l : Loaded} (h : Running s t l) :
    l.state = CheckpointCalls.packed ⟨.inProgress, i.version + 1⟩ := by
  have hwait := inv.wait
  rw [inv.off (by rw [hpc]; rfl)] at hwait
  have hfresh := hwait t l h
  rw [hfresh]
  exact inv.checkpoint.expected () _ (by rw [hpc]; rfl)

/-- **The phase barrier.**  In every run of any number of sessions and one checkpoint at a
    time: when `transition_and_wait` returns, every attempt that is running has loaded the
    state after the transition; the states of two attempts that run at the same time are
    equal or one transition apart, so that no attempt under REST of `v` runs beside one
    under IN_PROGRESS of `v + 1`; and when the final address is read, no attempt of the
    old version runs. -/
theorem phase_barrier {ls : List Label} (h : Lts.Runs next State.init ls s) :
    (∀ t s', next s (.checkpoint t .observed) = some s' →
      ∀ u l, Running s u l → l.stamp = s.transitions) ∧
    (∀ t u k l, Running s t k → Running s u l →
      k.state = l.state ∨ l.state = following k.state ∨ k.state = following l.state) ∧
    (∀ t u k l v, Running s t k → Running s u l →
      k.state = ⟨.rest, v⟩ → l.state ≠ CheckpointCalls.packed ⟨.inProgress, v + 1⟩) ∧
    (∀ i, s.checkpoint.calls () = .finalising i →
      ∀ t l, Running s t l → l.state.version ≠ i.version) := by
  have inv := inv_run h
  have hnear : ∀ t u k l, Running s t k → Running s u l →
      k.state = l.state ∨ l.state = following k.state ∨ k.state = following l.state := by
    intro t u k l hk hl
    rcases inv.loaded t k hk with hk | hk <;> rcases inv.loaded u l hl with hl | hl
    · rw [hk, hl]
      exact .inl rfl
    · rw [hk]
      exact .inr (.inr hl.2.1)
    · rw [hl]
      exact .inr (.inl hk.2.1)
    · left
      exact following_inj hk.2.2 hl.2.2 (hk.2.1.symm.trans hl.2.1)
  refine ⟨?_, hnear, ?_, ?_⟩
  · intro t s' hstep u l hl
    simp only [next] at hstep
    split at hstep
    · rename_i hguard
      obtain ⟨c, hc, -⟩ := Option.map_eq_some_iff.mp hstep
      rw [inv.fresh hguard.2 hc u l hl]
    · cases hstep
  · intro t u k l v hk hl hrest hprogress
    rcases hnear t u k l hk hl with heq | heq | heq
    · rw [hrest, hprogress] at heq
      cases heq
    · rw [hrest, hprogress] at heq
      cases heq
    · rw [hrest, hprogress] at heq
      cases heq
  · intro i hpc t l hl hversion
    have hstate := inv.finalising hpc hl
    rw [hstate] at hversion
    have hmod : (i.version + 1) % 2 ^ 56 = i.version := hversion
    omega

/-- Thread 0 attempts under REST and leaves while the drain of the first transition scans;
    thread 2 attempts after the transition. -/
def attemptsAcrossPrepare : List Label :=
  List.flatten [
    [.enter 0], List.replicate 4 (.step 0), [.sync 0],
    [.checkpoint 1 (.call 0), .checkpoint 1 (.readTail 64), .checkpoint 1 .setStart,
      .checkpoint 1 .load, .checkpoint 1 .cas, .call 1 .bumpWithAction],
    List.replicate 6 (.step 1),
    [.leave 0], List.replicate 2 (.step 0),
    [.enter 2], List.replicate 4 (.step 2), [.sync 2],
    List.replicate (EpochProtocol.MAX_THREADS + 4) (.step 1), [.observe 1],
    List.replicate 2 (.step 1)]

theorem phase_barrier_prepare :
    ∃ s s', Lts.Runs next State.init attemptsAcrossPrepare s ∧
      next s (.checkpoint 1 .observed) = some s' ∧ Running s 2 ⟨⟨.prepare, 1⟩, 1⟩ ∧
      ∀ u l, Running s u l → l.stamp = s.transitions := by
  have hend : (Lts.run next State.init attemptsAcrossPrepare).map (fun s =>
      (next s (.checkpoint 1 .observed)).isSome &&
        decide ((s.tasks 2).loaded = some ⟨⟨.prepare, 1⟩, 1⟩)) = some true := by
    decide +kernel
  obtain ⟨s, hrun, hs⟩ := Lts.exists_runs _ _ _ _ hend
  simp only [Bool.and_eq_true, decide_eq_true_eq, Option.isSome_iff_exists] at hs
  obtain ⟨⟨s', hnext⟩, htask⟩ := hs
  exact ⟨s, s', hrun, hnext, htask, (phase_barrier hrun).1 1 s' hnext⟩

end Tsavorite.PhaseBarrier
