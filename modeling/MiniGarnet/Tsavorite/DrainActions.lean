import MiniGarnet.Tsavorite.EpochProtocol

/-! # Actions and the blocking drain

    `drain_all_blocking` on top of the epoch protocol, with a name for every
    registered action.  The names are history: they follow the actions
    through the drain list, the batch a drain has taken off it, the run of
    the action and its end.  Actions are taken to return.

    No action is lost or started twice, and outside its critical section the
    counter is the length of the list.  The counter says nothing about the
    actions that a drain has taken off the list and not yet run, so a
    blocking drain of another thread can return before these are done.
-/

namespace Tsavorite.DrainActions

open EpochProtocol (Thread DrainAction Pc)

/-! ## Section 1: Model -/

/-- An action under its name. -/
abbrev Named : Type := ℕ × DrainAction

/-- A drain inside an action: the action and the rest of the batch. -/
structure Frame where
  action : Named
  ready : List Named

/-- A call of `drain_all_blocking`: how many actions the thread is inside of, and (history) how
    many actions had been registered before the call. -/
structure Loop where
  depth : ℕ
  registered : ℕ
  deriving DecidableEq, Repr

/-- A call of `drain_all_blocking` that has returned, with the actions that had finished then. -/
structure Return where
  registered : ℕ
  finished : List ℕ
  deriving DecidableEq, Repr

/-- The epoch and the calls of `drain_all_blocking`; the other fields are history. -/
structure State where
  epoch : EpochProtocol.State
  loops : Thread → List Loop
  /-- The drain list. -/
  queue : List Named
  /-- The batch a thread has taken off the list. -/
  ready : Thread → List Named
  /-- The actions a thread is inside of. -/
  frames : Thread → List Frame
  /-- How many actions have been registered; the next name. -/
  registered : ℕ
  /-- How often an action has been started. -/
  starts : ℕ → ℕ
  finished : List ℕ
  returns : List Return

def State.init : State where
  epoch := EpochProtocol.init
  loops := fun _ => []
  queue := []
  ready := fun _ => []
  frames := fun _ => []
  registered := 0
  starts := fun _ => 0
  finished := []
  returns := []

inductive Label where
  /-- A call on the epoch other than `drain_all_blocking`. -/
  | call (t : Thread) (c : EpochProtocol.Call)
  /-- The next step inside a call on the epoch, or the return from an action. -/
  | step (t : Thread)
  /-- A thread calls `drain_all_blocking`. -/
  | drainAll (t : Thread)
  /-- `drain_all_blocking`: load `drain_count`, and bump the epoch or return. -/
  | check (t : Thread)
  deriving DecidableEq, Repr

section Steps

variable (s : State) (t : Thread)

def isIdle : Pc → Bool
  | .idle => true
  | _ => false

/-- The call of `drain_all_blocking` that is about to load `drain_count`. -/
def State.loop : Option Loop :=
  match s.loops t with
  | l :: _ => if isIdle (s.epoch.pc t) ∧ l.depth = (s.epoch.suspended t).length then some l else none
  | [] => none

/-- The names after a step of `t` inside a call on the epoch. -/
def State.track : State :=
  match s.epoch.pc t with
  | .pushing a => { s with queue := s.queue ++ [(s.registered, a)] }
  | .countingPushed => { s with registered := s.registered + 1 }
  | .partitioning safe =>
    if s.epoch.locked then s
    else
      { s with
        queue := s.queue.filter fun x => ¬ x.2.epoch ≤ safe
        ready := Function.update s.ready t (s.queue.filter fun x => x.2.epoch ≤ safe) }
  | .running _ =>
    match s.ready t with
    | x :: rest =>
      { s with
        ready := Function.update s.ready t []
        frames := Function.update s.frames t (⟨x, rest⟩ :: s.frames t)
        starts := Function.update s.starts x.1 (s.starts x.1 + 1) }
    | [] => s
  | .idle =>
    match s.frames t with
    | f :: rest =>
      { s with
        ready := Function.update s.ready t f.ready
        frames := Function.update s.frames t rest
        finished := f.action.1 :: s.finished }
    | [] => s
  | _ => s

end Steps

def next (s : State) : Label → Option State
  | .call t c =>
    if (s.loop t).isSome then none
    else (EpochProtocol.next s.epoch (.call t c)).map fun e => { s with epoch := e }
  | .step t =>
    if (s.loop t).isSome then none
    else (EpochProtocol.next s.epoch (.step t)).map fun e => { s.track t with epoch := e }
  | .drainAll t =>
    if isIdle (s.epoch.pc t) ∧ s.loop t = none then
      let l : Loop := ⟨(s.epoch.suspended t).length, s.registered⟩
      some { s with loops := Function.update s.loops t (l :: s.loops t) }
    else none
  | .check t =>
    match s.loop t with
    | none => none
    | some l =>
      if 0 < s.epoch.drainCount then
        (EpochProtocol.next s.epoch (.call t .bumpCurrentEpoch)).map fun e => { s with epoch := e }
      else
        some { s with
          loops := Function.update s.loops t (s.loops t).tail
          returns := ⟨l.registered, s.finished⟩ :: s.returns }

/-- A thread has taken the action off the list and not finished it. -/
def State.Holds (s : State) (u : Thread) (i : ℕ) : Prop :=
  (∃ x ∈ s.ready u, x.1 = i) ∨ ∃ f ∈ s.frames u, f.action.1 = i ∨ ∃ x ∈ f.ready, x.1 = i

/-- What is asked of a state. -/
structure Property (s : State) : Prop where
  /-- No action is started twice. -/
  once : ∀ i, s.starts i ≤ 1
  /-- A registered action is in the list, with a thread that runs its batch, or has run. -/
  kept : ∀ i < s.registered, (∃ x ∈ s.queue, x.1 = i) ∨ (∃ u, s.Holds u i) ∨ i ∈ s.finished
  /-- The counter is zero only when the list is empty, except between the push of
      `bump_with_action` and its store to the counter, both under the lock. -/
  counted : (∀ t, s.epoch.pc t ≠ .countingPushed) → s.epoch.drainCount = 0 → s.epoch.drain = []
  /-- Every action registered before a call of `drain_all_blocking` had finished when it
      returned. -/
  waited : ∀ r ∈ s.returns, ∀ i < r.registered, i ∈ r.finished

/-- When the load of `drain_count` ends a blocking drain, no thread is still at an action that it
    took off the list and that was registered before the call. -/
def NoneTaken (s : State) (l : Label) : Prop :=
  ∀ t loop, l = .check t → s.loop t = some loop → s.epoch.drainCount = 0 →
    ∀ i < loop.registered, ∀ u, ¬ s.Holds u i

/-- Thread 1 registers an action, takes it off the list and stores the count; before it runs the
    action, thread 2 goes through `drain_all_blocking`. -/
def returnsDuringDrain : List Label :=
  [.call 1 .bumpWithAction] ++ List.replicate (EpochProtocol.MAX_THREADS + 9) (.step 1) ++
    [.drainAll 2, .check 2]

example : (Lts.run next State.init returnsDuringDrain).map (fun s => (s.returns, s.starts 0)) =
    some ([⟨1, []⟩], 0) := by decide +kernel

/-! ## Section 2: What a step does to the drain list -/

/-- Between taking the lock of the drain list and giving it back. -/
def Critical : Pc → Prop
  | .countingPushed | .unlockingPushed | .countingDrained _ | .unlockingDrained _ => True
  | _ => False

/-- Nothing of the drain list is at stake. -/
structure Outside (p : Pc) : Prop where
  ready : p.ready = []
  free : ¬ Critical p

/-- Outside, and neither about to push or to partition nor at the end of an action. -/
def Plain : Pc → Prop
  | .idle | .pushing _ | .countingPushed | .unlockingPushed | .partitioning _ | .countingDrained _
  | .unlockingDrained _ | .running _ => False
  | _ => True

theorem Plain.outside {p : Pc} (h : Plain p) : Outside p := by
  cases p <;> first | exact absurd h id | exact ⟨rfl, id⟩

/-- The step leaves the list, its lock, its counter and the actions under way alone. -/
structure Quiet (t : Thread) (e e' : EpochProtocol.State) : Prop where
  drain : e'.drain = e.drain
  locked : e'.locked = e.locked
  drainCount : e'.drainCount = e.drainCount
  suspended : e'.suspended = e.suspended
  others : ∀ u, u ≠ t → e'.pc u = e.pc u
  before : Outside (e.pc t)
  after : Outside (e'.pc t)

/-- The parts of the epoch that the actions go through. -/
structure Becomes (t : Thread) (e e' : EpochProtocol.State) (p : Pc) (drain : List DrainAction)
    (locked : Bool) (drainCount : ℕ) (suspended : List (List DrainAction)) : Prop where
  drain : e'.drain = drain
  locked : e'.locked = locked
  drainCount : e'.drainCount = drainCount
  suspended : e'.suspended = Function.update e.suspended t suspended
  pc : e'.pc = Function.update e.pc t p

/-- The steps of `bump_with_action`, `drain` and the actions; every other step is quiet. -/
inductive DrainStep (t : Thread) (e e' : EpochProtocol.State) : Prop where
  | quiet : Plain (e.pc t) → Quiet t e e' → DrainStep t e e'
  | batchDone : e.pc t = .running [] → Quiet t e e' → DrainStep t e e'
  | nothing (safe : ℕ) : e.pc t = .partitioning safe → e.locked = true ∨ e.drain = [] →
      Quiet t e e' → DrainStep t e e'
  | push (a : DrainAction) : e.pc t = .pushing a → e.locked = false →
      Becomes t e e' .countingPushed (e.drain ++ [a]) true e.drainCount (e.suspended t) →
      DrainStep t e e'
  | countPushed : e.pc t = .countingPushed →
      Becomes t e e' .unlockingPushed e.drain e.locked e.drain.length (e.suspended t) →
      DrainStep t e e'
  | unlockPushed : e.pc t = .unlockingPushed →
      Becomes t e e' .advancing e.drain false e.drainCount (e.suspended t) → DrainStep t e e'
  | partition (safe : ℕ) : e.pc t = .partitioning safe → e.locked = false → e.drain ≠ [] →
      Becomes t e e' (.countingDrained (e.drain.filter fun a => a.epoch ≤ safe))
        (e.drain.filter fun a => ¬ a.epoch ≤ safe) true e.drainCount (e.suspended t) →
      DrainStep t e e'
  | countDrained (ready : List DrainAction) : e.pc t = .countingDrained ready →
      Becomes t e e' (.unlockingDrained ready) e.drain e.locked e.drain.length (e.suspended t) →
      DrainStep t e e'
  | unlockDrained (ready : List DrainAction) : e.pc t = .unlockingDrained ready →
      Becomes t e e' (.running ready) e.drain false e.drainCount (e.suspended t) → DrainStep t e e'
  | start (a : DrainAction) (ready : List DrainAction) : e.pc t = .running (a :: ready) →
      Becomes t e e' .idle e.drain e.locked e.drainCount (ready :: e.suspended t) →
      DrainStep t e e'
  | finish (ready : List DrainAction) (rest : List (List DrainAction)) : e.pc t = .idle →
      e.suspended t = ready :: rest →
      Becomes t e e' (.running ready) e.drain e.locked e.drainCount rest → DrainStep t e e'

section Inversion

variable {t : Thread} {e e₁ e' : EpochProtocol.State} {p : Pc}

theorem Quiet.of_goto (hdrain : e₁.drain = e.drain) (hlocked : e₁.locked = e.locked)
    (hcount : e₁.drainCount = e.drainCount) (hsusp : e₁.suspended = e.suspended)
    (hpc : e₁.pc = e.pc) (hbefore : Outside (e.pc t)) (hafter : Outside p) :
    Quiet t e (e₁.goto t p) where
  drain := hdrain
  locked := hlocked
  drainCount := hcount
  suspended := hsusp
  others u hu := by rw [EpochProtocol.goto_pc_of_ne p hu, hpc]
  before := hbefore
  after := by rwa [EpochProtocol.goto_pc]

theorem Becomes.of_goto (hpc : e₁.pc = e.pc) (hsusp : e₁.suspended = e.suspended) :
    Becomes t e (e₁.goto t p) p e₁.drain e₁.locked e₁.drainCount (e.suspended t) where
  drain := rfl
  locked := rfl
  drainCount := rfl
  suspended := by
    rw [Function.update_eq_self]
    exact hsusp
  pc := by
    show Function.update e₁.pc t p = _
    rw [hpc]

theorem drain_step (h : EpochProtocol.stepPc e t (e.pc t) = some e') : DrainStep t e e' := by
  -- A step that goes to another plain point without touching the list.
  have hplain : ∀ {e₁ : EpochProtocol.State} {p : Pc}, Plain (e.pc t) → e₁.drain = e.drain →
      e₁.locked = e.locked → e₁.drainCount = e.drainCount → e₁.suspended = e.suspended →
      e₁.pc = e.pc → Outside p → DrainStep t e (e₁.goto t p) :=
    fun hp h₁ h₂ h₃ h₄ h₅ hafter => .quiet hp (.of_goto h₁ h₂ h₃ h₄ h₅ hp.outside hafter)
  have hslot : ∀ {e₁ : EpochProtocol.State} (c : EpochProtocol.SlotCall) (idx : ℕ),
      Plain (e.pc t) → e₁.drain = e.drain → e₁.locked = e.locked →
      e₁.drainCount = e.drainCount → e₁.suspended = e.suspended → e₁.pc = e.pc →
      DrainStep t e (e₁.slotFound t c idx) := by
    intro e₁ c idx hp h₁ h₂ h₃ h₄ h₅
    cases c <;> exact hplain hp h₁ h₂ h₃ h₄ h₅ ⟨rfl, id⟩
  have hat : ∀ {p : Pc}, e.pc t = p → Plain p → Plain (e.pc t) := fun hp h => hp ▸ h
  cases hpc : e.pc t with
  | idle =>
    simp only [hpc, EpochProtocol.stepPc] at h
    split at h
    · cases h
    · rename_i ready rest hs
      obtain rfl := Option.some.inj h
      exact .finish ready rest hpc hs ⟨rfl, rfl, rfl, rfl, rfl⟩
  | checkingCached c =>
    simp only [hpc, EpochProtocol.stepPc] at h
    split at h
    · obtain rfl := Option.some.inj h
      exact hslot c _ (hat hpc trivial) rfl rfl rfl rfl rfl
    · obtain rfl := Option.some.inj h
      exact hplain (hat hpc trivial) rfl rfl rfl rfl rfl ⟨rfl, id⟩
  | claiming c i =>
    simp only [hpc, EpochProtocol.stepPc] at h
    split at h
    · obtain rfl := Option.some.inj h
      exact hslot c _ (hat hpc trivial) rfl rfl rfl rfl rfl
    split at h
    · obtain rfl := Option.some.inj h
      exact hplain (hat hpc trivial) rfl rfl rfl rfl rfl ⟨rfl, id⟩
    · obtain rfl := Option.some.inj h
      exact hplain (hat hpc trivial) rfl rfl rfl rfl rfl ⟨rfl, id⟩
  | publishing c idx ep =>
    simp only [hpc, EpochProtocol.stepPc] at h
    obtain rfl := Option.some.inj h
    refine hplain (hat hpc trivial) rfl rfl rfl rfl rfl ?_
    split
    · exact ⟨rfl, id⟩
    · exact ⟨rfl, id⟩
  | checkingCount =>
    simp only [hpc, EpochProtocol.stepPc] at h
    obtain rfl := Option.some.inj h
    refine hplain (hat hpc trivial) rfl rfl rfl rfl rfl ?_
    split
    · exact ⟨rfl, id⟩
    · exact ⟨rfl, id⟩
  | releasing =>
    simp only [hpc, EpochProtocol.stepPc] at h
    split at h
    · obtain rfl := Option.some.inj h
      exact hplain (hat hpc trivial) rfl rfl rfl rfl rfl ⟨rfl, id⟩
    · obtain rfl := Option.some.inj h
      exact hplain (hat hpc trivial) rfl rfl rfl rfl rfl ⟨rfl, id⟩
  | scanning j min =>
    simp only [hpc, EpochProtocol.stepPc] at h
    split at h
    · obtain rfl := Option.some.inj h
      exact hplain (hat hpc trivial) rfl rfl rfl rfl rfl ⟨rfl, id⟩
    · obtain rfl := Option.some.inj h
      exact hplain (hat hpc trivial) rfl rfl rfl rfl rfl ⟨rfl, id⟩
  | pushing a =>
    simp only [hpc, EpochProtocol.stepPc] at h
    split at h
    · cases h
    · rename_i hfree
      obtain rfl := Option.some.inj h
      exact .push a hpc (Bool.eq_false_iff.mpr hfree) (.of_goto rfl rfl)
  | countingPushed =>
    simp only [hpc, EpochProtocol.stepPc] at h
    obtain rfl := Option.some.inj h
    exact .countPushed hpc (.of_goto rfl rfl)
  | unlockingPushed =>
    simp only [hpc, EpochProtocol.stepPc] at h
    obtain rfl := Option.some.inj h
    exact .unlockPushed hpc (.of_goto rfl rfl)
  | partitioning safe =>
    have hquiet : Quiet t e (e.goto t .idle) :=
      .of_goto rfl rfl rfl rfl rfl (hpc ▸ ⟨rfl, id⟩) ⟨rfl, id⟩
    simp only [hpc, EpochProtocol.stepPc] at h
    split at h
    · rename_i hlocked
      obtain rfl := Option.some.inj h
      exact .nothing safe hpc (.inl hlocked) hquiet
    split at h
    · rename_i hempty
      obtain rfl := Option.some.inj h
      exact .nothing safe hpc (.inr (List.isEmpty_iff.mp hempty)) hquiet
    · rename_i hfree hne
      obtain rfl := Option.some.inj h
      refine .partition safe hpc (Bool.eq_false_iff.mpr hfree) ?_ (.of_goto rfl rfl)
      exact fun hnil => hne (List.isEmpty_iff.mpr hnil)
  | countingDrained ready =>
    simp only [hpc, EpochProtocol.stepPc] at h
    obtain rfl := Option.some.inj h
    exact .countDrained ready hpc (.of_goto rfl rfl)
  | unlockingDrained ready =>
    simp only [hpc, EpochProtocol.stepPc] at h
    obtain rfl := Option.some.inj h
    exact .unlockDrained ready hpc (.of_goto rfl rfl)
  | running ready =>
    cases ready with
    | nil =>
      simp only [hpc, EpochProtocol.stepPc] at h
      obtain rfl := Option.some.inj h
      exact .batchDone hpc (.of_goto rfl rfl rfl rfl rfl (hpc ▸ ⟨rfl, id⟩) ⟨rfl, id⟩)
    | cons a ready =>
      simp only [hpc, EpochProtocol.stepPc] at h
      obtain rfl := Option.some.inj h
      exact .start a ready hpc ⟨rfl, rfl, rfl, rfl, rfl⟩
  | panicked =>
    simp only [hpc, EpochProtocol.stepPc] at h
    cases h
  | _ =>
    -- one store or load and nothing else
    simp only [hpc, EpochProtocol.stepPc] at h
    obtain rfl := Option.some.inj h
    exact hplain (hat hpc trivial) rfl rfl rfl rfl rfl ⟨rfl, id⟩

end Inversion

theorem quiet_call {t : Thread} {e e' : EpochProtocol.State} {c : EpochProtocol.Call}
    (h : EpochProtocol.next e (.call t c) = some e') : Quiet t e e' := by
  simp only [EpochProtocol.next] at h
  split at h
  · rename_i hpc
    obtain rfl := Option.some.inj h
    apply Quiet.of_goto rfl rfl rfl rfl rfl
    · exact hpc ▸ ⟨rfl, id⟩
    · cases c <;> exact ⟨rfl, id⟩
  · cases h

/-! ## Section 3: The lock and the counter -/

/-- The counter, as the thread inside the lock knows it. -/
def CountOk (e : EpochProtocol.State) : Pc → Prop
  | .countingPushed => e.drain.length = e.drainCount + 1
  | .countingDrained _ => 0 < e.drainCount
  | .unlockingPushed | .unlockingDrained _ => e.drainCount = e.drain.length
  | _ => True

/-- The drain list is locked by `holder`. -/
structure LockedBy (e : EpochProtocol.State) (holder : Option Thread) : Prop where
  locked : e.locked = holder.isSome
  critical : ∀ u, Critical (e.pc u) ↔ holder = some u
  held : ∀ u, holder = some u → CountOk e (e.pc u)
  free : holder = none → e.drainCount = e.drain.length

section Lock

variable {t : Thread} {e e' : EpochProtocol.State} {p : Pc} {holder : Option Thread}
  {drain : List DrainAction} {locked : Bool} {count : ℕ} {susp : List (List DrainAction)}

theorem LockedBy.unlocked (h : LockedBy e holder) (hfree : e.locked = false) : holder = none := by
  have := h.locked
  rw [hfree] at this
  exact Option.isSome_eq_false_iff.mp this.symm |> Option.isNone_iff_eq_none.mp

/-- A step that stays away from the list and from the lock. -/
theorem LockedBy.away (h : LockedBy e holder) (hdrain : e'.drain = e.drain)
    (hlocked : e'.locked = e.locked) (hcount : e'.drainCount = e.drainCount)
    (hothers : ∀ u, u ≠ t → e'.pc u = e.pc u) (hbefore : ¬ Critical (e.pc t))
    (hafter : ¬ Critical (e'.pc t)) : LockedBy e' holder := by
  have hne : ∀ u, holder = some u → u ≠ t := by
    rintro u hu rfl
    exact hbefore ((h.critical u).mpr hu)
  refine ⟨hlocked.trans h.locked, ?_, ?_, ?_⟩
  · intro u
    by_cases hu : u = t
    · subst hu
      exact ⟨fun hc => absurd hc hafter, fun hc => absurd rfl (hne u hc)⟩
    · rw [hothers u hu]
      exact h.critical u
  · intro u hu
    rw [hothers u (hne u hu)]
    have := h.held u hu
    unfold CountOk at this ⊢
    rwa [hdrain, hcount]
  · intro hnone
    rw [hcount, hdrain]
    exact h.free hnone

theorem LockedBy.quiet (h : LockedBy e holder) (hq : Quiet t e e') : LockedBy e' holder :=
  h.away hq.drain hq.locked hq.drainCount hq.others hq.before.free hq.after.free

theorem Becomes.others (hb : Becomes t e e' p drain locked count susp) {u : Thread} (hu : u ≠ t) :
    e'.pc u = e.pc u := by rw [hb.pc, Function.update_of_ne hu]

theorem Becomes.mine (hb : Becomes t e e' p drain locked count susp) : e'.pc t = p := by
  rw [hb.pc, Function.update_self]

/-- The thread takes the lock, or goes on inside it. -/
theorem LockedBy.hold (h : LockedBy e holder) (hmay : holder = none ∨ holder = some t)
    (hb : Becomes t e e' p drain true count susp) (hp : Critical p) (hok : CountOk e' p) :
    LockedBy e' (some t) := by
  refine ⟨hb.locked, ?_, ?_, nofun⟩
  · intro u
    by_cases hu : u = t
    · subst hu
      rw [hb.mine]
      exact ⟨fun _ => rfl, fun _ => hp⟩
    · rw [hb.others hu, h.critical u]
      constructor
      · intro hh
        rcases hmay with hmay | hmay
        · rw [hmay] at hh
          cases hh
        · exact absurd (Option.some.inj (hh.symm.trans hmay)) hu
      · intro hh
        exact absurd (Option.some.inj hh).symm hu
  · intro u hu
    obtain rfl := Option.some.inj hu
    rwa [hb.mine]

/-- The thread gives the lock back. -/
theorem LockedBy.release (h : LockedBy e (some t)) (hb : Becomes t e e' p drain false count susp)
    (hp : ¬ Critical p) (hcount : e'.drainCount = e'.drain.length) : LockedBy e' none := by
  refine ⟨hb.locked, ?_, nofun, fun _ => hcount⟩
  intro u
  by_cases hu : u = t
  · subst hu
    rw [hb.mine]
    exact ⟨fun hc => absurd hc hp, nofun⟩
  · rw [hb.others hu, h.critical u]
    exact ⟨fun hh => absurd (Option.some.inj hh).symm hu, nofun⟩

/-- Whoever is at a critical point holds the lock. -/
theorem LockedBy.holds (h : LockedBy e holder) (hpc : e.pc t = p) (hp : Critical p) :
    holder = some t :=
  (h.critical t).mp (hpc ▸ hp)

theorem LockedBy.step (h : LockedBy e holder) (hs : DrainStep t e e') :
    ∃ holder', LockedBy e' holder' := by
  cases hs with
  | quiet hp hq => exact ⟨holder, h.quiet hq⟩
  | batchDone hpc hq => exact ⟨holder, h.quiet hq⟩
  | nothing safe hpc hwhy hq => exact ⟨holder, h.quiet hq⟩
  | push a hpc hfree hb =>
    have hnone := h.unlocked hfree
    refine ⟨some t, h.hold (.inl hnone) hb trivial ?_⟩
    show e'.drain.length = e'.drainCount + 1
    rw [hb.drain, hb.drainCount, h.free hnone, List.length_append]
    rfl
  | countPushed hpc hb =>
    have hmine := h.holds hpc trivial
    have hlocked : e.locked = true := by rw [h.locked, hmine]; rfl
    rw [hlocked] at hb
    refine ⟨some t, h.hold (.inr hmine) hb trivial ?_⟩
    show e'.drainCount = e'.drain.length
    rw [hb.drain, hb.drainCount]
  | unlockPushed hpc hb =>
    have hmine := h.holds hpc trivial
    have hok := h.held t hmine
    rw [hpc] at hok
    refine ⟨none, (hmine ▸ h).release hb id ?_⟩
    rw [hb.drain, hb.drainCount]
    exact hok
  | partition safe hpc hfree hne hb =>
    have hnone := h.unlocked hfree
    refine ⟨some t, h.hold (.inl hnone) hb trivial ?_⟩
    show 0 < e'.drainCount
    rw [hb.drainCount, h.free hnone]
    exact List.length_pos_iff.mpr hne
  | countDrained ready hpc hb =>
    have hmine := h.holds hpc trivial
    have hlocked : e.locked = true := by rw [h.locked, hmine]; rfl
    rw [hlocked] at hb
    refine ⟨some t, h.hold (.inr hmine) hb trivial ?_⟩
    show e'.drainCount = e'.drain.length
    rw [hb.drain, hb.drainCount]
  | unlockDrained ready hpc hb =>
    have hmine := h.holds hpc trivial
    have hok := h.held t hmine
    rw [hpc] at hok
    refine ⟨none, (hmine ▸ h).release hb id ?_⟩
    rw [hb.drain, hb.drainCount]
    exact hok
  | start a ready hpc hb =>
    exact ⟨holder, h.away hb.drain hb.locked hb.drainCount (fun _ => hb.others) (hpc ▸ id)
      (hb.mine ▸ id)⟩
  | finish ready rest hpc hs hb =>
    exact ⟨holder, h.away hb.drain hb.locked hb.drainCount (fun _ => hb.others) (hpc ▸ id)
      (hb.mine ▸ id)⟩

/-- Only a thread between its push and its store can see a list that the counter misses. -/
theorem LockedBy.counted (h : LockedBy e holder) (hpush : ∀ u, e.pc u ≠ .countingPushed)
    (hzero : e.drainCount = 0) : e.drain = [] := by
  apply List.length_eq_zero_iff.mp
  cases hh : holder with
  | none => exact (h.free hh).symm.trans hzero
  | some u =>
    have hc := (h.critical u).mpr hh
    have hok := h.held u hh
    generalize hp : e.pc u = p at hc hok
    cases p with
    | countingPushed => exact absurd hp (hpush u)
    | unlockingPushed => exact hok.symm.trans hzero
    | unlockingDrained ready => exact hok.symm.trans hzero
    | countingDrained ready => exact absurd hzero (Nat.ne_of_gt hok)
    | _ => exact absurd hc id

/-- While a push is not yet counted a zero counter hides that one action only. -/
theorem LockedBy.length_of_pushed (h : LockedBy e holder) {u : Thread}
    (hpc : e.pc u = .countingPushed) : e.drain.length = e.drainCount + 1 := by
  have hok := h.held u (h.holds hpc trivial)
  rwa [hpc] at hok

end Lock

/-! ## Section 4: Where an action is -/

inductive Place where
  | nowhere
  | queued
  /-- In a batch that the thread runs. -/
  | taken (t : Thread)
  /-- The thread is inside of it. -/
  | inside (t : Thread)
  | done
  deriving DecidableEq

def Place.started : Place → Bool
  | .inside _ | .done => true
  | _ => false

/-- The names at a place, each once. -/
def Filed (place : ℕ → Place) (p : Place) (names : List ℕ) : Prop :=
  names.Nodup ∧ ∀ i, place i = p ↔ i ∈ names

/-- The names go to another place. -/
def moved (place : ℕ → Place) (names : List ℕ) (p : Place) : ℕ → Place :=
  fun i => if i ∈ names then p else place i

section Filing

variable {place : ℕ → Place} {p q : Place} {names rest l : List ℕ} {i : ℕ}

theorem moved_mem (h : i ∈ names) : moved place names p i = p := if_pos h

theorem moved_not_mem (h : i ∉ names) : moved place names p i = place i := if_neg h

theorem Filed.perm (h : Filed place p l) (hp : l.Perm names) : Filed place p names :=
  ⟨hp.nodup_iff.mp h.1, fun i => (h.2 i).trans hp.mem_iff⟩

/-- The place the names come from. -/
theorem Filed.leave (h : Filed place p (names ++ rest)) (hne : q ≠ p) :
    Filed (moved place names q) p rest := by
  obtain ⟨hnodup, hmem⟩ := h
  refine ⟨(List.nodup_append.mp hnodup).2.1, fun i => ?_⟩
  by_cases hi : i ∈ names
  · rw [moved_mem hi]
    refine ⟨fun hq => absurd hq hne, fun hr => ?_⟩
    exact absurd rfl ((List.nodup_append.mp hnodup).2.2 i hi i hr)
  · rw [moved_not_mem hi, hmem i, List.mem_append]
    exact ⟨fun h => h.resolve_left hi, .inr⟩

/-- The place the names go to. -/
theorem Filed.enter (h : Filed place q l) (hnodup : names.Nodup)
    (hfrom : ∀ i ∈ names, place i ≠ q) : Filed (moved place names q) q (names ++ l) := by
  obtain ⟨hl, hmem⟩ := h
  refine ⟨List.nodup_append.mpr ⟨hnodup, hl, ?_⟩, fun i => ?_⟩
  · rintro i hi j hj rfl
    exact hfrom i hi ((hmem i).mpr hj)
  · by_cases hi : i ∈ names
    · rw [moved_mem hi]
      exact ⟨fun _ => List.mem_append_left _ hi, fun _ => rfl⟩
    · rw [moved_not_mem hi, hmem i, List.mem_append]
      exact ⟨.inr, fun h => h.resolve_left hi⟩

/-- Every other place. -/
theorem Filed.apart (h : Filed place p l) (hfrom : ∀ i ∈ names, place i ≠ p) (hne : q ≠ p) :
    Filed (moved place names q) p l := by
  refine ⟨h.1, fun i => ?_⟩
  by_cases hi : i ∈ names
  · rw [moved_mem hi]
    exact ⟨fun hq => absurd hq hne, fun hl => absurd ((h.2 i).mpr hl) (hfrom i hi)⟩
  · rw [moved_not_mem hi]
    exact h.2 i

/-- The first `n` names are in use; while a push is not yet counted its name is in the list. -/
structure Numbered (n : ℕ) (pushed : Prop) (place : ℕ → Place) : Prop where
  known : ∀ i < n, place i ≠ .nowhere
  next : pushed → place n = .queued
  fresh : ∀ i, n ≤ i → place i = .nowhere ∨ (pushed ∧ i = n)

variable {n : ℕ} {pushed pushed' : Prop}

theorem Numbered.congr (h : Numbered n pushed place) (hp : pushed' ↔ pushed) :
    Numbered n pushed' place where
  known := h.known
  next hp' := h.next (hp.mp hp')
  fresh i hi := (h.fresh i hi).imp_right fun hf => ⟨hp.mpr hf.1, hf.2⟩

/-- A name is pushed. -/
theorem Numbered.push (h : Numbered n pushed place) (hno : ¬ pushed) (hyes : pushed') :
    place n = .nowhere ∧ Numbered n pushed' (moved place [n] .queued) := by
  have hnew : place n = .nowhere := (h.fresh n (Nat.le_refl n)).resolve_right fun hf => hno hf.1
  refine ⟨hnew, ?_, fun _ => moved_mem (List.mem_singleton_self n), ?_⟩
  · intro i hi
    rw [moved_not_mem fun hmem => Nat.ne_of_lt hi (List.mem_singleton.mp hmem)]
    exact h.known i hi
  · intro i hi
    by_cases hin : i = n
    · exact .inr ⟨hyes, hin⟩
    · rw [moved_not_mem fun hmem => hin (List.mem_singleton.mp hmem)]
      exact .inl ((h.fresh i hi).resolve_right fun hf => hno hf.1)

/-- A push is counted. -/
theorem Numbered.count (h : Numbered n pushed place) (hyes : pushed) (hno : ¬ pushed') :
    Numbered (n + 1) pushed' place where
  known := by
    intro i hi
    rcases Nat.lt_succ_iff_lt_or_eq.mp hi with hlt | heq
    · exact h.known i hlt
    · rw [heq, h.next hyes]
      nofun
  next hp := absurd hp hno
  fresh := by
    intro i hi
    apply Or.inl
    apply (h.fresh i (by omega)).resolve_right
    rintro ⟨-, rfl⟩
    omega

/-- Names that are in use go to another place. -/
theorem Numbered.moved (h : Numbered n pushed place)
    (hfrom : ∀ i ∈ names, place i ≠ .nowhere ∧ (pushed → place i ≠ .queued)) (hq : q ≠ .nowhere) :
    Numbered n pushed (moved place names q) where
  known := by
    intro i hi
    by_cases hmem : i ∈ names
    · rwa [moved_mem hmem]
    · rw [moved_not_mem hmem]
      exact h.known i hi
  next := by
    intro hp
    rw [moved_not_mem fun hmem => (hfrom n hmem).2 hp (h.next hp)]
    exact h.next hp
  fresh := by
    intro i hi
    rw [moved_not_mem]
    · exact h.fresh i hi
    · intro hmem
      rcases h.fresh i hi with hnew | ⟨hp, rfl⟩
      · exact (hfrom i hmem).1 hnew
      · exact (hfrom _ hmem).2 hp (h.next hp)

end Filing

/-! ## Section 5: The invariant -/

/-- The names of the batches a thread runs. -/
def State.waiting (s : State) (u : Thread) : List ℕ :=
  (s.ready u ++ (s.frames u).flatMap Frame.ready).map Prod.fst

/-- The names of the actions a thread is inside of. -/
def State.inside (s : State) (u : Thread) : List ℕ := (s.frames u).map fun f => f.action.1

/-- An action is pushed and not yet counted. -/
def State.Pushed (s : State) : Prop := ∃ u, s.epoch.pc u = .countingPushed

/-- The names follow the epoch. -/
structure Aligned (s : State) : Prop where
  queue : s.queue.map Prod.snd = s.epoch.drain
  ready : ∀ u, (s.ready u).map Prod.snd = (s.epoch.pc u).ready
  frames : ∀ u, (s.frames u).map (fun f => f.ready.map Prod.snd) = s.epoch.suspended u

/-- Every name is at one place. -/
structure Placed (s : State) (place : ℕ → Place) : Prop where
  queued : Filed place .queued (s.queue.map Prod.fst)
  taken : ∀ u, Filed place (.taken u) (s.waiting u)
  inside : ∀ u, Filed place (.inside u) (s.inside u)
  done : Filed place .done s.finished
  numbered : Numbered s.registered s.Pushed place
  starts : ∀ i, s.starts i = if (place i).started then 1 else 0

structure Inv (s : State) : Prop where
  lock : ∃ holder, LockedBy s.epoch holder
  aligned : Aligned s
  placed : ∃ place, Placed s place
  loops : ∀ u, ∀ l ∈ s.loops u, l.registered ≤ s.registered

theorem Inv.init : Inv State.init where
  lock := ⟨none, rfl, fun _ => ⟨fun h => absurd h id, nofun⟩, nofun, fun _ => rfl⟩
  aligned := ⟨rfl, fun _ => rfl, fun _ => rfl⟩
  placed := by
    refine ⟨fun _ => .nowhere, ?_⟩
    have hempty : ∀ {p : Place}, Place.nowhere ≠ p → Filed (fun _ => .nowhere) p [] :=
      fun hne => ⟨List.nodup_nil, fun i => ⟨fun h => absurd h hne, nofun⟩⟩
    exact ⟨hempty nofun, fun _ => hempty nofun, fun _ => hempty nofun, hempty nofun,
      ⟨nofun, nofun, fun _ _ => .inl rfl⟩, fun _ => rfl⟩
  loops := nofun

section Invariant

variable {s s' : State} {t u : Thread} {e' : EpochProtocol.State} {p : Pc} {place : ℕ → Place}
  {drain : List DrainAction} {locked : Bool} {count : ℕ} {susp : List (List DrainAction)}
  {names : List ℕ} {q : Place} {i : ℕ}

theorem mem_waiting : i ∈ s.waiting u ↔
    (∃ x ∈ s.ready u, x.1 = i) ∨ ∃ f ∈ s.frames u, ∃ x ∈ f.ready, x.1 = i := by
  unfold State.waiting
  rw [List.map_append, List.mem_append, List.mem_map, List.mem_map]
  simp only [List.mem_flatMap]
  constructor
  · rintro (h | ⟨x, ⟨f, hf, hx⟩, rfl⟩)
    · exact .inl h
    · exact .inr ⟨f, hf, x, hx, rfl⟩
  · rintro (h | ⟨f, hf, x, hx, rfl⟩)
    · exact .inl h
    · exact .inr ⟨x, ⟨f, hf, hx⟩, rfl⟩

/-- Holding an action is running its batch or being inside of it. -/
theorem holds_iff : s.Holds u i ↔ i ∈ s.waiting u ∨ i ∈ s.inside u := by
  unfold State.Holds State.inside
  rw [mem_waiting, List.mem_map]
  constructor
  · rintro (h | ⟨f, hf, h | h⟩)
    · exact .inl (.inl h)
    · exact .inr ⟨f, hf, h⟩
    · exact .inl (.inr ⟨f, hf, h⟩)
  · rintro ((h | ⟨f, hf, h⟩) | ⟨f, hf, h⟩)
    · exact .inl h
    · exact .inr ⟨f, hf, .inr h⟩
    · exact .inr ⟨f, hf, .inl h⟩

theorem Placed.holds_iff (h : Placed s place) :
    s.Holds u i ↔ place i = .taken u ∨ place i = .inside u := by
  rw [DrainActions.holds_iff, (h.taken u).2 i, (h.inside u).2 i]

/-- The names see only the program counters of pushes. -/
theorem Placed.of_epoch (h : Placed s place)
    (hpush : ({ s with epoch := e' } : State).Pushed ↔ s.Pushed) :
    Placed { s with epoch := e' } place where
  queued := h.queued
  taken := h.taken
  inside := h.inside
  done := h.done
  numbered := h.numbered.congr hpush
  starts := h.starts

theorem pushed_congr (hothers : ∀ v, v ≠ t → e'.pc v = s.epoch.pc v)
    (hbefore : s.epoch.pc t ≠ .countingPushed) (hafter : e'.pc t ≠ .countingPushed) :
    ({ s with epoch := e' } : State).Pushed ↔ s.Pushed := by
  have hne : ∀ {pc : Thread → Pc} {v : Thread}, pc t ≠ .countingPushed → pc v = .countingPushed →
      v ≠ t := by
    rintro pc v hpc hv rfl
    exact hpc hv
  constructor
  · rintro ⟨v, hv⟩
    exact ⟨v, (hothers v (hne hafter hv)).symm.trans hv⟩
  · rintro ⟨v, hv⟩
    exact ⟨v, (hothers v (hne hbefore hv)).trans hv⟩

theorem Outside.not_pushing (h : Outside p) : p ≠ .countingPushed := by
  rintro rfl
  exact h.free trivial

theorem Inv.quiet (inv : Inv s) (hq : Quiet t s.epoch e') : Inv { s with epoch := e' } where
  lock := by
    obtain ⟨holder, h⟩ := inv.lock
    exact ⟨holder, h.quiet hq⟩
  aligned := by
    refine ⟨inv.aligned.queue.trans hq.drain.symm, fun u => ?_, fun u => ?_⟩
    · show (s.ready u).map Prod.snd = (e'.pc u).ready
      rw [inv.aligned.ready u]
      by_cases hu : u = t
      · rw [hu, hq.before.ready, hq.after.ready]
      · rw [hq.others u hu]
    · show _ = e'.suspended u
      rw [hq.suspended]
      exact inv.aligned.frames u
  placed := by
    obtain ⟨place, h⟩ := inv.placed
    refine ⟨place, h.of_epoch ?_⟩
    exact pushed_congr hq.others hq.before.not_pushing hq.after.not_pushing
  loops := inv.loops

/-- Names that start, or do not, with their new place. -/
theorem starts_moved (h : ∀ i, s.starts i = if (place i).started then 1 else 0)
    (hsame : ∀ i ∈ names, (place i).started = q.started) (i : ℕ) :
    s.starts i = if (moved place names q i).started then 1 else 0 := by
  rw [h i]
  by_cases hi : i ∈ names
  · rw [moved_mem hi, hsame i hi]
  · rw [moved_not_mem hi]

/-- The ready lists, when the batch of the thread is its new one. -/
theorem Aligned.ready_of_becomes (h : Aligned s)
    (hb : Becomes t s.epoch e' p drain locked count susp) {ready : List Named}
    (hready : ready.map Prod.snd = p.ready) (v : Thread) :
    (Function.update s.ready t ready v).map Prod.snd = (e'.pc v).ready := by
  by_cases hv : v = t
  · rw [hv, Function.update_self, hb.mine, hready]
  · rw [Function.update_of_ne hv, hb.others hv, h.ready v]

theorem Aligned.ready_kept (h : Aligned s)
    (hb : Becomes t s.epoch e' p drain locked count susp) (hready : p.ready = (s.epoch.pc t).ready)
    (v : Thread) : (s.ready v).map Prod.snd = (e'.pc v).ready := by
  have := h.ready_of_becomes hb ((h.ready t).trans hready.symm) v
  rwa [Function.update_eq_self] at this

theorem Aligned.frames_kept (h : Aligned s)
    (hb : Becomes t s.epoch e' p drain locked count (s.epoch.suspended t)) (v : Thread) :
    (s.frames v).map (fun f => f.ready.map Prod.snd) = e'.suspended v := by
  rw [hb.suspended, Function.update_eq_self]
  exact h.frames v

/-- A step inside the lock that leaves the list alone. -/
theorem Inv.inside_lock (inv : Inv s) (hs : DrainStep t s.epoch e')
    (hb : Becomes t s.epoch e' p s.epoch.drain locked count (s.epoch.suspended t))
    (hready : p.ready = (s.epoch.pc t).ready) (hbefore : s.epoch.pc t ≠ .countingPushed)
    (hafter : p ≠ .countingPushed) : Inv { s with epoch := e' } where
  lock := by
    obtain ⟨holder, h⟩ := inv.lock
    exact h.step hs
  aligned := ⟨inv.aligned.queue.trans hb.drain.symm, inv.aligned.ready_kept hb hready,
    inv.aligned.frames_kept hb⟩
  placed := by
    obtain ⟨place, h⟩ := inv.placed
    refine ⟨place, h.of_epoch ?_⟩
    exact pushed_congr (fun _ => hb.others) hbefore (hb.mine ▸ hafter)
  loops := inv.loops

theorem Inv.push {a : DrainAction} (inv : Inv s) (hs : DrainStep t s.epoch e')
    (hpc : s.epoch.pc t = .pushing a) (hfree : s.epoch.locked = false)
    (hb : Becomes t s.epoch e' .countingPushed (s.epoch.drain ++ [a]) true s.epoch.drainCount
      (s.epoch.suspended t)) :
    Inv { s with queue := s.queue ++ [(s.registered, a)], epoch := e' } := by
  obtain ⟨holder, hlock⟩ := inv.lock
  obtain ⟨place, h⟩ := inv.placed
  have hno : ¬ s.Pushed := by
    rintro ⟨v, hv⟩
    have := hlock.holds hv trivial
    rw [hlock.unlocked hfree] at this
    cases this
  have hyes : ({ s with queue := s.queue ++ [(s.registered, a)], epoch := e' } : State).Pushed :=
    ⟨t, hb.mine⟩
  obtain ⟨hnew, hnumbered⟩ := h.numbered.push hno hyes
  have hone : ∀ i ∈ [s.registered], place i = .nowhere := by
    intro i hi
    rw [List.mem_singleton.mp hi, hnew]
  have hapart : ∀ {p : Place} {l : List ℕ}, Place.nowhere ≠ p → Place.queued ≠ p →
      Filed place p l → Filed (DrainActions.moved place [s.registered] .queued) p l := by
    intro p l hp hq hl
    exact hl.apart (fun i hi => hone i hi ▸ hp) hq
  refine ⟨hlock.step hs, ⟨?_, inv.aligned.ready_kept hb (hpc ▸ rfl), inv.aligned.frames_kept hb⟩,
    ⟨DrainActions.moved place [s.registered] .queued, ?_⟩, inv.loops⟩
  · show (s.queue ++ [(s.registered, a)]).map Prod.snd = e'.drain
    rw [List.map_append, inv.aligned.queue, hb.drain]
    rfl
  · refine ⟨?_, fun u => hapart nofun nofun (h.taken u), fun u => hapart nofun nofun (h.inside u),
      hapart nofun nofun h.done, hnumbered, ?_⟩
    · have hnodup : [s.registered].Nodup := List.nodup_cons.mpr ⟨nofun, List.nodup_nil⟩
      have := h.queued.enter hnodup fun i hi => by
        rw [hone i hi]
        nofun
      refine this.perm ?_
      rw [List.map_append]
      exact List.perm_append_comm
    · exact starts_moved h.starts fun i hi => by
        rw [hone i hi]
        rfl

theorem Inv.countPushed (inv : Inv s) (hs : DrainStep t s.epoch e')
    (hpc : s.epoch.pc t = .countingPushed)
    (hb : Becomes t s.epoch e' .unlockingPushed s.epoch.drain s.epoch.locked
      s.epoch.drain.length (s.epoch.suspended t)) :
    Inv { s with registered := s.registered + 1, epoch := e' } := by
  obtain ⟨holder, hlock⟩ := inv.lock
  obtain ⟨place, h⟩ := inv.placed
  have hmine := hlock.holds hpc trivial
  have hno : ¬ ({ s with registered := s.registered + 1, epoch := e' } : State).Pushed := by
    rintro ⟨v, hv⟩
    -- nobody else is inside the lock
    change e'.pc v = .countingPushed at hv
    by_cases hvt : v = t
    · rw [hvt, hb.mine] at hv
      cases hv
    · rw [hb.others hvt] at hv
      exact hvt (Option.some.inj ((hlock.holds hv trivial).symm.trans hmine))
  refine ⟨hlock.step hs, ⟨inv.aligned.queue.trans hb.drain.symm,
    inv.aligned.ready_kept hb (hpc ▸ rfl), inv.aligned.frames_kept hb⟩, ⟨place, ?_⟩, ?_⟩
  · exact ⟨h.queued, h.taken, h.inside, h.done, h.numbered.count ⟨t, hpc⟩ hno, h.starts⟩
  · intro u l hl
    exact Nat.le_succ_of_le (inv.loops u l hl)

/-- A thread takes a batch off the list. -/
theorem Inv.partition {safe : ℕ} (inv : Inv s) (hs : DrainStep t s.epoch e')
    (hpc : s.epoch.pc t = .partitioning safe) (hfree : s.epoch.locked = false)
    (hb : Becomes t s.epoch e' (.countingDrained (s.epoch.drain.filter fun a => a.epoch ≤ safe))
      (s.epoch.drain.filter fun a => ¬ a.epoch ≤ safe) true s.epoch.drainCount
      (s.epoch.suspended t)) :
    Inv { s with
      queue := s.queue.filter fun x => ¬ x.2.epoch ≤ safe
      ready := Function.update s.ready t (s.queue.filter fun x => x.2.epoch ≤ safe)
      epoch := e' } := by
  obtain ⟨holder, hlock⟩ := inv.lock
  obtain ⟨place, h⟩ := inv.placed
  have hfilter : ∀ f : DrainAction → Bool,
      (s.queue.filter fun x => f x.2).map Prod.snd = s.epoch.drain.filter f := by
    intro f
    rw [← inv.aligned.queue, List.filter_map]
    rfl
  have hno : ¬ s.Pushed := by
    rintro ⟨v, hv⟩
    have := hlock.holds hv trivial
    rw [hlock.unlocked hfree] at this
    cases this
  have hnone : s.ready t = [] := by
    have := inv.aligned.ready t
    rw [hpc] at this
    exact List.map_eq_nil_iff.mp this
  set names := (s.queue.filter fun x => x.2.epoch ≤ safe).map Prod.fst with hnames
  have hqueued : ∀ i ∈ names, place i = .queued := by
    intro i hi
    obtain ⟨x, hx, rfl⟩ := List.mem_map.mp hi
    exact (h.queued.2 x.1).mpr (List.mem_map_of_mem (List.mem_of_mem_filter hx))
  have hsplit : Filed place .queued
      (names ++ (s.queue.filter fun x => ¬ x.2.epoch ≤ safe).map Prod.fst) := by
    refine h.queued.perm ?_
    rw [hnames, ← List.map_append]
    refine List.Perm.map _ (List.Perm.symm ?_)
    have := List.filter_append_perm (fun x : Named => decide (x.2.epoch ≤ safe)) s.queue
    simpa only [decide_not] using this
  have hnodup : names.Nodup := (List.nodup_append.mp hsplit.1).1
  have hapart : ∀ {p : Place} {l : List ℕ}, Place.queued ≠ p → Place.taken t ≠ p →
      Filed place p l → Filed (DrainActions.moved place names (.taken t)) p l := by
    intro p l hp hq hl
    exact hl.apart (fun i hi => hqueued i hi ▸ hp) hq
  refine ⟨hlock.step hs, ⟨?_, ?_, inv.aligned.frames_kept hb⟩,
    ⟨DrainActions.moved place names (.taken t), ?_⟩, inv.loops⟩
  · have := hfilter fun a => ¬ a.epoch ≤ safe
    exact this.trans hb.drain.symm
  · exact inv.aligned.ready_of_becomes hb (hfilter fun a => a.epoch ≤ safe)
  · refine ⟨hsplit.leave nofun, fun u => ?_, fun u => hapart nofun nofun (h.inside u),
      hapart nofun nofun h.done, ?_, ?_⟩
    · unfold State.waiting
      by_cases hu : u = t
      · have := (h.taken t).enter hnodup fun i hi => by
          rw [hqueued i hi]
          nofun
        rw [hu]
        simp only [Function.update_self]
        rw [List.map_append]
        unfold State.waiting at this
        rwa [hnone, List.nil_append] at this
      · simp only [Function.update_of_ne hu]
        refine hapart nofun ?_ (h.taken u)
        rintro ⟨⟩
        exact hu rfl
    · have hpushed := pushed_congr (s := s) (fun _ => hb.others) (hpc ▸ nofun) (hb.mine ▸ nofun)
      refine (h.numbered.congr hpushed).moved (fun i hi => ?_) nofun
      rw [hqueued i hi]
      exact ⟨nofun, fun hp => absurd (hpushed.mp hp) hno⟩
    · exact starts_moved h.starts fun i hi => by
        rw [hqueued i hi]
        rfl

/-- The frames, when the thread's are new ones. -/
theorem Aligned.frames_of_becomes (h : Aligned s)
    (hb : Becomes t s.epoch e' p drain locked count susp) {frames : List Frame}
    (hframes : frames.map (fun f => f.ready.map Prod.snd) = susp) (v : Thread) :
    (Function.update s.frames t frames v).map (fun f => f.ready.map Prod.snd) =
      e'.suspended v := by
  rw [hb.suspended]
  by_cases hv : v = t
  · rw [hv, Function.update_self, Function.update_self, hframes]
  · rw [Function.update_of_ne hv, Function.update_of_ne hv, h.frames v]

/-- The first action of a batch starts. -/
theorem Inv.start {a : DrainAction} {batch : List DrainAction} {x : Named} {rest : List Named}
    (inv : Inv s) (hs : DrainStep t s.epoch e') (hpc : s.epoch.pc t = .running (a :: batch))
    (hx : s.ready t = x :: rest)
    (hb : Becomes t s.epoch e' .idle s.epoch.drain s.epoch.locked s.epoch.drainCount
      (batch :: s.epoch.suspended t)) :
    Inv { s with
      ready := Function.update s.ready t []
      frames := Function.update s.frames t (⟨x, rest⟩ :: s.frames t)
      starts := Function.update s.starts x.1 (s.starts x.1 + 1)
      epoch := e' } := by
  obtain ⟨holder, hlock⟩ := inv.lock
  obtain ⟨place, h⟩ := inv.placed
  have hrest : rest.map Prod.snd = batch := by
    have := inv.aligned.ready t
    rw [hpc, hx] at this
    exact (List.cons.inj this).2
  have hwaiting : s.waiting t = [x.1] ++ (rest ++ (s.frames t).flatMap Frame.ready).map Prod.fst := by
    unfold State.waiting
    rw [hx]
    rfl
  have htaken : place x.1 = .taken t := by
    apply ((h.taken t).2 x.1).mpr
    rw [hwaiting]
    exact List.mem_cons_self
  have hone : ∀ i ∈ [x.1], place i = .taken t := by
    intro i hi
    rw [List.mem_singleton.mp hi, htaken]
  have hapart : ∀ {p : Place} {l : List ℕ}, Place.taken t ≠ p → Place.inside t ≠ p →
      Filed place p l → Filed (DrainActions.moved place [x.1] (.inside t)) p l := by
    intro p l hp hq hl
    exact hl.apart (fun i hi => hone i hi ▸ hp) hq
  refine ⟨hlock.step hs, ⟨inv.aligned.queue.trans hb.drain.symm,
    inv.aligned.ready_of_becomes hb rfl, inv.aligned.frames_of_becomes hb ?_⟩,
    ⟨DrainActions.moved place [x.1] (.inside t), ?_⟩, inv.loops⟩
  · rw [List.map_cons, hrest, inv.aligned.frames t]
  · refine ⟨hapart nofun nofun h.queued, fun u => ?_, fun u => ?_, hapart nofun nofun h.done, ?_, ?_⟩
    · unfold State.waiting
      by_cases hu : u = t
      · rw [hu]
        simp only [Function.update_self]
        rw [List.nil_append]
        exact Filed.leave (hwaiting ▸ h.taken t) nofun
      · simp only [Function.update_of_ne hu]
        refine hapart ?_ nofun (h.taken u)
        rintro ⟨⟩
        exact hu rfl
    · unfold State.inside
      by_cases hu : u = t
      · rw [hu]
        simp only [Function.update_self]
        refine (h.inside t).enter ?_ fun i hi => ?_
        · exact List.nodup_cons.mpr ⟨nofun, List.nodup_nil⟩
        · rw [hone i hi]
          nofun
      · simp only [Function.update_of_ne hu]
        refine hapart nofun ?_ (h.inside u)
        rintro ⟨⟩
        exact hu rfl
    · have hpushed := pushed_congr (s := s) (fun _ => hb.others) (hpc ▸ nofun) (hb.mine ▸ nofun)
      refine (h.numbered.congr hpushed).moved (fun i hi => ?_) nofun
      rw [hone i hi]
      exact ⟨nofun, fun _ => nofun⟩
    · intro i
      show Function.update s.starts x.1 (s.starts x.1 + 1) i = _
      by_cases hi : i = x.1
      · rw [hi, Function.update_self, moved_mem List.mem_cons_self, h.starts, htaken]
        rfl
      · rw [Function.update_of_ne hi, moved_not_mem fun hmem => hi (List.mem_singleton.mp hmem)]
        exact h.starts i

/-- An action returns to the drain that called it. -/
theorem Inv.finish {batch : List DrainAction} {susp : List (List DrainAction)} {f : Frame}
    {rest : List Frame} (inv : Inv s) (hs : DrainStep t s.epoch e') (hpc : s.epoch.pc t = .idle)
    (hsusp : s.epoch.suspended t = batch :: susp) (hf : s.frames t = f :: rest)
    (hb : Becomes t s.epoch e' (.running batch) s.epoch.drain s.epoch.locked s.epoch.drainCount
      susp) :
    Inv { s with
      ready := Function.update s.ready t f.ready
      frames := Function.update s.frames t rest
      finished := f.action.1 :: s.finished
      epoch := e' } := by
  obtain ⟨holder, hlock⟩ := inv.lock
  obtain ⟨place, h⟩ := inv.placed
  have hframes := inv.aligned.frames t
  rw [hf, hsusp] at hframes
  obtain ⟨hbatch, hrest⟩ := List.cons.inj hframes
  have hnone : s.ready t = [] := by
    have := inv.aligned.ready t
    rw [hpc] at this
    exact List.map_eq_nil_iff.mp this
  have hinside : s.inside t = [f.action.1] ++ rest.map fun f => f.action.1 := by
    unfold State.inside
    rw [hf]
    rfl
  have hone : ∀ i ∈ [f.action.1], place i = .inside t := by
    intro i hi
    apply ((h.inside t).2 i).mpr
    rw [hinside]
    exact List.mem_append_left _ hi
  have hapart : ∀ {p : Place} {l : List ℕ}, Place.inside t ≠ p → Place.done ≠ p →
      Filed place p l → Filed (DrainActions.moved place [f.action.1] .done) p l := by
    intro p l hp hq hl
    exact hl.apart (fun i hi => hone i hi ▸ hp) hq
  refine ⟨hlock.step hs, ⟨inv.aligned.queue.trans hb.drain.symm,
    inv.aligned.ready_of_becomes hb hbatch, inv.aligned.frames_of_becomes hb hrest⟩,
    ⟨DrainActions.moved place [f.action.1] .done, ?_⟩, inv.loops⟩
  refine ⟨hapart nofun nofun h.queued, fun u => ?_, fun u => ?_, ?_, ?_, ?_⟩
  · have htaken : Filed (DrainActions.moved place [f.action.1] .done) (.taken u) (s.waiting u) :=
      hapart nofun nofun (h.taken u)
    unfold State.waiting at htaken ⊢
    by_cases hu : u = t
    · rw [hu] at htaken ⊢
      simp only [Function.update_self]
      rwa [hnone, hf, List.nil_append, List.flatMap_cons] at htaken
    · simp only [Function.update_of_ne hu]
      exact htaken
  · unfold State.inside
    by_cases hu : u = t
    · rw [hu]
      simp only [Function.update_self]
      exact Filed.leave (hinside ▸ h.inside t) nofun
    · simp only [Function.update_of_ne hu]
      refine hapart ?_ nofun (h.inside u)
      rintro ⟨⟩
      exact hu rfl
  · refine h.done.enter ?_ fun i hi => ?_
    · exact List.nodup_cons.mpr ⟨nofun, List.nodup_nil⟩
    · rw [hone i hi]
      nofun
  · have hpushed := pushed_congr (s := s) (fun _ => hb.others) (hpc ▸ nofun) (hb.mine ▸ nofun)
    refine (h.numbered.congr hpushed).moved (fun i hi => ?_) nofun
    rw [hone i hi]
    exact ⟨nofun, fun _ => nofun⟩
  · exact starts_moved h.starts fun i hi => by
      rw [hone i hi]
      rfl

/-- The step lemma for the calls on the epoch. -/
theorem Inv.track (inv : Inv s) (h : EpochProtocol.next s.epoch (.step t) = some e') :
    Inv { s.track t with epoch := e' } := by
  have hs := drain_step h
  have hsame : s.track t = s → Inv { s with epoch := e' } →
      Inv { s.track t with epoch := e' } := by
    intro heq hinv
    rwa [heq]
  cases hs with
  | quiet hp hq =>
    refine hsame ?_ (inv.quiet hq)
    unfold State.track
    generalize s.epoch.pc t = p at hp
    cases p with
    | _ => first | rfl | exact absurd hp id
  | batchDone hpc hq =>
    refine hsame ?_ (inv.quiet hq)
    have hready := inv.aligned.ready t
    rw [hpc] at hready
    simp only [State.track, hpc, List.map_eq_nil_iff.mp hready]
  | nothing safe hpc hwhy hq =>
    refine hsame ?_ (inv.quiet hq)
    have hready := inv.aligned.ready t
    rw [hpc] at hready
    have hnone : s.ready t = [] := List.map_eq_nil_iff.mp hready
    rcases hwhy with hlocked | hempty
    · simp only [State.track, hpc, hlocked, if_true]
    · have hqueue := inv.aligned.queue
      rw [hempty] at hqueue
      have hnil : s.queue = [] := List.map_eq_nil_iff.mp hqueue
      simp only [State.track, hpc]
      split
      · rfl
      · obtain ⟨⟩ := s
        simp only at hnil hnone ⊢
        simp only [hnil, List.filter_nil, State.mk.injEq, true_and, and_true]
        rw [← hnone, Function.update_eq_self]
  | push a hpc hfree hb =>
    simp only [State.track, hpc]
    exact inv.push (drain_step h) hpc hfree hb
  | countPushed hpc hb =>
    simp only [State.track, hpc]
    exact inv.countPushed (drain_step h) hpc hb
  | unlockPushed hpc hb =>
    refine hsame (by simp only [State.track, hpc]) ?_
    exact inv.inside_lock (drain_step h) hb (hpc ▸ rfl) (hpc ▸ nofun) nofun
  | partition safe hpc hfree hne hb =>
    simp only [State.track, hpc, hfree]
    exact inv.partition (drain_step h) hpc hfree hb
  | countDrained ready hpc hb =>
    refine hsame (by simp only [State.track, hpc]) ?_
    exact inv.inside_lock (drain_step h) hb (hpc ▸ rfl) (hpc ▸ nofun) nofun
  | unlockDrained ready hpc hb =>
    refine hsame (by simp only [State.track, hpc]) ?_
    exact inv.inside_lock (drain_step h) hb (hpc ▸ rfl) (hpc ▸ nofun) nofun
  | start a ready hpc hb =>
    have hready := inv.aligned.ready t
    rw [hpc] at hready
    obtain ⟨x, rest, hx, -, -⟩ := List.map_eq_cons_iff.mp hready
    simp only [State.track, hpc, hx]
    exact inv.start (drain_step h) hpc hx hb
  | finish ready rest hpc hsusp hb =>
    have hframes := inv.aligned.frames t
    rw [hsusp] at hframes
    obtain ⟨f, rest', hf, -, -⟩ := List.map_eq_cons_iff.mp hframes
    simp only [State.track, hpc, hf]
    exact inv.finish (drain_step h) hpc hsusp hf hb

theorem loop_mem {l : Loop} (h : s.loop t = some l) :
    l ∈ s.loops t ∧ s.epoch.pc t = .idle := by
  unfold State.loop at h
  split at h
  · rename_i l' ls hl
    split at h
    · rename_i hidle
      obtain rfl := Option.some.inj h
      refine ⟨hl ▸ List.mem_cons_self, ?_⟩
      generalize s.epoch.pc t = p at hidle
      cases p with
      | idle => rfl
      | _ => cases hidle.1
    · cases h
  · cases h

/-- The step lemma. -/
theorem Inv.next {l : Label} (inv : Inv s) (h : next s l = some s') : Inv s' := by
  cases l with
  | call t c =>
    simp only [DrainActions.next] at h
    split at h
    · cases h
    · obtain ⟨e', he, rfl⟩ := Option.map_eq_some_iff.mp h
      exact inv.quiet (quiet_call he)
  | step t =>
    simp only [DrainActions.next] at h
    split at h
    · cases h
    · obtain ⟨e', he, rfl⟩ := Option.map_eq_some_iff.mp h
      exact inv.track he
  | drainAll t =>
    simp only [DrainActions.next] at h
    split at h
    · obtain rfl := Option.some.inj h
      refine ⟨inv.lock, ⟨inv.aligned.queue, inv.aligned.ready, inv.aligned.frames⟩, ?_, ?_⟩
      · obtain ⟨place, hp⟩ := inv.placed
        exact ⟨place, hp.queued, hp.taken, hp.inside, hp.done, hp.numbered, hp.starts⟩
      · intro u l hl
        change l ∈ Function.update s.loops t _ u at hl
        by_cases hu : u = t
        · rw [hu, Function.update_self] at hl
          rcases List.mem_cons.mp hl with rfl | hl
          · exact Nat.le_refl _
          · exact inv.loops t l hl
        · rw [Function.update_of_ne hu] at hl
          exact inv.loops u l hl
    · cases h
  | check t =>
    simp only [DrainActions.next] at h
    split at h
    · cases h
    split at h
    · obtain ⟨e', he, rfl⟩ := Option.map_eq_some_iff.mp h
      exact inv.quiet (quiet_call he)
    · obtain rfl := Option.some.inj h
      refine ⟨inv.lock, ⟨inv.aligned.queue, inv.aligned.ready, inv.aligned.frames⟩, ?_, ?_⟩
      · obtain ⟨place, hp⟩ := inv.placed
        exact ⟨place, hp.queued, hp.taken, hp.inside, hp.done, hp.numbered, hp.starts⟩
      · intro u l hl
        change l ∈ Function.update s.loops t _ u at hl
        by_cases hu : u = t
        · rw [hu, Function.update_self] at hl
          exact inv.loops t l (List.mem_of_mem_tail hl)
        · rw [Function.update_of_ne hu] at hl
          exact inv.loops u l hl

/-- The invariant rule, for every interleaving. -/
theorem inv_run {ok : State → Label → Prop} {ls : List Label}
    (h : Lts.Steps DrainActions.next ok .init ls s) : Inv s :=
  h.invariant (fun inv _ hnext => inv.next hnext) Inv.init

theorem Inv.once (inv : Inv s) (i : ℕ) : s.starts i ≤ 1 := by
  obtain ⟨place, h⟩ := inv.placed
  rw [h.starts i]
  split
  · exact Nat.le_refl 1
  · exact Nat.zero_le 1

theorem Inv.kept (inv : Inv s) (hi : i < s.registered) :
    (∃ x ∈ s.queue, x.1 = i) ∨ (∃ u, s.Holds u i) ∨ i ∈ s.finished := by
  obtain ⟨place, h⟩ := inv.placed
  have hknown := h.numbered.known i hi
  cases hp : place i with
  | nowhere => exact absurd hp hknown
  | queued => exact .inl (List.mem_map.mp ((h.queued.2 i).mp hp))
  | taken u => exact .inr (.inl ⟨u, h.holds_iff.mpr (.inl hp)⟩)
  | inside u => exact .inr (.inl ⟨u, h.holds_iff.mpr (.inr hp)⟩)
  | done => exact .inr (.inr ((h.done.2 i).mp hp))

theorem Inv.counted (inv : Inv s) (hpush : ∀ u, s.epoch.pc u ≠ .countingPushed)
    (hzero : s.epoch.drainCount = 0) : s.epoch.drain = [] := by
  obtain ⟨holder, h⟩ := inv.lock
  exact h.counted hpush hzero

/-- With a zero counter the list holds no registered action. -/
theorem Inv.not_queued (inv : Inv s) (hzero : s.epoch.drainCount = 0) (hi : i < s.registered) :
    ¬ ∃ x ∈ s.queue, x.1 = i := by
  rintro ⟨x, hx, rfl⟩
  obtain ⟨place, h⟩ := inv.placed
  obtain ⟨holder, hlock⟩ := inv.lock
  have hlen : s.queue.length = s.epoch.drain.length := by
    rw [← inv.aligned.queue, List.length_map]
  by_cases hp : s.Pushed
  · -- the one action in the list is the one being pushed
    obtain ⟨u, hu⟩ := id hp
    have hone := hlock.length_of_pushed hu
    have hnext := (h.queued.2 _).mp (h.numbered.next hp)
    obtain ⟨y, hy, hyn⟩ := List.mem_map.mp hnext
    obtain ⟨z, hz⟩ := List.length_eq_one_iff.mp (hlen.trans (by rw [hone, hzero]))
    rw [hz] at hx hy
    rw [List.mem_singleton.mp hx, ← List.mem_singleton.mp hy, hyn] at hi
    exact Nat.lt_irrefl _ hi
  · have hnil := hlock.counted (fun u hu => hp ⟨u, hu⟩) hzero
    rw [hnil] at hlen
    rw [List.length_eq_zero_iff.mp hlen] at hx
    cases hx

/-- When a blocking drain ends, its actions have finished if and only if no thread is still at one
    of them. -/
theorem Inv.finished_iff {l : Loop} (inv : Inv s) (hl : s.loop t = some l)
    (hzero : s.epoch.drainCount = 0) :
    (∀ i < l.registered, i ∈ s.finished) ↔ ∀ i < l.registered, ∀ u, ¬ s.Holds u i := by
  have hle := inv.loops t l (loop_mem hl).1
  obtain ⟨place, h⟩ := id inv.placed
  constructor
  · intro hfin i hi u hholds
    have hdone := (h.done.2 i).mpr (hfin i hi)
    rcases h.holds_iff.mp hholds with hp | hp
    · rw [hdone] at hp
      cases hp
    · rw [hdone] at hp
      cases hp
  · intro hnone i hi
    have hlt := Nat.lt_of_lt_of_le hi hle
    rcases inv.kept hlt with hq | ⟨u, hu⟩ | hfin
    · exact absurd hq (inv.not_queued hzero hlt)
    · exact absurd hu (hnone i hi u)
    · exact hfin

/-- The actions that finish stay finished for the calls that have returned; a call returns by a
    `check` only. -/
theorem waited_step {l : Label} (inv : Inv s) (hok : NoneTaken s l) (h : DrainActions.next s l = some s')
    (hw : ∀ r ∈ s.returns, ∀ i < r.registered, i ∈ r.finished) :
    ∀ r ∈ s'.returns, ∀ i < r.registered, i ∈ r.finished := by
  cases l with
  | call t c =>
    simp only [DrainActions.next] at h
    split at h
    · cases h
    · obtain ⟨e', he, rfl⟩ := Option.map_eq_some_iff.mp h
      exact hw
  | step t =>
    simp only [DrainActions.next] at h
    split at h
    · cases h
    · obtain ⟨e', he, rfl⟩ := Option.map_eq_some_iff.mp h
      have hsame : (s.track t).returns = s.returns := by
        unfold State.track
        repeat' split
        all_goals rfl
      intro r hr
      exact hw r (hsame ▸ hr)
  | drainAll t =>
    simp only [DrainActions.next] at h
    split at h
    · obtain rfl := Option.some.inj h
      exact hw
    · cases h
  | check t =>
    simp only [DrainActions.next] at h
    split at h
    · cases h
    rename_i loop hl
    split at h
    · obtain ⟨e', he, rfl⟩ := Option.map_eq_some_iff.mp h
      exact hw
    · rename_i hzero
      have hzero' : s.epoch.drainCount = 0 := by omega
      obtain rfl := Option.some.inj h
      intro r hr
      rcases List.mem_cons.mp hr with rfl | hr
      · exact (inv.finished_iff hl hzero').mpr (hok t loop rfl hl hzero')
      · exact hw r hr

theorem property_run {ls : List Label} (h : Lts.Steps DrainActions.next NoneTaken .init ls s) :
    Property s := by
  have hboth := h.invariant
    (P := fun s => Inv s ∧ ∀ r ∈ s.returns, ∀ i < r.registered, i ∈ r.finished)
    (fun hp hok hnext => ⟨hp.1.next hnext, waited_step hp.1 hok hnext hp.2⟩) ⟨Inv.init, nofun⟩
  exact ⟨hboth.1.once, fun i hi => hboth.1.kept hi, hboth.1.counted, hboth.2⟩

end Invariant

/-! ## Section 6: Actions run once; the blocking drain waits for the list only -/

/-- In every interleaving actions are not lost and not started twice, and a zero counter means an
    empty list.  A blocking drain waits for the actions when none of them is with a thread that
    took it off the list, and for the calls that return this is exact. -/
theorem actions_and_blocking_drain (ls : List Label) (s : State) :
    (Lts.Runs next State.init ls s →
      (∀ i, s.starts i ≤ 1) ∧
      (∀ i < s.registered, (∃ x ∈ s.queue, x.1 = i) ∨ (∃ u, s.Holds u i) ∨ i ∈ s.finished) ∧
      ((∀ t, s.epoch.pc t ≠ .countingPushed) → s.epoch.drainCount = 0 → s.epoch.drain = [])) ∧
    (Lts.Steps next NoneTaken State.init ls s → Property s) ∧
    (∀ t l, Lts.Runs next State.init ls s → s.loop t = some l → s.epoch.drainCount = 0 →
      ((∀ i < l.registered, i ∈ s.finished) ↔ ∀ i < l.registered, ∀ u, ¬ s.Holds u i)) := by
  refine ⟨?_, ?_, ?_⟩
  · intro h
    have inv := inv_run h
    exact ⟨inv.once, fun i hi => inv.kept hi, inv.counted⟩
  · intro h
    exact property_run h
  · intro t l h hl hzero
    exact (inv_run h).finished_iff hl hzero

/-- Thread 1 registers an action, runs it, and is about to load the counter in
    `drain_all_blocking`. -/
def runsActionFirst : List Label :=
  [.call 1 .bumpWithAction] ++ List.replicate (EpochProtocol.MAX_THREADS + 13) (.step 1) ++
    [.drainAll 1]

theorem actions_and_blocking_drain_first : ∃ s s', Lts.Runs next State.init runsActionFirst s ∧
    next s (.check 1) = some s' ∧ s'.returns = [⟨1, [0]⟩] ∧ Property s' := by
  obtain ⟨s, hrun, hs⟩ := Lts.exists_runs next State.init runsActionFirst
    (fun s => decide (s.loop 1 = some ⟨0, 1⟩ ∧ s.epoch.drainCount = 0 ∧ s.finished = [0] ∧
      s.returns = [])) (by decide +kernel)
  obtain ⟨hl, hzero, hfin, hret⟩ := of_decide_eq_true hs
  have hnext : next s (.check 1) = some { s with
      loops := Function.update s.loops 1 (s.loops 1).tail
      returns := ⟨1, s.finished⟩ :: s.returns } := by
    simp only [next, hl, hzero, Nat.lt_irrefl, if_false]
  refine ⟨s, _, hrun, hnext, by rw [hfin, hret], ?_⟩
  have hnone : ∀ i < 1, ∀ u, ¬ s.Holds u i := by
    apply ((actions_and_blocking_drain _ s).2.2 1 ⟨0, 1⟩ hrun hl hzero).mp
    intro i hi
    rw [hfin, Nat.lt_one_iff.mp hi]
    exact List.mem_cons_self
  -- only the last step is a load of the counter
  have hquiet : Lts.Steps next NoneTaken State.init runsActionFirst s := by
    refine hrun.imp fun l hl _ _ t loop hcheck => ?_
    subst hcheck
    simp [runsActionFirst] at hl
  have hlast : NoneTaken s (.check 1) := by
    rintro t loop ⟨⟩ hloop - i hi u
    obtain rfl := Option.some.inj (hl.symm.trans hloop)
    exact hnone i hi u
  exact (actions_and_blocking_drain _ _).2.1 (hquiet.append (.cons hlast hnext (.nil _)))

/-- A blocking drain returns although the action registered before it has not been started. -/
theorem blocking_drain_returns_early :
    ¬ ∀ ls s, Lts.Runs next State.init ls s → Property s := by
  intro hall
  obtain ⟨s, hrun, hs⟩ := Lts.exists_runs next State.init returnsDuringDrain
    (fun s => decide (s.returns = [⟨1, []⟩])) (by decide +kernel)
  have hw := (hall _ _ hrun).waited ⟨1, []⟩ (by
    rw [of_decide_eq_true hs]
    exact List.mem_cons_self) 0 Nat.one_pos
  cases hw

end Tsavorite.DrainActions
