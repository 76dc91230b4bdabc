import Mathlib.Logic.Function.Basic
import Mathlib.Tactic.Ring
import MiniGarnet.Lib.Lts

/-! # The epoch protocol

    `LightEpoch` at the grain of its atomic operations.  Any number of
    threads call `protect`, `refresh`, `unprotect`, `release_thread`,
    `bump_current_epoch` and `bump_with_action`, one of them from inside an
    action if the action does so.  Every load, store, compare-exchange and
    fetch-and-add is a step of its own; in particular `compute_safe_epoch`
    reads the table one slot at a time.

    The point of the protocol: an action registered by `bump_with_action`
    does not start while a thread is still in the protected section in which
    it was when the call loaded `prior`.  The scan that computes the safe
    epoch may have passed a thread's slot before the thread published, and
    its result is used much later; what saves it is that the scan starts
    from the current epoch, so its result lies below every epoch loaded after
    it started.
-/

namespace Tsavorite.EpochProtocol

/-! ## Section 1: Model -/

abbrev Thread : Type := ℕ

def MAX_THREADS : ℕ := 128

def UNPROTECTED : ℕ := 0

/-- Thread ids are handed out from 1; 0 marks a free slot. -/
def threadId (t : Thread) : ℕ := t + 1

/-- Where `my_slot` starts to look for a free slot. -/
def startSlot (t : Thread) : ℕ := threadId t * 0x9E3779B9 % 2 ^ 64 % MAX_THREADS

/-- A registered action.  `published` is history: the protected section each
    thread was in when `prior` was loaded. -/
structure DrainAction where
  epoch : ℕ
  published : Thread → Option ℕ

/-- The three calls that go through `my_slot`. -/
inductive SlotCall where
  | protect
  | refresh
  | unprotect
  deriving DecidableEq, Repr

inductive Call where
  | slot (c : SlotCall)
  | releaseThread
  | bumpCurrentEpoch
  | bumpWithAction
  deriving DecidableEq, Repr

/-- What a thread does next. -/
inductive Pc where
  | idle
  /-- `my_slot`: compare the owner of the cached slot. -/
  | checkingCached (c : SlotCall)
  /-- `my_slot`: compare-exchange the owner of the `i`-th candidate. -/
  | claiming (c : SlotCall) (i : ℕ)
  /-- `protect`, `refresh`: load the current epoch. -/
  | loadingEpoch (c : SlotCall) (idx : ℕ)
  /-- `protect`, `refresh`: publish the epoch loaded. -/
  | publishing (c : SlotCall) (idx e : ℕ)
  /-- `unprotect`: publish 0. -/
  | leaving (idx : ℕ)
  /-- `refresh`, `bump_current_epoch`: load `drain_count`. -/
  | checkingCount
  /-- `release_thread`: compare the owner of the cached slot. -/
  | releasing
  | clearingEpoch (idx : ℕ)
  | clearingOwner (idx : ℕ)
  /-- `bump_current_epoch`: fetch-and-add. -/
  | bumping
  | loadingPrior
  /-- `bump_with_action`: take the lock and push. -/
  | pushing (a : DrainAction)
  /-- `bump_with_action`: store `drain_count`, holding the lock. -/
  | countingPushed
  | unlockingPushed
  /-- `bump_with_action`: fetch-and-add. -/
  | advancing
  /-- `compute_safe_epoch`: load the current epoch. -/
  | loadingCurrent
  /-- `compute_safe_epoch`: load slot `j`. -/
  | scanning (j min : ℕ)
  /-- `drain`: `try_lock` and partition. -/
  | partitioning (safe : ℕ)
  /-- `drain`: store `drain_count`, holding the lock. -/
  | countingDrained (ready : List DrainAction)
  | unlockingDrained (ready : List DrainAction)
  /-- `drain`: start the next ready action, or return. -/
  | running (ready : List DrainAction)
  /-- `my_slot` found no free slot. -/
  | panicked

/-- Global state.  `sections` and `clock` are history: the protected section
    each thread is in, numbered by the store that opened it.  A thread is in
    a section from the store of `protect` to its next store to its slot
    (`refresh` and a repeated `protect` open a new one). -/
structure State where
  current : ℕ
  /-- `epoch` of the slots below `MAX_THREADS`. -/
  epochAt : ℕ → ℕ
  /-- `owner` of the slots below `MAX_THREADS`. -/
  owner : ℕ → ℕ
  drain : List DrainAction
  locked : Bool
  drainCount : ℕ
  /-- `MY_SLOT` -/
  mySlot : Thread → Option ℕ
  pc : Thread → Pc
  /-- The ready lists of the drains whose action the thread is inside. -/
  suspended : Thread → List (List DrainAction)
  sections : Thread → Option ℕ
  clock : ℕ

/-- `LightEpoch::new` -/
def init : State where
  current := 1
  epochAt := fun _ => UNPROTECTED
  owner := fun _ => 0
  drain := []
  locked := false
  drainCount := 0
  mySlot := fun _ => none
  pc := fun _ => .idle
  suspended := fun _ => []
  sections := fun _ => none
  clock := 0

inductive Label where
  /-- A thread outside any call, or inside an action, makes a call. -/
  | call (t : Thread) (c : Call)
  /-- A thread takes its next step. -/
  | step (t : Thread)
  deriving DecidableEq, Repr

namespace State

variable (s : State) (t : Thread)

def goto (p : Pc) : State := { s with pc := Function.update s.pc t p }

/-- The thread owns the slot it has cached. -/
def ownsCached : Option ℕ :=
  match s.mySlot t with
  | some idx => if s.owner idx = threadId t then some idx else none
  | none => none

/-- What follows `my_slot`. -/
def slotFound (c : SlotCall) (idx : ℕ) : State :=
  match c with
  | .unprotect => s.goto t (.leaving idx)
  | c => s.goto t (.loadingEpoch c idx)

/-- Store to the thread's epoch slot. -/
def store (idx e : ℕ) (sect : Option ℕ) : State :=
  { s with
    epochAt := Function.update s.epochAt idx e
    sections := Function.update s.sections t sect
    clock := s.clock + 1 }

end State

def firstPc : Call → Pc
  | .slot c => .checkingCached c
  | .releaseThread => .releasing
  | .bumpCurrentEpoch => .bumping
  | .bumpWithAction => .loadingPrior

/-- The next atomic step of a thread at `p`; `none` when it has to wait. -/
def stepPc (s : State) (t : Thread) : Pc → Option State
  | .idle =>
    -- an action returns to the drain that called it
    match s.suspended t with
    | [] => none
    | ready :: rest =>
      some ({ s with suspended := Function.update s.suspended t rest }.goto t (.running ready))
  | .checkingCached c =>
    match s.ownsCached t with
    | some idx => some (s.slotFound t c idx)
    | none => some (s.goto t (.claiming c 0))
  | .claiming c i =>
    let idx := (startSlot t + i) % MAX_THREADS
    if s.owner idx = 0 then
      some ({ s with
        owner := Function.update s.owner idx (threadId t)
        mySlot := Function.update s.mySlot t (some idx) }.slotFound t c idx)
    else if i + 1 < MAX_THREADS then some (s.goto t (.claiming c (i + 1)))
    else some (s.goto t .panicked)
  | .loadingEpoch c idx => some (s.goto t (.publishing c idx s.current))
  | .publishing c idx e =>
    some ((s.store t idx e (some s.clock)).goto t (if c = .refresh then .checkingCount else .idle))
  | .leaving idx => some ((s.store t idx UNPROTECTED none).goto t .idle)
  | .checkingCount => some (s.goto t (if 0 < s.drainCount then .loadingCurrent else .idle))
  | .releasing =>
    match s.ownsCached t with
    | some idx => some (s.goto t (.clearingEpoch idx))
    | none => some (s.goto t .idle)
  | .clearingEpoch idx => some ((s.store t idx UNPROTECTED none).goto t (.clearingOwner idx))
  | .clearingOwner idx =>
    some ({ s with
      owner := Function.update s.owner idx 0
      mySlot := Function.update s.mySlot t none }.goto t .idle)
  | .bumping => some ({ s with current := s.current + 1 }.goto t .checkingCount)
  | .loadingPrior => some (s.goto t (.pushing ⟨s.current, s.sections⟩))
  | .pushing a =>
    if s.locked then none
    else some ({ s with locked := true, drain := s.drain ++ [a] }.goto t .countingPushed)
  | .countingPushed => some ({ s with drainCount := s.drain.length }.goto t .unlockingPushed)
  | .unlockingPushed => some ({ s with locked := false }.goto t .advancing)
  | .advancing => some ({ s with current := s.current + 1 }.goto t .loadingCurrent)
  | .loadingCurrent => some (s.goto t (.scanning 0 s.current))
  | .scanning j min =>
    if j < MAX_THREADS then
      let e := s.epochAt j
      some (s.goto t (.scanning (j + 1) (if e ≠ UNPROTECTED ∧ e < min then e else min)))
    else some (s.goto t (.partitioning (min - 1)))
  | .partitioning safe =>
    if s.locked then some (s.goto t .idle)
    else if s.drain.isEmpty then some (s.goto t .idle)
    else
      some ({ s with
        locked := true
        drain := s.drain.filter fun a => ¬ a.epoch ≤ safe }.goto t
          (.countingDrained (s.drain.filter fun a => a.epoch ≤ safe)))
  | .countingDrained ready =>
    some ({ s with drainCount := s.drain.length }.goto t (.unlockingDrained ready))
  | .unlockingDrained ready => some ({ s with locked := false }.goto t (.running ready))
  | .running [] => some (s.goto t .idle)
  | .running (_ :: ready) =>
    -- the action starts: the thread is free to make calls until it returns
    some ({ s with
      suspended := Function.update s.suspended t (ready :: s.suspended t) }.goto t .idle)
  | .panicked => none

def next (s : State) : Label → Option State
  | .call t c =>
    match s.pc t with
    | .idle => some (s.goto t (firstPc c))
    | _ => none
  | .step t => stepPc s t (s.pc t)

/-! ## Section 2: The invariant -/

/-- The slot the thread owns and publishes in. -/
structure Holds (s : State) (t : Thread) (idx : ℕ) : Prop where
  cached : s.mySlot t = some idx
  owned : s.owner idx = threadId t
  inTable : idx < MAX_THREADS

/-- `u` is still in the section it was in when `a` was registered. -/
def Blocks (s : State) (a : DrainAction) (u : Thread) : Prop :=
  ∃ k, a.published u = some k ∧ s.sections u = some k

/-- Registered and not yet taken off the drain list. -/
def Live (s : State) (a : DrainAction) : Prop := a ∈ s.drain ∨ ∃ u, s.pc u = .pushing a

/-- The sections an action remembers are past or present ones. -/
def Known (s : State) (a : DrainAction) : Prop := ∀ u k, a.published u = some k → k < s.clock

/-- Every action of a ready list may start. -/
def Clear (s : State) (ready : List DrainAction) : Prop :=
  ∀ a ∈ ready, Known s a ∧ ∀ u, ¬ Blocks s a u

/-- What a thread's local values are good for.

    The two clauses that matter: a scan that has passed the slot of a blocking
    thread holds a minimum below the action's epoch already, and the safe
    epoch computed from it lies strictly below the epoch of every action that
    is still blocked. -/
def PcOk (s : State) (t : Thread) : Pc → Prop
  | .claiming _ _ => s.sections t = none
  | .loadingEpoch _ idx => Holds s t idx
  | .leaving idx => Holds s t idx
  | .clearingEpoch idx => Holds s t idx
  | .publishing _ idx e => Holds s t idx ∧ 0 < e ∧ e ≤ s.current
  | .clearingOwner idx => Holds s t idx ∧ s.sections t = none
  | .scanning j min => 0 < min ∧ min ≤ s.current ∧
      ∀ a, Live s a → ∀ u i, Blocks s a u → s.mySlot u = some i → j ≤ i ∨ min ≤ a.epoch
  | .partitioning safe => safe < s.current ∧ ∀ a, Live s a → ∀ u, Blocks s a u → safe < a.epoch
  | .countingDrained ready => Clear s ready
  | .unlockingDrained ready => Clear s ready
  | .running ready => Clear s ready
  | _ => True

structure Inv (s : State) : Prop where
  current_pos : 0 < s.current
  slot_lt : ∀ u i, s.mySlot u = some i → i < MAX_THREADS
  published_le : ∀ i, s.epochAt i ≤ s.current
  section_slot : ∀ u k, s.sections u = some k → ∃ i, Holds s u i ∧ 0 < s.epochAt i
  section_lt : ∀ u k, s.sections u = some k → k < s.clock
  live_known : ∀ a, Live s a → Known s a
  live_le : ∀ a, Live s a → ∀ u i, Blocks s a u → s.mySlot u = some i → s.epochAt i ≤ a.epoch
  pcs : ∀ t, PcOk s t (s.pc t)
  suspended : ∀ t, ∀ ready ∈ s.suspended t, Clear s ready

theorem inv_init : Inv init where
  current_pos := Nat.one_pos
  slot_lt := fun _ _ h => by cases h
  published_le := fun _ => Nat.zero_le _
  section_slot := fun _ _ h => by cases h
  section_lt := fun _ _ h => by cases h
  live_known := by
    rintro a (h | ⟨u, h⟩)
    · cases h
    · cases h
  live_le := by
    rintro a (h | ⟨u, h⟩)
    · cases h
    · cases h
  pcs := fun _ => trivial
  suspended := fun _ _ h => by cases h

/-! ## Section 3: What one step of `t` can do to the rest

    A section is never re-entered, the slot of a thread that stays in its
    section is left alone, and an action that becomes live is tagged with the
    current epoch and the current sections.
-/

structure Evolves (t : Thread) (s s' : State) : Prop where
  current_le : s.current ≤ s'.current
  clock_le : s.clock ≤ s'.clock
  slot_lt : ∀ u i, s'.mySlot u = some i → i < MAX_THREADS
  published_le : ∀ i, s'.epochAt i ≤ s'.current
  section_slot : ∀ u k, s'.sections u = some k → ∃ i, Holds s' u i ∧ 0 < s'.epochAt i
  section_lt : ∀ u k, s'.sections u = some k → k < s'.clock
  stays : ∀ u k, k < s.clock → s'.sections u = some k →
    s.sections u = some k ∧ s'.mySlot u = s.mySlot u ∧
      ∀ i, s.mySlot u = some i → s'.epochAt i = s.epochAt i
  live : ∀ a, Live s' a → Live s a ∨ (a.epoch = s.current ∧ a.published = s.sections)
  holds : ∀ u, u ≠ t → ∀ i, Holds s u i → Holds s' u i
  sections_other : ∀ u, u ≠ t → s'.sections u = s.sections u
  pc_other : ∀ u, u ≠ t → s'.pc u = s.pc u
  suspended_other : ∀ u, u ≠ t → s'.suspended u = s.suspended u

variable {s s' : State} {t u : Thread} {a : DrainAction}

theorem Known.mono (h : Known s a) (hclock : s.clock ≤ s'.clock) : Known s' a :=
  fun u k hk => Nat.lt_of_lt_of_le (h u k hk) hclock

theorem Evolves.blocks (e : Evolves t s s') (hk : Known s a) (hb : Blocks s' a u) :
    Blocks s a u ∧ s'.mySlot u = s.mySlot u ∧
      ∀ i, s.mySlot u = some i → s'.epochAt i = s.epochAt i := by
  obtain ⟨k, hpub, hsec⟩ := hb
  obtain ⟨hsec', hslot, hepoch⟩ := e.stays u k (hk u k hpub) hsec
  exact ⟨⟨k, hpub, hsec'⟩, hslot, hepoch⟩

theorem Evolves.clear {ready : List DrainAction} (e : Evolves t s s') (h : Clear s ready) :
    Clear s' ready := by
  intro a ha
  obtain ⟨hknown, hclear⟩ := h a ha
  exact ⟨hknown.mono e.clock_le, fun u hb => hclear u (e.blocks hknown hb).1⟩

/-- A new live action knows only sections that exist. -/
theorem Inv.known_of_sections (inv : Inv s) (h : a.published = s.sections) : Known s a := by
  intro u k hk
  rw [h] at hk
  exact inv.section_lt u k hk

/-- The values held by a thread that does not move stay good. -/
theorem Evolves.pcOk {p : Pc} (e : Evolves t s s') (inv : Inv s)
    (hholds : ∀ i, Holds s u i → Holds s' u i) (hsec : s'.sections u = s.sections u)
    (h : PcOk s u p) : PcOk s' u p := by
  have hcur := e.current_le
  cases p with
  | claiming c i => exact hsec.trans h
  | loadingEpoch c idx => exact hholds _ h
  | leaving idx => exact hholds _ h
  | clearingEpoch idx => exact hholds _ h
  | publishing c idx ep => exact ⟨hholds _ h.1, h.2.1, by have := h.2.2; omega⟩
  | clearingOwner idx => exact ⟨hholds _ h.1, hsec.trans h.2⟩
  | scanning j min =>
    obtain ⟨hpos, hle, hscan⟩ := h
    refine ⟨hpos, by omega, fun a ha v i hb hi => ?_⟩
    rcases e.live a ha with ha | ⟨hepoch, hpub⟩
    · obtain ⟨hb, hslot, -⟩ := e.blocks (inv.live_known a ha) hb
      exact hscan a ha v i hb (hslot ▸ hi)
    · -- registered after the scan started
      exact .inr (by omega)
  | partitioning safe =>
    obtain ⟨hlt, hsafe⟩ := h
    refine ⟨by omega, fun a ha v hb => ?_⟩
    rcases e.live a ha with ha | ⟨hepoch, hpub⟩
    · exact hsafe a ha v (e.blocks (inv.live_known a ha) hb).1
    · omega
  | countingDrained ready => exact e.clear h
  | unlockingDrained ready => exact e.clear h
  | running ready => exact e.clear h
  | _ => trivial

/-- The invariant after a step of `t`, up to the values `t` itself then holds. -/
theorem Evolves.inv (e : Evolves t s s') (inv : Inv s) (hpc : PcOk s' t (s'.pc t))
    (hsusp : ∀ ready ∈ s'.suspended t, Clear s' ready) : Inv s' where
  current_pos := Nat.lt_of_lt_of_le inv.current_pos e.current_le
  slot_lt := e.slot_lt
  published_le := e.published_le
  section_slot := e.section_slot
  section_lt := e.section_lt
  live_known := by
    intro a ha
    rcases e.live a ha with ha | ⟨-, hpub⟩
    · exact (inv.live_known a ha).mono e.clock_le
    · exact (inv.known_of_sections hpub).mono e.clock_le
  live_le := by
    intro a ha u i hb hi
    rcases e.live a ha with ha | ⟨hepoch, hpub⟩
    · obtain ⟨hb, hslot, heq⟩ := e.blocks (inv.live_known a ha) hb
      rw [hslot] at hi
      rw [heq i hi]
      exact inv.live_le a ha u i hb hi
    · obtain ⟨-, hslot, heq⟩ := e.blocks (inv.known_of_sections hpub) hb
      rw [hslot] at hi
      rw [heq i hi, hepoch]
      exact inv.published_le i
  pcs := by
    intro u
    by_cases hu : u = t
    · rw [hu]
      exact hpc
    · rw [e.pc_other u hu]
      exact e.pcOk inv (e.holds u hu) (e.sections_other u hu) (inv.pcs u)
  suspended := by
    intro u ready hmem
    by_cases hu : u = t
    · exact hsusp ready (hu ▸ hmem)
    · rw [e.suspended_other u hu] at hmem
      exact e.clear (inv.suspended u ready hmem)

/-! ## Section 4: The steps -/

@[simp] theorem goto_pc (p : Pc) : (s.goto t p).pc t = p := by simp [State.goto]

theorem goto_pc_of_ne (p : Pc) (h : u ≠ t) : (s.goto t p).pc u = s.pc u := by
  simp [State.goto, Function.update_of_ne h]

theorem Blocks.of_goto {p : Pc} (h : Blocks (s.goto t p) a u) : Blocks s a u := h

/-- Nothing a thread has published, and no section, changes. -/
structure SameSlots (s s₁ : State) : Prop where
  epochAt : s₁.epochAt = s.epochAt
  owner : s₁.owner = s.owner
  mySlot : s₁.mySlot = s.mySlot
  sections : s₁.sections = s.sections
  clock : s₁.clock = s.clock

theorem SameSlots.refl (s : State) : SameSlots s s := ⟨rfl, rfl, rfl, rfl, rfl⟩

theorem SameSlots.blocks {s₁ : State} (h : SameSlots s s₁) : Blocks s₁ a u ↔ Blocks s a u := by
  unfold Blocks
  rw [h.sections]

theorem SameSlots.clear {s₁ : State} {ready : List DrainAction} (h : SameSlots s s₁)
    (hclear : Clear s ready) : Clear s₁ ready := by
  intro b hb
  obtain ⟨hknown, hblocks⟩ := hclear b hb
  exact ⟨hknown.mono (Nat.le_of_eq h.clock.symm), fun v hv => hblocks v (h.blocks.mp hv)⟩

/-- How a step of `t` may change the set of live actions. -/
def LiveStep (t : Thread) (s s₁ : State) (p : Pc) : Prop :=
  (∀ a ∈ s₁.drain, a ∈ s.drain ∨ s.pc t = .pushing a) ∧
  (∀ a, p = .pushing a → a.epoch = s.current ∧ a.published = s.sections) ∧
  (∀ u, u ≠ t → s₁.pc u = s.pc u)

theorem LiveStep.live {s₁ : State} {p : Pc} (h : LiveStep t s s₁ p) (ha : Live (s₁.goto t p) a) :
    Live s a ∨ (a.epoch = s.current ∧ a.published = s.sections) := by
  obtain ⟨hdrain, hpush, hother⟩ := h
  rcases ha with ha | ⟨u, hu⟩
  · rcases hdrain a ha with ha | ha
    · exact .inl (.inl ha)
    · exact .inl (.inr ⟨t, ha⟩)
  · by_cases hut : u = t
    · rw [hut, goto_pc] at hu
      exact .inr (hpush a hu)
    · rw [goto_pc_of_ne p hut, hother u hut] at hu
      exact .inl (.inr ⟨u, hu⟩)

/-- A step that leaves the slots alone. -/
theorem Inv.move {s₁ : State} {p : Pc} (inv : Inv s) (same : SameSlots s s₁)
    (hcur : s.current ≤ s₁.current) (hlive : LiveStep t s s₁ p)
    (hother : ∀ u, u ≠ t → s₁.suspended u = s.suspended u)
    (hsusp : ∀ ready ∈ s₁.suspended t, Clear s ready)
    (hok : PcOk (s₁.goto t p) t p) : Inv (s₁.goto t p) := by
  have hsame : SameSlots s (s₁.goto t p) :=
    ⟨same.epochAt, same.owner, same.mySlot, same.sections, same.clock⟩
  have hholds : ∀ u i, Holds s u i → Holds (s₁.goto t p) u i := fun u i h =>
    ⟨by rw [hsame.mySlot]; exact h.cached, by rw [hsame.owner]; exact h.owned, h.inTable⟩
  have e : Evolves t s (s₁.goto t p) :=
    { current_le := hcur
      clock_le := Nat.le_of_eq hsame.clock.symm
      slot_lt := fun u i h => inv.slot_lt u i (by rw [hsame.mySlot] at h; exact h)
      published_le := fun i => by
        rw [hsame.epochAt]
        exact Nat.le_trans (inv.published_le i) hcur
      section_slot := fun u k h => by
        rw [hsame.sections] at h
        obtain ⟨i, hi, hpos⟩ := inv.section_slot u k h
        exact ⟨i, hholds u i hi, by rw [hsame.epochAt]; exact hpos⟩
      section_lt := fun u k h => by
        rw [hsame.sections] at h
        rw [hsame.clock]
        exact inv.section_lt u k h
      stays := fun u k _ h => by
        rw [hsame.sections] at h
        exact ⟨h, by rw [hsame.mySlot], fun i _ => by rw [hsame.epochAt]⟩
      live := fun a ha => hlive.live ha
      holds := fun u _ => hholds u
      sections_other := fun u _ => by rw [hsame.sections]
      pc_other := fun u hu => (goto_pc_of_ne p hu).trans (hlive.2.2 u hu)
      suspended_other := hother }
  refine e.inv inv (by rwa [goto_pc]) fun ready hr => hsame.clear (hsusp ready hr)

/-- `PcOk` does not look at the thread's own program counter, except through
    the actions being registered. -/
theorem PcOk.goto {p q : Pc} (h : PcOk s t q) (hp : ∀ a, p ≠ .pushing a) :
    PcOk (s.goto t p) t q := by
  have hlive : ∀ a, Live (s.goto t p) a → Live s a := by
    intro a ha
    rcases ha with ha | ⟨u, hu⟩
    · exact .inl ha
    · by_cases hut : u = t
      · rw [hut, goto_pc] at hu
        exact absurd hu (hp a)
      · exact .inr ⟨u, (goto_pc_of_ne p hut).symm.trans hu⟩
  cases q with
  | scanning j min => exact ⟨h.1, h.2.1, fun a ha => h.2.2 a (hlive a ha)⟩
  | partitioning safe => exact ⟨h.1, fun a ha => h.2 a (hlive a ha)⟩
  | claiming c i => exact h
  | loadingEpoch c idx => exact ⟨h.cached, h.owned, h.inTable⟩
  | leaving idx => exact ⟨h.cached, h.owned, h.inTable⟩
  | clearingEpoch idx => exact ⟨h.cached, h.owned, h.inTable⟩
  | publishing c idx e => exact ⟨⟨h.1.cached, h.1.owned, h.1.inTable⟩, h.2⟩
  | clearingOwner idx => exact ⟨⟨h.1.cached, h.1.owned, h.1.inTable⟩, h.2⟩
  | countingDrained ready => exact h
  | unlockingDrained ready => exact h
  | running ready => exact h
  | _ => trivial

/-- A step that only moves the thread's program counter. -/
theorem Inv.goto {p : Pc} (inv : Inv s) (hp : ∀ a, p ≠ .pushing a) (hok : PcOk s t p) :
    Inv (s.goto t p) :=
  inv.move (.refl s) (Nat.le_refl _)
    ⟨fun _ h => .inl h, fun a h => absurd h (hp a), fun _ _ => rfl⟩ (fun _ _ => rfl)
    (inv.suspended t) (hok.goto hp)

/-- Slots of different threads are different. -/
theorem Holds.ne {idx i : ℕ} (h : Holds s t idx) (h' : Holds s u i) (hne : u ≠ t) : i ≠ idx := by
  intro heq
  subst heq
  have hid : threadId t = threadId u := h.owned.symm.trans h'.owned
  exact hne (Nat.succ.inj hid).symm

/-- A store to the thread's own slot: its old section is over. -/
theorem Inv.store {p : Pc} {idx ep : ℕ} {sect : Option ℕ} (inv : Inv s) (hown : Holds s t idx)
    (hep : ep ≤ s.current) (hsect : ∀ k, sect = some k → k = s.clock ∧ 0 < ep)
    (hp : ∀ a, p ≠ .pushing a)
    (hok : PcOk ((s.store t idx ep sect).goto t p) t p) :
    Inv ((s.store t idx ep sect).goto t p) := by
  have hothers : ∀ u, u ≠ t → ∀ i, s.mySlot u = some i →
      (∃ k, s.sections u = some k) → Function.update s.epochAt idx ep i = s.epochAt i := by
    rintro u hu i hi ⟨k, hk⟩
    obtain ⟨i', hi', -⟩ := inv.section_slot u k hk
    obtain rfl : i' = i := Option.some.inj (hi'.cached.symm.trans hi)
    exact Function.update_of_ne (hown.ne hi' hu) _ _
  have hlive : LiveStep t s (s.store t idx ep sect) p :=
    ⟨fun _ h => .inl h, fun a h => absurd h (hp a), fun _ _ => rfl⟩
  have e : Evolves t s ((s.store t idx ep sect).goto t p) :=
    { current_le := Nat.le_refl _
      clock_le := Nat.le_succ _
      slot_lt := inv.slot_lt
      published_le := fun i => by
        show Function.update s.epochAt idx ep i ≤ s.current
        by_cases hi : i = idx
        · rw [hi, Function.update_self]
          exact hep
        · rw [Function.update_of_ne hi]
          exact inv.published_le i
      section_slot := fun u k h => by
        change Function.update s.sections t sect u = some k at h
        by_cases hu : u = t
        · subst hu
          rw [Function.update_self] at h
          refine ⟨idx, ⟨hown.cached, hown.owned, hown.inTable⟩, ?_⟩
          show 0 < Function.update s.epochAt idx ep idx
          rw [Function.update_self]
          exact (hsect k h).2
        · rw [Function.update_of_ne hu] at h
          obtain ⟨i, hi, hpos⟩ := inv.section_slot u k h
          refine ⟨i, ⟨hi.cached, hi.owned, hi.inTable⟩, ?_⟩
          show 0 < Function.update s.epochAt idx ep i
          rw [hothers u hu i hi.cached ⟨k, h⟩]
          exact hpos
      section_lt := fun u k h => by
        change Function.update s.sections t sect u = some k at h
        show k < s.clock + 1
        by_cases hu : u = t
        · subst hu
          rw [Function.update_self] at h
          have := (hsect k h).1
          omega
        · rw [Function.update_of_ne hu] at h
          exact Nat.lt_succ_of_lt (inv.section_lt u k h)
      stays := fun u k hlt h => by
        change Function.update s.sections t sect u = some k at h
        by_cases hu : u = t
        · subst hu
          rw [Function.update_self] at h
          have := (hsect k h).1
          omega
        · rw [Function.update_of_ne hu] at h
          exact ⟨h, rfl, fun i hi => hothers u hu i hi ⟨k, h⟩⟩
      live := fun a ha => hlive.live ha
      holds := fun u _ i h => ⟨h.cached, h.owned, h.inTable⟩
      sections_other := fun u hu => Function.update_of_ne hu _ _
      pc_other := fun u hu => goto_pc_of_ne p hu
      suspended_other := fun _ _ => rfl }
  exact e.inv inv (by rwa [goto_pc]) fun ready hr => e.clear (inv.suspended t ready hr)

/-- A change of the owner of a slot, by a thread outside any section. -/
theorem Inv.own {p : Pc} {idx o : ℕ} {slot : Option ℕ} (inv : Inv s) (hsec : s.sections t = none)
    (hfree : ∀ u, u ≠ t → s.owner idx ≠ threadId u) (hslot : ∀ i, slot = some i → i < MAX_THREADS)
    (hp : ∀ a, p ≠ .pushing a)
    (hok : PcOk ({ s with
      owner := Function.update s.owner idx o
      mySlot := Function.update s.mySlot t slot }.goto t p) t p) :
    Inv ({ s with
      owner := Function.update s.owner idx o
      mySlot := Function.update s.mySlot t slot }.goto t p) := by
  set s₁ : State := { s with
    owner := Function.update s.owner idx o
    mySlot := Function.update s.mySlot t slot } with hs₁
  have hmine : ∀ u k, s.sections u = some k → u ≠ t := by
    rintro u k h rfl
    rw [hsec] at h
    cases h
  have hholds : ∀ u, u ≠ t → ∀ i, Holds s u i → Holds (s₁.goto t p) u i := by
    intro u hu i h
    have hi : i ≠ idx := by
      rintro rfl
      exact hfree u hu h.owned
    refine ⟨?_, ?_, h.inTable⟩
    · show Function.update s.mySlot t slot u = some i
      rw [Function.update_of_ne hu]
      exact h.cached
    · show Function.update s.owner idx o i = threadId u
      rw [Function.update_of_ne hi]
      exact h.owned
  have hlive : LiveStep t s s₁ p :=
    ⟨fun _ h => .inl h, fun a h => absurd h (hp a), fun _ _ => rfl⟩
  have e : Evolves t s (s₁.goto t p) :=
    { current_le := Nat.le_refl _
      clock_le := Nat.le_refl _
      slot_lt := fun u i h => by
        change Function.update s.mySlot t slot u = some i at h
        by_cases hu : u = t
        · subst hu
          rw [Function.update_self] at h
          exact hslot i h
        · rw [Function.update_of_ne hu] at h
          exact inv.slot_lt u i h
      published_le := inv.published_le
      section_slot := fun u k h => by
        obtain ⟨i, hi, hpos⟩ := inv.section_slot u k h
        exact ⟨i, hholds u (hmine u k h) i hi, hpos⟩
      section_lt := inv.section_lt
      stays := fun u k _ h => ⟨h, Function.update_of_ne (hmine u k h) _ _, fun _ _ => rfl⟩
      live := fun a ha => hlive.live ha
      holds := hholds
      sections_other := fun _ _ => rfl
      pc_other := fun u hu => goto_pc_of_ne p hu
      suspended_other := fun _ _ => rfl }
  exact e.inv inv (by rwa [goto_pc]) fun ready hr => e.clear (inv.suspended t ready hr)

theorem Inv.holds_of_ownsCached {idx : ℕ} (inv : Inv s) (h : s.ownsCached t = some idx) :
    Holds s t idx := by
  unfold State.ownsCached at h
  split at h
  · rename_i i hi
    split at h
    · cases h
      exact ⟨hi, ‹_›, inv.slot_lt t _ hi⟩
    · cases h
  · cases h

/-- A thread that does not own its cached slot is in no section. -/
theorem Inv.section_none (inv : Inv s) (h : s.ownsCached t = none) : s.sections t = none := by
  cases hs : s.sections t with
  | none => rfl
  | some k =>
    obtain ⟨i, hi, -⟩ := inv.section_slot t k hs
    simp [State.ownsCached, hi.cached, hi.owned] at h

/-- The scan step: the slot read now is accounted for in the minimum. -/
theorem Inv.scanning_succ {j min : ℕ} (inv : Inv s) (h : PcOk s t (.scanning j min)) :
    PcOk s t (.scanning (j + 1)
      (if s.epochAt j ≠ UNPROTECTED ∧ s.epochAt j < min then s.epochAt j else min)) := by
  obtain ⟨hpos, hle, hscan⟩ := h
  have hj := inv.published_le j
  have hzero : UNPROTECTED = 0 := rfl
  refine ⟨by split <;> omega, by split <;> omega, fun a ha u i hb hi => ?_⟩
  rcases hscan a ha u i hb hi with hji | hmin
  · by_cases heq : i = j
    · -- the slot of a thread that blocks `a`
      subst heq
      obtain ⟨k, -, hk⟩ := id hb
      obtain ⟨i', hi', hepoch⟩ := inv.section_slot u k hk
      obtain rfl : i' = i := Option.some.inj (hi'.cached.symm.trans hi)
      have hold := inv.live_le a ha u i' hb hi
      exact .inr (by split <;> omega)
    · exact .inl (by omega)
  · exact .inr (by split <;> omega)

/-- A complete scan: what is still blocked has an epoch above the safe one. -/
theorem Inv.scanning_done {j min : ℕ} (inv : Inv s) (h : PcOk s t (.scanning j min))
    (hj : MAX_THREADS ≤ j) : PcOk s t (.partitioning (min - 1)) := by
  obtain ⟨hpos, hle, hscan⟩ := h
  refine ⟨by omega, fun a ha u hb => ?_⟩
  obtain ⟨k, -, hk⟩ := id hb
  obtain ⟨i, hi, -⟩ := inv.section_slot u k hk
  have hlt := hi.inTable
  rcases hscan a ha u i hb hi.cached with hji | hmin <;> omega

theorem Inv.slotFound (inv : Inv s) (c : SlotCall) {idx : ℕ} (h : Holds s t idx) :
    Inv (s.slotFound t c idx) := by
  cases c with
  | unprotect => exact inv.goto (fun _ h => by cases h) h
  | protect => exact inv.goto (fun _ h => by cases h) h
  | refresh => exact inv.goto (fun _ h => by cases h) h

/-- A step that touches neither slots nor actions nor the epoch. -/
theorem Inv.locals {s₁ : State} {p : Pc} (inv : Inv s) (same : SameSlots s s₁)
    (hcur : s₁.current = s.current) (hdrain : s₁.drain = s.drain) (hpc : s₁.pc = s.pc)
    (hsusp : s₁.suspended = s.suspended) (hp : ∀ a, p ≠ .pushing a)
    (hok : PcOk (s₁.goto t p) t p) : Inv (s₁.goto t p) :=
  inv.move same (Nat.le_of_eq hcur.symm)
    ⟨fun a h => .inl (hdrain ▸ h), fun a h => absurd h (hp a), fun _ _ => by rw [hpc]⟩
    (fun _ _ => by rw [hsusp]) (fun ready hr => inv.suspended t ready (hsusp ▸ hr)) hok

/-- An action returns to the drain that called it. -/
theorem Inv.resume {ready : List DrainAction} {rest : List (List DrainAction)} (inv : Inv s)
    (h : s.suspended t = ready :: rest) :
    Inv ({ s with suspended := Function.update s.suspended t rest }.goto t (.running ready)) := by
  have hmem : ∀ r ∈ ready :: rest, Clear s r := fun r hr => inv.suspended t r (h ▸ hr)
  refine inv.move ⟨rfl, rfl, rfl, rfl, rfl⟩ (Nat.le_refl _)
    ⟨fun _ h => .inl h, fun _ h => (by cases h), fun _ _ => rfl⟩
    (fun u hu => Function.update_of_ne hu _ _) (fun r hr => ?_) (hmem ready List.mem_cons_self)
  simp only [Function.update_self] at hr
  exact hmem r (List.mem_cons_of_mem _ hr)

/-- A ready action starts. -/
theorem Inv.start {ready : List DrainAction} (inv : Inv s) (h : Clear s ready) :
    Inv ({ s with
      suspended := Function.update s.suspended t (ready :: s.suspended t) }.goto t .idle) := by
  refine inv.move ⟨rfl, rfl, rfl, rfl, rfl⟩ (Nat.le_refl _)
    ⟨fun _ h => .inl h, fun _ h => (by cases h), fun _ _ => rfl⟩
    (fun u hu => Function.update_of_ne hu _ _) (fun r hr => ?_) trivial
  simp only [Function.update_self] at hr
  rcases List.mem_cons.mp hr with rfl | hr
  · exact h
  · exact inv.suspended t r hr

/-- A successful compare-exchange on the owner of a free slot. -/
theorem Inv.claim {idx : ℕ} (inv : Inv s) (c : SlotCall) (hsec : s.sections t = none)
    (hfree : s.owner idx = 0) (hlt : idx < MAX_THREADS) :
    Inv ({ s with
      owner := Function.update s.owner idx (threadId t)
      mySlot := Function.update s.mySlot t (some idx) }.slotFound t c idx) := by
  have hother : ∀ u, u ≠ t → s.owner idx ≠ threadId u := by
    intro u _
    rw [hfree]
    exact (Nat.succ_ne_zero u).symm
  have hslot : ∀ j, some idx = some j → j < MAX_THREADS := fun j hj => Option.some.inj hj ▸ hlt
  cases c with
  | unprotect =>
    exact inv.own hsec hother hslot (fun _ h => by cases h)
      ⟨by simp [State.goto], by simp [State.goto], hlt⟩
  | protect =>
    exact inv.own hsec hother hslot (fun _ h => by cases h)
      ⟨by simp [State.goto], by simp [State.goto], hlt⟩
  | refresh =>
    exact inv.own hsec hother hslot (fun _ h => by cases h)
      ⟨by simp [State.goto], by simp [State.goto], hlt⟩

/-- The partition: nothing that is still blocked becomes ready. -/
theorem Inv.partition {safe : ℕ} (inv : Inv s) (h : PcOk s t (.partitioning safe)) :
    Inv ({ s with
      locked := true
      drain := s.drain.filter fun a => ¬ a.epoch ≤ safe }.goto t
        (.countingDrained (s.drain.filter fun a => a.epoch ≤ safe))) := by
  refine inv.move ⟨rfl, rfl, rfl, rfl, rfl⟩ (Nat.le_refl _)
    ⟨fun b hb => .inl (List.mem_of_mem_filter hb), fun _ h => (by cases h), fun _ _ => rfl⟩
    (fun _ _ => rfl) (inv.suspended t) ?_
  intro a ha
  obtain ⟨hmem, hle⟩ := List.mem_filter.mp ha
  have hle : a.epoch ≤ safe := by simpa using hle
  refine ⟨inv.live_known a (.inl hmem), fun u hb => ?_⟩
  have hblocked : safe < a.epoch := h.2 a (.inl hmem) u hb
  omega

theorem Inv.stepPc (inv : Inv s) (h : EpochProtocol.stepPc s t (s.pc t) = some s') : Inv s' := by
  have hpc := inv.pcs t
  cases hp : s.pc t with
  | idle =>
    rw [hp] at h
    simp only [EpochProtocol.stepPc] at h
    split at h
    · cases h
    · cases h
      exact inv.resume ‹_›
  | checkingCached c =>
    rw [hp] at h
    simp only [EpochProtocol.stepPc] at h
    split at h
    · cases h
      exact inv.slotFound c (inv.holds_of_ownsCached ‹_›)
    · cases h
      exact inv.goto (fun _ h => by cases h) (inv.section_none ‹_›)
  | claiming c i =>
    rw [hp] at h hpc
    have hsec : s.sections t = none := hpc
    have hlt : (startSlot t + i) % MAX_THREADS < MAX_THREADS := Nat.mod_lt _ (by decide)
    simp only [EpochProtocol.stepPc] at h
    split at h
    · cases h
      exact inv.claim c hsec ‹_› hlt
    · split at h
      · cases h
        exact inv.goto (fun _ h => by cases h) hsec
      · cases h
        exact inv.goto (fun _ h => by cases h) trivial
  | loadingEpoch c idx =>
    rw [hp] at h hpc
    cases h
    exact inv.goto (fun _ h => by cases h) ⟨hpc, inv.current_pos, Nat.le_refl _⟩
  | publishing c idx e =>
    rw [hp] at h hpc
    obtain ⟨hholds, hpos, hle⟩ := hpc
    simp only [EpochProtocol.stepPc] at h
    cases h
    refine inv.store hholds hle (fun k hk => ⟨(Option.some.inj hk).symm, hpos⟩) ?_ ?_
    · intro a ha
      split at ha <;> cases ha
    · split <;> trivial
  | leaving idx =>
    rw [hp] at h hpc
    cases h
    exact inv.store hpc (Nat.zero_le _) (fun k hk => by cases hk) (fun _ h => by cases h) trivial
  | checkingCount =>
    rw [hp] at h
    simp only [EpochProtocol.stepPc] at h
    cases h
    refine inv.goto ?_ ?_
    · intro a ha
      split at ha <;> cases ha
    · split <;> trivial
  | releasing =>
    rw [hp] at h
    simp only [EpochProtocol.stepPc] at h
    split at h
    · cases h
      exact inv.goto (fun _ h => by cases h) (inv.holds_of_ownsCached ‹_›)
    · cases h
      exact inv.goto (fun _ h => by cases h) trivial
  | clearingEpoch idx =>
    rw [hp] at h hpc
    cases h
    have hholds : Holds s t idx := hpc
    exact inv.store hholds (Nat.zero_le _) (fun k hk => by cases hk) (fun _ h => by cases h)
      ⟨⟨hholds.cached, hholds.owned, hholds.inTable⟩, Function.update_self _ _ _⟩
  | clearingOwner idx =>
    rw [hp] at h hpc
    obtain ⟨hholds, hsec⟩ := hpc
    cases h
    refine inv.own hsec (fun u hu heq => ?_) (fun i hi => by cases hi) (fun _ h => by cases h)
      trivial
    exact hu (Nat.succ.inj (hholds.owned.symm.trans heq)).symm
  | bumping =>
    rw [hp] at h
    cases h
    exact inv.move ⟨rfl, rfl, rfl, rfl, rfl⟩ (Nat.le_succ _)
      ⟨fun _ h => .inl h, fun _ h => (by cases h), fun _ _ => rfl⟩ (fun _ _ => rfl)
      (inv.suspended t) trivial
  | loadingPrior =>
    rw [hp] at h
    cases h
    refine inv.move (.refl s) (Nat.le_refl _)
      ⟨fun _ h => .inl h, fun a h => ?_, fun _ _ => rfl⟩ (fun _ _ => rfl)
      (inv.suspended t) trivial
    cases h
    exact ⟨rfl, rfl⟩
  | pushing a =>
    rw [hp] at h
    simp only [EpochProtocol.stepPc] at h
    split at h
    · cases h
    · cases h
      refine inv.move ⟨rfl, rfl, rfl, rfl, rfl⟩ (Nat.le_refl _)
        ⟨fun b hb => ?_, fun _ h => (by cases h), fun _ _ => rfl⟩ (fun _ _ => rfl)
        (inv.suspended t) trivial
      rcases List.mem_append.mp hb with hb | hb
      · exact .inl hb
      · exact .inr (by rw [List.mem_singleton.mp hb, hp])
  | countingPushed =>
    rw [hp] at h
    cases h
    exact inv.locals ⟨rfl, rfl, rfl, rfl, rfl⟩ rfl rfl rfl rfl (fun _ h => by cases h) trivial
  | unlockingPushed =>
    rw [hp] at h
    cases h
    exact inv.locals ⟨rfl, rfl, rfl, rfl, rfl⟩ rfl rfl rfl rfl (fun _ h => by cases h) trivial
  | advancing =>
    rw [hp] at h
    cases h
    exact inv.move ⟨rfl, rfl, rfl, rfl, rfl⟩ (Nat.le_succ _)
      ⟨fun _ h => .inl h, fun _ h => (by cases h), fun _ _ => rfl⟩ (fun _ _ => rfl)
      (inv.suspended t) trivial
  | loadingCurrent =>
    rw [hp] at h
    cases h
    exact inv.goto (fun _ h => by cases h)
      ⟨inv.current_pos, Nat.le_refl _, fun _ _ _ i _ _ => .inl (Nat.zero_le i)⟩
  | scanning j min =>
    rw [hp] at h hpc
    simp only [EpochProtocol.stepPc] at h
    split at h
    · cases h
      exact inv.goto (fun _ h => by cases h) (inv.scanning_succ hpc)
    · cases h
      exact inv.goto (fun _ h => by cases h) (inv.scanning_done hpc (by omega))
  | partitioning safe =>
    rw [hp] at h hpc
    simp only [EpochProtocol.stepPc] at h
    split at h
    · cases h
      exact inv.goto (fun _ h => by cases h) trivial
    split at h
    · cases h
      exact inv.goto (fun _ h => by cases h) trivial
    · cases h
      exact inv.partition hpc
  | countingDrained ready =>
    rw [hp] at h hpc
    cases h
    exact inv.locals ⟨rfl, rfl, rfl, rfl, rfl⟩ rfl rfl rfl rfl (fun _ h => by cases h) hpc
  | unlockingDrained ready =>
    rw [hp] at h hpc
    cases h
    exact inv.locals ⟨rfl, rfl, rfl, rfl, rfl⟩ rfl rfl rfl rfl (fun _ h => by cases h) hpc
  | running ready =>
    rw [hp] at h hpc
    cases ready with
    | nil =>
      cases h
      exact inv.goto (fun _ h => by cases h) trivial
    | cons a ready =>
      cases h
      exact inv.start fun b hb => hpc b (List.mem_cons_of_mem _ hb)
  | panicked =>
    rw [hp] at h
    cases h

theorem Inv.step {l : Label} (inv : Inv s) (h : next s l = some s') : Inv s' := by
  cases l with
  | step t => exact inv.stepPc h
  | call t c =>
    simp only [next] at h
    split at h
    · cases h
      cases c with
      | slot c => exact inv.goto (fun _ h => by cases h) trivial
      | releaseThread => exact inv.goto (fun _ h => by cases h) trivial
      | bumpCurrentEpoch => exact inv.goto (fun _ h => by cases h) trivial
      | bumpWithAction => exact inv.goto (fun _ h => by cases h) trivial
    · cases h

theorem inv_run {ls : List Label} (h : Lts.Runs next init ls s) : Inv s :=
  h.invariant (fun inv _ hnext => inv.step hnext) inv_init

/-- **Reclamation is safe.**  When a thread is about to start an action, every
    thread that was in a protected section when the action's `prior` was
    loaded has left that section. -/
theorem action_starts_after_sections {ls : List Label} {ready : List DrainAction}
    (h : Lts.Runs next init ls s) (hpc : s.pc t = .running (a :: ready)) (u : Thread) (k : ℕ)
    (hpub : a.published u = some k) : s.sections u ≠ some k := by
  intro hsec
  have hclear : Clear s (a :: ready) := by
    have := (inv_run h).pcs t
    rwa [hpc] at this
  exact (hclear a List.mem_cons_self).2 u ⟨k, hpub, hsec⟩

/-- Thread 0 is in a section when thread 1 registers an action, and leaves it
    while thread 1 scans. -/
def leavesDuringScan : List Label :=
  [.call 0 (.slot .protect)] ++ List.replicate 4 (.step 0) ++
    [.call 1 .bumpWithAction] ++ List.replicate 6 (.step 1) ++
    [.call 0 (.slot .unprotect)] ++ List.replicate 2 (.step 0) ++
    List.replicate (MAX_THREADS + 4) (.step 1)

/-- Thread 1 runs an action that found thread 0 in a section of epoch 0. -/
def runsOverSection (s : State) : Bool :=
  match s.pc 1 with
  | .running [a] => decide (a.published 0 = some 0)
  | _ => false

theorem action_starts_after_leavesDuringScan :
    ∃ s a, Lts.Runs next init leavesDuringScan s ∧ s.pc 1 = .running [a] ∧
      a.published 0 = some 0 ∧ s.sections 0 ≠ some 0 := by
  have hend : (Lts.run next init leavesDuringScan).map runsOverSection = some true := by
    decide +kernel
  obtain ⟨s, hrun, hs⟩ := Lts.exists_runs _ _ _ _ hend
  unfold runsOverSection at hs
  split at hs
  · rename_i a hpc
    have hpub : a.published 0 = some 0 := by simpa using hs
    exact ⟨s, a, hrun, hpc, hpub, action_starts_after_sections hrun hpc 0 0 hpub⟩
  · cases hs

/-! ## Section 5: Actions of one epoch

    The drain takes every action at or below the safe epoch at once, so an
    action that is ready vouches for all that were registered under its epoch
    or an earlier one, whether or not they have been pushed by then.
-/

/-- The actions a drain has taken off the list and not yet started. -/
def Pc.ready : Pc → List DrainAction
  | .countingDrained ready | .unlockingDrained ready | .running ready => ready
  | _ => []

def Ready (s : State) (a : DrainAction) : Prop :=
  ∃ t, a ∈ (s.pc t).ready ∨ ∃ ready ∈ s.suspended t, a ∈ ready

/-- A drain is about to partition, and `a` is not above its safe epoch. -/
def SafeFor (s : State) (a : DrainAction) : Prop :=
  ∃ t safe, s.pc t = .partitioning safe ∧ a.epoch ≤ safe

/-- What any step of `t` does to sections and actions. -/
structure Advances (t : Thread) (s s' : State) : Prop where
  current_le : s.current ≤ s'.current
  clock_le : s.clock ≤ s'.clock
  sections : ∀ u, s'.sections u = s.sections u ∨ s'.sections u = none ∨
    s'.sections u = some s.clock
  live : ∀ b, Live s b → Live s' b ∨ SafeFor s b
  ready : ∀ b, Ready s' b → Ready s b ∨ SafeFor s b
  pc_other : ∀ u, u ≠ t → s'.pc u = s.pc u
  sections_other : ∀ u, u ≠ t → s'.sections u = s.sections u
  suspended_other : ∀ u, u ≠ t → s'.suspended u = s.suspended u

/-- A step to `p`, the rest of the state going to `s₁` before. -/
theorem Advances.of_goto {s₁ : State} {p : Pc} (hpc : s₁.pc = s.pc)
    (hcur : s.current ≤ s₁.current) (hclock : s.clock ≤ s₁.clock)
    (hself : s₁.sections t = s.sections t ∨ s₁.sections t = none ∨ s₁.sections t = some s.clock)
    (hother : ∀ u, u ≠ t → s₁.sections u = s.sections u)
    (hdrain : ∀ b ∈ s.drain, b ∈ s₁.drain ∨ SafeFor s b)
    (hpush : ∀ b, s.pc t = .pushing b → b ∈ s₁.drain)
    (hready : ∀ b ∈ p.ready, Ready s b ∨ SafeFor s b)
    (hsusp : ∀ ready ∈ s₁.suspended t, ∀ b ∈ ready, Ready s b)
    (hsuspOther : ∀ u, u ≠ t → s₁.suspended u = s.suspended u) :
    Advances t s (s₁.goto t p) where
  current_le := hcur
  clock_le := hclock
  sections := by
    intro u
    by_cases hu : u = t
    · rw [hu]
      exact hself
    · exact .inl (hother u hu)
  live := by
    rintro b (hb | ⟨u, hu⟩)
    · rcases hdrain b hb with hb | hb
      · exact .inl (.inl hb)
      · exact .inr hb
    · by_cases hut : u = t
      · rw [hut] at hu
        exact .inl (.inl (hpush b hu))
      · refine .inl (.inr ⟨u, ?_⟩)
        rw [goto_pc_of_ne p hut, hpc, hu]
  ready := by
    rintro b ⟨u, hb | ⟨ready, hr, hb⟩⟩
    · by_cases hut : u = t
      · rw [hut, goto_pc] at hb
        exact hready b hb
      · rw [goto_pc_of_ne p hut, hpc] at hb
        exact .inl ⟨u, .inl hb⟩
    · by_cases hut : u = t
      · rw [hut] at hr
        exact .inl (hsusp ready hr b hb)
      · have hr' : ready ∈ s₁.suspended u := hr
        rw [hsuspOther u hut] at hr'
        exact .inl ⟨u, .inr ⟨ready, hr', hb⟩⟩
  pc_other := by
    intro u hu
    rw [goto_pc_of_ne p hu, hpc]
  sections_other := hother
  suspended_other := hsuspOther

/-- A step that touches no action. -/
theorem Advances.quiet {s₁ : State} {p : Pc} (hpc : s₁.pc = s.pc)
    (hdrain : s₁.drain = s.drain) (hsusp : s₁.suspended = s.suspended)
    (hcur : s.current ≤ s₁.current) (hclock : s.clock ≤ s₁.clock)
    (hself : s₁.sections t = s.sections t ∨ s₁.sections t = none ∨ s₁.sections t = some s.clock)
    (hother : ∀ u, u ≠ t → s₁.sections u = s.sections u)
    (hpush : ∀ b, s.pc t ≠ .pushing b) (hready : ∀ b ∈ p.ready, Ready s b) :
    Advances t s (s₁.goto t p) := by
  refine .of_goto hpc hcur hclock hself hother ?_ (fun b hb => absurd hb (hpush b))
    (fun b hb => .inl (hready b hb)) ?_ (fun u _ => by rw [hsusp])
  · intro b hb
    rw [hdrain]
    exact .inl hb
  · intro ready hr b hb
    rw [hsusp] at hr
    exact ⟨t, .inr ⟨ready, hr, hb⟩⟩

/-- A step that touches neither actions nor sections. -/
theorem Advances.local {s₁ : State} {p : Pc} (hpc : s₁.pc = s.pc)
    (hdrain : s₁.drain = s.drain) (hsusp : s₁.suspended = s.suspended)
    (hcur : s.current ≤ s₁.current) (hclock : s₁.clock = s.clock)
    (hsec : s₁.sections = s.sections)
    (hpush : ∀ b, s.pc t ≠ .pushing b) (hready : ∀ b ∈ p.ready, Ready s b) :
    Advances t s (s₁.goto t p) :=
  .quiet hpc hdrain hsusp hcur (Nat.le_of_eq hclock.symm) (.inl (by rw [hsec]))
    (fun u _ => by rw [hsec]) hpush hready

theorem Advances.slotFound {s₁ : State} {idx : ℕ} (c : SlotCall) (hpc : s₁.pc = s.pc)
    (hdrain : s₁.drain = s.drain) (hsusp : s₁.suspended = s.suspended)
    (hcur : s.current ≤ s₁.current) (hclock : s₁.clock = s.clock)
    (hsec : s₁.sections = s.sections) (hpush : ∀ b, s.pc t ≠ .pushing b) :
    Advances t s (s₁.slotFound t c idx) := by
  cases c with
  | unprotect => exact .local hpc hdrain hsusp hcur hclock hsec hpush nofun
  | protect => exact .local hpc hdrain hsusp hcur hclock hsec hpush nofun
  | refresh => exact .local hpc hdrain hsusp hcur hclock hsec hpush nofun

theorem Advances.store {idx e : ℕ} {sect : Option ℕ} {p : Pc}
    (hsect : sect = none ∨ sect = some s.clock) (hpush : ∀ b, s.pc t ≠ .pushing b)
    (hready : ∀ b ∈ p.ready, Ready s b) : Advances t s ((s.store t idx e sect).goto t p) := by
  refine .quiet rfl rfl rfl (Nat.le_refl _) (Nat.le_succ _) (.inr ?_) ?_ hpush hready
  · show Function.update s.sections t sect t = none ∨ Function.update s.sections t sect t = _
    rw [Function.update_self]
    exact hsect
  · intro u hu
    exact Function.update_of_ne hu _ _

/-- The thread that moves. -/
def Label.thread : Label → Thread
  | .call t _ => t
  | .step t => t

theorem advances_stepPc (h : stepPc s t (s.pc t) = some s') : Advances t s s' := by
  have hrefl := Nat.le_refl s.current
  generalize hp : s.pc t = p at h
  have hmine : ∀ b ∈ p.ready, Ready s b := by
    intro b hb
    rw [← hp] at hb
    exact ⟨t, .inl hb⟩
  cases p with
  | idle =>
    simp only [stepPc] at h
    split at h
    · cases h
    · rename_i ready rest hsusp
      cases h
      have hlists : ∀ r ∈ ready :: rest, ∀ b ∈ r, Ready s b := by
        intro r hr b hb
        exact ⟨t, .inr ⟨r, hsusp ▸ hr, hb⟩⟩
      refine .of_goto rfl hrefl (Nat.le_refl _) (.inl rfl) (fun _ _ => rfl) (fun _ hb => .inl hb)
        (by simp [hp]) (fun b hb => .inl (hlists ready List.mem_cons_self b hb)) ?_
        (fun u hu => Function.update_of_ne hu _ _)
      intro r hr b hb
      simp only [Function.update_self] at hr
      exact hlists r (List.mem_cons_of_mem _ hr) b hb
  | checkingCached c =>
    simp only [stepPc] at h
    split at h
    · cases h
      exact .slotFound c rfl rfl rfl hrefl rfl rfl (by simp [hp])
    · cases h
      exact .local rfl rfl rfl hrefl rfl rfl (by simp [hp]) nofun
  | claiming c i =>
    simp only [stepPc] at h
    split at h
    · cases h
      exact .slotFound c rfl rfl rfl hrefl rfl rfl (by simp [hp])
    · split at h
      · cases h
        exact .local rfl rfl rfl hrefl rfl rfl (by simp [hp]) nofun
      · cases h
        exact .local rfl rfl rfl hrefl rfl rfl (by simp [hp]) nofun
  | publishing c idx e =>
    simp only [stepPc] at h
    cases h
    refine .store (.inr rfl) (by simp [hp]) ?_
    split <;> nofun
  | leaving idx =>
    cases h
    exact .store (.inl rfl) (by simp [hp]) nofun
  | clearingEpoch idx =>
    cases h
    exact .store (.inl rfl) (by simp [hp]) nofun
  | checkingCount =>
    simp only [stepPc] at h
    cases h
    refine .local rfl rfl rfl hrefl rfl rfl (by simp [hp]) ?_
    split <;> nofun
  | releasing =>
    simp only [stepPc] at h
    split at h
    · cases h
      exact .local rfl rfl rfl hrefl rfl rfl (by simp [hp]) nofun
    · cases h
      exact .local rfl rfl rfl hrefl rfl rfl (by simp [hp]) nofun
  | pushing a =>
    simp only [stepPc] at h
    split at h
    · cases h
    · cases h
      refine .of_goto rfl hrefl (Nat.le_refl _) (.inl rfl) (fun _ _ => rfl)
        (fun b hb => .inl (List.mem_append_left _ hb)) ?_ nofun
        (fun r hr b hb => ⟨t, .inr ⟨r, hr, hb⟩⟩) (fun _ _ => rfl)
      intro b hb
      rw [hp] at hb
      cases hb
      exact List.mem_append_right _ List.mem_cons_self
  | bumping =>
    cases h
    exact .local rfl rfl rfl (Nat.le_succ _) rfl rfl (by simp [hp]) nofun
  | advancing =>
    cases h
    exact .local rfl rfl rfl (Nat.le_succ _) rfl rfl (by simp [hp]) nofun
  | scanning j min =>
    simp only [stepPc] at h
    split at h
    · cases h
      exact .local rfl rfl rfl hrefl rfl rfl (by simp [hp]) nofun
    · cases h
      exact .local rfl rfl rfl hrefl rfl rfl (by simp [hp]) nofun
  | partitioning safe =>
    simp only [stepPc] at h
    split at h
    · cases h
      exact .local rfl rfl rfl hrefl rfl rfl (by simp [hp]) nofun
    split at h
    · cases h
      exact .local rfl rfl rfl hrefl rfl rfl (by simp [hp]) nofun
    · cases h
      -- what leaves the list and what becomes ready is at or below the safe epoch
      refine .of_goto rfl hrefl (Nat.le_refl _) (.inl rfl) (fun _ _ => rfl) ?_ (by simp [hp]) ?_
        (fun r hr b hb => ⟨t, .inr ⟨r, hr, hb⟩⟩) (fun _ _ => rfl)
      · intro b hb
        by_cases hle : b.epoch ≤ safe
        · exact .inr ⟨t, safe, hp, hle⟩
        · exact .inl (List.mem_filter.mpr ⟨hb, by simpa using hle⟩)
      · intro b hb
        have hle := (List.mem_filter.mp hb).2
        exact .inr ⟨t, safe, hp, by simpa using hle⟩
  | countingDrained ready =>
    cases h
    exact .local rfl rfl rfl hrefl rfl rfl (by simp [hp]) hmine
  | unlockingDrained ready =>
    cases h
    exact .local rfl rfl rfl hrefl rfl rfl (by simp [hp]) hmine
  | running ready =>
    cases ready with
    | nil =>
      cases h
      exact .local rfl rfl rfl hrefl rfl rfl (by simp [hp]) nofun
    | cons a ready =>
      cases h
      refine .of_goto rfl hrefl (Nat.le_refl _) (.inl rfl) (fun _ _ => rfl) (fun _ hb => .inl hb)
        (by simp [hp]) nofun ?_ (fun u hu => Function.update_of_ne hu _ _)
      intro r hr b hb
      simp only [Function.update_self] at hr
      rcases List.mem_cons.mp hr with rfl | hr
      · exact hmine b (List.mem_cons_of_mem _ hb)
      · exact ⟨t, .inr ⟨r, hr, hb⟩⟩
  | panicked => cases h
  | _ =>
    cases h
    exact .local rfl rfl rfl hrefl rfl rfl (by simp [hp]) nofun

theorem advances_step {l : Label} (h : next s l = some s') : Advances l.thread s s' := by
  cases l with
  | step t => exact advances_stepPc h
  | call t c =>
    simp only [next] at h
    split at h
    · rename_i hp
      cases h
      refine .local rfl rfl rfl (Nat.le_refl _) rfl rfl (by simp [Label.thread, hp]) ?_
      rcases c with c | _ | _ | _ <;> nofun
    · cases h

/-- Every ready action has been overtaken by the current epoch. -/
theorem ready_lt_step {l : Label} (inv : Inv s) (h : next s l = some s')
    (hlt : ∀ a, Ready s a → a.epoch < s.current) : ∀ a, Ready s' a → a.epoch < s'.current := by
  intro a ha
  have hadv := advances_step h
  have hcur := hadv.current_le
  rcases hadv.ready a ha with ha | ⟨u, safe, hpc, hle⟩
  · have := hlt a ha
    omega
  · have hok := inv.pcs u
    rw [hpc] at hok
    have := hok.1
    omega

/-- What is known of a registered action `b` until it starts and after. -/
structure Vouched (s : State) (b : DrainAction) : Prop where
  known : Known s b
  live : Live s b ∨ ∀ u, ¬ Blocks s b u
  ready : ∀ a, Ready s a → b.epoch ≤ a.epoch → ∀ u, ¬ Blocks s b u

/-- No thread comes back to a section. -/
theorem Advances.blocks {b : DrainAction} (hadv : Advances t s s') (hknown : Known s b)
    (hb : Blocks s' b u) : Blocks s b u := by
  obtain ⟨k, hpub, hsec⟩ := hb
  have hlt := hknown u k hpub
  rcases hadv.sections u with hsame | hnone | hnew
  · exact ⟨k, hpub, hsame.symm.trans hsec⟩
  · rw [hnone] at hsec
    cases hsec
  · rw [hnew] at hsec
    cases hsec
    omega

theorem Vouched.step {b : DrainAction} {l : Label} (hv : Vouched s b) (inv : Inv s)
    (h : next s l = some s') : Vouched s' b := by
  have hadv := advances_step h
  have hkeep : (∀ u, ¬ Blocks s b u) → ∀ u, ¬ Blocks s' b u := by
    intro hnone u hb
    exact hnone u (hadv.blocks hv.known hb)
  -- a drain whose safe epoch is at or above that of `b` finds nobody in the way
  have hsafe : SafeFor s b → ∀ u, ¬ Blocks s b u := by
    rintro ⟨w, safe, hpc, hle⟩ u hb
    rcases hv.live with hlive | hnone
    · have hok := inv.pcs w
      rw [hpc] at hok
      have := hok.2 b hlive u hb
      omega
    · exact hnone u hb
  refine ⟨hv.known.mono hadv.clock_le, ?_, ?_⟩
  · rcases hv.live with hlive | hnone
    · rcases hadv.live b hlive with hlive | hs
      · exact .inl hlive
      · exact .inr (hkeep (hsafe hs))
    · exact .inr (hkeep hnone)
  · intro a ha hle
    rcases hadv.ready a ha with ha | ⟨w, safe, hpc, hsafe_le⟩
    · exact hkeep (hv.ready a ha hle)
    · exact hkeep (hsafe ⟨w, safe, hpc, by omega⟩)

/-- The action `bump_with_action` builds from the epoch it loads. -/
theorem Vouched.register (inv : Inv s) (hlt : ∀ a, Ready s a → a.epoch < s.current)
    (hpc : s.pc t = .loadingPrior) (h : next s (.step t) = some s') :
    Vouched s' ⟨s.current, s.sections⟩ := by
  have hadv := advances_step h
  simp only [next, hpc, stepPc] at h
  cases h
  refine ⟨fun u k hk => inv.section_lt u k hk, .inl (.inr ⟨t, goto_pc _⟩), ?_⟩
  intro a ha hle
  rcases hadv.ready a ha with ha | ⟨w, safe, hw, hsafe⟩
  · have hepoch := hlt a ha
    have : s.current ≤ a.epoch := hle
    omega
  · have hok := inv.pcs w
    rw [hw] at hok
    have := hok.1
    have : s.current ≤ a.epoch := hle
    omega

end Tsavorite.EpochProtocol
