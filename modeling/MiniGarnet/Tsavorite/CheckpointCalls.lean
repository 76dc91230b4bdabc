import MiniGarnet.Lib.Lts
import MiniGarnet.Tsavorite.Checkpoint

/-! # Several checkpoints at once

    SAVE and BGSAVE call `take_checkpoint` from any connection, and nothing
    but the phase in the system state keeps two calls apart.  A call loads the
    state for its Rest check and again, as the expected value, in each of its
    four transitions, so every load and every compare-and-swap is a step
    here.  The state word keeps 56 bits of the version.

    The log is left to the labels: the tail a call reads, and whether the
    flush, the sync and the metadata write succeed.  When a transition has
    been observed by all threads is left open too.

    Between the Rest check and the compare-and-swap to PREPARE a second call
    passes the check as well.  The results are about runs in which no check
    falls into that window of another call.
-/

namespace Tsavorite.CheckpointCalls

/-! ## Section 1: Calls -/

/-- The transitions of a checkpoint. -/
inductive Target where
  | prepare
  | inProgress
  | waitFlush
  | rest
  deriving DecidableEq, Repr

/-- The state as the packed word holds it. -/
def packed (st : SystemState) : SystemState := { st with version := st.version % 2 ^ 56 }

/-- The state a transition moves to, in a checkpoint of version `v`. -/
def Target.state (v : ℕ) : Target → SystemState
  | .prepare => packed ⟨.prepare, v⟩
  | .inProgress => packed ⟨.inProgress, v + 1⟩
  | .waitFlush => packed ⟨.waitFlush, v + 1⟩
  | .rest => packed ⟨.rest, v + 1⟩

/-- Where a call stands, with what it knows of the metadata so far. -/
inductive Pc where
  | idle
  /-- Past the Rest check, about to read the tail. -/
  | checked (i : CheckpointInfo)
  /-- About to set the start address. -/
  | captured (i : CheckpointInfo)
  /-- In `transition_and_wait`, about to load the state. -/
  | moving (t : Target) (i : CheckpointInfo)
  /-- About to swap the state it has loaded. -/
  | swapping (t : Target) (i : CheckpointInfo) (cur : SystemState)
  /-- Until every thread has observed the new state. -/
  | waiting (t : Target) (i : CheckpointInfo)
  /-- About to read the tail again. -/
  | finalising (i : CheckpointInfo)
  /-- About to fold over, flush and sync. -/
  | flushing (i : CheckpointInfo)
  /-- About to write the metadata. -/
  | writing (i : CheckpointInfo)
  /-- The assertion "concurrent state machine transition" has failed. -/
  | panicked
  deriving DecidableEq, Repr

inductive Outcome where
  | ok (i : CheckpointInfo)
  /-- "checkpoint already in progress" -/
  | inProgress
  | ioError
  deriving DecidableEq, Repr

structure State (Cid : Type) where
  word : SystemState
  startAddress : ℕ
  /-- The metadata file. -/
  saved : Option CheckpointInfo
  calls : Cid → Pc
  /-- What calls have returned, the latest first. -/
  returned : List (Cid × Outcome)

inductive Move where
  /-- Call `take_checkpoint` and check for Rest. -/
  | call (userData : ℕ)
  | readTail (addr : ℕ)
  | setStart
  | load
  | cas
  | observed
  /-- Flush and sync; `none` is an error, else the begin address. -/
  | flush (begin_ : Option ℕ)
  /-- Write the metadata. -/
  | write (ok : Bool)
  deriving DecidableEq, Repr

structure Label (Cid : Type) where
  actor : Cid
  move : Move

section Steps

variable {Cid : Type} [DecidableEq Cid]

def State.init : State Cid where
  word := ⟨.rest, 1⟩
  startAddress := 2 ^ 64 - 1
  saved := none
  calls := fun _ => .idle
  returned := []

def State.goto (s : State Cid) (c : Cid) (pc : Pc) : State Cid :=
  { s with calls := fun d => if d = c then pc else s.calls d }

def State.returns (s : State Cid) (c : Cid) (o : Outcome) : State Cid :=
  { s.goto c .idle with returned := (c, o) :: s.returned }

/-- What follows a transition. -/
def State.afterTransition (s : State Cid) (c : Cid) (i : CheckpointInfo) : Target → State Cid
  | .prepare => s.goto c (.moving .inProgress i)
  | .inProgress => s.goto c (.finalising i)
  | .waitFlush => s.goto c (.flushing i)
  | .rest => s.returns c (.ok i)

def stepPc (s : State Cid) (c : Cid) : Pc → Move → Option (State Cid)
  | .idle, .call userData =>
    if s.word.phase = .rest then some (s.goto c (.checked ⟨s.word.version, 0, 0, 0, userData⟩))
    else some (s.returns c .inProgress)
  | .checked i, .readTail addr => some (s.goto c (.captured { i with startAddress := addr }))
  | .captured i, .setStart =>
    some ({ s with startAddress := i.startAddress }.goto c (.moving .prepare i))
  | .moving t i, .load => some (s.goto c (.swapping t i s.word))
  | .swapping t i cur, .cas =>
    if s.word = cur then some ({ s with word := t.state i.version }.goto c (.waiting t i))
    else some (s.goto c .panicked)
  | .waiting t i, .observed => some (s.afterTransition c i t)
  | .finalising i, .readTail addr =>
    some (s.goto c (.moving .waitFlush { i with finalAddress := addr }))
  | .flushing i, .flush (some begin_) => some (s.goto c (.writing { i with beginAddress := begin_ }))
  | .flushing _, .flush none => some (s.returns c .ioError)
  | .writing i, .write true => some ({ s with saved := some i }.goto c (.moving .rest i))
  | .writing _, .write false => some (s.returns c .ioError)
  | _, _ => none

def next (s : State Cid) (l : Label Cid) : Option (State Cid) :=
  stepPc s l.actor (s.calls l.actor) l.move

end Steps

/-! ## Section 2: What a call relies on -/

/-- The state a call that has not yet returned the system to Rest takes for granted. -/
def Pc.expects : Pc → Option SystemState
  | .checked i | .captured i | .moving .prepare i | .swapping .prepare i _ =>
    some ⟨.rest, i.version⟩
  | .waiting .prepare i | .moving .inProgress i | .swapping .inProgress i _ =>
    some (Target.prepare.state i.version)
  | .waiting .inProgress i | .finalising i | .moving .waitFlush i | .swapping .waitFlush i _ =>
    some (Target.inProgress.state i.version)
  | .waiting .waitFlush i | .flushing i | .writing i | .moving .rest i | .swapping .rest i _ =>
    some (Target.waitFlush.state i.version)
  | _ => none

/-- Past the Rest check, the system not yet back at Rest. -/
def Pc.Active (pc : Pc) : Prop := pc.expects.isSome = true

/-- Past the Rest check, the system not yet at PREPARE. -/
def Pc.InWindow (pc : Pc) : Prop :=
  match pc with
  | .checked _ | .captured _ | .moving .prepare _ | .swapping .prepare _ _ => True
  | _ => False

instance (pc : Pc) : Decidable pc.Active := inferInstanceAs (Decidable (_ = _))

instance : (pc : Pc) → Decidable pc.InWindow
  | .checked _ | .captured _ | .moving .prepare _ | .swapping .prepare _ _ => .isTrue trivial
  | .idle | .moving .inProgress _ | .moving .waitFlush _ | .moving .rest _
  | .swapping .inProgress _ _ | .swapping .waitFlush _ _ | .swapping .rest _ _
  | .waiting _ _ | .finalising _ | .flushing _ | .writing _ | .panicked => .isFalse nofun

section Invariant

variable {Cid : Type} [DecidableEq Cid] {s s' : State Cid} {c : Cid}

/-- A call makes its Rest check only when no other call is between its own check and
    PREPARE. -/
def Apart (s : State Cid) (l : Label Cid) : Prop :=
  match l.move with
  | .call _ => ∀ c, ¬ (s.calls c).InWindow
  | _ => True

structure Inv (s : State Cid) : Prop where
  version : s.word.version < 2 ^ 56
  expected : ∀ c w, (s.calls c).expects = some w → s.word = w
  alone : ∀ c d, (s.calls c).Active → (s.calls d).Active → c = d
  loaded : ∀ c t i cur, s.calls c = .swapping t i cur → (s.calls c).expects = some cur
  sound : ∀ c, s.calls c ≠ .panicked

omit [DecidableEq Cid] in
theorem Inv.init : Inv (State.init : State Cid) where
  version := show 1 < 2 ^ 56 by decide
  expected := nofun
  alone := nofun
  loaded := nofun
  sound := nofun

theorem goto_self (s : State Cid) (c : Cid) (pc : Pc) : (s.goto c pc).calls c = pc := if_pos rfl

theorem goto_ne (s : State Cid) {c d : Cid} (pc : Pc) (h : d ≠ c) :
    (s.goto c pc).calls d = s.calls d := if_neg h

/-- A call that expects Rest is in its window. -/
theorem Pc.inWindow_of_expects {pc : Pc} {w : SystemState} (h : pc.expects = some w)
    (hrest : w.phase = .rest) : pc.InWindow := by
  unfold Pc.expects at h
  split at h <;> first | trivial | (cases h; cases hrest)

/-- The invariant after a step that moves one call and perhaps the word: what is left to
    show is about that call. -/
theorem Inv.move (h : Inv s) {pc : Pc} (hcalls : s'.calls = (s.goto c pc).calls)
    (hversion : s'.word.version < 2 ^ 56)
    (hword : s'.word = s.word ∨ (s.calls c).Active)
    (hexpects : ∀ w, pc.expects = some w → s'.word = w)
    (hactive : pc.Active → (s.calls c).Active ∨ ∀ d, ¬ (s.calls d).Active)
    (hloaded : ∀ t i cur, pc = .swapping t i cur → pc.expects = some cur)
    (hsound : pc ≠ .panicked) : Inv s' := by
  have hself : s'.calls c = pc := by rw [hcalls, goto_self]
  have hother : ∀ d, d ≠ c → s'.calls d = s.calls d := by
    intro d hd
    rw [hcalls, goto_ne s pc hd]
  -- nobody else is active when `c` is, or becomes it
  have hlone : ∀ d, d ≠ c → (s'.calls c).Active → ¬ (s.calls d).Active := by
    intro d hd hc hactived
    rw [hself] at hc
    rcases hactive hc with hc' | hnone
    · exact hd (h.alone d c hactived hc')
    · exact hnone d hactived
  refine ⟨hversion, ?_, ?_, ?_, ?_⟩
  · intro d w hd
    by_cases hdc : d = c
    · subst hdc
      rw [hself] at hd
      exact hexpects w hd
    · rw [hother d hdc] at hd
      rcases hword with hsame | hmover
      · rw [hsame]
        exact h.expected d w hd
      · exact absurd (h.alone d c (by rw [Pc.Active, hd]; rfl) hmover) hdc
  · intro d e hd he
    by_cases hdc : d = c <;> by_cases hec : e = c
    · rw [hdc, hec]
    · subst hdc
      rw [hother e hec] at he
      exact absurd he (hlone e hec hd)
    · subst hec
      rw [hother d hdc] at hd
      exact absurd hd (hlone d hdc he)
    · rw [hother d hdc] at hd
      rw [hother e hec] at he
      exact h.alone d e hd he
  · intro d t i cur hd
    by_cases hdc : d = c
    · subst hdc
      rw [hself] at hd ⊢
      exact hloaded t i cur hd
    · rw [hother d hdc] at hd ⊢
      exact h.loaded d t i cur hd
  · intro d
    by_cases hdc : d = c
    · subst hdc
      rw [hself]
      exact hsound
    · rw [hother d hdc]
      exact h.sound d

/-- A step that leaves the word alone and what the call expects of it. -/
theorem Inv.quiet (h : Inv s) {pc : Pc} (hcalls : s'.calls = (s.goto c pc).calls)
    (hword : s'.word = s.word)
    (hexpects : pc.expects = (s.calls c).expects ∨ pc.expects = none)
    (hloaded : ∀ t i cur, pc = .swapping t i cur → cur = s.word)
    (hsound : pc ≠ .panicked) : Inv s' := by
  have hsome : ∀ w, pc.expects = some w → (s.calls c).expects = some w := by
    intro w hw
    rcases hexpects with hsame | hnone
    · rw [← hsame, hw]
    · rw [hnone] at hw
      cases hw
  refine h.move hcalls (by rw [hword]; exact h.version) (.inl hword) ?_ ?_ ?_ hsound
  · intro w hw
    rw [hword]
    exact h.expected c w (hsome w hw)
  · intro hactive
    obtain ⟨w, hw⟩ := Option.isSome_iff_exists.mp hactive
    left
    rw [Pc.Active, hsome w hw]
    rfl
  · intro t i cur hpc
    have hactive : pc.Active := by
      subst hpc
      cases t <;> rfl
    obtain ⟨w, hw⟩ := Option.isSome_iff_exists.mp hactive
    rw [hw, hloaded t i cur hpc, h.expected c w (hsome w hw)]

theorem Target.state_version (t : Target) (v : ℕ) : (t.state v).version < 2 ^ 56 := by
  cases t <;> exact Nat.mod_lt _ (by decide)

theorem expects_waiting {t : Target} {i : CheckpointInfo} {w : SystemState}
    (h : (Pc.waiting t i).expects = some w) : w = t.state i.version := by
  cases t <;> cases h <;> rfl

theorem Inv.step (h : Inv s) {l : Label Cid} (hapart : Apart s l) (hstep : next s l = some s') :
    Inv s' := by
  obtain ⟨c, m⟩ := l
  simp only [next] at hstep
  generalize hpc : s.calls c = pc at hstep
  unfold stepPc at hstep
  split at hstep
  · -- the Rest check
    split at hstep
    · rename_i u hrest
      obtain rfl := Option.some.inj hstep
      have hnone : ∀ d, ¬ (s.calls d).Active := by
        intro d hd
        obtain ⟨w, hw⟩ := Option.isSome_iff_exists.mp hd
        apply hapart d
        exact Pc.inWindow_of_expects hw (by rw [← h.expected d w hw]; exact hrest)
      refine h.move rfl h.version (.inl rfl) ?_ (fun _ => .inr hnone) nofun nofun
      intro w hw
      obtain rfl := Option.some.inj hw
      rw [← hrest]
      rfl
    · obtain rfl := Option.some.inj hstep
      exact h.quiet rfl rfl (.inr rfl) nofun nofun
  · obtain rfl := Option.some.inj hstep
    exact h.quiet rfl rfl (.inl (by rw [hpc]; rfl)) nofun nofun
  · obtain rfl := Option.some.inj hstep
    exact h.quiet rfl rfl (.inl (by rw [hpc]; rfl)) nofun nofun
  · rename_i t i
    obtain rfl := Option.some.inj hstep
    refine h.quiet rfl rfl (.inl ?_) ?_ nofun
    · rw [hpc]
      cases t <;> rfl
    · intro t' i' cur hcur
      cases hcur
      rfl
  · -- the compare-and-swap
    rename_i t i cur
    have hloaded := h.loaded c t i cur hpc
    have hactive : (s.calls c).Active := by
      rw [Pc.Active, hloaded]
      rfl
    rw [if_pos (h.expected c cur hloaded)] at hstep
    obtain rfl := Option.some.inj hstep
    refine h.move rfl (t.state_version i.version) (.inr hactive) ?_ (fun _ => .inl hactive) nofun
      nofun
    intro w hw
    exact (expects_waiting hw).symm
  · rename_i t i
    obtain rfl := Option.some.inj hstep
    cases t with
    | rest => exact h.quiet rfl rfl (.inr rfl) nofun nofun
    | prepare | inProgress | waitFlush =>
      exact h.quiet rfl rfl (.inl (by rw [hpc]; rfl)) nofun nofun
  · obtain rfl := Option.some.inj hstep
    exact h.quiet rfl rfl (.inl (by rw [hpc]; rfl)) nofun nofun
  · obtain rfl := Option.some.inj hstep
    exact h.quiet rfl rfl (.inl (by rw [hpc]; rfl)) nofun nofun
  · obtain rfl := Option.some.inj hstep
    exact h.quiet rfl rfl (.inr rfl) nofun nofun
  · obtain rfl := Option.some.inj hstep
    exact h.quiet rfl rfl (.inl (by rw [hpc]; rfl)) nofun nofun
  · obtain rfl := Option.some.inj hstep
    exact h.quiet rfl rfl (.inr rfl) nofun nofun
  · cases hstep

end Invariant

/-! ## Section 3: One checkpoint at a time -/

/-- One arrow of the phase diagram, or none. -/
inductive Advances : SystemState → SystemState → Prop where
  | stay (st : SystemState) : Advances st st
  | prepare (v : ℕ) : Advances ⟨.rest, v⟩ ⟨.prepare, v⟩
  | inProgress (v : ℕ) : Advances ⟨.prepare, v⟩ ⟨.inProgress, v + 1⟩
  | waitFlush (v : ℕ) : Advances ⟨.inProgress, v⟩ ⟨.waitFlush, v⟩
  | rest (v : ℕ) : Advances ⟨.waitFlush, v⟩ ⟨.rest, v⟩

theorem Advances.version_le {a b : SystemState} (h : Advances a b) : a.version ≤ b.version := by
  cases h with
  | inProgress v => exact Nat.le_succ v
  | stay | prepare | waitFlush | rest => exact Nat.le_refl _

section OneAtATime

variable {Cid : Type} [DecidableEq Cid] {s s' : State Cid} {c : Cid}

/-- The flush, the sync and the metadata write succeed. -/
def IoSucceeds (l : Label Cid) : Prop := l.move ≠ .flush none ∧ l.move ≠ .write false

/-- The version the transition to IN_PROGRESS would store. -/
def newVersion : Pc → Option ℕ
  | .swapping .inProgress i _ => some (i.version + 1)
  | _ => none

/-- The next version fits its 56 bits. -/
def VersionFits (s : State Cid) (l : Label Cid) : Prop :=
  ∀ v ∈ newVersion (s.calls l.actor), v < 2 ^ 56

/-- No Rest check in the window of another call, no I/O error, no overflow of the version. -/
def Orderly (s : State Cid) (l : Label Cid) : Prop := Apart s l ∧ IoSucceeds l ∧ VersionFits s l

/-- Only the compare-and-swap of a transition changes the word. -/
theorem next_word {l : Label Cid} (hstep : next s l = some s') :
    s'.word = s.word ∨ ∃ t i cur, s.calls l.actor = .swapping t i cur ∧ s.word = cur ∧
      s'.word = t.state i.version := by
  obtain ⟨c, m⟩ := l
  simp only [next] at hstep
  generalize s.calls c = pc at hstep
  unfold stepPc at hstep
  split at hstep
  case h_1 =>
    split at hstep <;> obtain rfl := Option.some.inj hstep <;> exact .inl rfl
  case h_5 =>
    rename_i t i cur
    split at hstep
    · rename_i hcur
      obtain rfl := Option.some.inj hstep
      exact .inr ⟨t, i, cur, rfl, hcur, rfl⟩
    · obtain rfl := Option.some.inj hstep
      exact .inl rfl
  case h_6 =>
    rename_i t i
    obtain rfl := Option.some.inj hstep
    cases t <;> exact .inl rfl
  case h_12 => cases hstep
  all_goals
    obtain rfl := Option.some.inj hstep
    exact .inl rfl

theorem Inv.advances (h : Inv s) {l : Label Cid} (hfits : VersionFits s l)
    (hstep : next s l = some s') : Advances s.word s'.word := by
  rcases next_word hstep with hsame | ⟨t, i, cur, hpc, hcur, hword⟩
  · rw [hsame]
    exact .stay _
  · have hexp := h.loaded l.actor t i cur hpc
    rw [hpc] at hexp
    rw [hword]
    cases t with
    | prepare =>
      obtain rfl : (⟨.rest, i.version⟩ : SystemState) = cur := Option.some.inj hexp
      have hsmall : i.version % 2 ^ 56 = i.version := by
        apply Nat.mod_eq_of_lt
        have := h.version
        rwa [hcur] at this
      show Advances s.word ⟨.prepare, i.version % 2 ^ 56⟩
      rw [hcur, hsmall]
      exact .prepare _
    | inProgress =>
      obtain rfl : Target.prepare.state i.version = cur := Option.some.inj hexp
      have hlt : i.version + 1 < 2 ^ 56 := hfits _ (by rw [hpc]; rfl)
      show Advances s.word ⟨.inProgress, (i.version + 1) % 2 ^ 56⟩
      rw [hcur, Nat.mod_eq_of_lt hlt]
      show Advances ⟨.prepare, i.version % 2 ^ 56⟩ _
      rw [Nat.mod_eq_of_lt (by omega)]
      exact .inProgress _
    | waitFlush =>
      obtain rfl : Target.inProgress.state i.version = cur := Option.some.inj hexp
      rw [hcur]
      exact .waitFlush _
    | rest =>
      obtain rfl : Target.waitFlush.state i.version = cur := Option.some.inj hexp
      rw [hcur]
      exact .rest _

/-- What a step returns, if it returns. -/
theorem next_returned {l : Label Cid} (hio : IoSucceeds l) (hstep : next s l = some s') :
    s'.returned = s.returned ∨ (∃ i, s'.returned = (l.actor, .ok i) :: s.returned) ∨
      s'.returned = (l.actor, .inProgress) :: s.returned ∧ s'.word = s.word ∧
        s'.startAddress = s.startAddress ∧ s'.saved = s.saved := by
  obtain ⟨c, m⟩ := l
  simp only [next] at hstep
  generalize s.calls c = pc at hstep
  unfold stepPc at hstep
  split at hstep
  case h_1 =>
    split at hstep
    · obtain rfl := Option.some.inj hstep
      exact .inl rfl
    · obtain rfl := Option.some.inj hstep
      exact .inr (.inr ⟨rfl, rfl, rfl, rfl⟩)
  case h_5 => split at hstep <;> obtain rfl := Option.some.inj hstep <;> exact .inl rfl
  case h_6 =>
    rename_i t i
    obtain rfl := Option.some.inj hstep
    cases t with
    | rest => exact .inr (.inl ⟨i, rfl⟩)
    | prepare | inProgress | waitFlush => exact .inl rfl
  case h_9 => exact absurd rfl hio.1
  case h_11 => exact absurd rfl hio.2
  case h_12 => cases hstep
  all_goals
    obtain rfl := Option.some.inj hstep
    exact .inl rfl

/-- How many steps a call has left. -/
def Pc.left : Pc → ℕ
  | .idle | .panicked => 0
  | .waiting .rest _ => 1
  | .swapping .rest _ _ => 2
  | .moving .rest _ => 3
  | .writing _ => 4
  | .flushing _ => 5
  | .waiting .waitFlush _ => 6
  | .swapping .waitFlush _ _ => 7
  | .moving .waitFlush _ => 8
  | .finalising _ => 9
  | .waiting .inProgress _ => 10
  | .swapping .inProgress _ _ => 11
  | .moving .inProgress _ => 12
  | .waiting .prepare _ => 13
  | .swapping .prepare _ _ => 14
  | .moving .prepare _ => 15
  | .captured _ => 16
  | .checked _ => 17

/-- After this step the call has returned `Ok` or has fewer steps left. -/
def Nearer (s s' : State Cid) (c : Cid) : Prop :=
  (∃ i, s'.returned = (c, .ok i) :: s.returned) ∨
    s'.returned = s.returned ∧ s'.calls c ≠ .idle ∧ (s'.calls c).left < (s.calls c).left

theorem nearer_goto {s₁ : State Cid} {pc : Pc} (hret : s₁.returned = s.returned) (hne : pc ≠ .idle)
    (hleft : pc.left < (s.calls c).left) : Nearer s (s₁.goto c pc) c := by
  refine .inr ⟨hret, ?_, ?_⟩
  · rw [goto_self]
    exact hne
  · rw [goto_self]
    exact hleft

/-- A call that is under way can take such a step. -/
theorem Inv.progress (h : Inv s) (hbusy : s.calls c ≠ .idle) :
    ∃ m s', next s ⟨c, m⟩ = some s' ∧ Apart s ⟨c, m⟩ ∧ Nearer s s' c := by
  have hgoto : ∀ (m : Move) (s₁ : State Cid) (pc : Pc), next s ⟨c, m⟩ = some (s₁.goto c pc) →
      s₁.returned = s.returned → Apart s ⟨c, m⟩ → pc ≠ .idle → pc.left < (s.calls c).left →
      ∃ m s', next s ⟨c, m⟩ = some s' ∧ Apart s ⟨c, m⟩ ∧ Nearer s s' c := by
    intro m s₁ pc hstep hret hapart hne hleft
    exact ⟨m, _, hstep, hapart, nearer_goto hret hne hleft⟩
  cases hpc : s.calls c with
  | idle => exact absurd hpc hbusy
  | panicked => exact absurd hpc (h.sound c)
  | checked i =>
    exact hgoto (.readTail 0) s (.captured { i with startAddress := 0 }) (by rw [next, hpc]; rfl)
      rfl trivial nofun (by simp [hpc, Pc.left])
  | captured i =>
    exact hgoto .setStart { s with startAddress := i.startAddress } (.moving .prepare i)
      (by rw [next, hpc]; rfl) rfl trivial nofun (by simp [hpc, Pc.left])
  | moving t i =>
    apply hgoto .load s (.swapping t i s.word) (by rw [next, hpc]; rfl) rfl trivial nofun
    rw [hpc]
    cases t <;> simp [Pc.left]
  | swapping t i cur =>
    have hcur := h.expected c cur (h.loaded c t i cur hpc)
    apply hgoto .cas { s with word := t.state i.version } (.waiting t i) ?_ rfl trivial nofun
    · rw [hpc]
      cases t <;> simp [Pc.left]
    · rw [next, hpc]
      exact if_pos hcur
  | waiting t i =>
    have hobserved : next s ⟨c, .observed⟩ = some (s.afterTransition c i t) := by
      rw [next, hpc]
      rfl
    cases t with
    | rest => exact ⟨.observed, s.returns c (.ok i), hobserved, trivial, .inl ⟨i, rfl⟩⟩
    | prepare =>
      exact hgoto .observed s (.moving .inProgress i) hobserved rfl trivial nofun
        (by simp [hpc, Pc.left])
    | inProgress =>
      exact hgoto .observed s (.finalising i) hobserved rfl trivial nofun (by simp [hpc, Pc.left])
    | waitFlush =>
      exact hgoto .observed s (.flushing i) hobserved rfl trivial nofun (by simp [hpc, Pc.left])
  | finalising i =>
    exact hgoto (.readTail 0) s (.moving .waitFlush { i with finalAddress := 0 })
      (by rw [next, hpc]; rfl) rfl trivial nofun (by simp [hpc, Pc.left])
  | flushing i =>
    exact hgoto (.flush (some 0)) s (.writing { i with beginAddress := 0 })
      (by rw [next, hpc]; rfl) rfl trivial nofun (by simp [hpc, Pc.left])
  | writing i =>
    exact hgoto (.write true) { s with saved := some i } (.moving .rest i)
      (by rw [next, hpc]; rfl) rfl trivial nofun (by simp [hpc, Pc.left])

/-- Left to itself, a call that is under way returns `Ok`. -/
theorem Inv.completes (h : Inv s) (n : ℕ) (hn : (s.calls c).left ≤ n) (hbusy : s.calls c ≠ .idle) :
    ∃ ls s', (∀ l ∈ ls, l.actor = c) ∧ Lts.Runs next s ls s' ∧
      ∃ i, s'.returned = (c, .ok i) :: s.returned := by
  induction n generalizing s with
  | zero =>
    exfalso
    obtain ⟨m, s', hstep, -, ⟨i, hret⟩ | ⟨-, -, hlt⟩⟩ := h.progress hbusy
    · -- only `idle` and `panicked` have nothing left
      cases hpc : s.calls c with
      | idle => exact hbusy hpc
      | panicked => exact h.sound c hpc
      | moving t i => cases t <;> simp [hpc, Pc.left] at hn
      | swapping t i cur => cases t <;> simp [hpc, Pc.left] at hn
      | waiting t i => cases t <;> simp [hpc, Pc.left] at hn
      | _ => simp [hpc, Pc.left] at hn
    · omega
  | succ n ih =>
    obtain ⟨m, s', hstep, hapart, ⟨i, hret⟩ | ⟨hret, hbusy', hlt⟩⟩ := h.progress hbusy
    · exact ⟨[⟨c, m⟩], s', by simp, .cons trivial hstep (.nil s'), i, hret⟩
    · obtain ⟨ls, s'', hactor, hruns, i, hret'⟩ := ih (h.step hapart hstep) (by omega) hbusy'
      refine ⟨⟨c, m⟩ :: ls, s'', ?_, .cons trivial hstep hruns, i, by rw [hret', hret]⟩
      intro l hl
      rcases List.mem_cons.mp hl with rfl | hl
      · rfl
      · exact hactor l hl

/-- **At most one checkpoint runs.**  In every orderly run: at most one call is past its
    Rest check before the system is back at Rest, no call panics, the phase moves along
    its diagram and the version never decreases, calls return `Ok` or, having changed
    nothing, the error, and a call that is under way completes. -/
theorem one_checkpoint_at_a_time {ls : List (Label Cid)}
    (h : Lts.Steps next Orderly State.init ls s) :
    (∀ c d, (s.calls c).Active → (s.calls d).Active → c = d) ∧
    (∀ c, s.calls c ≠ .panicked) ∧
    (∀ l s', Orderly s l → next s l = some s' →
      Advances s.word s'.word ∧ s.word.version ≤ s'.word.version ∧
      (s'.returned = s.returned ∨ (∃ i, s'.returned = (l.actor, .ok i) :: s.returned) ∨
        s'.returned = (l.actor, .inProgress) :: s.returned ∧ s'.word = s.word ∧
          s'.startAddress = s.startAddress ∧ s'.saved = s.saved)) ∧
    (∀ c, s.calls c ≠ .idle → ∃ ls' s', (∀ l ∈ ls', l.actor = c) ∧ Lts.Runs next s ls' s' ∧
      ∃ i, s'.returned = (c, .ok i) :: s.returned) := by
  have hinv : Inv s := h.invariant (fun hinv hok hstep => hinv.step hok.1 hstep) .init
  refine ⟨hinv.alone, hinv.sound, ?_, ?_⟩
  · intro l s' hok hstep
    have hadvances := hinv.advances hok.2.2 hstep
    exact ⟨hadvances, hadvances.version_le, next_returned hok.2.1 hstep⟩
  · intro c hbusy
    exact hinv.completes _ (Nat.le_refl _) hbusy

end OneAtATime

section Runs

instance (s : State Bool) (l : Label Bool) : Decidable (Apart s l) := by
  unfold Apart
  split <;> infer_instance

instance (s : State Bool) (l : Label Bool) : Decidable (Orderly s l) :=
  inferInstanceAs (Decidable (_ ∧ (_ ∧ _) ∧ ∀ v ∈ newVersion (s.calls l.actor), v < 2 ^ 56))

/-- One call from its Rest check to IN_PROGRESS. -/
def toInProgress (c : Bool) : List (Label Bool) :=
  [⟨c, .readTail 64⟩, ⟨c, .setStart⟩, ⟨c, .load⟩, ⟨c, .cas⟩, ⟨c, .observed⟩, ⟨c, .load⟩, ⟨c, .cas⟩]

/-- The rest of it. -/
def toRest (c : Bool) : List (Label Bool) :=
  [⟨c, .observed⟩, ⟨c, .readTail 128⟩, ⟨c, .load⟩, ⟨c, .cas⟩, ⟨c, .observed⟩,
   ⟨c, .flush (some 64)⟩, ⟨c, .write true⟩, ⟨c, .load⟩, ⟨c, .cas⟩, ⟨c, .observed⟩]

/-- A second call, while the first is at IN_PROGRESS, is refused. -/
theorem one_checkpoint_at_a_time_refused :
    ∃ s : State Bool, Lts.Steps next Orderly State.init
        (⟨false, .call 0⟩ :: toInProgress false ++ ⟨true, .call 0⟩ :: toRest false) s ∧
      ∀ c, s.calls c ≠ .panicked := by
  obtain ⟨s, hsteps, -⟩ := Lts.exists_steps next Orderly State.init
    (⟨false, .call 0⟩ :: toInProgress false ++ ⟨true, .call 0⟩ :: toRest false)
    (fun s => s.word = ⟨.rest, 2⟩) (by decide +kernel)
  exact ⟨s, hsteps, (one_checkpoint_at_a_time hsteps).2.1⟩

/-- Two calls pass the Rest check together.  The first has moved the system to
    IN_PROGRESS(2) when the second moves it back to PREPARE(1). -/
theorem two_checkpoints_at_once :
    ∃ (ls ls' : List (Label Bool)) (s s' : State Bool), Lts.Runs next State.init ls s ∧
      Lts.Runs next s ls' s' ∧ (s.calls false).Active ∧ (s.calls true).Active ∧
      s.word = ⟨.inProgress, 2⟩ ∧ s'.word = ⟨.prepare, 1⟩ := by
  obtain ⟨s, hruns, hp⟩ := Lts.exists_runs next State.init
    (⟨false, .call 0⟩ :: ⟨true, .call 0⟩ :: toInProgress false)
    (fun s => decide (((s.calls false).Active ∧ (s.calls true).Active ∧ s.word = ⟨.inProgress, 2⟩) ∧
      (Lts.run next s ((toInProgress true).take 4)).map (fun s => s.word) = some ⟨.prepare, 1⟩))
    (by decide +kernel)
  obtain ⟨⟨hfalse, htrue, hword⟩, hrun⟩ := of_decide_eq_true hp
  obtain ⟨s', hs', hword'⟩ := Option.map_eq_some_iff.mp hrun
  exact ⟨_, _, s, s', hruns, Lts.runs_of_run hs', hfalse, htrue, hword, hword'⟩

end Runs

/-! ## Section 4: Failed checkpoints -/

section Failure

variable {Cid : Type} [DecidableEq Cid] {s s' : State Cid} {c : Cid}

/-- A call becomes active only at Rest. -/
theorem next_active {l : Label Cid} (hstep : next s l = some s') (hactive : (s'.calls c).Active) :
    (s.calls c).Active ∨ s.word.phase = .rest := by
  obtain ⟨d, m⟩ := l
  simp only [next] at hstep
  -- it is enough to look at the call that moves
  have hgoto : ∀ (s₁ : State Cid) (pc : Pc), s₁.calls = s.calls → s' = s₁.goto d pc ∨
      (∃ o, s' = s₁.returns d o) ∧ pc = .idle →
      (pc.Active → (s.calls d).Active ∨ s.word.phase = .rest) →
      (s.calls c).Active ∨ s.word.phase = .rest := by
    intro s₁ pc hsame heq himp
    have hcalls : s'.calls = (s₁.goto d pc).calls := by
      rcases heq with rfl | ⟨⟨o, rfl⟩, rfl⟩
      · rfl
      · rfl
    by_cases hcd : c = d
    · subst hcd
      apply himp
      rwa [hcalls, goto_self] at hactive
    · rw [hcalls, goto_ne s₁ pc hcd, hsame] at hactive
      exact .inl hactive
  generalize hpc : s.calls d = pc at hstep
  rw [hpc] at hgoto
  unfold stepPc at hstep
  split at hstep
  case h_1 =>
    split at hstep
    · rename_i hrest
      exact .inr hrest
    · obtain rfl := Option.some.inj hstep
      exact hgoto s .idle rfl (.inr ⟨⟨_, rfl⟩, rfl⟩) nofun
  case h_4 =>
    rename_i t i
    obtain rfl := Option.some.inj hstep
    apply hgoto s _ rfl (.inl rfl)
    intro _
    cases t <;> exact .inl rfl
  case h_5 =>
    rename_i t i cur
    have hmover : (Pc.swapping t i cur).Active := by cases t <;> rfl
    split at hstep
    · obtain rfl := Option.some.inj hstep
      exact hgoto { s with word := t.state i.version } _ rfl (.inl rfl) fun _ => .inl hmover
    · obtain rfl := Option.some.inj hstep
      exact hgoto s _ rfl (.inl rfl) fun _ => .inl hmover
  case h_6 =>
    rename_i t i
    obtain rfl := Option.some.inj hstep
    cases t with
    | rest => exact hgoto s .idle rfl (.inr ⟨⟨_, rfl⟩, rfl⟩) nofun
    | prepare => exact hgoto s _ rfl (.inl rfl) fun _ => .inl rfl
    | inProgress => exact hgoto s _ rfl (.inl rfl) fun _ => .inl rfl
    | waitFlush => exact hgoto s _ rfl (.inl rfl) fun _ => .inl rfl
  case h_9 | h_11 =>
    obtain rfl := Option.some.inj hstep
    exact hgoto s .idle rfl (.inr ⟨⟨_, rfl⟩, rfl⟩) nofun
  case h_3 =>
    rename_i i
    obtain rfl := Option.some.inj hstep
    exact hgoto { s with startAddress := i.startAddress } _ rfl (.inl rfl) fun _ => .inl rfl
  case h_10 =>
    rename_i i
    obtain rfl := Option.some.inj hstep
    exact hgoto { s with saved := some i } _ rfl (.inl rfl) fun _ => .inl rfl
  case h_12 => cases hstep
  all_goals
    obtain rfl := Option.some.inj hstep
    exact hgoto s _ rfl (.inl rfl) fun _ => .inl rfl

/-- Nobody is left to return the system to Rest. -/
structure Stuck (w : SystemState) (s : State Cid) : Prop where
  word : s.word = w
  nobody : ∀ c, ¬ (s.calls c).Active

theorem Stuck.step {w : SystemState} (h : Stuck w s) (hw : w.phase ≠ .rest) {l : Label Cid}
    (hstep : next s l = some s') : Stuck w s' := by
  refine ⟨?_, fun c hactive => ?_⟩
  · rcases next_word hstep with hsame | ⟨t, i, cur, hpc, -, -⟩
    · rw [hsame, h.word]
    · apply absurd _ (h.nobody l.actor)
      rw [hpc]
      cases t <;> rfl
  · rcases next_active hstep hactive with hbefore | hrest
    · exact h.nobody c hbefore
    · rw [h.word] at hrest
      exact hw hrest

/-- A failing step ends the call with the system at WAIT_FLUSH. -/
theorem Inv.fails (h : Inv s) {l : Label Cid} (hfail : ¬ IoSucceeds l) (hstep : next s l = some s') :
    s' = s.returns l.actor .ioError ∧ s.word.phase = .waitFlush ∧ (s.calls l.actor).Active := by
  obtain ⟨c, m⟩ := l
  have hwait : ∀ i, s.calls c = .flushing i ∨ s.calls c = .writing i →
      s.word.phase = .waitFlush ∧ (s.calls c).Active := by
    intro i hpc
    have hexp : (s.calls c).expects = some (Target.waitFlush.state i.version) := by
      rcases hpc with hpc | hpc <;> rw [hpc] <;> rfl
    constructor
    · rw [h.expected c _ hexp]
      rfl
    · rw [Pc.Active, hexp]
      rfl
  have hm : m = .flush none ∨ m = .write false := by
    by_contra hnot
    exact hfail ⟨fun hf => hnot (.inl hf), fun hw => hnot (.inr hw)⟩
  simp only [next] at hstep
  rcases hm with rfl | rfl
  · cases hpc : s.calls c <;> rw [hpc] at hstep <;> simp [stepPc] at hstep
    exact ⟨hstep.symm, by rw [← hpc]; exact hwait _ (.inl hpc)⟩
  · cases hpc : s.calls c <;> rw [hpc] at hstep <;> simp [stepPc] at hstep
    exact ⟨hstep.symm, by rw [← hpc]; exact hwait _ (.inr hpc)⟩

end Failure

end Tsavorite.CheckpointCalls
