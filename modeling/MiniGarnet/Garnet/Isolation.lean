import MiniGarnet.Garnet.Interleaving

/-! # Isolation of EXEC

    A transaction holds the latches of its lock set from before its first
    queued command to after its last.  The store call of another session on a
    key of the lock set then falls before or after the block: it needs the
    latch.  The one exception is harmless: `find_tag` is made without a latch,
    and a key that has never been written may be reported missing while the
    block runs.

    That a call takes effect at one point is true of all calls but one kind:
    an `rmw` or `delete` that comes back with a record from disk which is no
    longer the newest.
-/

namespace Garnet

open Tsavorite (Status SlotRef keySlot)

/-! ## Section 1: Lock discipline -/

/-- What a program may do outside a transaction, and inside one with the given lock set. -/
inductive LockStep : Option (List (Bytes × LockType)) → Effect →
    Option (List (Bytes × LockType)) → Prop where
  | lock (keys : List (Bytes × LockType)) : LockStep none (.txnLock keys) (some keys)
  | unlock (locks : List (Bytes × LockType)) : LockStep (some locks) .txnUnlock none
  | outside {e : Effect} (hlock : ∀ keys, e ≠ .txnLock keys) (hunlock : e ≠ .txnUnlock) :
      LockStep none e none
  | inside {locks : List (Bytes × LockType)} {e : Effect} (h : e.Covered locks) :
      LockStep (some locks) e (some locks)

/-- The program locks before it uses the store in a block, keeps to its lock set, and
    unlocks at the end. -/
def Disciplined {α : Type} (p : Program Effect Effect.Result α)
    (block : Option (List (Bytes × LockType))) : Prop :=
  p.Follows LockStep (fun _ o => o = none) block

theorem Effect.Covered.outside {locks : List (Bytes × LockType)} {e : Effect}
    (h : e.Covered locks) : LockStep none e none := by
  refine .outside ?_ ?_
  · rintro keys rfl
    exact h
  · rintro rfl
    exact h

/-- From any session state, the handler takes a program from the one typestate to the other. -/
def Handler.Moves {α : Type} (o o' : Option (List (Bytes × LockType))) (h : Handler α) : Prop :=
  ∀ rs, (h rs).Follows LockStep (fun _ x => x = o') o

namespace Handler

variable {α β : Type} {o o' o'' : Option (List (Bytes × LockType))}
  {locks : List (Bytes × LockType)}

theorem moves_pure (a : α) : Handler.Moves o o (pure a) := fun _ => rfl

theorem Moves.bind {h : Handler α} {f : α → Handler β} (hh : h.Moves o o')
    (hf : ∀ a, (f a).Moves o' o'') : Handler.Moves o o'' (h >>= f) := by
  intro rs
  refine (hh rs).bind fun x x' hx => ?_
  rw [hx]
  exact hf x.1 x.2

theorem moves_get : Handler.Moves o o (get : Handler RespSession) := fun _ => rfl

theorem moves_modify (f : RespSession → RespSession) :
    Handler.Moves o o (modify f : Handler PUnit) := fun _ => rfl

theorem moves_ite {c : Prop} [Decidable c] {h h' : Handler α} (hh : h.Moves o o')
    (hh' : h'.Moves o o') : Handler.Moves o o' (if c then h else h') := by
  split
  · exact hh
  · exact hh'

theorem moves_lock (keys : List (Bytes × LockType)) :
    Handler.Moves none (some keys) (perform (.txnLock keys)) :=
  fun _ => ⟨some keys, .lock keys, fun _ => rfl⟩

theorem moves_unlock : Handler.Moves (some locks) none (perform .txnUnlock) :=
  fun _ => ⟨none, .unlock locks, fun _ => rfl⟩

/-- A handler without transaction calls may run outside a block. -/
theorem moves_of_safe {h : Handler α} (hh : Safe locks h) : h.Moves none none := fun rs =>
  ((hh rs trivial).follows fun _ he => he.outside).imp fun _ _ hx => hx.2

/-- A handler that keeps to the lock set may run inside the block. -/
theorem moves_of_safe_block {h : Handler α} (hh : Safe locks h) :
    h.Moves (some locks) (some locks) := fun rs =>
  ((hh rs trivial).follows fun _ he => .inside he).imp fun _ _ hx => hx.2

end Handler

section Dispatch

open Handler

theorem safe_conflictLoop (watches : List (ℕ × ℕ)) : Safe [] (conflictLoop watches) :=
  all_conflictLoop (fun _ => trivial) watches

theorem safe_logBracket (locks : List (Bytes × LockType)) (op : AofOp) :
    Safe locks (logBracket op) := all_logBracket (fun _ => trivial) op

/-- EXEC runs its queue between lock and unlock, and keeps to the lock set it computed. -/
theorem moves_cmdExec : cmdExec.Moves none none := by
  have hdiscard : Safe [] discard := safe_discard
  unfold cmdExec
  refine moves_get.bind fun s => ?_
  dsimp only
  refine moves_ite (moves_pure _) (moves_ite ?_ ?_)
  · exact (moves_of_safe hdiscard).bind fun _ => moves_pure _
  refine (moves_of_safe (safe_conflictLoop _)).bind fun conflict => moves_ite ?_ ?_
  · exact (moves_of_safe hdiscard).bind fun _ => moves_pure _
  have hqueue : Safe (lockKeys s.txn.queued) (execQueued s.txn.queued) :=
    safe_execQueued _ fun _ hx => hx
  refine (moves_modify _).bind fun _ => moves_get.bind fun s' => ?_
  by_cases hreplay : (!s'.replay) = true
  · simp only [hreplay, if_true]
    refine (moves_lock _).bind fun _ => ?_
    refine (moves_of_safe_block (safe_logBracket _ _)).bind fun _ => ?_
    refine (moves_of_safe_block hqueue).bind fun _ => moves_unlock.bind fun _ => ?_
    exact (moves_of_safe (safe_logBracket [] _)).bind fun _ => moves_pure _
  · simp only [hreplay]
    refine (moves_of_safe (safe_logBracket [] _)).bind fun _ => ?_
    refine (moves_of_safe hqueue).bind fun _ => ?_
    exact (moves_of_safe (safe_logBracket [] _)).bind fun _ => moves_pure _

theorem moves_execCommand (raw : Bytes) (args : List Bytes) :
    (execCommand raw args).Moves none none := by
  have hbasic : Safe (commandKeys args) (execBasic raw args) := safe_execBasic fun _ hx => hx
  unfold execCommand
  dsimp only
  exact moves_ite (moves_cmdExec.bind fun _ => moves_pure _)
    ((moves_of_safe hbasic).bind fun _ => moves_pure _)

/-- Every command is disciplined. -/
theorem dispatch_disciplined (clock : Int64) (raw : Bytes) (args : List Bytes) (rs : RespSession) :
    Disciplined (dispatch clock raw args rs) none := by
  have h : (dispatch clock raw args).Moves none none := by
    unfold dispatch
    refine moves_ite (moves_pure _) ((moves_modify _).bind fun _ => moves_get.bind fun s => ?_)
    dsimp only
    refine moves_ite ?_ (moves_execCommand raw args)
    split
    · exact (moves_modify fun _ => _).bind fun _ => moves_pure _
    · exact (moves_modify fun _ => _).bind fun _ => moves_pure _
  exact h rs

end Dispatch

/-! ## Section 2: One session -/

section Session

variable {Sid Cell ω : Type} {mask : ℕ}

/-- Not in a transaction. -/
structure Outside (lo : Local Cell) : Prop where
  txnMode : lo.txnMode = false
  txnLocks : lo.txnLocks = []
  block : lo.block = none

/-- In the block of a transaction, with its latches. -/
structure Inside (mask : ℕ) (lo : Local Cell) (locks : List (Bytes × LockType)) : Prop where
  txnMode : lo.txnMode = true
  block : lo.block = some locks
  covers : Covers mask locks lo.txnLocks
  distinct : Distinct lo.txnLocks

/-- Between `txn_lock` and its first step in the block. -/
structure Locking (mask : ℕ) (lo : Local Cell) (p : Prog) (rest : List (ℕ × LockType)) : Prop where
  txnMode : lo.txnMode = false
  block : lo.block = none
  program : ∃ keys k, p = .op (.txnLock keys) k ∧ (∀ r, Disciplined (k r) (some keys)) ∧
    lo.txnLocks ++ rest = wantedLocks mask keys

/-- The program is disciplined in the typestate of the session. -/
def Settled (mask : ℕ) (lo : Local Cell) (p : Prog) : Prop :=
  (Outside lo ∧ Disciplined p none) ∨ ∃ locks, Inside mask lo locks ∧ Disciplined p (some locks)

/-- What is true of a session at each place of its code. -/
def LocalOk (mask : ℕ) (lo : Local Cell) : Prop :=
  match lo.pc with
  | .idle _ => Outside lo
  | .ready p _ | .holding p _ => Settled mask lo p
  | .latching p _ | .releasing _ _ p _ => Outside lo ∧ Disciplined p none
  | .draining p _ => (Outside lo ∧ Disciplined p none) ∧ ∃ e k, p = .op e k ∧ e.latch = .exclusive
  | .locking p rest => Locking mask lo p rest
  | .lockDraining p rest => Locking mask lo p rest ∧ ∃ b tail, rest = (b, .exclusive) :: tail
  | .unlocking p => lo.txnMode = true ∧ lo.block = none ∧ Distinct lo.txnLocks ∧
      ∃ k, p = .op .txnUnlock k ∧ ∀ r, Disciplined (k r) none

/-- Past an operation that is no transaction call, the session is where it was. -/
theorem Settled.next {lo : Local Cell} {e : Effect} {k : e.Result → Prog}
    (h : Settled mask lo (.op e k)) (hlock : ∀ keys, e ≠ .txnLock keys) (hunlock : e ≠ .txnUnlock)
    (r : e.Result) : Settled mask lo (k r) := by
  rcases h with ⟨hout, o', hstep, hrest⟩ | ⟨locks, hin, o', hstep, hrest⟩
  · cases hstep with
    | lock keys => exact absurd rfl (hlock keys)
    | outside => exact .inl ⟨hout, hrest r⟩
  · cases hstep with
    | unlock => exact absurd rfl hunlock
    | inside => exact .inr ⟨locks, hin, hrest r⟩

theorem Effect.not_txnCall {e : Effect} {key : Bytes} (h : e.storeKey = some key) :
    (∀ keys, e ≠ .txnLock keys) ∧ e ≠ .txnUnlock := by
  refine ⟨?_, ?_⟩
  · rintro keys rfl
    cases h
  · rintro rfl
    cases h

theorem Settled.pc {lo : Local Cell} {p : Prog} (h : Settled mask lo p) (pc : Pc Cell) :
    Settled mask { lo with pc := pc } p := by
  rcases h with ⟨hout, hp⟩ | ⟨locks, hin, hp⟩
  · exact .inl ⟨⟨hout.txnMode, hout.txnLocks, hout.block⟩, hp⟩
  · exact .inr ⟨locks, ⟨hin.txnMode, hin.block, hin.covers, hin.distinct⟩, hp⟩

theorem Settled.outside {lo : Local Cell} {p : Prog} (h : Settled mask lo p)
    (hmode : lo.txnMode = false) : Outside lo ∧ Disciplined p none := by
  rcases h with h | ⟨locks, hin, -⟩
  · exact h
  · rw [hin.txnMode] at hmode
    cases hmode

/-- At the end of an attempt. -/
theorem Settled.leave {lo : Local Cell} {p : Prog} (h : Settled mask lo p) (key : Bytes)
    (e : Effect) (src : Option Cell) : LocalOk mask { lo with pc := leave mask lo key e p src } := by
  unfold Garnet.leave
  split
  · exact h.pc _
  · rename_i hmode
    obtain ⟨hout, hp⟩ := h.outside (by simpa using hmode)
    exact ⟨⟨hout.txnMode, hout.txnLocks, hout.block⟩, hp⟩

/-- A service touches neither sessions nor latches, slots or cells. -/
theorem service_frame {s : State Sid Cell} {i : Sid}
    {answers : (e : Effect) → e.Result} {e : Effect} {r : e.Result}
    {s₁ : State Sid Cell} (h : service s i answers e = some (r, s₁)) :
    s₁.locals = s.locals ∧ s₁.latches = s.latches ∧ s₁.tags = s.tags ∧ s₁.cells = s.cells ∧
      (∀ keys, e ≠ .txnLock keys) ∧ e ≠ .txnUnlock := by
  cases e <;> cases h <;> simp [State.log]

section Step

variable [DecidableEq Sid] {ops : RecordOps ω Cell} {s s' : State Sid Cell} {i j : Sid} {m : Move ω}

@[simp] theorem setLocal_self (s : State Sid Cell) (i : Sid) (lo : Local Cell) :
    (s.setLocal i lo).locals i = lo := if_pos rfl

theorem setLocal_ne (s : State Sid Cell) (lo : Local Cell) (h : j ≠ i) :
    (s.setLocal i lo).locals j = s.locals j := if_neg h

/-- A step changes no session but its own. -/
theorem Taken.locals_ne (h : Taken ops mask s i m s') (hj : j ≠ i) :
    s'.locals j = s.locals j := by
  cases h with
  | served hpc hserved =>
    rw [State.goto, setLocal_ne _ _ hj, (service_frame hserved).1]
  | _ => exact setLocal_ne _ _ hj

theorem LocalOk.ready {lo : Local Cell} {p : Prog} {src : Option Cell} (h : LocalOk mask lo)
    (hpc : lo.pc = .ready p src) : Settled mask lo p := by
  simpa only [LocalOk, hpc] using h

theorem LocalOk.holding {lo : Local Cell} {p : Prog} {src : Option Cell} (h : LocalOk mask lo)
    (hpc : lo.pc = .holding p src) : Settled mask lo p := by
  simpa only [LocalOk, hpc] using h

/-- Every step keeps its session in order. -/
theorem Taken.localOk (h : Taken ops mask s i m s') (hok : LocalOk mask (s.locals i)) :
    LocalOk mask (s'.locals i) := by
  cases h with
  | command hpc =>
    simp only [LocalOk, hpc] at hok
    rw [State.goto, setLocal_self]
    exact .inl ⟨⟨hok.txnMode, hok.txnLocks, hok.block⟩, dispatch_disciplined _ _ _ _⟩
  | finish hpc =>
    rw [State.goto, setLocal_self]
    rcases hok.ready hpc with ⟨hout, -⟩ | ⟨locks, -, hend⟩
    · exact ⟨hout.txnMode, hout.txnLocks, hout.block⟩
    · cases hend
  | found hpc hkey htag =>
    rw [State.goto, setLocal_self]
    have hsettled := hok.ready hpc
    unfold toLatch
    split
    · exact hsettled.pc _
    · rename_i hmode
      obtain ⟨hout, hp⟩ := hsettled.outside (by simpa using hmode)
      exact ⟨⟨hout.txnMode, hout.txnLocks, hout.block⟩, hp⟩
  | missing hpc hkey htag hends =>
    obtain ⟨hlock, hunlock⟩ := Effect.not_txnCall hkey
    rw [State.goto, setLocal_self]
    exact ((hok.ready hpc).next hlock hunlock _).pc _
  | gaveUp hpc hends =>
    rw [State.goto, setLocal_self]
    refine ((hok.ready hpc).next ?_ ?_ _).pc _
    · rintro keys rfl
      cases hends
    · rintro rfl
      cases hends
  | lockEntered hpc =>
    rw [State.goto, setLocal_self]
    rcases hok.ready hpc with ⟨hout, o', hstep, hrest⟩ | ⟨locks, hin, o', hstep, hrest⟩
    · cases hstep with
      | lock => exact ⟨hout.txnMode, hout.block, _, _, rfl, hrest, by simp [hout.txnLocks]⟩
      | outside hlock => exact absurd rfl (hlock _)
    · cases hstep with
      | inside hcovered => cases hcovered
  | unlockEntered hpc =>
    rw [setLocal_self]
    rcases hok.ready hpc with ⟨hout, o', hstep, hrest⟩ | ⟨locks, hin, o', hstep, hrest⟩
    · cases hstep with
      | outside _ hunlock => exact absurd rfl hunlock
    · cases hstep with
      | unlock => exact ⟨hin.txnMode, rfl, hin.distinct, _, rfl, hrest⟩
      | inside hcovered => cases hcovered
  | served hpc hserved =>
    obtain ⟨hlocals, -, -, -, hlock, hunlock⟩ := service_frame hserved
    rw [State.goto, setLocal_self, hlocals]
    exact ((hok.ready hpc).next hlock hunlock _).pc _
  | latchTaken hpc hkey hl =>
    simp only [LocalOk, hpc] at hok
    obtain ⟨hout, hp⟩ := hok
    rw [State.goto, setLocal_self]
    split
    · rename_i hlatch
      exact ⟨⟨⟨hout.txnMode, hout.txnLocks, hout.block⟩, hp⟩, _, _, rfl, hlatch⟩
    · exact .inl ⟨⟨hout.txnMode, hout.txnLocks, hout.block⟩, hp⟩
  | latchFailed hpc =>
    simp only [LocalOk, hpc] at hok
    obtain ⟨hout, hp⟩ := hok
    rw [State.goto, setLocal_self]
    exact .inl ⟨⟨hout.txnMode, hout.txnLocks, hout.block⟩, hp⟩
  | drained hpc hkey hempty =>
    simp only [LocalOk, hpc] at hok
    obtain ⟨⟨hout, hp⟩, -⟩ := hok
    rw [State.goto, setLocal_self]
    exact .inl ⟨⟨hout.txnMode, hout.txnLocks, hout.block⟩, hp⟩
  | drainFailed hpc hkey =>
    simp only [LocalOk, hpc] at hok
    obtain ⟨⟨hout, hp⟩, -⟩ := hok
    rw [State.goto, setLocal_self]
    exact .inl ⟨⟨hout.txnMode, hout.txnLocks, hout.block⟩, hp⟩
  | acted hpc hkey hworked hact =>
    obtain ⟨hlock, hunlock⟩ := Effect.not_txnCall hkey
    rw [State.goto, setLocal_self]
    exact ((hok.holding hpc).next hlock hunlock _).leave _ _ _
  | expired hpc =>
    rw [State.goto, setLocal_self]
    exact (hok.holding hpc).leave _ _ _
  | retried hpc hkey =>
    rw [State.goto, setLocal_self]
    exact (hok.holding hpc).leave _ _ _
  | released hpc =>
    simp only [LocalOk, hpc] at hok
    obtain ⟨hout, hp⟩ := hok
    rw [State.goto, setLocal_self]
    exact .inl ⟨⟨hout.txnMode, hout.txnLocks, hout.block⟩, hp⟩
  | lockTaken hpc hl =>
    simp only [LocalOk, hpc] at hok
    obtain ⟨hmode, hblock, keys, k, hp, hrest, hwanted⟩ := hok
    rw [setLocal_self]
    split
    · rename_i hlock
      exact ⟨⟨hmode, hblock, keys, k, hp, hrest, hwanted⟩, _, _, by rw [hlock]⟩
    · exact ⟨hmode, hblock, keys, k, hp, hrest, by simpa using hwanted⟩
  | lockedAll hpc =>
    simp only [LocalOk, hpc] at hok
    obtain ⟨hmode, hblock, keys, k, hp, hrest, hwanted⟩ := hok
    cases hp
    rw [List.append_nil] at hwanted
    rw [setLocal_self]
    refine .inr ⟨_, ⟨rfl, rfl, ?_, ?_⟩, hrest ()⟩
    · show Covers mask _ (s.locals i).txnLocks
      rw [hwanted]
      exact wantedLocks_covers mask _
    · show Distinct (s.locals i).txnLocks
      rw [hwanted]
      exact wantedLocks_distinct mask _
  | lockDrained hpc hempty =>
    simp only [LocalOk, hpc] at hok
    obtain ⟨⟨hmode, hblock, keys, k, hp, hrest, hwanted⟩, -⟩ := hok
    rw [setLocal_self]
    exact ⟨hmode, hblock, keys, k, hp, hrest, by simpa using hwanted⟩
  | lockDrainFailed hpc =>
    simp only [LocalOk, hpc] at hok
    obtain ⟨⟨hmode, hblock, hprog⟩, -⟩ := hok
    rw [State.goto, setLocal_self]
    exact ⟨hmode, hblock, hprog⟩
  | unlockedOne hpc hlocks =>
    simp only [LocalOk, hpc] at hok
    obtain ⟨hmode, hblock, hdistinct, hprog⟩ := hok
    rw [setLocal_self]
    rw [hlocks] at hdistinct
    exact ⟨hmode, hblock, (List.pairwise_cons.mp hdistinct).2, hprog⟩
  | unlockedAll hpc hlocks =>
    simp only [LocalOk, hpc] at hok
    obtain ⟨hmode, hblock, -, k, hp, hrest⟩ := hok
    cases hp
    rw [setLocal_self]
    exact .inl ⟨⟨rfl, hlocks, hblock⟩, hrest ()⟩

end Step

end Session

/-! ## Section 3: Latches -/

section Latches

variable {Sid Cell ω : Type} {mask : ℕ}

/-- What a session may have of a bucket's latch: a reader's count, the exclusive bit, or
    the bit with no reader left. -/
inductive Hold where
  | shared
  | bit
  | exclusive

def LockType.hold : LockType → Hold
  | .shared => .shared
  | .exclusive => .exclusive

/-- What the call in progress has latched. -/
def pcHolds (mask : ℕ) (txnMode : Bool) (b : ℕ) (h : Hold) : Pc Cell → Prop
  | .draining (.op e _) _ => e.storeKey.map (bucketOf mask) = some b ∧ h = .bit
  | .holding (.op e _) _ =>
    txnMode = false ∧ e.storeKey.map (bucketOf mask) = some b ∧ h = e.latch.hold
  | .releasing b' lock _ _ => b' = b ∧ h = lock.hold
  | .lockDraining _ ((b', _) :: _) => b' = b ∧ h = .bit
  | _ => False

/-- What a session has latched. -/
def Local.Holds (mask : ℕ) (lo : Local Cell) (b : ℕ) (h : Hold) : Prop :=
  (∃ lock, (b, lock) ∈ lo.txnLocks ∧ h = lock.hold) ∨ pcHolds mask lo.txnMode b h lo.pc

/-- The latch says so. -/
def Granted (l : Latch Sid) (i : Sid) : Hold → Prop
  | .shared => i ∈ l.shared
  | .bit => l.exclusive = some i
  | .exclusive => l.exclusive = some i ∧ l.shared = []

/-- The latches are what the sessions think. -/
def LatchesOk (mask : ℕ) (s : State Sid Cell) : Prop :=
  ∀ i b h, (s.locals i).Holds mask b h → Granted (s.latches b) i h

theorem Granted.bit_of_exclusive {l : Latch Sid} {i : Sid} {h : Hold} (hg : Granted l i h)
    (hne : h ≠ .shared) : l.exclusive = some i := by
  cases h with
  | shared => exact absurd rfl hne
  | bit => exact hg
  | exclusive => exact hg.1

/-- An exclusive latch excludes all others. -/
theorem Granted.eq_of_exclusive {l : Latch Sid} {i j : Sid} {h : Hold}
    (hi : Granted l i .exclusive) (hj : Granted l j h) : i = j := by
  cases h with
  | shared =>
    simp only [Granted, hi.2] at hj
    cases hj
  | bit => exact Option.some.inj (hi.1.symm.trans hj)
  | exclusive => exact Option.some.inj (hi.1.symm.trans hj.1)

theorem take_eq {l l' : Latch Sid} {lock : LockType} {i : Sid} (h : l.take lock i = some l') :
    l.exclusive = none ∧ (lock = .shared → l' = { l with shared := i :: l.shared }) ∧
      (lock = .exclusive → l' = { l with exclusive := some i }) := by
  cases lock <;> simp only [Latch.take] at h <;> split at h
  · rename_i hfree
    exact ⟨hfree.1, fun _ => (Option.some.inj h).symm, nofun⟩
  · cases h
  · rename_i hfree
    exact ⟨hfree, nofun, fun _ => (Option.some.inj h).symm⟩
  · cases h

/-- Taking a latch takes nothing from anybody. -/
theorem Granted.take {l l' : Latch Sid} {lock : LockType} {i j : Sid} {h : Hold}
    (hg : Granted l j h) (ht : l.take lock i = some l') : Granted l' j h := by
  obtain ⟨hnone, hshared, hexclusive⟩ := take_eq ht
  have hh : h = .shared := by
    by_contra hne
    rw [hg.bit_of_exclusive hne] at hnone
    cases hnone
  subst hh
  cases lock with
  | shared =>
    rw [hshared rfl]
    exact List.mem_cons_of_mem _ hg
  | exclusive =>
    rw [hexclusive rfl]
    exact hg

theorem setLatch_self (s : State Sid Cell) (b : ℕ) (l : Latch Sid) :
    (s.setLatch b l).latches b = l := if_pos rfl

theorem setLatch_ne (s : State Sid Cell) {b c : ℕ} (l : Latch Sid) (h : c ≠ b) :
    (s.setLatch b l).latches c = s.latches c := if_neg h

/-- With a latch taken, everybody has what he had. -/
theorem Granted.setLatch_take {s : State Sid Cell} {i j : Sid} {b c : ℕ} {l : Latch Sid}
    {lock : LockType} {h : Hold} (hg : Granted (s.latches c) j h)
    (ht : (s.latches b).take lock i = some l) :
    Granted ((s.setLatch b l).latches c) j h := by
  by_cases hc : c = b
  · subst hc
    rw [setLatch_self]
    exact hg.take ht
  · rw [setLatch_ne s l hc]
    exact hg

section Step

variable [DecidableEq Sid] {ops : RecordOps ω Cell} {s s' : State Sid Cell} {i j : Sid} {m : Move ω}

/-- Dropping one's own latch leaves the others theirs. -/
theorem Granted.drop {l : Latch Sid} {lock : LockType} {h h' : Hold} (hg : Granted l j h)
    (hne : j ≠ i) (hown : Granted l i h') (hlock : lock = .exclusive → h' ≠ .shared) :
    Granted (l.drop lock i) j h := by
  cases lock with
  | shared =>
    cases h with
    | shared => exact (List.mem_erase_of_ne hne).mpr hg
    | bit => exact hg
    | exclusive => exact ⟨hg.1, by simp [Latch.drop, hg.2]⟩
  | exclusive =>
    have hbit := hown.bit_of_exclusive (hlock rfl)
    cases h with
    | shared => exact hg
    | bit => exact absurd (Option.some.inj (hg.symm.trans hbit)) hne
    | exclusive => exact absurd (Option.some.inj (hg.1.symm.trans hbit)) hne

/-- With a latch of `i` dropped, the others have what they had. -/
theorem Granted.setLatch_drop {b c : ℕ} {lock : LockType} {h h' : Hold}
    (hg : Granted (s.latches c) j h) (hne : j ≠ i) (hown : Granted (s.latches b) i h')
    (hlock : lock = .exclusive → h' ≠ .shared) :
    Granted ((s.setLatch b ((s.latches b).drop lock i)).latches c) j h := by
  by_cases hc : c = b
  · subst hc
    rw [setLatch_self]
    exact hg.drop hne hown hlock
  · rw [setLatch_ne s _ hc]
    exact hg

theorem LockType.hold_ne_shared {lock : LockType} (h : lock = .exclusive) : lock.hold ≠ .shared := by
  subst h
  intro h
  cases h

/-- The invariant after a step of `i`, from what the step does to `i` and to the others. -/
theorem LatchesOk.step (hok : LatchesOk mask s) (hlocals : ∀ j, j ≠ i → s'.locals j = s.locals j)
    (hothers : ∀ j, j ≠ i → ∀ b h, Granted (s.latches b) j h → Granted (s'.latches b) j h)
    (hown : ∀ b h, (s'.locals i).Holds mask b h → Granted (s'.latches b) i h) :
    LatchesOk mask s' := by
  intro j b h hholds
  by_cases hj : j = i
  · subst hj
    exact hown b h hholds
  · rw [hlocals j hj] at hholds
    exact hothers j hj b h (hok j b h hholds)

/-- What is latched for a transaction and what the call in progress has latched. -/
theorem Local.Holds.elim {lo : Local Cell} {b : ℕ} {h : Hold} {q : Prop} (hh : lo.Holds mask b h)
    (htxn : ∀ lock, (b, lock) ∈ lo.txnLocks → h = lock.hold → q)
    (hpc : pcHolds mask lo.txnMode b h lo.pc → q) : q := by
  rcases hh with ⟨lock, hmem, heq⟩ | hcall
  · exact htxn lock hmem heq
  · exact hpc hcall

/-- A step that takes a latch for `i`. -/
theorem LatchesOk.take (hok : LatchesOk mask s) (hlocals : ∀ j, j ≠ i → s'.locals j = s.locals j)
    {b : ℕ} {l : Latch Sid} {lock : LockType} (hl : (s.latches b).take lock i = some l)
    (hlatches : s'.latches = (s.setLatch b l).latches)
    (hown : ∀ c h, (s'.locals i).Holds mask c h →
      (s.locals i).Holds mask c h ∨ c = b ∧ Granted l i h) : LatchesOk mask s' := by
  refine hok.step hlocals (fun j _ c h hg => ?_) fun c h hh => ?_
  · rw [hlatches]
    exact hg.setLatch_take hl
  · rw [hlatches]
    rcases hown c h hh with hold | ⟨rfl, hnew⟩
    · exact (hok i c h hold).setLatch_take hl
    · rwa [setLatch_self]

/-- A step that drops a latch of `i`. -/
theorem LatchesOk.drop (hok : LatchesOk mask s) (hlocals : ∀ j, j ≠ i → s'.locals j = s.locals j)
    {b : ℕ} {lock : LockType} {k : Hold} (hhad : (s.locals i).Holds mask b k)
    (hlock : lock = .exclusive → k ≠ .shared)
    (hlatches : s'.latches = (s.setLatch b ((s.latches b).drop lock i)).latches)
    (hown : ∀ c h, (s'.locals i).Holds mask c h → c ≠ b ∧ (s.locals i).Holds mask c h) :
    LatchesOk mask s' := by
  refine hok.step hlocals (fun j hj c h hg => ?_) fun c h hh => ?_
  · rw [hlatches]
    exact hg.setLatch_drop hj (hok i b k hhad) hlock
  · rw [hlatches]
    obtain ⟨hne, hold⟩ := hown c h hh
    rw [setLatch_ne s _ hne]
    exact hok i c h hold

/-- A step that changes no latch and gives `i` nothing new. -/
theorem LatchesOk.same (hok : LatchesOk mask s) (hlocals : ∀ j, j ≠ i → s'.locals j = s.locals j)
    (hlatches : s'.latches = s.latches) (hlocks : (s'.locals i).txnLocks = (s.locals i).txnLocks)
    (hpc : ∀ b h, pcHolds mask (s'.locals i).txnMode b h (s'.locals i).pc →
      Granted (s.latches b) i h) : LatchesOk mask s' := by
  refine hok.step hlocals (fun _ _ _ _ hg => by rwa [hlatches]) fun b h hh => ?_
  rw [hlatches]
  refine hh.elim (fun lock hmem heq => ?_) (hpc b h)
  rw [hlocks] at hmem
  exact hok i b h (.inl ⟨lock, hmem, heq⟩)

theorem pcHolds_leave {lo : Local Cell} {key : Bytes} {e : Effect} {p : Prog}
    {src src' : Option Cell} {b : ℕ} {h : Hold} {k : e.Result → Prog} (hkey : e.storeKey = some key)
    (hpc : lo.pc = .holding (.op e k) src')
    (hh : pcHolds mask lo.txnMode b h (leave mask lo key e p src)) : lo.Holds mask b h := by
  unfold leave at hh
  split at hh
  · cases hh
  · rename_i hmode
    refine .inr ?_
    rw [hpc]
    exact ⟨by simpa using hmode, by simp [hkey, hh.1], hh.2⟩

theorem Taken.latchesOk (h : Taken ops mask s i m s') (hlocal : LocalOk mask (s.locals i))
    (hok : LatchesOk mask s) : LatchesOk mask s' := by
  have hlocals : ∀ j, j ≠ i → s'.locals j = s.locals j := fun j hj => h.locals_ne hj
  cases h with
  | command hpc => exact hok.same hlocals rfl (by simp [State.goto, State.log]) (by simp [State.goto, pcHolds])
  | finish hpc => exact hok.same hlocals rfl (by simp [State.goto]) (by simp [State.goto, pcHolds])
  | found hpc hkey htag =>
    refine hok.same hlocals rfl (by simp [State.goto, State.setTag]) ?_
    intro b h hh
    simp only [State.goto, setLocal_self, toLatch, State.setTag] at hh
    split at hh
    · rename_i hmode
      rw [hmode] at hh
      cases hh.1
    · cases hh
  | missing hpc hkey htag hends =>
    exact hok.same hlocals rfl (by simp [State.goto, State.log]) (by simp [State.goto, pcHolds])
  | gaveUp hpc hends =>
    exact hok.same hlocals rfl (by simp [State.goto]) (by simp [State.goto, pcHolds])
  | lockEntered hpc =>
    exact hok.same hlocals rfl (by simp [State.goto]) (by simp [State.goto, pcHolds])
  | unlockEntered hpc =>
    exact hok.same hlocals rfl (by simp) (by simp [pcHolds])
  | served hpc hserved =>
    obtain ⟨heq, hlatches, -⟩ := service_frame hserved
    exact hok.same hlocals hlatches (by simp [State.goto, heq]) (by simp [State.goto, pcHolds])
  | latchTaken hpc hkey hl =>
    refine hok.take hlocals hl rfl fun c h hh => ?_
    rw [State.goto, setLocal_self] at hh
    refine hh.elim (fun lock hmem heq => .inl (.inl ⟨lock, hmem, heq⟩)) fun hcall => .inr ?_
    obtain ⟨-, hshared, hexclusive⟩ := take_eq hl
    split at hcall
    · rename_i hlatch
      obtain ⟨hb, rfl⟩ := hcall
      rw [hexclusive hlatch]
      exact ⟨by simpa [hkey, eq_comm] using hb, rfl⟩
    · rename_i e k src key l hlatch
      obtain ⟨-, hb, rfl⟩ := hcall
      have hsh : e.latch = .shared := by
        cases hel : e.latch with
        | shared => rfl
        | exclusive => exact absurd hel hlatch
      rw [hshared hsh, hsh]
      exact ⟨by simpa [hkey, eq_comm] using hb, List.mem_cons_self⟩
  | latchFailed hpc =>
    exact hok.same hlocals rfl (by simp [State.goto]) (by simp [State.goto, pcHolds])
  | drained hpc hkey hempty =>
    simp only [LocalOk, hpc] at hlocal
    obtain ⟨-, e, k, hp, hlatch⟩ := hlocal
    cases hp
    refine hok.same hlocals rfl (by simp [State.goto]) fun b h hh => ?_
    rw [State.goto, setLocal_self] at hh
    obtain ⟨-, hb, rfl⟩ := hh
    have hbit : Granted (s.latches b) i .bit := hok i b .bit (.inr (by rw [hpc]; exact ⟨hb, rfl⟩))
    rw [hkey] at hb
    obtain rfl := Option.some.inj hb
    rw [hlatch]
    exact ⟨hbit, hempty⟩
  | drainFailed hpc hkey =>
    simp only [LocalOk, hpc] at hlocal
    refine hok.drop hlocals (k := .bit) (.inr ?_) (fun _ => nofun) rfl fun c h hh => ?_
    · rw [hpc]
      exact ⟨by rw [hkey]; rfl, rfl⟩
    · rw [State.goto, setLocal_self] at hh
      refine hh.elim (fun lock hmem heq => ?_) fun hcall => hcall.elim
      rw [show (s.setLatch _ _).locals i = s.locals i from rfl] at hmem
      simp [hlocal.1.1.txnLocks] at hmem
  | acted hpc hkey hworked hact =>
    refine hok.same hlocals rfl (by simp [State.goto, State.log, State.setCell]) fun b h hh => ?_
    rw [State.goto, setLocal_self] at hh
    exact hok i b h (pcHolds_leave hkey hpc hh)
  | expired hpc =>
    refine hok.same hlocals rfl (by simp [State.goto, State.log, State.setCell]) fun b h hh => ?_
    rw [State.goto, setLocal_self] at hh
    exact hok i b h (pcHolds_leave rfl hpc hh)
  | retried hpc hkey =>
    refine hok.same hlocals rfl (by simp [State.goto]) fun b h hh => ?_
    rw [State.goto, setLocal_self] at hh
    exact hok i b h (pcHolds_leave hkey hpc hh)
  | released hpc =>
    simp only [LocalOk, hpc] at hlocal
    refine hok.drop hlocals (.inr ?_) LockType.hold_ne_shared rfl fun c h hh => ?_
    · rw [hpc]
      exact ⟨rfl, rfl⟩
    · rw [State.goto, setLocal_self] at hh
      refine hh.elim (fun lock hmem heq => ?_) fun hcall => hcall.elim
      rw [show (s.setLatch _ _).locals i = s.locals i from rfl] at hmem
      simp [hlocal.1.txnLocks] at hmem
  | lockTaken hpc hl =>
    rename_i p b lock rest l
    refine hok.take hlocals hl rfl fun c h hh => ?_
    rw [setLocal_self] at hh
    obtain ⟨-, hshared, hexclusive⟩ := take_eq hl
    split at hh
    · rename_i hlock
      refine hh.elim (fun lock hmem heq => .inl (.inl ⟨lock, hmem, heq⟩)) fun hcall => .inr ?_
      obtain ⟨rfl, rfl⟩ := hcall
      rw [hexclusive hlock]
      exact ⟨rfl, rfl⟩
    · rename_i hlock
      have hsh : lock = .shared := by
        cases lock with
        | shared => rfl
        | exclusive => exact absurd rfl hlock
      refine hh.elim (fun lock' hmem heq => ?_) fun hcall => hcall.elim
      rcases List.mem_append.mp hmem with hmem | hmem
      · exact .inl (.inl ⟨lock', hmem, heq⟩)
      · obtain ⟨rfl, rfl⟩ := Prod.mk.inj (List.mem_singleton.mp hmem)
        rw [heq, hshared hsh, hsh]
        exact .inr ⟨rfl, List.mem_cons_self⟩
  | lockedAll hpc =>
    exact hok.same hlocals rfl (by simp) (by simp [pcHolds])
  | lockDrained hpc hempty =>
    rename_i p b lock rest
    simp only [LocalOk, hpc] at hlocal
    obtain ⟨-, b', tail, hrest⟩ := hlocal
    obtain ⟨⟨rfl, rfl⟩, rfl⟩ : (b = b' ∧ lock = .exclusive) ∧ rest = tail := by
      simpa using hrest
    refine hok.step hlocals (fun _ _ _ _ hg => hg) fun c h hh => ?_
    rw [setLocal_self] at hh
    refine hh.elim (fun lock' hmem heq => ?_) fun hcall => hcall.elim
    rcases List.mem_append.mp hmem with hmem | hmem
    · exact hok i c h (.inl ⟨lock', hmem, heq⟩)
    · obtain ⟨rfl, rfl⟩ := Prod.mk.inj (List.mem_singleton.mp hmem)
      have hbit : Granted (s.latches c) i .bit := hok i c .bit (.inr (by rw [hpc]; exact ⟨rfl, rfl⟩))
      rw [heq]
      exact ⟨hbit, hempty⟩
  | lockDrainFailed hpc =>
    simp only [LocalOk, hpc] at hlocal
    obtain ⟨⟨-, -, keys, k, -, -, hwanted⟩, -⟩ := hlocal
    have hdistinct := wantedLocks_distinct mask keys
    rw [← hwanted] at hdistinct
    refine hok.drop hlocals (k := .bit) (.inr ?_) (fun _ => nofun) rfl fun c h hh => ?_
    · rw [hpc]
      exact ⟨rfl, rfl⟩
    · rw [State.goto, setLocal_self] at hh
      refine hh.elim (fun lock hmem heq => ?_) fun hcall => hcall.elim
      refine ⟨?_, .inl ⟨lock, hmem, heq⟩⟩
      exact (List.pairwise_append.mp hdistinct).2.2 _ hmem _ List.mem_cons_self
  | unlockedOne hpc hlocks =>
    simp only [LocalOk, hpc] at hlocal
    have hdistinct := hlocal.2.2.1
    rw [hlocks] at hdistinct
    refine hok.drop hlocals (.inl ⟨_, ?_, rfl⟩) LockType.hold_ne_shared rfl fun c h hh => ?_
    · rw [hlocks]
      exact List.mem_cons_self
    · rw [setLocal_self] at hh
      refine hh.elim (fun lock hmem heq => ?_) fun hcall => hcall.elim
      refine ⟨((List.pairwise_cons.mp hdistinct).1 _ hmem).symm, .inl ⟨lock, ?_, heq⟩⟩
      rw [hlocks]
      exact List.mem_cons_of_mem _ hmem
  | unlockedAll hpc hlocks =>
    exact hok.same hlocals rfl (by simp) (by simp [pcHolds])

end Step

end Latches

/-! ## Section 4: Blocks and the calls of others -/

section Blocks

variable {Sid Cell ω : Type} {mask : ℕ}

/-- No call has written the key. -/
def Unwritten (key : Bytes) (trace : List (Event Sid Cell)) : Prop :=
  ∀ i e worked found written, .did i e worked found written ∈ trace → e.storeKey = some key →
    written = none

/-- The call in progress, once it has found its slot. -/
def Pc.slotted : Pc Cell → Option Effect
  | .latching (.op e _) _ | .draining (.op e _) _ | .holding (.op e _) _ => some e
  | _ => none

/-- The key of a call and the record from disk that it completes from, if it does. -/
def fromDisk : Pc Cell → Move ω → Option (Bytes × Cell)
  | .holding (.op e _) (some c), .act _ true => e.storeKey.map fun key => (key, c)
  | _, _ => none

/-- Is the event a store call? -/
def Event.IsCall : Event Sid Cell → Prop
  | .did .. => True
  | _ => False

theorem Unwritten.cons_mark {key : Bytes} {trace : List (Event Sid Cell)}
    {ev : Event Sid Cell} (h : Unwritten key trace) (hev : ¬ ev.IsCall) :
    Unwritten key (ev :: trace) := by
  intro j e worked found written hmem hkey
  rcases List.mem_cons.mp hmem with rfl | hmem
  · exact absurd trivial hev
  · exact h j e worked found written hmem hkey

theorem Unwritten.cons_call {key : Bytes} {trace : List (Event Sid Cell)} {i : Sid}
    {e : Effect} {worked found : Cell} {written : Option Cell} (h : Unwritten key trace)
    (hcall : e.storeKey = some key → written = none) :
    Unwritten key (.did i e worked found written :: trace) := by
  intro j e' worked' found' written' hmem hkey
  rcases List.mem_cons.mp hmem with heq | hmem
  · cases heq
    exact hcall hkey
  · exact h j e' worked' found' written' hmem hkey

/-- A session in a block has the latches of its lock set. -/
theorem LocalOk.covers {lo : Local Cell} {locks : List (Bytes × LockType)} (h : LocalOk mask lo)
    (hblock : lo.block = some locks) : Covers mask locks lo.txnLocks := by
  have hsettled : ∀ p, Settled mask lo p → Covers mask locks lo.txnLocks := by
    rintro p (⟨hout, -⟩ | ⟨locks', hin, -⟩)
    · rw [hout.block] at hblock
      cases hblock
    · rw [hin.block] at hblock
      cases hblock
      exact hin.covers
  have hnone : lo.block = none → Covers mask locks lo.txnLocks := by
    intro hn
    rw [hn] at hblock
    cases hblock
  unfold LocalOk at h
  split at h
  · exact hnone h.block
  · exact hsettled _ h
  · exact hsettled _ h
  · exact hnone h.1.block
  · exact hnone h.1.block
  · exact hnone h.1.1.block
  · exact hnone h.block
  · exact hnone h.1.block
  · exact hnone h.2.1

/-- A key of a block is latched, exclusively if the block may write it. -/
theorem block_granted {s : State Sid Cell} (hlatches : LatchesOk mask s) {T : Sid} {locks : List (Bytes × LockType)}
    (hlocal : LocalOk mask (s.locals T)) (hblock : (s.locals T).block = some locks) {key : Bytes}
    {lock : LockType} (hmem : (key, lock) ∈ locks) :
    ∃ lock' : LockType, Granted (s.latches (bucketOf mask key)) T lock'.hold ∧
      (lock = .exclusive → lock' = .exclusive) := by
  obtain ⟨⟨b, lock'⟩, hheld, hb, hex⟩ := hlocal.covers hblock _ hmem
  subst hb
  exact ⟨lock', hlatches T _ _ (.inl ⟨lock', hheld, rfl⟩), hex⟩

/-- So is the key of a call that looks at its record. -/
theorem call_granted {s : State Sid Cell} (hlatches : LatchesOk mask s) {j : Sid}
    (hlocal : LocalOk mask (s.locals j)) {e : Effect} {k : e.Result → Prog}
    {src : Option Cell} {key : Bytes}
    (hpc : (s.locals j).pc = .holding (.op e k) src) (hkey : e.storeKey = some key) :
    ∃ lock : LockType, Granted (s.latches (bucketOf mask key)) j lock.hold ∧
      (e.latch = .exclusive → lock = .exclusive) := by
  rcases hlocal.holding hpc with ⟨hout, -⟩ | ⟨locks, hin, o', hstep, -⟩
  · refine ⟨e.latch, hlatches j _ _ (.inr ?_), id⟩
    rw [hpc]
    exact ⟨hout.txnMode, by rw [hkey]; rfl, rfl⟩
  · have hcovered : ∃ lock, (key, lock) ∈ locks ∧ (e.latch = .exclusive → lock = .exclusive) := by
      cases hstep with
      | unlock => cases hkey
      | inside hcov =>
        cases e <;> cases hkey
        · obtain ⟨lock, hmem⟩ := hcov
          exact ⟨lock, hmem, nofun⟩
        · exact ⟨_, hcov, fun _ => rfl⟩
        · exact ⟨_, hcov, fun _ => rfl⟩
        · exact ⟨_, hcov, fun _ => rfl⟩
    obtain ⟨lock, hmem, hex⟩ := hcovered
    obtain ⟨lock', hg, hex'⟩ := block_granted hlatches hlocal hin.block hmem
    exact ⟨lock', hg, fun h => hex' (hex h)⟩

/-- An exclusive hold and any other on one bucket are of one session. -/
theorem granted_excludes {l : Latch Sid} {i j : Sid} {lock lock' : LockType}
    (hi : Granted l i lock.hold) (hex : lock = .exclusive) (hj : Granted l j lock'.hold) :
    i = j := by
  subst hex
  exact Granted.eq_of_exclusive hi hj

variable [DecidableEq Sid]

/-- The lock set of the block that `T` is in after these events. -/
def openBlock (T : Sid) : List (Event Sid Cell) → Option (List (Bytes × LockType))
  | [] => none
  | .began i locks :: older => if i = T then some locks else openBlock T older
  | .ended i :: older => if i = T then none else openBlock T older
  | _ :: older => openBlock T older

/-- Every call takes effect at one point.  A call of a queued command keeps to the lock set.
    The call of another session in the middle of a block writes no key of the block, and
    where it looks at a key the block may write, nobody has ever written that key: before
    the block it would have found the same. -/
def Isolated (absent : Cell) (trace : List (Event Sid Cell)) : Prop :=
  ∀ newer j e worked found written older, trace = newer ++ .did j e worked found written :: older →
    worked = found ∧
    ∀ T locks key, openBlock T older = some locks → e.storeKey = some key →
      (j = T → e.Covered locks) ∧
      (j ≠ T → (∀ lock, (key, lock) ∈ locks → written = none) ∧
        ((key, .exclusive) ∈ locks → found = absent ∧ Unwritten key older))

/-- The latches of the block's keys are held. -/
def BlockHolds (mask : ℕ) (s : State Sid Cell) (T : Sid) (locks : List (Bytes × LockType)) : Prop :=
  ∀ key,
    ((key, .exclusive) ∈ locks → (s.latches (bucketOf mask key)).exclusive = some T ∧
      (s.latches (bucketOf mask key)).shared = []) ∧
    (∀ lock, (key, lock) ∈ locks → (s.latches (bucketOf mask key)).exclusive = some T ∨
      T ∈ (s.latches (bucketOf mask key)).shared)

/-- A call that completes from a record it has read from disk finds that record still the
    newest of its key. -/
def Fresh (s : State Sid Cell) (l : Label Sid ω) : Prop :=
  ∀ x ∈ fromDisk (s.locals l.actor).pc l.move, s.cells x.1 = x.2

instance [DecidableEq Cell] (s : State Sid Cell) (l : Label Sid ω) : Decidable (Fresh s l) :=
  inferInstanceAs (Decidable (∀ x ∈ fromDisk (s.locals l.actor).pc l.move, s.cells x.1 = x.2))

/-- The invariant. -/
structure BlockInv (absent : Cell) (mask : ℕ) (s : State Sid Cell) : Prop where
  locals : ∀ i, LocalOk mask (s.locals i)
  latches : LatchesOk mask s
  blocks : ∀ i, openBlock i s.trace = (s.locals i).block
  /-- A call past `find` has a slot. -/
  found : ∀ i e key, (s.locals i).pc.slotted = some e → e.storeKey = some key →
    s.tags (keySlot mask key) = true
  /-- Keys without a slot have never been written. -/
  slots : ∀ key, s.tags (keySlot mask key) = false →
    s.cells key = absent ∧ Unwritten key s.trace
  isolated : Isolated absent s.trace

/-- What a step does to the records. -/
inductive Impact (ops : RecordOps ω Cell) (mask : ℕ) (s : State Sid Cell) (i : Sid) (m : Move ω)
    (s' : State Sid Cell) : Prop where
  | quiet (hcells : s'.cells = s.cells)
      (htrace : s'.trace = s.trace ∨ ∃ ev, ¬ ev.IsCall ∧ s'.trace = ev :: s.trace)
  /-- A call that has found no slot. -/
  | missing {e k src key} (hpc : (s.locals i).pc = .ready (.op e k) src)
      (hkey : e.storeKey = some key) (htag : s.tags (keySlot mask key) = false)
      (hcells : s'.cells = s.cells)
      (htrace : s'.trace = .did i e ops.absent (s.cells key) none :: s.trace)
  /-- A call at its record. -/
  | acted {e k src key worked written} (hpc : (s.locals i).pc = .holding (.op e k) src)
      (hkey : e.storeKey = some key)
      (hworked : worked = s.cells key ∨ src = some worked ∧ ∃ w, m = .act w true)
      (hread : e.latch = .shared → written = none)
      (hcells : ∀ key', key' ≠ key → s'.cells key' = s.cells key')
      (htrace : s'.trace = .did i e worked (s.cells key) written :: s.trace)

section Step

variable {ops : RecordOps ω Cell} {s s' : State Sid Cell} {i : Sid} {m : Move ω}

theorem RecordOps.act_read {w : ω} {c : Cell} {e : Effect} {r : e.Result} {written : Option Cell}
    (h : ops.act w c e = some (r, written)) (hread : e.latch = .shared) : written = none := by
  cases e <;> cases hread
  exact (Prod.mk.inj (Option.some.inj h)).2.symm

theorem service_trace {answers : (e : Effect) → e.Result} {e : Effect} {r : e.Result}
    {s₁ : State Sid Cell} (h : service s i answers e = some (r, s₁)) :
    s₁.trace = s.trace ∨ ∃ ev : Event Sid Cell, ¬ ev.IsCall ∧ (∀ T, openBlock T (ev :: s.trace) =
      openBlock T s.trace) ∧ s₁.trace = ev :: s.trace := by
  cases e <;> cases h
  case bump => exact .inr ⟨_, id, fun _ => rfl, rfl⟩
  case slotVersion => exact .inr ⟨_, id, fun _ => rfl, rfl⟩
  case versionAt => exact .inr ⟨_, id, fun _ => rfl, rfl⟩
  all_goals exact .inl rfl

theorem Taken.impact (h : Taken ops mask s i m s') : Impact ops mask s i m s' := by
  cases h with
  | command hpc => exact .quiet rfl (.inr ⟨_, id, rfl⟩)
  | missing hpc hkey htag hends => exact .missing hpc hkey htag rfl rfl
  | unlockEntered hpc => exact .quiet rfl (.inr ⟨_, id, rfl⟩)
  | lockedAll hpc => exact .quiet rfl (.inr ⟨_, id, rfl⟩)
  | served hpc hserved =>
    refine .quiet (service_frame hserved).2.2.2.1 ?_
    rcases service_trace hserved with heq | ⟨ev, hev, -, heq⟩
    · exact .inl heq
    · exact .inr ⟨ev, hev, heq⟩
  | acted hpc hkey hworked hact =>
    rename_i e k src key w fromSrc c r written
    refine .acted hpc hkey ?_ (RecordOps.act_read hact) (fun key' hne => if_neg hne) rfl
    · cases fromSrc with
      | true => exact .inr ⟨hworked, w, rfl⟩
      | false => exact .inl (Option.some.inj hworked).symm
  | expired hpc => exact .acted hpc rfl (.inl rfl) nofun (fun key' hne => if_neg hne) rfl
  | _ => exact .quiet rfl (.inl rfl)

/-- The sessions know which block they are in. -/
theorem Taken.blocks (h : Taken ops mask s i m s')
    (hb : ∀ j, openBlock j s.trace = (s.locals j).block) (j : Sid) :
    openBlock j s'.trace = (s'.locals j).block := by
  by_cases hj : j = i
  · subst hj
    cases h with
    | served hpc hserved =>
      rw [State.goto, setLocal_self, (service_frame hserved).1]
      show openBlock j _ = (s.locals j).block
      rw [← hb j]
      rcases service_trace hserved with heq | ⟨ev, -, hopen, heq⟩
      · exact congrArg _ heq
      · exact (congrArg _ heq).trans (hopen j)
    | unlockEntered hpc =>
      rw [setLocal_self]
      exact if_pos rfl
    | lockedAll hpc =>
      rw [setLocal_self]
      exact if_pos rfl
    | lockTaken hpc hl =>
      rw [setLocal_self]
      split <;> exact hb j
    | lockDrained hpc hempty =>
      rw [setLocal_self]
      exact hb j
    | unlockedOne hpc hlocks =>
      rw [setLocal_self]
      exact hb j
    | unlockedAll hpc hlocks =>
      rw [setLocal_self]
      exact hb j
    | _ =>
      rw [State.goto, setLocal_self]
      exact hb j
  · rw [h.locals_ne hj, ← hb j]
    cases h with
    | served hpc hserved =>
      rcases service_trace hserved with heq | ⟨ev, -, hopen, heq⟩
      · exact congrArg _ heq
      · exact (congrArg _ heq).trans (hopen j)
    | unlockEntered hpc => exact if_neg (Ne.symm hj)
    | lockedAll hpc => exact if_neg (Ne.symm hj)
    | _ => rfl

theorem Taken.tags_mono (h : Taken ops mask s i m s') {slot : SlotRef}
    (htag : s.tags slot = true) : s'.tags slot = true := by
  cases h with
  | found hpc hkey hfound =>
    show (_ || s.tags slot) = true
    rw [htag, Bool.or_true]
  | served hpc hserved =>
    exact (congrFun (service_frame hserved).2.2.1 slot).trans htag
  | _ => exact htag

theorem slotted_leave (lo : Local Cell) (key : Bytes) (e : Effect) (p : Prog) (src : Option Cell) :
    (leave mask lo key e p src).slotted = none := by
  unfold leave
  split <;> rfl

theorem slotted_toLatch (lo : Local Cell) (e : Effect) (k : e.Result → Prog) (src : Option Cell) :
    (toLatch lo (.op e k) src).slotted = some e := by
  unfold toLatch
  split <;> rfl

theorem Taken.found_slot (h : Taken ops mask s i m s')
    (hfound : ∀ j e key, (s.locals j).pc.slotted = some e → e.storeKey = some key →
      s.tags (keySlot mask key) = true) (j : Sid) (e : Effect) (key : Bytes)
    (hslotted : (s'.locals j).pc.slotted = some e) (hkey : e.storeKey = some key) :
    s'.tags (keySlot mask key) = true := by
  by_cases hj : j = i
  · subst hj
    cases h with
    | found hpc hkey' htag =>
      rw [State.goto, setLocal_self, slotted_toLatch] at hslotted
      cases hslotted
      obtain rfl := Option.some.inj (hkey'.symm.trans hkey)
      simp [State.goto, State.setLocal, State.setTag]
    | latchTaken hpc hkey' hl =>
      refine hfound j e key ?_ hkey
      rw [State.goto, setLocal_self] at hslotted
      rw [hpc]
      split at hslotted <;> exact hslotted
    | drained hpc hkey' hempty =>
      refine hfound j e key ?_ hkey
      rw [State.goto, setLocal_self] at hslotted
      rw [hpc]
      exact hslotted
    | acted hpc hkey' hworked hact =>
      rw [State.goto, setLocal_self, slotted_leave] at hslotted
      cases hslotted
    | expired hpc =>
      rw [State.goto, setLocal_self, slotted_leave] at hslotted
      cases hslotted
    | retried hpc hkey' =>
      rw [State.goto, setLocal_self, slotted_leave] at hslotted
      cases hslotted
    | lockTaken hpc hl =>
      rw [setLocal_self] at hslotted
      split at hslotted <;> cases hslotted
    | _ =>
      simp only [State.goto, setLocal_self] at hslotted
      cases hslotted
  · rw [h.locals_ne hj] at hslotted
    exact h.tags_mono (hfound j e key hslotted hkey)

theorem Isolated.cons_mark {absent : Cell} {trace : List (Event Sid Cell)} {ev : Event Sid Cell}
    (h : Isolated absent trace) (hev : ¬ ev.IsCall) : Isolated absent (ev :: trace) := by
  intro newer j e worked found written older heq
  cases newer with
  | nil =>
    cases heq
    exact absurd trivial hev
  | cons x newer =>
    cases heq
    exact h newer j e worked found written older rfl

theorem Isolated.cons_call {absent : Cell} {trace : List (Event Sid Cell)} {j : Sid} {e : Effect}
    {worked found : Cell} {written : Option Cell} (h : Isolated absent trace) (hworked : worked = found)
    (hcall : ∀ T locks key, openBlock T trace = some locks → e.storeKey = some key →
      (j = T → e.Covered locks) ∧
      (j ≠ T → (∀ lock, (key, lock) ∈ locks → written = none) ∧
        ((key, .exclusive) ∈ locks → found = absent ∧ Unwritten key trace))) :
    Isolated absent (.did j e worked found written :: trace) := by
  intro newer j' e' worked' found' written' older heq
  cases newer with
  | nil =>
    cases heq
    exact ⟨hworked, hcall⟩
  | cons x newer =>
    cases heq
    exact h newer j' e' worked' found' written' older rfl

/-- The operation a session in a block is about to perform. -/
theorem Settled.covered {lo : Local Cell} {e : Effect} {k : e.Result → Prog} {key : Bytes}
    {locks : List (Bytes × LockType)} (h : Settled mask lo (.op e k)) (hkey : e.storeKey = some key)
    (hblock : lo.block = some locks) : e.Covered locks := by
  rcases h with ⟨hout, -⟩ | ⟨locks', hin, o', hstep, -⟩
  · rw [hout.block] at hblock
    cases hblock
  · rw [hin.block] at hblock
    cases hblock
    cases hstep with
    | unlock => cases hkey
    | inside hcov => exact hcov

/-- Keys without a slot stay unwritten. -/
theorem BlockInv.slots_step (hinv : BlockInv ops.absent mask s) (h : Taken ops mask s i m s')
    (key : Bytes) (htag' : s'.tags (keySlot mask key) = false) :
    s'.cells key = ops.absent ∧ Unwritten key s'.trace := by
  have htag : s.tags (keySlot mask key) = false := by
    by_contra htrue
    rw [h.tags_mono (by simpa using htrue)] at htag'
    cases htag'
  obtain ⟨habsent, hunwritten⟩ := hinv.slots key htag
  cases h.impact with
  | quiet hcells htrace =>
    refine ⟨by rw [hcells, habsent], ?_⟩
    rcases htrace with heq | ⟨ev, hev, heq⟩
    · rwa [heq]
    · rw [heq]
      exact hunwritten.cons_mark hev
  | missing hpc hkey htag₁ hcells htrace =>
    rw [htrace, hcells]
    exact ⟨habsent, hunwritten.cons_call fun _ => rfl⟩
  | acted hpc hkey hworked hread hcells htrace =>
    rename_i e k src key₁ worked written
    have hne : key ≠ key₁ := by
      rintro rfl
      rw [hinv.found i e key (by rw [hpc]; rfl) hkey] at htag
      cases htag
    rw [htrace, hcells key hne]
    refine ⟨habsent, hunwritten.cons_call fun hkey' => ?_⟩
    exact absurd (Option.some.inj (hkey'.symm.trans hkey)) hne

/-- A call between two events of a block. -/
theorem BlockInv.isolated_step (hinv : BlockInv ops.absent mask s) (h : Taken ops mask s i m s')
    (hfresh : Fresh s ⟨i, m⟩) : Isolated ops.absent s'.trace := by
  cases h.impact with
  | quiet hcells htrace =>
    rcases htrace with heq | ⟨ev, hev, heq⟩
    · rw [heq]
      exact hinv.isolated
    · rw [heq]
      exact hinv.isolated.cons_mark hev
  | missing hpc hkey htag hcells htrace =>
    obtain ⟨habsent, hunwritten⟩ := hinv.slots _ htag
    rw [htrace]
    refine hinv.isolated.cons_call habsent.symm fun T locks key hopen hkey' => ⟨?_, fun _ => ⟨?_, ?_⟩⟩
    · rintro rfl
      rw [hinv.blocks] at hopen
      exact ((hinv.locals i).ready hpc).covered hkey hopen
    · exact fun _ _ => rfl
    · obtain rfl := Option.some.inj (hkey.symm.trans hkey')
      exact fun _ => ⟨habsent, hunwritten⟩
  | acted hpc hkey hworked hread hcells htrace =>
    rename_i e k src key₁ worked written
    have hnow : worked = s.cells key₁ := by
      rcases hworked with h | ⟨rfl, w, rfl⟩
      · exact h
      · refine (hfresh (key₁, worked) ?_).symm
        simp [hpc, fromDisk, hkey]
    obtain ⟨lock, hgranted, hex⟩ := call_granted hinv.latches (hinv.locals i) hpc hkey
    rw [htrace]
    refine hinv.isolated.cons_call hnow fun T locks key hopen hkey' => ⟨?_, fun hne => ?_⟩
    · rintro rfl
      rw [hinv.blocks] at hopen
      exact ((hinv.locals i).holding hpc).covered hkey hopen
    · obtain rfl := Option.some.inj (hkey.symm.trans hkey')
      rw [hinv.blocks] at hopen
      refine ⟨fun lock' hmem => ?_, fun hmem => ?_⟩
      · -- the block has the latch in some mode, so this call does not have it exclusively
        obtain ⟨lockT, hT, -⟩ := block_granted hinv.latches (hinv.locals T) hopen hmem
        cases hlatch : e.latch with
        | shared => exact hread hlatch
        | exclusive => exact absurd (granted_excludes hgranted (hex hlatch) hT) hne
      · -- the block has it exclusively, so this call does not have it at all
        obtain ⟨lockT, hT, hexT⟩ := block_granted hinv.latches (hinv.locals T) hopen hmem
        exact absurd (granted_excludes hT (hexT rfl) hgranted).symm hne

theorem BlockInv.step (hinv : BlockInv ops.absent mask s) {l : Label Sid ω} (hfresh : Fresh s l)
    (h : next ops mask s l = some s') : BlockInv ops.absent mask s' := by
  have htaken := next_taken h
  refine ⟨fun j => ?_, htaken.latchesOk (hinv.locals _) hinv.latches, htaken.blocks hinv.blocks,
    htaken.found_slot hinv.found, hinv.slots_step htaken, hinv.isolated_step htaken hfresh⟩
  by_cases hj : j = l.actor
  · subst hj
    exact htaken.localOk (hinv.locals _)
  · rw [htaken.locals_ne hj]
    exact hinv.locals j

theorem BlockInv.init (ops : RecordOps ω Cell) (mask : ℕ) (aof : Bool) :
    BlockInv ops.absent mask (State.init ops.absent aof : State Sid Cell) where
  locals := fun _ => ⟨rfl, rfl, rfl⟩
  latches := by
    rintro i b h (⟨lock, hmem, -⟩ | hpc)
    · cases hmem
    · cases hpc
  blocks := fun _ => rfl
  found := fun _ _ _ h => by cases h
  slots := fun _ _ => ⟨rfl, fun _ _ _ _ _ h => by cases h⟩
  isolated := fun newer j e worked found written older h => by cases newer <;> cases h

/-- **EXEC is isolated.**  In every run in which no call completes from an outdated record
    of the disk: while the queue of an EXEC runs, the latches of its lock set are held, each
    store call of a queued command keeps to the lock set, and the calls of other sessions on
    its keys take effect before or after the block. -/
theorem exec_isolated (ops : RecordOps ω Cell) (mask : ℕ) (aof : Bool) {ls : List (Label Sid ω)}
    (h : Lts.Steps (next ops mask) Fresh (State.init ops.absent aof) ls s) :
    (∀ T locks, openBlock T s.trace = some locks → BlockHolds mask s T locks) ∧
      Isolated ops.absent s.trace := by
  have hinv : BlockInv ops.absent mask s :=
    h.invariant (fun hinv hok hnext => hinv.step hok hnext) (.init ops mask aof)
  refine ⟨fun T locks hopen key => ⟨fun hmem => ?_, fun lock hmem => ?_⟩, hinv.isolated⟩
  · rw [hinv.blocks] at hopen
    obtain ⟨lock', hg, hex⟩ := block_granted hinv.latches (hinv.locals T) hopen hmem
    rw [hex rfl] at hg
    exact hg
  · rw [hinv.blocks] at hopen
    obtain ⟨lock', hg, -⟩ := block_granted hinv.latches (hinv.locals T) hopen hmem
    cases lock' with
    | shared => exact .inr hg
    | exclusive => exact .inl hg.1

end Step

end Blocks

/-! ## Section 5: An update across a block -/

namespace StraddledBlock

/-- Strings under SET and APPEND; the callbacks of other commands are not called here. -/
def strings : RecordOps Unit (Option Bytes) where
  absent := none
  reader _ _ _ out c := (if c.isSome then .found else .notFound, { out with bytes := c.getD [] })
  upserter _ _ input out _ := ((.created, out), some input.operand)
  updater _ _ input out c := ((.copyUpdated, out), some (c.getD [] ++ input.operand))
  deleter _ _ c := (if c.isSome then .deleted else .notFound, none)
  expire _ _ _ _ := none

/-- A command as the server receives it. -/
def request (args : List Bytes) : Bytes :=
  Resp.arrayHeader args.length ++ (args.map Resp.bulk).flatten

def command (i : ℕ) (args : List String) : Label ℕ Unit :=
  ⟨i, .command 0 (request (args.map ascii)) (args.map ascii)⟩

def moves (i : ℕ) (ms : List (Move Unit)) : List (Label ℕ Unit) := ms.map (⟨i, ·⟩)

/-- A call outside a transaction, up to the moment it has its latch. -/
def toRecord : List (Move Unit) := [.find, .latch, .drained]

/-- The operations outside the store used here return nothing. -/
def bump : Move Unit := .service fun
  | .read _ _ out | .upsert _ _ out | .rmw _ _ out => (.notFound, out)
  | .delete _ => .notFound
  | .bump _ | .enqueue _ | .txnLock _ | .txnUnlock | .clear => ()
  | .slotVersion _ => (0, 0)
  | .versionAt _ | .countLive => 0
  | .scanLive _ => []
  | .checkpoint => none
  | .lastSaveMs => 0

/-- Session 0 sets `k`. -/
def setup : List (Label ℕ Unit) :=
  command 0 ["SET", "k", "a"] :: moves 0 (toRecord ++ [.act () false, .release, bump, .finish])

/-- Session 1 appends to `k`, which is only on disk, and reads it there. -/
def readsDisk : List (Label ℕ Unit) :=
  command 1 ["APPEND", "k", "x"] :: moves 1 (toRecord ++ [.retry true, .release])

/-- Session 2 queues a SET of `k`, and EXEC takes its latches. -/
def beginsBlock : List (Label ℕ Unit) :=
  [command 2 ["MULTI"], ⟨2, .finish⟩, command 2 ["SET", "k", "t"], ⟨2, .finish⟩,
   command 2 ["EXEC"]] ++ moves 2 [.lock, .latch, .drained, .locked]

/-- The queue runs, and the latches are dropped. -/
def endsBlock : List (Label ℕ Unit) :=
  moves 2 [.find, .act () false, bump, .unlock, .release, .unlocked, .finish]

/-- Session 1 comes back with its record; that of session 2 has left memory as well. -/
def comesBack : List (Label ℕ Unit) := moves 1 (toRecord ++ [.act () true])

/-- The last call worked on a content that was not there any more when it wrote. -/
def worksOnStale : List (Event ℕ (Option Bytes)) → Bool
  | .did _ _ worked found _ :: _ => worked ≠ found
  | _ => false

end StraddledBlock

open StraddledBlock in
/-- An APPEND of another session reads `k` before the block and writes it after: what the
    block wrote is lost. -/
theorem append_straddles_block :
    ∃ (ls : List (Label ℕ Unit)) (s : State ℕ (Option Bytes)),
      Lts.Runs (next strings 1) (State.init none false) ls s ∧ s.cells [107] = some [97, 120] ∧
        ¬ Isolated none s.trace := by
  obtain ⟨s, hrun, hp⟩ := Lts.exists_runs (next strings 1) (State.init none false)
    (setup ++ readsDisk ++ beginsBlock ++ endsBlock ++ comesBack)
    (fun s => s.cells [107] = some [97, 120] && worksOnStale s.trace)
    (by decide +kernel)
  rw [Bool.and_eq_true] at hp
  refine ⟨_, s, hrun, by simpa using hp.1, fun hiso => ?_⟩
  have hlast := hp.2
  unfold worksOnStale at hlast
  split at hlast
  · rename_i htrace
    exact absurd (hiso [] _ _ _ _ _ _ htrace).1 (by simpa using hlast)
  · cases hlast

open StraddledBlock in
/-- In the middle of the block. -/
theorem exec_isolated_beginsBlock :
    ∃ (ls : List (Label ℕ Unit)) (s : State ℕ (Option Bytes)),
      Lts.Steps (next strings 1) Fresh (State.init none false) ls s ∧
        BlockHolds 1 s 2 [([107], .exclusive)] ∧ Isolated none s.trace := by
  obtain ⟨s, hsteps, hp⟩ := Lts.exists_steps (next strings 1) Fresh (State.init none false)
    (setup ++ readsDisk ++ beginsBlock)
    (fun s => openBlock 2 s.trace = some [([107], .exclusive)]) (by decide +kernel)
  obtain ⟨hholds, hisolated⟩ := exec_isolated strings 1 false hsteps
  exact ⟨_, s, hsteps, hholds 2 _ (by simpa using hp), hisolated⟩

end Garnet
