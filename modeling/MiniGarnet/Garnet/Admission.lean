import Mathlib.Data.Finset.Card
import Mathlib.Data.Finset.Range
import MiniGarnet.Tsavorite.EpochProtocol

/-! # Connections and epoch slots

    `serve_on` counts its connections in `live` and refuses one when the
    counter has reached `maxclients`.  A connection thread takes a slot of the
    epoch table at its first command and gives it back in `Session::drop`; only
    then does the drop of its `ConnSlot` count the connection out.  So whoever
    owns a slot is a connection that is still counted.

    `parse_args` takes any `maxclients`, and the table has `MAX_THREADS` slots:
    above that number the connections can fill the table.  There is a second
    way to the panic.  `my_slot` looks at each slot once, so slots that are
    given back behind it and taken ahead of it can make it miss all of them,
    with as few as two connections at a time.
-/

namespace Garnet.Admission

open Tsavorite.EpochProtocol (MAX_THREADS)

/-! ## Section 1: Model -/

/-- Where the thread of a connection is. -/
inductive Conn where
  /-- Not accepted yet. -/
  | absent
  /-- In `handle_connection`, and not in `my_slot`. -/
  | running
  /-- `my_slot`: about to compare-exchange the owner of the `i`-th candidate. -/
  | claiming (i : ℕ)
  /-- `handle_connection` has ended, in whatever way; `Session::drop` is next. -/
  | dropping
  /-- `ConnSlot::drop` is next. -/
  | released
  | gone
  deriving DecidableEq, Repr

/-- Admitted, and still counted. -/
def Conn.isLive : Conn → Bool
  | .absent | .gone => false
  | _ => true

/-- The accept loop, its counter, the connection threads and the owners in the epoch table.
    Connections are numbered in the order in which they are admitted. -/
structure State where
  live : ℕ
  /-- The accept loop has counted a connection that it refuses. -/
  refusing : Bool
  /-- How many connections have been admitted. -/
  admitted : ℕ
  conns : ℕ → Conn
  /-- `MY_ID`, and 0 before the first call of `thread_id`. -/
  myId : ℕ → ℕ
  /-- `MY_SLOT` -/
  mySlot : ℕ → Option ℕ
  /-- `owner` of the slots below `MAX_THREADS`. -/
  owner : ℕ → ℕ
  /-- `NEXT_THREAD_ID` -/
  nextThreadId : ℕ
  /-- History: how often `my_slot` has panicked. -/
  panics : ℕ

/-- The server starts to accept.  Recovery has given its slot back; it and other threads may have
    drawn ids. -/
def init (drawn : ℕ) : State where
  live := 0
  refusing := false
  admitted := 0
  conns := fun _ => .absent
  myId := fun _ => 0
  mySlot := fun _ => none
  owner := fun _ => 0
  nextThreadId := drawn + 1
  panics := 0

inductive Label where
  /-- A connection attempt: `live.fetch_add`, and the connection is admitted or not. -/
  | attempt
  /-- The refused connection is counted out. -/
  | refuse
  /-- A command of the connection calls `my_slot`. -/
  | command (t : ℕ)
  /-- `my_slot`: the next compare-exchange. -/
  | claim (t : ℕ)
  /-- The connection ends. -/
  | disconnect (t : ℕ)
  /-- `Session::drop` -/
  | release (t : ℕ)
  /-- `ConnSlot::drop` -/
  | leave (t : ℕ)
  deriving DecidableEq, Repr

/-- Where `my_slot` starts to look for a free slot. -/
def start (tid : ℕ) : ℕ := tid * 0x9E3779B9 % 2 ^ 64 % MAX_THREADS

section Steps

variable (s : State) (t : ℕ)

def State.become (c : Conn) : State := { s with conns := Function.update s.conns t c }

/-- `thread_id` -/
def State.drawId : State :=
  if s.myId t = 0 then
    { s with myId := Function.update s.myId t s.nextThreadId, nextThreadId := s.nextThreadId + 1 }
  else s

/-- `my_slot`: the cached slot, if the thread owns it, or else the search. -/
def State.mySlotCall : State :=
  match s.mySlot t with
  | some idx => if s.owner idx = s.myId t then s else s.become t (.claiming 0)
  | none => s.become t (.claiming 0)

/-- `my_slot`: compare-exchange the `i`-th candidate. -/
def State.tryClaim (i : ℕ) : State :=
  let idx := (start (s.myId t) + i) % MAX_THREADS
  if s.owner idx = 0 then
    { s with
      owner := Function.update s.owner idx (s.myId t)
      mySlot := Function.update s.mySlot t (some idx) }.become t .running
  else if i + 1 < MAX_THREADS then s.become t (.claiming (i + 1))
  else
    -- the panic unwinds through the drop of the session
    { s with panics := s.panics + 1 }.become t .dropping

/-- `release_thread` -/
def State.releaseThread : State :=
  match s.mySlot t with
  | some idx =>
    if s.owner idx = s.myId t then
      { s with
        owner := Function.update s.owner idx 0
        mySlot := Function.update s.mySlot t none }
    else s
  | none => s

end Steps

/-- `maxclients` is what `parse_args` made of the command line. -/
def next (maxclients : ℕ) (s : State) : Label → Option State
  | .attempt =>
    if s.refusing then none
    else if maxclients ≤ s.live then some { s with live := s.live + 1, refusing := true }
    else
      some ({ s with live := s.live + 1, admitted := s.admitted + 1 }.become s.admitted .running)
  | .refuse => if s.refusing then some { s with live := s.live - 1, refusing := false } else none
  | .command t => if s.conns t = .running then some ((s.drawId t).mySlotCall t) else none
  | .claim t =>
    match s.conns t with
    | .claiming i => some (s.tryClaim t i)
    | _ => none
  | .disconnect t => if s.conns t = .running then some (s.become t .dropping) else none
  | .release t =>
    if s.conns t = .dropping then some ((s.releaseThread t).become t .released) else none
  | .leave t =>
    if s.conns t = .released then some ({ s with live := s.live - 1 }.become t .gone) else none

/-- The admitted connections that are still counted. -/
def liveConns (s : State) : Finset ℕ := (Finset.range s.admitted).filter fun t => (s.conns t).isLive

/-- The threads that own a slot. -/
def owningThreads (s : State) : Finset ℕ := ((Finset.range MAX_THREADS).image s.owner).erase 0

/-- What is asked of a state. -/
structure Property (s : State) : Prop where
  bounded : (owningThreads s).card ≤ (liveConns s).card
  noPanic : s.panics = 0

/-- No thread gives its slot back while another one looks for a slot. -/
def Undisturbed (s : State) (l : Label) : Prop :=
  ∀ t, l = .release t → ∀ u i, s.conns u ≠ .claiming i

/-- So many connections, and each one runs a command at once. -/
def connectAndRun (n : ℕ) : List Label :=
  (List.range n).flatMap fun t => [.attempt, .command t, .claim t]

/-- One connection more than the table has slots. -/
def oneTooMany : List Label :=
  connectAndRun MAX_THREADS ++ [.attempt, .command MAX_THREADS] ++
    List.replicate MAX_THREADS (.claim MAX_THREADS)

example : (Lts.run (next 129) (init 0) oneTooMany).map (fun s => (s.live, s.panics)) =
    some (129, 1) := by decide +kernel

/-! ## Section 2: The invariant -/

structure Inv (maxclients : ℕ) (s : State) : Prop where
  id_lt : ∀ t, s.myId t < s.nextThreadId
  id_inj : ∀ t u, s.myId t = s.myId u → s.myId t ≠ 0 → t = u
  owns : ∀ t idx, s.mySlot t = some idx → idx < MAX_THREADS ∧ s.owner idx = s.myId t ∧
    s.myId t ≠ 0 ∧ (s.conns t = .running ∨ s.conns t = .dropping)
  owned : ∀ idx, s.owner idx ≠ 0 → ∃ t, s.mySlot t = some idx
  claiming : ∀ t i, s.conns t = .claiming i → s.myId t ≠ 0 ∧ i < MAX_THREADS
  absent : ∀ t, s.admitted ≤ t → s.conns t = .absent
  unnamed : ∀ t, s.conns t = .absent → s.myId t = 0
  live : s.live = (liveConns s).card + if s.refusing then 1 else 0
  bound : (liveConns s).card ≤ maxclients

section Invariant

variable {m : ℕ} {s s' : State} {t u i idx : ℕ} {c : Conn}

theorem mem_liveConns : t ∈ liveConns s ↔ t < s.admitted ∧ (s.conns t).isLive = true := by
  rw [liveConns, Finset.mem_filter, Finset.mem_range]

theorem Inv.mem_live (inv : Inv m s) (h : (s.conns t).isLive = true) : t ∈ liveConns s := by
  refine mem_liveConns.mpr ⟨Nat.lt_of_not_le fun hle => ?_, h⟩
  rw [inv.absent t hle] at h
  cases h

theorem become_conns_self : (s.become t c).conns t = c := Function.update_self _ _ _

theorem become_conns_ne (h : u ≠ t) : (s.become t c).conns u = s.conns u :=
  Function.update_of_ne h _ _

theorem liveConns_become (h : c.isLive = (s.conns t).isLive) :
    liveConns (s.become t c) = liveConns s := by
  apply Finset.ext
  intro u
  rw [mem_liveConns, mem_liveConns]
  by_cases hu : u = t
  · rw [hu, become_conns_self, h]
    rfl
  · rw [become_conns_ne hu]
    rfl

theorem Inv.init (drawn : ℕ) : Inv m (init drawn) where
  id_lt _ := Nat.succ_pos drawn
  id_inj _ _ _ h := absurd rfl h
  owns _ _ h := by cases h
  owned _ h := absurd rfl h
  claiming _ _ h := by cases h
  absent _ _ := rfl
  unnamed _ _ := rfl
  live := rfl
  bound := Nat.zero_le m

/-- A thread goes to another point of its life, and the table changes with it. -/
theorem Inv.become_with {owner : ℕ → ℕ} {mySlot : ℕ → Option ℕ} (inv : Inv m s)
    (hlive : (s.conns t).isLive = true) (hc : c.isLive = true)
    (howns : ∀ v idx, mySlot v = some idx → idx < MAX_THREADS ∧ owner idx = s.myId v ∧
      s.myId v ≠ 0 ∧ ((s.become t c).conns v = .running ∨ (s.become t c).conns v = .dropping))
    (howned : ∀ idx, owner idx ≠ 0 → ∃ v, mySlot v = some idx)
    (hclaim : ∀ i, c = .claiming i → s.myId t ≠ 0 ∧ i < MAX_THREADS) :
    Inv m ({ s with owner := owner, mySlot := mySlot }.become t c) := by
  have hsame : liveConns ({ s with owner := owner, mySlot := mySlot }.become t c) = liveConns s :=
    liveConns_become (hc.trans hlive.symm)
  refine ⟨inv.id_lt, inv.id_inj, howns, howned, ?_, ?_, ?_, ?_, hsame ▸ inv.bound⟩
  · intro v i hv
    by_cases hvt : v = t
    · rw [hvt, become_conns_self] at hv
      rw [hvt]
      exact hclaim i hv
    · rw [become_conns_ne hvt] at hv
      exact inv.claiming v i hv
  · intro v hv
    have hne : v ≠ t := by
      rintro rfl
      rw [inv.absent v hv] at hlive
      cases hlive
    rw [become_conns_ne hne]
    exact inv.absent v hv
  · intro v hv
    by_cases hvt : v = t
    · rw [hvt, become_conns_self] at hv
      rw [hv] at hc
      cases hc
    · rw [become_conns_ne hvt] at hv
      exact inv.unnamed v hv
  · rw [hsame]
    exact inv.live

/-- A thread goes to another point of its life, with its slot only where it may own one. -/
theorem Inv.become (inv : Inv m s) (hlive : (s.conns t).isLive = true) (hc : c.isLive = true)
    (hslot : c = .running ∨ c = .dropping ∨ s.mySlot t = none)
    (hclaim : ∀ i, c = .claiming i → s.myId t ≠ 0 ∧ i < MAX_THREADS) : Inv m (s.become t c) := by
  refine inv.become_with hlive hc ?_ inv.owned hclaim
  intro v idx hv
  obtain ⟨hlt, how, hid, hpc⟩ := inv.owns v idx hv
  refine ⟨hlt, how, hid, ?_⟩
  by_cases hvt : v = t
  · rw [hvt, become_conns_self]
    rcases hslot with hrun | hdrop | hnone
    · exact .inl hrun
    · exact .inr hdrop
    · rw [hvt, hnone] at hv
      cases hv
  · rwa [become_conns_ne hvt]

/-- A thread has an id once it has asked for it, and its slot and its place are as before. -/
theorem Inv.drawId (inv : Inv m s) (hlive : (s.conns t).isLive = true) :
    Inv m (s.drawId t) ∧ (s.drawId t).myId t ≠ 0 ∧ (s.drawId t).conns = s.conns ∧
      (s.drawId t).mySlot = s.mySlot := by
  unfold State.drawId
  split
  · rename_i hzero
    have hnew : ∀ v, s.myId v ≠ s.nextThreadId := fun v => Nat.ne_of_lt (inv.id_lt v)
    have hpos : s.nextThreadId ≠ 0 := Nat.ne_of_gt (Nat.zero_lt_of_lt (inv.id_lt t))
    have hid : ∀ v, v ≠ t → Function.update s.myId t s.nextThreadId v = s.myId v :=
      fun v hv => Function.update_of_ne hv _ _
    refine ⟨⟨?_, ?_, ?_, inv.owned, ?_, inv.absent, ?_, inv.live, inv.bound⟩, ?_, rfl, rfl⟩
    · intro v
      show Function.update s.myId t s.nextThreadId v < s.nextThreadId + 1
      by_cases hv : v = t
      · rw [hv, Function.update_self]
        exact Nat.lt_succ_self _
      · rw [hid v hv]
        exact Nat.lt_succ_of_lt (inv.id_lt v)
    · intro v w heq hv0
      change Function.update s.myId t s.nextThreadId v = Function.update s.myId t s.nextThreadId w
        at heq
      change Function.update s.myId t s.nextThreadId v ≠ 0 at hv0
      by_cases hv : v = t
      · by_cases hw : w = t
        · rw [hv, hw]
        · rw [hv, Function.update_self, hid w hw] at heq
          exact absurd heq.symm (hnew w)
      · by_cases hw : w = t
        · rw [hw, Function.update_self, hid v hv] at heq
          exact absurd heq (hnew v)
        · rw [hid v hv] at heq hv0
          rw [hid w hw] at heq
          exact inv.id_inj v w heq hv0
    · intro v idx hv
      obtain ⟨hlt, how, hid0, hpc⟩ := inv.owns v idx hv
      have hvt : v ≠ t := by
        rintro rfl
        exact hid0 hzero
      show _ ∧ s.owner idx = Function.update s.myId t s.nextThreadId v ∧
        Function.update s.myId t s.nextThreadId v ≠ 0 ∧ _
      rw [hid v hvt]
      exact ⟨hlt, how, hid0, hpc⟩
    · intro v i hv
      obtain ⟨hid0, hi⟩ := inv.claiming v i hv
      have hvt : v ≠ t := by
        rintro rfl
        exact hid0 hzero
      show Function.update s.myId t s.nextThreadId v ≠ 0 ∧ _
      rw [hid v hvt]
      exact ⟨hid0, hi⟩
    · intro v hv
      have hvt : v ≠ t := by
        rintro rfl
        change s.conns v = .absent at hv
        rw [hv] at hlive
        cases hlive
      show Function.update s.myId t s.nextThreadId v = 0
      rw [hid v hvt]
      exact inv.unnamed v hv
    · show Function.update s.myId t s.nextThreadId t ≠ 0
      rw [Function.update_self]
      exact hpos
  · rename_i hid
    exact ⟨inv, hid, rfl, rfl⟩

/-- Only a thread outside `my_slot` owns a slot. -/
theorem Inv.mySlot_none (inv : Inv m s) (hrun : s.conns t ≠ .running)
    (hdrop : s.conns t ≠ .dropping) : s.mySlot t = none := by
  cases h : s.mySlot t with
  | none => rfl
  | some idx =>
    rcases (inv.owns t idx h).2.2.2 with hpc | hpc
    · exact absurd hpc hrun
    · exact absurd hpc hdrop

/-- A thread that has cached a slot owns it. -/
theorem Inv.mySlotCall (inv : Inv m s) (hrun : s.conns t = .running) (hid : s.myId t ≠ 0) :
    Inv m (s.mySlotCall t) := by
  unfold State.mySlotCall
  cases hslot : s.mySlot t with
  | none =>
    refine inv.become (hrun ▸ rfl) rfl (.inr (.inr hslot)) ?_
    rintro i ⟨⟩
    exact ⟨hid, by decide⟩
  | some idx =>
    dsimp only
    rw [if_pos (inv.owns t idx hslot).2.1]
    exact inv

/-- A free slot is taken. -/
theorem Inv.claimed (inv : Inv m s) (hpc : s.conns t = .claiming i) (hidx : idx < MAX_THREADS)
    (hfree : s.owner idx = 0) :
    Inv m ({ s with
      owner := Function.update s.owner idx (s.myId t)
      mySlot := Function.update s.mySlot t (some idx) }.become t .running) := by
  have hnone : s.mySlot t = none := inv.mySlot_none (hpc ▸ nofun) (hpc ▸ nofun)
  have hlive : (s.conns t).isLive = true := by
    rw [hpc]
    rfl
  refine inv.become_with hlive rfl ?_ ?_ nofun
  · intro v idx' hv
    by_cases hvt : v = t
    · rw [hvt, Function.update_self] at hv
      obtain rfl := Option.some.inj hv
      rw [hvt, Function.update_self]
      exact ⟨hidx, rfl, (inv.claiming t i hpc).1, .inl become_conns_self⟩
    · rw [Function.update_of_ne hvt] at hv
      obtain ⟨hlt, how, hid, hpc'⟩ := inv.owns v idx' hv
      have hne : idx' ≠ idx := by
        rintro rfl
        exact hid (how.symm.trans hfree)
      rw [Function.update_of_ne hne, become_conns_ne hvt]
      exact ⟨hlt, how, hid, hpc'⟩
  · intro idx' hne
    by_cases heq : idx' = idx
    · refine ⟨t, ?_⟩
      rw [heq]
      exact Function.update_self _ _ _
    · rw [Function.update_of_ne heq] at hne
      obtain ⟨v, hv⟩ := inv.owned idx' hne
      have hvt : v ≠ t := by
        rintro rfl
        rw [hnone] at hv
        cases hv
      exact ⟨v, (Function.update_of_ne hvt _ _).trans hv⟩

/-- The slot is given back. -/
theorem Inv.gaveBack (inv : Inv m s) (hpc : s.conns t = .dropping)
    (hslot : s.mySlot t = some idx) :
    Inv m ({ s with
      owner := Function.update s.owner idx 0
      mySlot := Function.update s.mySlot t none }.become t .released) := by
  have hmine := (inv.owns t idx hslot).2
  have hlive : (s.conns t).isLive = true := by
    rw [hpc]
    rfl
  refine inv.become_with hlive rfl ?_ ?_ nofun
  · intro v idx' hv
    have hvt : v ≠ t := by
      rintro rfl
      rw [Function.update_self] at hv
      cases hv
    rw [Function.update_of_ne hvt] at hv
    obtain ⟨hlt, how, hid, hpc'⟩ := inv.owns v idx' hv
    have hne : idx' ≠ idx := by
      rintro rfl
      exact hvt (inv.id_inj v t (how.symm.trans hmine.1) hid)
    rw [Function.update_of_ne hne, become_conns_ne hvt]
    exact ⟨hlt, how, hid, hpc'⟩
  · intro idx' hne
    have heq : idx' ≠ idx := by
      rintro rfl
      exact hne (Function.update_self _ _ _)
    rw [Function.update_of_ne heq] at hne
    obtain ⟨v, hv⟩ := inv.owned idx' hne
    have hvt : v ≠ t := by
      rintro rfl
      exact heq (Option.some.inj (hv.symm.trans hslot))
    exact ⟨v, (Function.update_of_ne hvt _ _).trans hv⟩

theorem Inv.of_panics (inv : Inv m s) (n : ℕ) : Inv m { s with panics := n } :=
  ⟨inv.id_lt, inv.id_inj, inv.owns, inv.owned, inv.claiming, inv.absent, inv.unnamed, inv.live,
    inv.bound⟩

theorem Inv.tryClaim (inv : Inv m s) (hpc : s.conns t = .claiming i) : Inv m (s.tryClaim t i) := by
  have hlive : (s.conns t).isLive = true := by
    rw [hpc]
    rfl
  unfold State.tryClaim
  dsimp only
  split
  · rename_i hfree
    exact inv.claimed hpc (Nat.mod_lt _ (by decide)) hfree
  split
  · rename_i hlt
    refine inv.become hlive rfl (.inr (.inr (inv.mySlot_none (hpc ▸ nofun) (hpc ▸ nofun)))) ?_
    rintro j ⟨⟩
    exact ⟨(inv.claiming t i hpc).1, hlt⟩
  · exact (inv.of_panics _).become hlive rfl (.inr (.inl rfl)) nofun

theorem Inv.release (inv : Inv m s) (hpc : s.conns t = .dropping) :
    Inv m ((s.releaseThread t).become t .released) := by
  unfold State.releaseThread
  cases hslot : s.mySlot t with
  | none => exact inv.become (hpc ▸ rfl) rfl (.inr (.inr hslot)) nofun
  | some idx =>
    dsimp only
    rw [if_pos (inv.owns t idx hslot).2.1]
    exact inv.gaveBack hpc hslot

theorem liveConns_newcomer : liveConns ({ s with live := s.live + 1, admitted := s.admitted + 1 }.become
    s.admitted .running) = insert s.admitted (liveConns s) := by
  apply Finset.ext
  intro v
  rw [Finset.mem_insert, mem_liveConns, mem_liveConns]
  show v < s.admitted + 1 ∧ _ ↔ _
  by_cases hv : v = s.admitted
  · rw [hv, become_conns_self]
    exact ⟨fun _ => .inl rfl, fun _ => ⟨Nat.lt_succ_self _, rfl⟩⟩
  · rw [become_conns_ne hv]
    constructor
    · rintro ⟨hle, hlive⟩
      exact .inr ⟨by omega, hlive⟩
    · rintro (heq | ⟨hlt, hlive⟩)
      · exact absurd heq hv
      · exact ⟨by omega, hlive⟩

theorem liveConns_leave :
    liveConns ({ s with live := s.live - 1 }.become t .gone) = (liveConns s).erase t := by
  apply Finset.ext
  intro v
  rw [Finset.mem_erase, mem_liveConns, mem_liveConns]
  by_cases hv : v = t
  · rw [hv, become_conns_self]
    exact ⟨fun h => absurd h.2 nofun, fun h => absurd rfl h.1⟩
  · rw [become_conns_ne hv]
    exact ⟨fun h => ⟨hv, h⟩, fun h => h.2⟩

/-- A connection is admitted below the limit. -/
theorem Inv.admit (inv : Inv m s) (hrefusing : s.refusing = false) (hlt : s.live < m) :
    Inv m ({ s with live := s.live + 1, admitted := s.admitted + 1 }.become s.admitted .running) := by
  have habsent := inv.absent s.admitted (Nat.le_refl _)
  have hne : ∀ {v : ℕ}, s.conns v ≠ .absent → v ≠ s.admitted := by
    rintro v hv rfl
    exact hv habsent
  have hcard : (liveConns ({ s with live := s.live + 1, admitted := s.admitted + 1 }.become
      s.admitted .running)).card = (liveConns s).card + 1 := by
    rw [liveConns_newcomer, Finset.card_insert_of_notMem fun hmem => ?_]
    exact Nat.lt_irrefl _ (mem_liveConns.mp hmem).1
  have hlive := inv.live
  rw [hrefusing] at hlive
  refine ⟨inv.id_lt, inv.id_inj, ?_, inv.owned, ?_, ?_, ?_, ?_, ?_⟩
  · intro v idx hv
    obtain ⟨hlt', how, hid, hpc⟩ := inv.owns v idx hv
    rw [become_conns_ne (hne (by rcases hpc with hpc | hpc <;> rw [hpc] <;> nofun))]
    exact ⟨hlt', how, hid, hpc⟩
  · intro v i hv
    by_cases heq : v = s.admitted
    · rw [heq, become_conns_self] at hv
      cases hv
    · rw [become_conns_ne heq] at hv
      exact inv.claiming v i hv
  · intro v hv
    change s.admitted + 1 ≤ v at hv
    rw [become_conns_ne (by omega)]
    exact inv.absent v (by omega)
  · intro v hv
    by_cases heq : v = s.admitted
    · rw [heq, become_conns_self] at hv
      cases hv
    · rw [become_conns_ne heq] at hv
      exact inv.unnamed v hv
  · rw [hcard]
    show s.live + 1 = _ + if s.refusing then 1 else 0
    rw [hrefusing, hlive]
    rfl
  · rw [hcard]
    simp only [Bool.false_eq_true, if_false] at hlive
    omega

/-- A connection is counted out. -/
theorem Inv.leave (inv : Inv m s) (hpc : s.conns t = .released) :
    Inv m ({ s with live := s.live - 1 }.become t .gone) := by
  have hmem : t ∈ liveConns s := inv.mem_live (hpc ▸ rfl)
  have hcard := Finset.card_erase_of_mem hmem
  have hpos : 0 < (liveConns s).card := Finset.card_pos.mpr ⟨t, hmem⟩
  have hlive := inv.live
  refine ⟨inv.id_lt, inv.id_inj, ?_, inv.owned, ?_, ?_, ?_, ?_, ?_⟩
  · intro v idx hv
    obtain ⟨hlt', how, hid, hpc'⟩ := inv.owns v idx hv
    have hvt : v ≠ t := by
      rintro rfl
      rcases hpc' with h | h
      · rw [hpc] at h
        cases h
      · rw [hpc] at h
        cases h
    rw [become_conns_ne hvt]
    exact ⟨hlt', how, hid, hpc'⟩
  · intro v i hv
    by_cases heq : v = t
    · rw [heq, become_conns_self] at hv
      cases hv
    · rw [become_conns_ne heq] at hv
      exact inv.claiming v i hv
  · intro v hv
    have hvt : v ≠ t := by
      rintro rfl
      have := inv.absent v hv
      rw [hpc] at this
      cases this
    rw [become_conns_ne hvt]
    exact inv.absent v hv
  · intro v hv
    by_cases heq : v = t
    · rw [heq, become_conns_self] at hv
      cases hv
    · rw [become_conns_ne heq] at hv
      exact inv.unnamed v hv
  · rw [liveConns_leave, hcard]
    show s.live - 1 = _ + if s.refusing then 1 else 0
    omega
  · rw [liveConns_leave, hcard]
    have := inv.bound
    omega

/-- The step lemma. -/
theorem Inv.next {l : Label} (inv : Inv m s) (h : Admission.next m s l = some s') : Inv m s' := by
  cases l with
  | attempt =>
    simp only [Admission.next] at h
    split at h
    · cases h
    rename_i hrefusing
    have hfalse : s.refusing = false := Bool.eq_false_iff.mpr hrefusing
    have hlive := inv.live
    rw [hfalse] at hlive
    split at h
    · obtain rfl := Option.some.inj h
      refine ⟨inv.id_lt, inv.id_inj, inv.owns, inv.owned, inv.claiming, inv.absent, inv.unnamed, ?_,
        inv.bound⟩
      show s.live + 1 = (liveConns s).card + 1
      rw [hlive]
      rfl
    · rename_i hlt
      obtain rfl := Option.some.inj h
      exact inv.admit hfalse (Nat.lt_of_not_le hlt)
  | refuse =>
    simp only [Admission.next] at h
    split at h
    · rename_i hrefusing
      obtain rfl := Option.some.inj h
      have hlive := inv.live
      rw [if_pos hrefusing] at hlive
      refine ⟨inv.id_lt, inv.id_inj, inv.owns, inv.owned, inv.claiming, inv.absent, inv.unnamed, ?_,
        inv.bound⟩
      show s.live - 1 = (liveConns s).card + 0
      omega
    · cases h
  | command t =>
    simp only [Admission.next] at h
    split at h
    · rename_i hrun
      obtain rfl := Option.some.inj h
      obtain ⟨inv', hid, hconns, -⟩ := inv.drawId (hrun ▸ rfl : (s.conns t).isLive = true)
      exact inv'.mySlotCall (hconns ▸ hrun) hid
    · cases h
  | claim t =>
    simp only [Admission.next] at h
    split at h
    · rename_i i hpc
      obtain rfl := Option.some.inj h
      exact inv.tryClaim hpc
    · cases h
  | disconnect t =>
    simp only [Admission.next] at h
    split at h
    · rename_i hrun
      obtain rfl := Option.some.inj h
      exact inv.become (hrun ▸ rfl) rfl (.inr (.inl rfl)) nofun
    · cases h
  | release t =>
    simp only [Admission.next] at h
    split at h
    · rename_i hpc
      obtain rfl := Option.some.inj h
      exact inv.release hpc
    · cases h
  | leave t =>
    simp only [Admission.next] at h
    split at h
    · rename_i hpc
      obtain rfl := Option.some.inj h
      exact inv.leave hpc
    · cases h

/-- The invariant rule. -/
theorem inv_run {ok : State → Label → Prop} {drawn : ℕ} {ls : List Label}
    (h : Lts.Steps (Admission.next m) ok (Admission.init drawn) ls s) : Inv m s :=
  h.invariant (fun inv _ hnext => inv.next hnext) (Inv.init drawn)

/-- Whoever has a slot is running or about to give it back. -/
theorem Inv.slot_live (inv : Inv m s) (h : s.mySlot t = some idx) : t ∈ liveConns s := by
  apply inv.mem_live
  rcases (inv.owns t idx h).2.2.2 with hpc | hpc
  · rw [hpc]
    rfl
  · rw [hpc]
    rfl

theorem Inv.bounded (inv : Inv m s) : (owningThreads s).card ≤ (liveConns s).card := by
  have hsub : owningThreads s ⊆ (liveConns s).image s.myId := by
    intro tid htid
    obtain ⟨hne, hmem⟩ := Finset.mem_erase.mp htid
    obtain ⟨idx, -, rfl⟩ := Finset.mem_image.mp hmem
    obtain ⟨t, ht⟩ := inv.owned idx hne
    exact Finset.mem_image.mpr ⟨t, inv.slot_live ht, (inv.owns t idx ht).2.1.symm⟩
  exact Nat.le_trans (Finset.card_le_card hsub) Finset.card_image_le

/-- When another thread takes the candidates of `my_slot` there are two connections. -/
theorem Inv.two_of_owned (inv : Inv m s) (hpc : s.conns t = .claiming i) (how : s.owner idx ≠ 0) :
    2 ≤ m := by
  obtain ⟨u, hu⟩ := inv.owned idx how
  have hne : u ≠ t := by
    rintro rfl
    rw [inv.mySlot_none (hpc ▸ nofun) (hpc ▸ nofun)] at hu
    cases hu
  have hsub : {u, t} ⊆ liveConns s := by
    intro v hv
    rcases Finset.mem_insert.mp hv with rfl | hv
    · exact inv.slot_live hu
    · rw [Finset.mem_singleton.mp hv]
      exact inv.mem_live (hpc ▸ rfl)
  have hcard := Finset.card_le_card hsub
  rw [Finset.card_pair hne] at hcard
  exact Nat.le_trans hcard inv.bound

/-- When every slot is taken there are more connections than slots. -/
theorem Inv.full (inv : Inv m s) (hpc : s.conns t = .claiming i)
    (hfull : ∀ idx < MAX_THREADS, s.owner idx ≠ 0) : MAX_THREADS < m := by
  have hmem : t ∈ liveConns s := inv.mem_live (hpc ▸ rfl)
  have hsub : Finset.range MAX_THREADS ⊆
      ((liveConns s).erase t).image fun u => (s.mySlot u).getD 0 := by
    intro idx hidx
    obtain ⟨u, hu⟩ := inv.owned idx (hfull idx (Finset.mem_range.mp hidx))
    refine Finset.mem_image.mpr ⟨u, Finset.mem_erase.mpr ⟨?_, inv.slot_live hu⟩, ?_⟩
    · rintro rfl
      rw [inv.mySlot_none (hpc ▸ nofun) (hpc ▸ nofun)] at hu
      cases hu
    · rw [hu]
      rfl
  have hcard := Nat.le_trans (Finset.card_le_card hsub) Finset.card_image_le
  rw [Finset.card_range, Finset.card_erase_of_mem hmem] at hcard
  have hpos : 0 < (liveConns s).card := Finset.card_pos.mpr ⟨t, hmem⟩
  have := inv.bound
  omega

/-! ## Section 3: When `my_slot` finds a slot -/

/-- The candidates that a thread has passed are still taken. -/
def Seen (s : State) : Prop :=
  ∀ t i, s.conns t = .claiming i → ∀ j < i, s.owner ((start (s.myId t) + j) % MAX_THREADS) ≠ 0

/-- Only a failed compare-exchange at the last candidate panics. -/
theorem panics_next {l : Label} (h : Admission.next m s l = some s') : s'.panics = s.panics ∨
    ∃ t i, l = .claim t ∧ s.conns t = .claiming i ∧ ¬ i + 1 < MAX_THREADS ∧
      s.owner ((start (s.myId t) + i) % MAX_THREADS) ≠ 0 := by
  cases l with
  | claim t =>
    simp only [Admission.next] at h
    split at h
    · rename_i i hpc
      obtain rfl := Option.some.inj h
      unfold State.tryClaim
      dsimp only
      split
      · exact .inl rfl
      split
      · exact .inl rfl
      · exact .inr ⟨t, i, rfl, hpc, ‹_›, ‹_›⟩
    · cases h
  | command t =>
    simp only [Admission.next] at h
    split at h
    · obtain rfl := Option.some.inj h
      left
      unfold State.mySlotCall State.drawId
      repeat' split
      all_goals rfl
    · cases h
  | release t =>
    simp only [Admission.next] at h
    split at h
    · obtain rfl := Option.some.inj h
      left
      unfold State.releaseThread
      repeat' split
      all_goals rfl
    · cases h
  | _ =>
    left
    simp only [Admission.next] at h
    repeat' split at h
    all_goals first | cases h; rfl | cases h

theorem Seen.of_same (h : Seen s) (howner : ∀ idx, s.owner idx ≠ 0 → s'.owner idx ≠ 0)
    (hconns : ∀ u i, s'.conns u = .claiming i →
      i = 0 ∨ (s.conns u = .claiming i ∧ s'.myId u = s.myId u)) : Seen s' := by
  intro u i hu j hj
  rcases hconns u i hu with rfl | ⟨hu', hid⟩
  · exact absurd hj (Nat.not_lt_zero j)
  · rw [hid]
    exact howner _ (h u i hu' j hj)

/-- The threads in `my_slot` are those from before, and a change of place keeps out of it. -/
theorem claiming_of_become (h : (s.become t c).conns u = .claiming i)
    (hc : ∀ i, c ≠ .claiming i) : s.conns u = .claiming i := by
  by_cases hu : u = t
  · rw [hu, become_conns_self] at h
    exact absurd h (hc i)
  · rwa [become_conns_ne hu] at h

theorem Seen.tryClaim (h : Seen s) (hpc : s.conns t = .claiming i) :
    Seen (s.tryClaim t i) := by
  unfold State.tryClaim
  dsimp only
  split
  · rename_i hfree
    refine h.of_same ?_ fun u j hu => .inr ⟨claiming_of_become hu fun _ => nofun, rfl⟩
    intro idx hne
    show Function.update s.owner _ (s.myId t) idx ≠ 0
    rw [Function.update_of_ne (by rintro rfl; exact hne hfree)]
    exact hne
  rename_i hne
  split
  · intro u j hu k hk
    by_cases hut : u = t
    · subst hut
      rw [become_conns_self] at hu
      obtain rfl := Conn.claiming.inj hu
      show s.owner ((start (s.myId u) + k) % MAX_THREADS) ≠ 0
      rcases Nat.lt_succ_iff_lt_or_eq.mp hk with hlt | rfl
      · exact h u i hpc k hlt
      · exact hne
    · rw [become_conns_ne hut] at hu
      exact h u j hu k hk
  · exact h.of_same (fun _ => id) fun u j hu => .inr ⟨claiming_of_become hu fun _ => nofun, rfl⟩

/-- A search that nobody disturbs remembers what it has passed. -/
theorem Seen.next {l : Label} (inv : Inv m s) (h : Seen s) (hok : Undisturbed s l)
    (hnext : Admission.next m s l = some s') : Seen s' := by
  cases l with
  | attempt =>
    simp only [Admission.next] at hnext
    split at hnext
    · cases hnext
    split at hnext
    · obtain rfl := Option.some.inj hnext
      exact h.of_same (fun _ => id) fun u j hu => .inr ⟨hu, rfl⟩
    · obtain rfl := Option.some.inj hnext
      refine h.of_same (fun _ => id) fun u j hu => .inr ⟨?_, rfl⟩
      exact claiming_of_become (s := { s with live := _, admitted := _ }) hu fun _ => nofun
  | refuse =>
    simp only [Admission.next] at hnext
    split at hnext
    · obtain rfl := Option.some.inj hnext
      exact h.of_same (fun _ => id) fun u j hu => .inr ⟨hu, rfl⟩
    · cases hnext
  | command t =>
    simp only [Admission.next] at hnext
    split at hnext
    · rename_i hrun
      obtain rfl := Option.some.inj hnext
      obtain ⟨-, -, hconns, -⟩ := inv.drawId (hrun ▸ rfl : (s.conns t).isLive = true)
      have howner : (s.drawId t).owner = s.owner := by
        unfold State.drawId
        split <;> rfl
      have hid : ∀ u, u ≠ t → (s.drawId t).myId u = s.myId u := by
        intro u hu
        unfold State.drawId
        split
        · exact Function.update_of_ne hu _ _
        · rfl
      have hdrawn : Seen (s.drawId t) := by
        refine h.of_same (fun idx => howner ▸ id) fun u j hu => .inr ?_
        rw [hconns] at hu
        refine ⟨hu, hid u ?_⟩
        rintro rfl
        rw [hrun] at hu
        cases hu
      have hstart : Seen ((s.drawId t).become t (.claiming 0)) := by
        refine hdrawn.of_same (fun _ => id) fun u j hu => ?_
        by_cases hut : u = t
        · rw [hut, become_conns_self] at hu
          exact .inl (Conn.claiming.inj hu).symm
        · rw [become_conns_ne hut] at hu
          exact .inr ⟨hu, rfl⟩
      unfold State.mySlotCall
      split
      · split
        · exact hdrawn
        · exact hstart
      · exact hstart
    · cases hnext
  | claim t =>
    simp only [Admission.next] at hnext
    split at hnext
    · rename_i i hpc
      obtain rfl := Option.some.inj hnext
      exact h.tryClaim hpc
    · cases hnext
  | disconnect t =>
    simp only [Admission.next] at hnext
    split at hnext
    · obtain rfl := Option.some.inj hnext
      exact h.of_same (fun _ => id) fun u j hu => .inr ⟨claiming_of_become hu fun _ => nofun, rfl⟩
    · cases hnext
  | release t =>
    simp only [Admission.next] at hnext
    split at hnext
    · obtain rfl := Option.some.inj hnext
      have hconns : (s.releaseThread t).conns = s.conns := by
        unfold State.releaseThread
        repeat' split
        all_goals rfl
      intro u j hu
      have := claiming_of_become hu fun _ => nofun
      rw [hconns] at this
      exact absurd this (hok t rfl u j)
    · cases hnext
  | leave t =>
    simp only [Admission.next] at hnext
    split at hnext
    · obtain rfl := Option.some.inj hnext
      refine h.of_same (fun _ => id) fun u j hu => .inr ⟨?_, rfl⟩
      exact claiming_of_become (s := { s with live := _ }) hu fun _ => nofun
    · cases hnext

/-- `my_slot` goes through the whole table. -/
theorem candidate_of_lt (a : ℕ) (h : idx < MAX_THREADS) :
    ∃ j < MAX_THREADS, (a + j) % MAX_THREADS = idx := by
  simp only [MAX_THREADS] at h ⊢
  exact ⟨(idx + (128 - a % 128)) % 128, Nat.mod_lt _ (by decide), by omega⟩

/-- One connection at a time finds every slot free. -/
theorem noPanic_of_one {drawn : ℕ} {ls : List Label} (hm : m ≤ 1)
    (h : Lts.Runs (Admission.next m) (Admission.init drawn) ls s) : s.panics = 0 := by
  have hboth := h.invariant (P := fun s => Inv m s ∧ s.panics = 0) ?_ ⟨Inv.init drawn, rfl⟩
  · exact hboth.2
  · rintro s s' l ⟨inv, hzero⟩ - hnext
    refine ⟨inv.next hnext, ?_⟩
    rcases panics_next hnext with heq | ⟨t, i, -, hpc, -, how⟩
    · rw [heq, hzero]
    · have := inv.two_of_owned hpc how
      omega

/-- No more connections than slots, and undisturbed searches: there is a free slot. -/
theorem noPanic_of_undisturbed {drawn : ℕ} {ls : List Label} (hm : m ≤ MAX_THREADS)
    (h : Lts.Steps (Admission.next m) Undisturbed (Admission.init drawn) ls s) : s.panics = 0 := by
  have hall := h.invariant (P := fun s => Inv m s ∧ Seen s ∧ s.panics = 0) ?_
    ⟨Inv.init drawn, nofun, rfl⟩
  · exact hall.2.2
  · rintro s s' l ⟨inv, hseen, hzero⟩ hok hnext
    refine ⟨inv.next hnext, hseen.next inv hok hnext, ?_⟩
    rcases panics_next hnext with heq | ⟨t, i, -, hpc, hlast, how⟩
    · rw [heq, hzero]
    · -- every candidate has been seen taken
      have hfull := inv.full hpc fun idx hidx => by
        have hi := (inv.claiming t i hpc).2
        obtain ⟨j, hj, rfl⟩ := candidate_of_lt (start (s.myId t)) hidx
        rcases Nat.lt_or_ge j i with hlt | hge
        · exact hseen t i hpc j hlt
        · obtain rfl : j = i := by omega
          exact how
      omega

/-! ## Section 4: Runs that panic -/

/-- Some run from one state to the other. -/
def Reaches (m : ℕ) (ok : State → Label → Prop) (s s' : State) : Prop :=
  ∃ ls, Lts.Steps (Admission.next m) ok s ls s'

variable {ok : State → Label → Prop} {s₁ s₂ : State} {n tid slot : ℕ}

theorem Reaches.refl (s : State) : Reaches m ok s s := ⟨[], .nil s⟩

theorem Reaches.trans (h : Reaches m ok s s₁) (h' : Reaches m ok s₁ s₂) : Reaches m ok s s₂ := by
  obtain ⟨ls, hls⟩ := h
  obtain ⟨ls', hls'⟩ := h'
  exact ⟨ls ++ ls', hls.append hls'⟩

theorem Reaches.step {l : Label} (hok : ok s l) (h : Admission.next m s l = some s₁)
    (h' : Reaches m ok s₁ s₂) : Reaches m ok s s₂ := by
  obtain ⟨ls, hls⟩ := h'
  exact ⟨l :: ls, .cons hok h hls⟩

theorem Reaches.inv (h : Reaches m ok s s₁) (inv : Inv m s) : Inv m s₁ := by
  obtain ⟨ls, hls⟩ := h
  exact hls.invariant (fun inv _ hnext => inv.next hnext) inv

/-- A command of a thread without a slot starts the search. -/
theorem Inv.command_starts (inv : Inv m s) (hrun : s.conns t = .running)
    (hslot : s.mySlot t = none) :
    Admission.next m s (.command t) = some ((s.drawId t).become t (.claiming 0)) := by
  obtain ⟨-, -, -, hsame⟩ := inv.drawId (hrun ▸ rfl : (s.conns t).isLive = true)
  simp only [Admission.next, hrun, if_true]
  unfold State.mySlotCall
  rw [hsame, hslot]

/-- A new connection at its first command, when the limit allows it. -/
theorem Inv.newcomer (ok : State → Label → Prop) (inv : Inv m s) (hrefusing : s.refusing = false) (hlt : s.live < m)
    (hok : ∀ l, (∀ t, l ≠ .release t) → ∀ s, ok s l) : ∃ s', Reaches m ok s s' ∧
      s'.conns = Function.update s.conns s.admitted (.claiming 0) ∧ s'.mySlot = s.mySlot ∧
      s'.owner = s.owner ∧ s'.refusing = false ∧ s'.admitted = s.admitted + 1 ∧
      s'.panics = s.panics ∧ liveConns s' = insert s.admitted (liveConns s) ∧
      s'.myId = Function.update s.myId s.admitted s.nextThreadId ∧
      s'.nextThreadId = s.nextThreadId + 1 := by
  have habsent := inv.absent s.admitted (Nat.le_refl _)
  have hslot : s.mySlot s.admitted = none :=
    inv.mySlot_none (habsent ▸ nofun) (habsent ▸ nofun)
  have hnext : Admission.next m s .attempt = some ({ s with
      live := s.live + 1
      admitted := s.admitted + 1 }.become s.admitted .running) := by
    simp only [Admission.next, hrefusing, Bool.false_eq_true, if_false]
    rw [if_neg (Nat.not_le_of_lt hlt)]
  have inv₁ := inv.next hnext
  have hcommand := inv₁.command_starts become_conns_self hslot
  have hdraw : State.drawId ({ s with
      live := s.live + 1
      admitted := s.admitted + 1 }.become s.admitted .running) s.admitted = { s with
      live := s.live + 1
      admitted := s.admitted + 1
      conns := Function.update s.conns s.admitted .running
      myId := Function.update s.myId s.admitted s.nextThreadId
      nextThreadId := s.nextThreadId + 1 } := by
    unfold State.drawId
    exact if_pos (inv.unnamed _ habsent)
  have hattempt := hok .attempt (fun _ => nofun) s
  have hrun := hok (.command s.admitted) fun _ => nofun
  refine ⟨_, .step hattempt hnext (.step (hrun _) hcommand (.refl _)), ?_⟩
  rw [hdraw]
  refine ⟨?_, rfl, rfl, hrefusing, rfl, rfl, ?_, rfl, rfl⟩
  · show Function.update (Function.update s.conns s.admitted .running) s.admitted _ = _
    rw [Function.update_idem]
  · rw [liveConns_become]
    · exact liveConns_newcomer
    · show _ = (Function.update s.conns s.admitted .running s.admitted).isLive
      rw [Function.update_self]
      rfl

theorem claim_next (hpc : s.conns t = .claiming i) :
    Admission.next m s (.claim t) = some (s.tryClaim t i) := by
  simp only [Admission.next, hpc]

/-- A search ends at a slot or in the panic. -/
theorem search_ends (hok : ∀ l, (∀ t, l ≠ .release t) → ∀ s, ok s l) (k : ℕ) :
    ∀ {s : State} {i : ℕ}, s.conns t = .claiming i → MAX_THREADS - i ≤ k →
      ∃ s', Reaches m ok s s' ∧ (s'.panics ≠ 0 ∨
        s'.conns = Function.update s.conns t .running ∧ s'.mySlot t ≠ none ∧
        (∀ u, u ≠ t → s'.mySlot u = s.mySlot u) ∧ s'.refusing = s.refusing ∧
        s'.admitted = s.admitted) := by
  induction k with
  | zero =>
    intro s i hpc hk
    refine ⟨_, .step (hok (.claim t) (fun _ => nofun) s) (claim_next hpc) (.refl _), ?_⟩
    unfold State.tryClaim
    dsimp only
    split
    · refine .inr ⟨rfl, ?_, fun u hu => Function.update_of_ne hu _ _, rfl, rfl⟩
      show Function.update s.mySlot t _ t ≠ none
      rw [Function.update_self]
      nofun
    · rw [if_neg (by omega)]
      exact .inl (Nat.succ_ne_zero _)
  | succ k ih =>
    intro s i hpc hk
    have hnext := claim_next (m := m) hpc
    unfold State.tryClaim at hnext
    dsimp only at hnext
    split at hnext
    · refine ⟨_, .step (hok (.claim t) (fun _ => nofun) s) hnext (.refl _), .inr ⟨rfl, ?_, ?_, rfl, rfl⟩⟩
      · show Function.update s.mySlot t _ t ≠ none
        rw [Function.update_self]
        nofun
      · exact fun u hu => Function.update_of_ne hu _ _
    split at hnext
    · obtain ⟨s', hreach, hs'⟩ := ih (s := s.become t (.claiming (i + 1))) become_conns_self (by omega)
      refine ⟨s', .step (hok (.claim t) (fun _ => nofun) s) hnext hreach, hs'.imp_right ?_⟩
      rintro ⟨hconns, hrest⟩
      refine ⟨hconns.trans ?_, hrest⟩
      exact Function.update_idem _ _ _
    · exact ⟨_, .step (hok (.claim t) (fun _ => nofun) s) hnext (.refl _), .inl (Nat.succ_ne_zero _)⟩

/-- The first `k` connections own a slot each. -/
structure AllOwn (k : ℕ) (s : State) : Prop where
  admitted : s.admitted = k
  refusing : s.refusing = false
  running : ∀ t < k, s.conns t = .running ∧ s.mySlot t ≠ none

theorem Inv.live_le (inv : Inv m s) (h : s.refusing = false) : s.live ≤ s.admitted := by
  have hcard : (liveConns s).card ≤ s.admitted := by
    have := Finset.card_filter_le (Finset.range s.admitted) fun t => (s.conns t).isLive = true
    rwa [Finset.card_range] at this
  have hlive := inv.live
  rw [h] at hlive
  simp only [Bool.false_eq_true, if_false] at hlive
  omega

theorem AllOwn.more {k : ℕ} (h : AllOwn k s) (inv : Inv m s) (hk : k < m)
    (hok : ∀ l, (∀ t, l ≠ .release t) → ∀ s, ok s l) :
    ∃ s', Reaches m ok s s' ∧ (s'.panics ≠ 0 ∨ AllOwn (k + 1) s') := by
  have hlt : s.live < m := by
    have := inv.live_le h.refusing
    rw [h.admitted] at this
    omega
  obtain ⟨s₁, hreach₁, hconns₁, hslot₁, -, href₁, hadm₁, -⟩ := inv.newcomer ok h.refusing hlt hok
  have hpc : s₁.conns s.admitted = .claiming 0 := by rw [hconns₁, Function.update_self]
  obtain ⟨s₂, hreach₂, hs₂⟩ := search_ends hok (m := m) MAX_THREADS hpc (Nat.sub_le _ _)
  refine ⟨s₂, hreach₁.trans hreach₂, hs₂.imp_right ?_⟩
  rintro ⟨hconns₂, hmine, hothers, href₂, hadm₂⟩
  refine ⟨?_, href₂.trans href₁, ?_⟩
  · rw [hadm₂, hadm₁, h.admitted]
  · intro t ht
    by_cases htk : t = s.admitted
    · rw [htk, hconns₂, Function.update_self]
      exact ⟨rfl, hmine⟩
    · rw [hconns₂, Function.update_of_ne htk, hconns₁, Function.update_of_ne htk, hothers t htk,
        hslot₁]
      rw [h.admitted] at htk
      exact h.running t (by omega)

/-- More connections than slots cannot all own one. -/
theorem AllOwn.le {k : ℕ} (h : AllOwn k s) (inv : Inv m s) : k ≤ MAX_THREADS := by
  have hsome : ∀ t < k, s.mySlot t = some ((s.mySlot t).getD 0) := by
    intro t ht
    cases hs : s.mySlot t with
    | none => exact absurd hs (h.running t ht).2
    | some idx => rfl
  have hinj : Set.InjOn (fun t => (s.mySlot t).getD 0) (Finset.range k : Set ℕ) := by
    intro t ht u hu heq
    have ht' := inv.owns t _ (hsome t (Finset.mem_range.mp ht))
    have hu' := inv.owns u _ (hsome u (Finset.mem_range.mp hu))
    simp only at heq
    rw [heq] at ht'
    exact inv.id_inj t u (ht'.2.1.symm.trans hu'.2.1) ht'.2.2.1
  have hsub : (Finset.range k).image (fun t => (s.mySlot t).getD 0) ⊆ Finset.range MAX_THREADS := by
    intro idx hidx
    obtain ⟨t, ht, rfl⟩ := Finset.mem_image.mp hidx
    exact Finset.mem_range.mpr (inv.owns t _ (hsome t (Finset.mem_range.mp ht))).1
  have hcard := Finset.card_le_card hsub
  rwa [Finset.card_image_of_injOn hinj, Finset.card_range, Finset.card_range] at hcard

/-- Above the size of the table the connections fill it, one after the other. -/
theorem panics_of_crowd (drawn : ℕ) (hm : MAX_THREADS < m)
    (hok : ∀ l, (∀ t, l ≠ .release t) → ∀ s, ok s l) :
    ∃ s, Reaches m ok (Admission.init drawn) s ∧ s.panics ≠ 0 := by
  have hgrow : ∀ k ≤ m, ∃ s, Reaches m ok (Admission.init drawn) s ∧ (s.panics ≠ 0 ∨ AllOwn k s) := by
    intro k
    induction k with
    | zero => exact fun _ => ⟨_, .refl _, .inr ⟨rfl, rfl, nofun⟩⟩
    | succ k ih =>
      intro hk
      obtain ⟨s, hreach, hs⟩ := ih (by omega)
      rcases hs with hpanic | hown
      · exact ⟨s, hreach, .inl hpanic⟩
      · obtain ⟨s', hreach', hs'⟩ := hown.more (hreach.inv (Inv.init drawn)) (by omega) hok
        exact ⟨s', hreach.trans hreach', hs'⟩
  obtain ⟨s, hreach, hs⟩ := hgrow (MAX_THREADS + 1) hm
  rcases hs with hpanic | hown
  · exact ⟨s, hreach, hpanic⟩
  · exact absurd (hown.le (hreach.inv (Inv.init drawn))) (by omega)

/-! ### A search that is always too late -/

/-- `t` looks for a slot, at its `i`-th candidate, and is the only connection. -/
structure Alone (t i tid : ℕ) (s : State) : Prop where
  refusing : s.refusing = false
  live : liveConns s = {t}
  claiming : s.conns t = .claiming i
  id : s.myId t = tid
  free : ∀ idx, s.owner idx = 0

/-- Another connection owns a slot, the only one that is taken. -/
structure Ahead (t u i tid slot : ℕ) (s : State) : Prop where
  refusing : s.refusing = false
  live : liveConns s = {u, t}
  other : u ≠ t
  claiming : s.conns t = .claiming i
  running : s.conns u = .running
  id : s.myId t = tid
  holds : s.mySlot u = some slot
  free : ∀ idx, idx ≠ slot → s.owner idx = 0

theorem start_lt : start tid < MAX_THREADS := by
  unfold start
  exact Nat.mod_lt _ (by decide)

/-- A connection comes and takes the slot its id points to. -/
theorem Alone.visit (h : Alone t i tid s) (inv : Inv m s) (hm : 2 ≤ m) :
    ∃ s' u, Reaches m (fun _ _ => True) s s' ∧ Ahead t u i tid (start s.nextThreadId) s' ∧
      s'.nextThreadId = s.nextThreadId + 1 := by
  have hlt : s.live < m := by
    have hlive := inv.live
    rw [h.refusing, h.live, Finset.card_singleton] at hlive
    simp only [Bool.false_eq_true, if_false] at hlive
    omega
  have hne : s.admitted ≠ t := by
    intro heq
    have := inv.absent s.admitted (Nat.le_refl _)
    rw [heq, h.claiming] at this
    cases this
  obtain ⟨s₁, hreach, hconns, hslot, howner, href, -, -, hlive, hid, hnid⟩ :=
    inv.newcomer (fun _ _ => True) h.refusing hlt fun _ _ _ => trivial
  have hpc : s₁.conns s.admitted = .claiming 0 := by rw [hconns, Function.update_self]
  have hmine : s₁.myId s.admitted = s.nextThreadId := by rw [hid, Function.update_self]
  have hclaim := claim_next (m := m) hpc
  have hidx : (start s.nextThreadId + 0) % MAX_THREADS = start s.nextThreadId := by
    rw [Nat.add_zero, Nat.mod_eq_of_lt start_lt]
  unfold State.tryClaim at hclaim
  dsimp only at hclaim
  rw [hmine, hidx, if_pos (by rw [howner]; exact h.free _)] at hclaim
  refine ⟨_, s.admitted, hreach.trans (.step trivial hclaim (.refl _)), ?_, hnid⟩
  refine ⟨href, ?_, hne, ?_, become_conns_self, ?_, Function.update_self _ _ _, ?_⟩
  · rw [liveConns_become]
    · show liveConns s₁ = _
      rw [hlive, h.live]
    · show _ = (s₁.conns s.admitted).isLive
      rw [hpc]
      rfl
  · rw [become_conns_ne hne.symm]
    show s₁.conns t = _
    rw [hconns, Function.update_of_ne hne.symm, h.claiming]
  · show s₁.myId t = tid
    rw [hid, Function.update_of_ne hne.symm, h.id]
  · intro idx hne'
    show Function.update s₁.owner _ _ idx = 0
    rw [Function.update_of_ne hne', howner]
    exact h.free idx

theorem Inv.release_next (inv : Inv m s) (hpc : s.conns t = .dropping)
    (hslot : s.mySlot t = some idx) : Admission.next m s (.release t) = some ({ s with
      owner := Function.update s.owner idx 0
      mySlot := Function.update s.mySlot t none }.become t .released) := by
  simp only [Admission.next, hpc, if_true]
  unfold State.releaseThread
  rw [hslot]
  dsimp only
  rw [if_pos (inv.owns t idx hslot).2.1]

theorem leave_next (hpc : s.conns t = .released) : Admission.next m s (.leave t) =
    some ({ s with live := s.live - 1 }.become t .gone) := by
  simp only [Admission.next, hpc, if_true]

/-- The other connection ends and gives its slot back. -/
theorem Ahead.goes {u slot : ℕ} (h : Ahead t u i tid slot s) (inv : Inv m s) :
    ∃ s', Reaches m (fun _ _ => True) s s' ∧ Alone t i tid s' ∧
      s'.nextThreadId = s.nextThreadId := by
  have htu := h.other.symm
  have hdisc : Admission.next m s (.disconnect u) = some (s.become u .dropping) := by
    simp only [Admission.next, h.running, if_true]
  have hrel := (inv.next hdisc).release_next become_conns_self h.holds
  have hleave := leave_next (m := m) (s := State.become { s.become u .dropping with
      owner := Function.update s.owner slot 0
      mySlot := Function.update s.mySlot u none } u .released) (t := u) become_conns_self
  refine ⟨_, .step trivial hdisc (.step trivial hrel (.step trivial hleave (.refl _))), ?_, rfl⟩
  refine ⟨h.refusing, ?_, ?_, h.id, ?_⟩
  · rw [liveConns_leave, liveConns_become]
    · have hsame : liveConns (s.become u .dropping) = liveConns s := by
        refine liveConns_become ?_
        rw [h.running]
        rfl
      show (liveConns (s.become u .dropping)).erase u = {t}
      rw [hsame, h.live]
      exact Finset.erase_insert (by rw [Finset.mem_singleton]; exact h.other)
    · show _ = ((s.become u .dropping).conns u).isLive
      rw [become_conns_self]
      rfl
  · rw [become_conns_ne htu]
    show (State.become _ u _).conns t = _
    rw [become_conns_ne htu]
    show (s.become u .dropping).conns t = _
    rw [become_conns_ne htu, h.claiming]
  · intro idx
    show Function.update s.owner slot 0 idx = 0
    by_cases hidx : idx = slot
    · rw [hidx, Function.update_self]
    · rw [Function.update_of_ne hidx, h.free idx hidx]

/-- Successive ids start all over the table. -/
theorem start_hits (n : ℕ) (h : slot < MAX_THREADS) : ∃ d, start (n + d) = slot := by
  refine ⟨9 * slot + 127 * n, ?_⟩
  simp only [start, MAX_THREADS] at h ⊢
  omega

/-- Connections come and go until one takes the slot that the search looks at next. -/
theorem Alone.overtaken (hm : 2 ≤ m) (d : ℕ) : ∀ {s : State}, Alone t i tid s → Inv m s →
    ∃ s' u, Reaches m (fun _ _ => True) s s' ∧ Ahead t u i tid (start (s.nextThreadId + d)) s' := by
  induction d with
  | zero =>
    intro s h inv
    obtain ⟨s', u, hreach, hahead, -⟩ := h.visit inv hm
    exact ⟨s', u, hreach, hahead⟩
  | succ d ih =>
    intro s h inv
    obtain ⟨s₁, u, hreach₁, hahead, hnid₁⟩ := h.visit inv hm
    obtain ⟨s₂, hreach₂, halone, hnid₂⟩ := hahead.goes (hreach₁.inv inv)
    have hreach := hreach₁.trans hreach₂
    obtain ⟨s₃, v, hreach₃, hlast⟩ := ih halone (hreach.inv inv)
    have hid : s₂.nextThreadId + d = s.nextThreadId + (d + 1) := by omega
    rw [hid] at hlast
    exact ⟨s₃, v, hreach.trans hreach₃, hlast⟩

/-- The search looks at the slot that has just been taken. -/
theorem Ahead.missed {u slot : ℕ} (h : Ahead t u i tid slot s) (inv : Inv m s)
    (hslot : (start tid + i) % MAX_THREADS = slot) : ∃ s', Reaches m (fun _ _ => True) s s' ∧
      if i + 1 < MAX_THREADS then Ahead t u (i + 1) tid slot s' else s'.panics ≠ 0 := by
  obtain ⟨-, how, hid, -⟩ := inv.owns u slot h.holds
  have hnext := claim_next (m := m) h.claiming
  unfold State.tryClaim at hnext
  dsimp only at hnext
  rw [h.id, hslot, if_neg (by rw [how]; exact hid)] at hnext
  refine ⟨_, .step trivial hnext (.refl _), ?_⟩
  split
  · refine ⟨h.refusing, ?_, h.other, become_conns_self, ?_, h.id, h.holds, h.free⟩
    · rw [liveConns_become, h.live]
      rw [h.claiming]
      rfl
    · rw [become_conns_ne h.other, h.running]
  · exact Nat.succ_ne_zero _

theorem Alone.panics (hm : 2 ≤ m) (k : ℕ) : ∀ {s : State} {i : ℕ}, Alone t i tid s → Inv m s →
    MAX_THREADS - i ≤ k → ∃ s', Reaches m (fun _ _ => True) s s' ∧ s'.panics ≠ 0 := by
  induction k with
  | zero =>
    intro s i h inv hk
    have := (inv.claiming t i h.claiming).2
    omega
  | succ k ih =>
    intro s i h inv hk
    obtain ⟨d, hd⟩ := start_hits s.nextThreadId
      (Nat.mod_lt (start tid + i) (show 0 < MAX_THREADS by decide))
    obtain ⟨s₁, u, hreach₁, hahead⟩ := h.overtaken hm d inv
    rw [hd] at hahead
    obtain ⟨s₂, hreach₂, hmissed⟩ := hahead.missed (hreach₁.inv inv) rfl
    have hreach := hreach₁.trans hreach₂
    split at hmissed
    · obtain ⟨s₃, hreach₃, halone, -⟩ := hmissed.goes (hreach.inv inv)
      have hreach' := hreach.trans hreach₃
      obtain ⟨s₄, hreach₄, hpanic⟩ := ih halone (hreach'.inv inv) (by omega)
      exact ⟨s₄, hreach'.trans hreach₄, hpanic⟩
    · exact ⟨s₂, hreach, hmissed⟩

/-- Two connections at a time are enough for a search that is always too late. -/
theorem panics_of_two (drawn : ℕ) (hm : 2 ≤ m) :
    ∃ s, Reaches m (fun _ _ => True) (Admission.init drawn) s ∧ s.panics ≠ 0 := by
  have inv : Inv m (Admission.init drawn) := Inv.init drawn
  have hlt : (Admission.init drawn).live < m := by
    show 0 < m
    omega
  obtain ⟨s, hreach, hconns, -, howner, href, -, -, hlive, -⟩ :=
    inv.newcomer (fun _ _ => True) rfl hlt fun _ _ _ => trivial
  have halone : Alone 0 0 (s.myId 0) s := by
    refine ⟨href, hlive, ?_, rfl, fun idx => ?_⟩
    · rw [hconns]
      exact Function.update_self _ _ _
    · rw [howner]
      rfl
  obtain ⟨s', hreach', hpanic⟩ := halone.panics hm MAX_THREADS (hreach.inv inv) (Nat.sub_le _ _)
  exact ⟨s', hreach.trans hreach', hpanic⟩

end Invariant

/-! ## Section 5: Which limits keep the promise -/

/-- Never do more threads own a slot than there are connections.  Every search for a slot succeeds,
    in every interleaving, for exactly the limits up to 1, and for exactly the limits up to the
    size of the table when no thread gives its slot back during another thread's search. -/
theorem slots_of_connections (drawn m : ℕ) :
    (∀ ls s, Lts.Runs (next m) (init drawn) ls s →
      (owningThreads s).card ≤ (liveConns s).card) ∧
    ((∀ ls s, Lts.Runs (next m) (init drawn) ls s → Property s) ↔ m ≤ 1) ∧
    ((∀ ls s, Lts.Steps (next m) Undisturbed (init drawn) ls s → Property s) ↔
      m ≤ MAX_THREADS) := by
  refine ⟨fun ls s h => (inv_run h).bounded, ⟨?_, ?_⟩, ?_, ?_⟩
  · intro hall
    by_contra hm
    obtain ⟨s, ⟨ls, hrun⟩, hpanic⟩ := panics_of_two drawn (Nat.lt_of_not_le hm)
    exact hpanic (hall ls s hrun).noPanic
  · intro hm ls s h
    exact ⟨(inv_run h).bounded, noPanic_of_one hm h⟩
  · intro hall
    by_contra hm
    have hfree : ∀ l : Label, (∀ t, l ≠ .release t) → ∀ s, Undisturbed s l :=
      fun l hl _ t ht => absurd ht (hl t)
    obtain ⟨s, ⟨ls, hrun⟩, hpanic⟩ := panics_of_crowd drawn (Nat.lt_of_not_le hm) hfree
    exact hpanic (hall ls s hrun).noPanic
  · intro hm ls s h
    exact ⟨(inv_run h).bounded, noPanic_of_undisturbed hm h⟩

/-- `--maxclients 129`: the 129th connection that runs a command panics. -/
theorem one_too_many : ¬ ∀ m < 2 ^ 64, ∀ ls s, Lts.Runs (next m) (init 0) ls s → Property s := by
  intro hall
  obtain ⟨s, hrun, hs⟩ := Lts.exists_runs (next 129) (init 0) oneTooMany
    (fun s => decide (s.panics = 1)) (by decide +kernel)
  have hzero := (hall 129 (by decide) _ _ hrun).noPanic
  rw [of_decide_eq_true hs] at hzero
  cases hzero

end Garnet.Admission
