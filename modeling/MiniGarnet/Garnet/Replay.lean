import MiniGarnet.Garnet.LockSet

/-! # Replaying the log

    `replay_entries` (`shared.rs`) walks the recovered entries and drives one
    session with them.  Inside a bracket it starts a MULTI block, but the
    commands go to `dispatch_replay`, which executes them at once; the EXEC at
    the end of the bracket, or at the end of the log, finds an empty queue.
    So a bracket that the crash has cut off is applied as far as it was
    logged.
-/

namespace Garnet

/-! ## Section 1: The replay loop -/

/-- What `replay_entries` calls on the session. -/
inductive SessionCall where
  /-- `replay_one` -/
  | one (e : AofEntry)
  /-- `replay_multi_begin` -/
  | multiBegin (ts : Int64)
  /-- `replay_multi_exec` -/
  | multiExec
  deriving DecidableEq, Repr

/-- The loop of `replay_entries`; the flag is set inside the loop over a bracket. -/
def replayCalls : Bool → List AofEntry → List SessionCall
  | false, [] => []
  | true, [] => [.multiExec]
  | false, e :: rest =>
    match e.op with
    | .command => .one e :: replayCalls false rest
    | .txnStart => .multiBegin e.timestampMs :: replayCalls true rest
    | .txnCommit => replayCalls false rest
  | true, e :: rest =>
    match e.op with
    | .command => .one e :: replayCalls true rest
    | .txnStart => replayCalls true rest
    | .txnCommit => .multiExec :: replayCalls false rest

def replayOne (e : AofEntry) : Handler Unit :=
  match parseRanges e.payload with
  | some args => do
    let _ ← dispatchReplay e.payload args e.timestampMs
    return ()
  | none => return ()

def SessionCall.run : SessionCall → Handler Unit
  | .one e => replayOne e
  | .multiBegin ts => replayMultiBegin ts
  | .multiExec => do
    let _ ← replayMultiExec
    return ()

def replayEntries (entries : List AofEntry) : Handler Unit :=
  (replayCalls false entries).forM SessionCall.run

/-- The session `Shared::recover` replays into. -/
def RespSession.replaying : RespSession := { RespSession.new true with replay := true }

/-! ## Section 2: EXEC finds nothing to run -/

/-- The operation reads or writes a record. -/
def Effect.IsStoreCall : Effect → Prop
  | .read .. | .upsert .. | .rmw .. | .delete _ => True
  | _ => False

/-- A session that replays, with nothing queued. -/
def Replaying (s : RespSession) : Prop := s.replay = true ∧ s.txn.queued = []

/-- The EXEC of a replayed bracket makes no store call. -/
theorem replayMultiExec_quiet :
    replayMultiExec.All Replaying fun e => ¬ e.IsStoreCall := by
  intro s hs
  obtain ⟨hreplay, hqueued⟩ := hs
  have hq : s.txn.queued = [] := hqueued
  show (cmdExec s).Sat _ _
  unfold cmdExec
  refine Program.Sat.bind (Q := fun x => x = (s, s)) rfl ?_
  rintro x rfl
  dsimp only
  split
  · exact ⟨hreplay, hqueued⟩
  split
  · exact ⟨hreplay, rfl⟩
  refine Program.Sat.bind ((Handler.all_conflictLoop (I := fun s' => s' = s) (fun _ => id) _) s rfl) ?_
  rintro ⟨conflict, s'⟩ hs'
  cases hs'
  dsimp only
  split
  · exact ⟨hreplay, rfl⟩
  · rw [hq]
    refine Handler.All.bind (Handler.all_modify (I := Replaying) ?_) (fun _ => ?_) s'
      ⟨hreplay, hqueued⟩
    · intro s₁ hs₁
      exact ⟨hs₁.1, rfl⟩
    · exact Handler.all_get.bind fun _ => Handler.all_guarded
        (Handler.all_perform (e := .txnLock _) id) fun _ => (Handler.all_logBracket (fun _ => id) _).bind fun _ =>
        (Handler.all_pure _).bind fun _ => Handler.all_guarded
          (Handler.all_perform (e := .txnUnlock) id) fun _ => (Handler.all_logBracket (fun _ => id) _).bind fun _ =>
          Handler.all_pure _

/-! ## Section 3: What should survive a crash -/

section Blocks

variable {Client : Type*} [DecidableEq Client]

/-- Is `c` inside a MULTI/EXEC block after these entries? -/
def inBlock (c : Client) (entries : List (Client × AofEntry)) : Bool :=
  entries.foldl (fun b x =>
    if x.1 = c then
      match x.2.op with
      | .txnStart => true
      | .txnCommit => false
      | .command => b
    else b) false

/-- Does `c` commit a block in these entries? -/
def commits (c : Client) (entries : List (Client × AofEntry)) : Bool :=
  entries.any fun x => decide (x.1 = c) && decide (x.2.op = .txnCommit)

/-- The commands that count when the log is `before ++ rest`, from `rest`: all but
    those of a block without its commit. -/
def survivors (before : List (Client × AofEntry)) : List (Client × AofEntry) → List AofEntry
  | [] => []
  | (c, e) :: rest =>
    let after := survivors (before ++ [(c, e)]) rest
    if e.op = .command then
      if inBlock c before && !commits c rest then after else e :: after
    else after

/-- Every block with a command in the log has its commit there. -/
def Complete (kept : List (Client × AofEntry)) : Prop :=
  ∀ before c e after, kept = before ++ (c, e) :: after → e.op = .command →
    inBlock c before = true → commits c after = true

/-- The commands replay executes. -/
def applied (entries : List AofEntry) : List AofEntry :=
  (replayCalls false entries).filterMap fun
    | .one e => some e
    | _ => none

omit [DecidableEq Client] in
/-- Replay executes every command of the log. -/
theorem applied_eq (entries : List AofEntry) :
    applied entries = entries.filter fun e => e.op = .command := by
  have h : ∀ inside, (replayCalls inside entries).filterMap (fun
      | .one e => some e
      | _ => none) = entries.filter fun e => e.op = .command := by
    induction entries with
    | nil =>
      intro inside
      cases inside <;> rfl
    | cons e rest ih =>
      intro inside
      cases inside <;> cases hop : e.op <;> simp [replayCalls, hop, ih]
  exact h false

/-- Commands are only ever dropped. -/
theorem survivors_length_le (before rest : List (Client × AofEntry)) :
    (survivors before rest).length ≤
      ((rest.map Prod.snd).filter fun e => e.op = .command).length := by
  induction rest generalizing before with
  | nil => exact Nat.le_refl _
  | cons x rest ih =>
    obtain ⟨c, e⟩ := x
    have hrest := ih (before ++ [(c, e)])
    by_cases hop : e.op = .command
    · simp only [survivors, hop, if_true, List.map_cons]
      rw [List.filter_cons_of_pos (by simpa using hop)]
      split
      · rw [List.length_cons]
        omega
      · rw [List.length_cons, List.length_cons]
        omega
    · simp only [survivors, hop, if_false, List.map_cons]
      rw [List.filter_cons_of_neg (by simpa using hop)]
      exact hrest

theorem survivors_eq_iff (before rest : List (Client × AofEntry)) :
    survivors before rest = ((rest.map Prod.snd).filter fun e => e.op = .command) ↔
      ∀ mid c e after, rest = mid ++ (c, e) :: after → e.op = .command →
        inBlock c (before ++ mid) = true → commits c after = true := by
  induction rest generalizing before with
  | nil =>
    refine ⟨fun _ mid c e after h => ?_, fun _ => rfl⟩
    cases mid <;> cases h
  | cons x rest ih =>
    obtain ⟨c, e⟩ := x
    -- the splits of the rest are those of the whole behind the first entry
    have htail : (∀ mid c' e' after, rest = mid ++ (c', e') :: after → e'.op = .command →
          inBlock c' (before ++ [(c, e)] ++ mid) = true → commits c' after = true) ↔
        ∀ mid c' e' after, rest = mid ++ (c', e') :: after → e'.op = .command →
          inBlock c' (before ++ (c, e) :: mid) = true → commits c' after = true := by
      simp only [List.append_assoc, List.singleton_append]
    have hsplit : (∀ mid c' e' after, (c, e) :: rest = mid ++ (c', e') :: after →
          e'.op = .command → inBlock c' (before ++ mid) = true → commits c' after = true) ↔
        (e.op = .command → inBlock c before = true → commits c rest = true) ∧
          ∀ mid c' e' after, rest = mid ++ (c', e') :: after → e'.op = .command →
            inBlock c' (before ++ (c, e) :: mid) = true → commits c' after = true := by
      constructor
      · intro h
        refine ⟨fun hop hin => h [] c e rest rfl hop (by simpa using hin), ?_⟩
        intro mid c' e' after hrest hop hin
        exact h ((c, e) :: mid) c' e' after (by rw [hrest]; rfl) hop hin
      · rintro ⟨hhead, hrest⟩ mid c' e' after heq hop hin
        cases mid with
        | nil =>
          cases heq
          exact hhead hop (by simpa using hin)
        | cons y mid =>
          cases heq
          exact hrest mid c' e' after rfl hop hin
    rw [hsplit, ← htail, ← ih (before ++ [(c, e)])]
    by_cases hop : e.op = .command
    · simp only [survivors, hop, if_true, List.map_cons, forall_const]
      rw [List.filter_cons_of_pos (by simpa using hop)]
      split
      · -- the command is dropped: the lists have different lengths
        rename_i hdrop
        have hlen := survivors_length_le (before ++ [(c, e)]) rest
        simp only [Bool.and_eq_true, Bool.not_eq_true'] at hdrop
        refine ⟨fun h => ?_, fun h => ?_⟩
        · have hcard := congrArg List.length h
          rw [List.length_cons] at hcard
          omega
        · rw [h.1 hdrop.1] at hdrop
          cases hdrop.2
      · rename_i hkeep
        simp only [Bool.and_eq_true, Bool.not_eq_true', not_and, Bool.not_eq_false] at hkeep
        rw [List.cons.injEq]
        exact ⟨fun h => ⟨hkeep, h.2⟩, fun h => ⟨rfl, h.2⟩⟩
    · simp only [survivors, hop, if_false, List.map_cons]
      rw [List.filter_cons_of_neg (by simpa using hop)]
      exact ⟨fun h => ⟨fun h' => h'.elim, h⟩, fun h => h.2⟩

/-- **Transactions across a crash.**  Whatever whole-entry prefix of the log a
    crash keeps, replay executes the commands of complete blocks and of no
    others exactly when the prefix has no command of a block without its
    commit. -/
theorem replay_all_or_nothing_iff (log : List (Client × AofEntry)) (n : ℕ) :
    applied ((log.take n).map Prod.snd) = survivors [] (log.take n) ↔ Complete (log.take n) := by
  rw [applied_eq, eq_comm, survivors_eq_iff]
  rfl

end Blocks

/-! ## Section 4: A bracket cut off -/

/-- `SET k v`, as logged. -/
def setKV : Bytes :=
  [42, 51, 13, 10, 36, 51, 13, 10, 83, 69, 84, 13, 10, 36, 49, 13, 10, 107, 13, 10, 36, 49, 13, 10,
   118, 13, 10]

/-- A store that remembers the operations performed on it; every write creates. -/
def record : (e : Effect) → List Effect → e.Result × List Effect
  | .read k i o, ops => ((.notFound, o), .read k i o :: ops)
  | .upsert k i o, ops => ((.created, o), .upsert k i o :: ops)
  | .rmw k i o, ops => ((.created, o), .rmw k i o :: ops)
  | .delete k, ops => (.deleted, .delete k :: ops)
  | .bump k, ops => ((), .bump k :: ops)
  | .slotVersion key, ops => ((watchSlot key, 0), .slotVersion key :: ops)
  | .versionAt slot, ops => (0, .versionAt slot :: ops)
  | .enqueue e, ops => ((), .enqueue e :: ops)
  | .txnLock keys, ops => ((), .txnLock keys :: ops)
  | .txnUnlock, ops => ((), .txnUnlock :: ops)
  | .countLive, ops => (0, .countLive :: ops)
  | .scanLive p, ops => ([], .scanLive p :: ops)
  | .clear, ops => ((), .clear :: ops)
  | .checkpoint, ops => (none, .checkpoint :: ops)
  | .lastSaveMs, ops => (0, .lastSaveMs :: ops)

/-- MULTI, SET k v, EXEC, with the crash between the command and the commit: no
    command should count, but replay writes the key. -/
theorem open_block_is_applied :
    ∃ (log : List (ℕ × AofEntry)) (n : ℕ),
      survivors [] (log.take n) = [] ∧
      applied ((log.take n).map Prod.snd) ≠ survivors [] (log.take n) ∧
      ((replayEntries ((log.take n).map Prod.snd) .replaying).run record []).2 =
        [.bump [107], .upsert [107] ⟨.set, [118], 0, 0, 7⟩ .default] := by
  refine ⟨[(0, ⟨.txnStart, 7, []⟩), (0, ⟨.command, 7, setKV⟩), (0, ⟨.txnCommit, 7, []⟩)], 2, ?_, ?_, ?_⟩
  · decide +kernel
  · decide +kernel
  · decide +kernel

end Garnet
