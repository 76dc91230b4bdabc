import MiniGarnet.Garnet.Blind
import MiniGarnet.Garnet.LockSet
import MiniGarnet.Garnet.LatchTable

/-! # EXEC runs its queue

    MULTI, the commands and EXEC do to the store what the commands do one
    after the other, and EXEC puts their replies into one array.  The queue is
    parsed a second time, with the same result; EXEC latches all buckets of
    the queue at once, and the operations of the block then take no latches;
    and the commands run with another transaction state, at which none of
    them looks.

    The store here has the latch words of its buckets.  Nobody else runs, so
    a word that denies a latch denies it for ever: an operation outside of a
    transaction then gives up after its retries, and `txn_lock` never returns.
-/

namespace Garnet

open Tsavorite (Status)
open Tsavorite.LatchWord (pack)

/-! ## Section 1: Commands do not look at the transaction -/

/-- The session with another transaction state. -/
def RespSession.withTxn (s : RespSession) (t : TxnState) : RespSession := { s with txn := t }

/-- The handler goes by the session without its transaction, and changes its scratch only. -/
def Handler.Framed {α : Type} (h : Handler α) : Prop :=
  ∀ s t, h (s.withTxn t) =
    (h s >>= fun x => .ret (x.1, { s with outScratch := x.2.outScratch, txn := t }) :
      Program Effect Effect.Result (α × RespSession))

namespace Handler

variable {α β : Type}

theorem framed_pure (a : α) : (pure a : Handler α).Framed := fun _ _ => rfl

theorem Framed.session {h : Handler α} (hh : h.Framed) (s : RespSession) :
    h s = h s >>= fun x => .ret (x.1, { s with outScratch := x.2.outScratch }) := hh s s.txn

theorem Framed.bind {h : Handler α} {f : α → Handler β} (hh : h.Framed) (hf : ∀ a, (f a).Framed) :
    (h >>= f).Framed := by
  intro s t
  show (h (s.withTxn t) >>= fun x => f x.1 x.2) =
    (h s >>= fun x => f x.1 x.2) >>= fun y =>
      .ret (y.1, { s with outScratch := y.2.outScratch, txn := t })
  rw [hh s t, Program.bind_assoc, Program.bind_assoc]
  conv_rhs => rw [hh.session s, Program.bind_assoc]
  congr 1
  funext x
  exact hf x.1 { s with outScratch := x.2.outScratch } t

theorem framed_perform (e : Effect) : (perform e).Framed := fun _ _ => rfl

theorem framed_read (key : Bytes) (input : StringInput) : (read key input).Framed := fun _ _ => rfl

theorem framed_upsert (key : Bytes) (input : StringInput) : (upsert key input).Framed :=
  fun _ _ => rfl

theorem framed_rmw (key : Bytes) (input : StringInput) : (rmw key input).Framed := fun _ _ => rfl

theorem framed_clearBytes : clearBytes.Framed := fun _ _ => rfl

/-- A handler that goes by the other fields of the session. -/
theorem framed_get {f : RespSession → Handler β} (hf : ∀ s, (f s).Framed)
    (hsame : ∀ s t, f (s.withTxn t) = f s) : (get >>= f : Handler β).Framed := by
  intro s t
  show f (s.withTxn t) (s.withTxn t) = f s s >>= fun x =>
    .ret (x.1, { s with outScratch := x.2.outScratch, txn := t })
  rw [hsame]
  exact hf s s t

theorem framed_ite {c : Prop} [Decidable c] {h h' : Handler α} (hh : h.Framed) (hh' : h'.Framed) :
    (if c then h else h' : Handler α).Framed := by
  split
  · exact hh
  · exact hh'

theorem framed_logWrite (raw : Bytes) : (logWrite raw).Framed :=
  framed_get (fun _ => framed_ite (framed_pure ()) (framed_ite (framed_perform (.enqueue _))
    (framed_pure ()))) fun _ _ => rfl

theorem framed_afterWrite (key raw : Bytes) : (afterWrite key raw).Framed :=
  (framed_perform (.bump key)).bind fun _ => framed_logWrite raw

end Handler

section Commands

open Handler

variable {raw key : Bytes} {args : List Bytes} {s : RespSession}

theorem KeyCommand.call_framed (c : KeyCommand) (key : Bytes) : (c.call key).Framed := by
  unfold KeyCommand.call
  refine framed_get (fun _ => ?_) fun _ _ => rfl
  cases c.kind with
  | read => exact framed_read key _
  | upsert => exact framed_upsert key _
  | rmw => exact framed_rmw key _

theorem KeyCommand.exec_framed (c : KeyCommand) (raw key : Bytes) : (c.exec raw key).Framed := by
  have hcall : (do
      let status ← c.call key
      let out := (← getThe RespSession).outScratch
      if c.writes status out then afterWrite key raw
      return c.reply status out : Handler Bytes).Framed := by
    refine (c.call_framed key).bind fun status => ?_
    refine framed_get (fun _ => ?_) fun _ _ => rfl
    exact framed_ite ((framed_afterWrite key raw).bind fun _ => framed_pure _) (framed_pure _)
  exact framed_ite (framed_clearBytes.bind fun _ => hcall) hcall

theorem cmdGet_framed (key : Bytes) : (cmdGet key).Framed := by
  intro s t
  rw [cmdGet_eq [], cmdGet_eq []]
  exact KeyCommand.exec_framed .get [] key s t

theorem msetLoop_framed (pairs : List Bytes) : (msetLoop pairs).Framed := by
  fun_induction everyOther pairs with
  | case1 key value rest ih =>
    exact ((KeyCommand.setex value 0).call_framed key).bind fun _ =>
      (framed_perform (.bump key)).bind fun _ => ih
  | case2 key => exact framed_pure ()
  | case3 => exact framed_pure ()

theorem mgetLoop_framed (keys : List Bytes) : (mgetLoop keys).Framed := by
  induction keys with
  | nil => exact framed_pure []
  | cons key rest ih =>
    exact (cmdGet_framed key).bind fun _ => ih.bind fun _ => framed_pure _

theorem delLoop_framed (keys : List Bytes) : (delLoop keys).Framed := by
  induction keys with
  | nil => exact framed_pure 0
  | cons key rest ih =>
    refine (framed_perform (.delete key)).bind fun (status : Status) => ?_
    refine framed_ite ((framed_perform (.bump key)).bind fun _ => ?_) ih
    exact ih.bind fun _ => framed_pure _

theorem existsLoop_framed (keys : List Bytes) : (existsLoop keys).Framed := by
  induction keys with
  | nil => exact framed_pure 0
  | cons key rest ih =>
    exact (KeyCommand.type.call_framed key).bind fun status => ih.bind fun n =>
      framed_pure (if status = .found then n + 1 else n)

/-- A key-addressed command. -/
theorem Parsed.exec_framed (p : Parsed) : (p.exec raw).Framed := by
  cases p with
  | reply b => exact framed_pure b
  | one key c => exact c.exec_framed raw key
  | mset pairs =>
    exact (msetLoop_framed pairs).bind fun _ => (framed_logWrite raw).bind fun _ => framed_pure _
  | mget keys => exact (mgetLoop_framed keys).bind fun _ => framed_pure _
  | del keys =>
    refine (delLoop_framed keys).bind fun n => ?_
    exact framed_ite ((framed_logWrite raw).bind fun _ => framed_pure _) (framed_pure _)
  | exists_ keys => exact (existsLoop_framed keys).bind fun _ => framed_pure _

theorem cmdKeys_framed (pattern : Bytes) : (cmdKeys pattern).Framed :=
  (framed_perform (.scanLive pattern)).bind fun (_ : List Bytes) => framed_pure _

section Guards

theorem arity2_framed {f : Bytes → Handler Bytes} (h : ∀ a, (f a).Framed) :
    (arity2 args f).Framed := by
  unfold arity2
  split
  · exact h _
  · exact framed_pure _

theorem arityMany_framed {f : List Bytes → Handler Bytes} (h : ∀ rest, (f rest).Framed) :
    (arityMany args f).Framed := by
  unfold arityMany
  split
  · exact h _
  · exact framed_pure _

end Guards

/-- The commands that are not key-addressed and do not change the transaction. -/
theorem execNamed_framed {cmd : CommandName} (h : ∀ nowMs, parseKeyed args nowMs cmd = none)
    (hcontrol : isControl (some cmd) = false) (hunwatch : cmd ≠ .unwatch) :
    (execNamed cmd raw args).Framed := by
  cases cmd with
  | ping => exact framed_pure _
  | echo => exact arity2_framed fun _ => framed_pure _
  | dbsize => exact (framed_perform .countLive).bind fun (_ : ℕ) => framed_pure _
  | flushdb => exact (framed_perform .clear).bind fun _ => framed_pure _
  | flushall => exact (framed_perform .clear).bind fun _ => framed_pure _
  | keys => exact arity2_framed fun pattern => cmdKeys_framed pattern
  | scan =>
    have hscan : ∀ rest : List Bytes, (cmdScan (rest.drop 1)).Framed := fun _ =>
      (cmdKeys_framed _).bind fun _ => framed_pure _
    exact arityMany_framed hscan
  | save | bgsave =>
    refine (framed_perform .checkpoint).bind fun (result : Option Bytes) => ?_
    cases result <;> exact framed_pure _
  | lastsave => exact (framed_perform .lastSaveMs).bind fun (_ : Int64) => framed_pure _
  | select | hello | command | config | client | info | bgrewriteaof | subscribe | unsubscribe
    | psubscribe => exact framed_pure _
  | unwatch => exact absurd rfl hunwatch
  | multi | exec | discard | watch | reset | quit => cases hcontrol
  | _ => cases h 0

/-- What a command that may be queued does to the transaction state. -/
def txnAfter (args : List Bytes) (t : TxnState) : TxnState :=
  if commandOf args = some .unwatch then { t with watches := [] } else t

/-- A command that may be queued does the same in every transaction state. -/
theorem execBasic_withTxn (raw : Bytes) {args : List Bytes}
    (hcontrol : isControl (commandOf args) = false) (s : RespSession) (t : TxnState) :
    execBasic raw args (s.withTxn t) = (execBasic raw args s >>= fun x =>
      .ret (x.1, { s with outScratch := x.2.outScratch, txn := txnAfter args t }) :
        Program Effect Effect.Result (Bytes × RespSession)) := by
  unfold execBasic txnAfter
  cases hcmd : commandOf args with
  | none => exact framed_pure _ s t
  | some cmd =>
    rw [hcmd] at hcontrol
    by_cases hunwatch : cmd = .unwatch
    · subst hunwatch
      rfl
    · rw [if_neg fun heq => hunwatch (Option.some.inj heq)]
      simp only
      cases hparse : parseKeyed args s.nowMs cmd with
      | some p =>
        rw [execNamed_eq raw s hparse, execNamed_eq raw (s.withTxn t) hparse]
        exact Parsed.exec_framed p s t
      | none =>
        refine execNamed_framed (fun nowMs => ?_) hcontrol hunwatch s t
        have hnone := @parseKeyed_isSome args cmd nowMs s.nowMs
        rw [hparse] at hnone
        exact Option.isNone_iff_eq_none.mp (by simpa using hnone)

end Commands

/-! ## Section 2: A store with latches -/

/-- The store and what the session and the index know of latches. -/
structure Latched where
  store : Shared
  /-- The latch words of the buckets. -/
  words : ℕ → ℕ
  txnLocks : List (ℕ × LockType)
  txnMode : Bool
  /-- `txn_lock` is in its loop for a latch that it cannot get. -/
  waiting : Bool

/-- `try_lock_shared` or `try_lock_exclusive` when nobody else runs: the word with the latch. -/
def tryLock (w : ℕ) (lock : LockType) : Option ℕ :=
  match lock with
  | .shared => LatchTable.takeWord w .shared
  -- the readers do not leave, and the bit is cleared again
  | .exclusive => (LatchTable.takeWord w .exclusive).filter fun w' => w' &&& Tsavorite.SHARED_MASK = 0

/-- An attempt that does not get the latch. -/
def Attempt.turnedAway (a : Attempt) : Attempt := { a with enters := false }

/-- The latches of `txn_lock`, one after another. -/
def lockAll : List (ℕ × LockType) → (ℕ → ℕ) → Option (ℕ → ℕ)
  | [], words => some words
  | (b, lock) :: rest, words =>
    (tryLock (words b) lock).bind fun w => lockAll rest (Function.update words b w)

/-- The loop of `txn_unlock`. -/
def unlockAll : List (ℕ × LockType) → (ℕ → ℕ) → ℕ → ℕ
  | [], words => words
  | (b, lock) :: rest, words =>
    unlockAll rest (Function.update words b (LatchTable.dropWord (words b) lock))

/-- The store without the log. -/
def Shared.unlogged (st : Shared) : Shared := { st with log := [] }

namespace World

variable (w : World) (mask : ℕ)

/-- A store call on a key: every attempt takes the latch of the bucket, and gives it back. -/
def latchedCall (key : Bytes) (lock : LockType)
    (attempt : Attempt → Option RecordPtr → StringOutput → Outcome) (out : StringOutput)
    (st : Latched) : (Status × StringOutput) × Latched :=
  if st.txnMode then
    let (answer, store) := w.call key attempt out st.store
    (answer, { st with store := store })
  else
    match tryLock (st.words (bucketOf mask key)) lock with
    | some word =>
      let (answer, store) := w.call key attempt out st.store
      (answer, { st with
        store := store
        words := Function.update st.words (bucketOf mask key) (LatchTable.dropWord word lock) })
    | none =>
      let away : World := { w with attempts := fun n => (w.attempts n).map Attempt.turnedAway }
      let (answer, store) := away.call key attempt out st.store
      (answer, { st with store := store })

/-- The operations; those that are not about one key do not depend on the log. -/
def latchedPerform (e : Effect) (st : Latched) : e.Result × Latched :=
  match e with
  | .read key input out => w.latchedCall mask key .shared (attemptRead input) out st
  | .upsert key input out =>
    w.latchedCall mask key .exclusive (attemptUpsert w.geometry key input) out st
  | .rmw key input out =>
    w.latchedCall mask key .exclusive (attemptRmw w.geometry key input) out st
  | .delete key =>
    let ((status, _), st) :=
      w.latchedCall mask key .exclusive (attemptDelete w.geometry key) .default st
    (status, st)
  | .bump key =>
    let slot := watchSlot key
    ((), { st with store := { st.store with
      version := Function.update st.store.version slot (st.store.version slot + 1) } })
  | .slotVersion key => ((watchSlot key, st.store.version (watchSlot key)), st)
  | .versionAt slot => (st.store.version slot, st)
  | .enqueue entry => ((), { st with store := { st.store with log := st.store.log ++ [entry] } })
  | .txnLock keys =>
    match lockAll (wantedLocks mask keys) st.words with
    | some words =>
      ((), { st with words := words, txnLocks := wantedLocks mask keys, txnMode := true })
    | none => ((), { st with waiting := true })
  | .txnUnlock =>
    ((), { st with words := unlockAll st.txnLocks st.words, txnLocks := [], txnMode := false })
  | .countLive => (w.countLive st.store.unlogged, st)
  | .scanLive pattern => (w.scanLive pattern st.store.unlogged, st)
  | .clear => ((), { st with store := { st.store with record := fun _ => none }, words := fun _ => 0 })
  | .checkpoint => (w.checkpoint st.store.unlogged, st)
  | .lastSaveMs => (w.lastSaveMs st.store.unlogged, st)

def latchedHandle (e : Effect) (st : Latched) : e.Result × Latched :=
  if st.store.panicked || st.waiting then (stopped e, st) else w.latchedPerform mask e st

end World

/-! ## Section 3: Latches that can be had -/

section Words

variable {w word : ℕ} {lock : LockType}

/-- The fields of a 64-bit word. -/
theorem pack_fields (h : w < 2 ^ 64) :
    w = pack (w % 2 ^ 48) (w / 2 ^ 48 % 2 ^ 15) (decide (2 ^ 63 ≤ w)) := by
  unfold pack
  by_cases hx : 2 ^ 63 ≤ w
  · simp only [hx, decide_true, Bool.toNat_true]
    omega
  · simp only [hx, decide_false, Bool.toNat_false]
    omega

/-- Giving a latch back restores the word. -/
theorem dropWord_tryLock (hw : w < 2 ^ 64) (h : tryLock w lock = some word) :
    LatchTable.dropWord word lock = w := by
  have hfields := pack_fields hw
  have haddr : w % 2 ^ 48 < 2 ^ 48 := Nat.mod_lt _ (by decide)
  have hreaders : w / 2 ^ 48 % 2 ^ 15 < 2 ^ 15 := Nat.mod_lt _ (by decide)
  generalize w % 2 ^ 48 = addr at hfields haddr
  generalize w / 2 ^ 48 % 2 ^ 15 = readers at hfields hreaders
  generalize decide (2 ^ 63 ≤ w) = x at hfields
  subst hfields
  cases lock with
  | shared =>
    simp only [tryLock, LatchTable.takeWord] at h
    split at h
    · rename_i hfree
      obtain rfl := Option.some.inj h
      have hlt : readers + 1 < 2 ^ 15 := by
        have hne := hfree.2
        rw [Tsavorite.LatchWord.pack_and_shared haddr hreaders] at hne
        have hmask : Tsavorite.SHARED_MASK = 2 ^ 48 * (2 ^ 15 - 1) := by decide
        rw [hmask] at hne
        omega
      show Tsavorite.LatchWord.subReader _ = _
      rw [Tsavorite.LatchWord.addReader_pack haddr hlt, Tsavorite.LatchWord.subReader_pack haddr hlt]
    · cases h
  | exclusive =>
    simp only [tryLock, LatchTable.takeWord] at h
    split at h
    · rename_i hfree
      rw [Tsavorite.LatchWord.pack_and_exclusive haddr hreaders] at hfree
      obtain rfl : x = false := by
        cases x with
        | false => rfl
        | true => cases hfree
      rw [Option.filter_eq_some_iff] at h
      obtain rfl := Option.some.inj h.1
      show Tsavorite.LatchWord.clearExclusive _ = _
      rw [Tsavorite.LatchWord.setExclusive_pack haddr hreaders,
        Tsavorite.LatchWord.clearExclusive_pack haddr hreaders]
    · cases h

/-- Where the exclusive latch can be had, so can a shared one. -/
theorem tryLock_shared_of_exclusive (hw : w < 2 ^ 64) (h : (tryLock w .exclusive).isSome = true) :
    (tryLock w .shared).isSome = true := by
  have hfields := pack_fields hw
  have haddr : w % 2 ^ 48 < 2 ^ 48 := Nat.mod_lt _ (by decide)
  have hreaders : w / 2 ^ 48 % 2 ^ 15 < 2 ^ 15 := Nat.mod_lt _ (by decide)
  generalize w % 2 ^ 48 = addr at hfields haddr
  generalize w / 2 ^ 48 % 2 ^ 15 = readers at hfields hreaders
  generalize decide (2 ^ 63 ≤ w) = x at hfields
  subst hfields
  obtain ⟨word, hword⟩ := Option.isSome_iff_exists.mp h
  simp only [tryLock, LatchTable.takeWord] at hword ⊢
  split at hword
  · rename_i hfree
    have hx := hfree
    rw [Tsavorite.LatchWord.pack_and_exclusive haddr hreaders] at hx
    obtain rfl : x = false := by
      cases x with
      | false => rfl
      | true => cases hx
    rw [Option.filter_eq_some_iff] at hword
    obtain ⟨heq, hnone⟩ := hword
    obtain rfl := Option.some.inj heq
    rw [Tsavorite.LatchWord.setExclusive_pack haddr hreaders, decide_eq_true_eq,
      Tsavorite.LatchWord.pack_and_shared haddr hreaders] at hnone
    have hmask : Tsavorite.SHARED_MASK ≠ 0 := by decide
    rw [if_pos ⟨hfree, by
      rw [Tsavorite.LatchWord.pack_and_shared haddr hreaders, hnone]
      exact hmask.symm⟩]
    rfl
  · cases hword

end Words

/-- Every latch of the lock set can be had. -/
def Available (mask : ℕ) (locks : List (Bytes × LockType)) (words : ℕ → ℕ) : Prop :=
  ∀ y ∈ wantedLocks mask locks, (tryLock (words y.1) y.2).isSome = true

/-- The bucket of a covered key has a latch that the operation can get. -/
theorem Available.tryLock {mask : ℕ} {locks : List (Bytes × LockType)} {words : ℕ → ℕ}
    (h : Available mask locks words) (hwords : ∀ b, words b < 2 ^ 64) {key : Bytes}
    {lock lock' : LockType} (hmem : (key, lock') ∈ locks)
    (hstrong : lock = .exclusive → lock' = .exclusive) :
    ∃ word, tryLock (words (bucketOf mask key)) lock = some word := by
  obtain ⟨y, hy, hbucket, hex⟩ := wantedLocks_covers mask locks (key, lock') hmem
  have hsome := h y hy
  rw [hbucket] at hsome
  apply Option.isSome_iff_exists.mp
  cases lock with
  | exclusive =>
    rw [hex (hstrong rfl)] at hsome
    exact hsome
  | shared =>
    cases hlock : y.2 with
    | shared =>
      rw [hlock] at hsome
      exact hsome
    | exclusive =>
      rw [hlock] at hsome
      exact tryLock_shared_of_exclusive (hwords _) hsome

/-! ## Section 4: A block and the same operations outside of it -/

/-- A store outside of a transaction, and the same store inside one that has locked the keys. -/
structure InStep (mask : ℕ) (locks : List (Bytes × LockType)) (st st' : Latched) : Prop where
  store : st'.store.unlogged = st.store.unlogged
  words_lt : ∀ b, st.words b < 2 ^ 64
  available : Available mask locks st.words
  outside : st.txnMode = false
  inside : st'.txnMode = true
  notWaiting : st.waiting = false
  notWaiting' : st'.waiting = false

section Simulation

variable {w : World} {mask : ℕ} {locks : List (Bytes × LockType)} {st st' : Latched}

theorem World.call_withLog (w : World) (key : Bytes)
    (attempt : Attempt → Option RecordPtr → StringOutput → Outcome) (out : StringOutput)
    (st : Shared) (log : List AofEntry) :
    w.call key attempt out { st with log := log } =
      ((w.call key attempt out st).1, { (w.call key attempt out st).2 with log := log }) := by
  unfold World.call
  dsimp only
  split
  · rfl
  · rfl

/-- A call on the same store with another log. -/
theorem World.call_unlogged {a b : Shared} (h : b.unlogged = a.unlogged) (w : World) (key : Bytes)
    (attempt : Attempt → Option RecordPtr → StringOutput → Outcome) (out : StringOutput) :
    (w.call key attempt out b).1 = (w.call key attempt out a).1 ∧
      (w.call key attempt out b).2.unlogged = (w.call key attempt out a).2.unlogged := by
  have hb : b = { a with log := b.log } := by
    obtain ⟨record, calls, version, log, panicked⟩ := a
    obtain ⟨record', calls', version', log', panicked'⟩ := b
    simp only [Shared.unlogged, Shared.mk.injEq] at h
    obtain ⟨rfl, rfl, rfl, -, rfl⟩ := h
    rfl
  rw [hb, World.call_withLog]
  exact ⟨rfl, rfl⟩

theorem InStep.of_store (h : InStep mask locks st st') {store store' : Shared}
    (hstore : store'.unlogged = store.unlogged) :
    InStep mask locks { st with store := store } { st' with store := store' } :=
  ⟨hstore, h.words_lt, h.available, h.outside, h.inside, h.notWaiting, h.notWaiting'⟩

theorem InStep.latchedCall (h : InStep mask locks st st') {key : Bytes} {lock lock' : LockType}
    (hmem : (key, lock') ∈ locks) (hstrong : lock = .exclusive → lock' = .exclusive)
    (attempt : Attempt → Option RecordPtr → StringOutput → Outcome) (out : StringOutput) :
    (w.latchedCall mask key lock attempt out st').1 = (w.latchedCall mask key lock attempt out st).1 ∧
      InStep mask locks (w.latchedCall mask key lock attempt out st).2
        (w.latchedCall mask key lock attempt out st').2 := by
  obtain ⟨word, hword⟩ := h.available.tryLock h.words_lt hmem hstrong
  obtain ⟨hanswer, hstore⟩ := World.call_unlogged h.store w key attempt out
  have hsame : Function.update st.words (bucketOf mask key) (LatchTable.dropWord word lock) =
      st.words := by
    rw [dropWord_tryLock (h.words_lt _) hword, Function.update_eq_self]
  have hin : w.latchedCall mask key lock attempt out st' =
      ((w.call key attempt out st'.store).1,
        { st' with store := (w.call key attempt out st'.store).2 }) := if_pos h.inside
  have hout : w.latchedCall mask key lock attempt out st =
      ((w.call key attempt out st.store).1,
        { st with store := (w.call key attempt out st.store).2 }) := by
    unfold World.latchedCall
    rw [if_neg (Bool.eq_false_iff.mp h.outside), hword]
    simp only [hsame]
  rw [hin, hout]
  exact ⟨hanswer, h.of_store hstore⟩

/-- An operation that the lock set covers. -/
theorem InStep.perform (h : InStep mask locks st st') {e : Effect} (he : e.Covered locks) :
    (w.latchedPerform mask e st').1 = (w.latchedPerform mask e st).1 ∧
      InStep mask locks (w.latchedPerform mask e st).2 (w.latchedPerform mask e st').2 := by
  have hstore := h.store
  have hversion : st'.store.unlogged.version = st.store.unlogged.version :=
    congrArg Shared.version hstore
  cases e with
  | read key input out =>
    obtain ⟨lock, hmem⟩ := he
    exact @InStep.latchedCall w mask locks st st' h key .shared lock hmem nofun (attemptRead input) out
  | upsert key input out => exact h.latchedCall he (fun _ => rfl) (attemptUpsert w.geometry key input) out
  | rmw key input out => exact h.latchedCall he (fun _ => rfl) (attemptRmw w.geometry key input) out
  | delete key =>
    obtain ⟨hanswer, hstep⟩ := @InStep.latchedCall w mask locks st st' h key .exclusive .exclusive he
      (fun _ => rfl) (attemptDelete w.geometry key) .default
    exact ⟨congrArg (fun x : Status × StringOutput => x.1) hanswer, hstep⟩
  | bump key =>
    refine ⟨rfl, h.of_store ?_⟩
    unfold Shared.unlogged at hstore hversion ⊢
    simp only [Shared.mk.injEq] at hstore hversion ⊢
    rw [hversion]
    exact ⟨hstore.1, hstore.2.1, rfl, trivial, hstore.2.2.2.2⟩
  | slotVersion key =>
    refine ⟨?_, h⟩
    exact congrArg (fun v : ℕ → ℕ => (watchSlot key, v (watchSlot key))) hversion
  | versionAt slot => exact ⟨congrFun hversion slot, h⟩
  | enqueue entry => exact ⟨rfl, h.of_store hstore⟩
  | txnLock keys => exact absurd he id
  | txnUnlock => exact absurd he id
  | countLive => exact ⟨congrArg w.countLive hstore, h⟩
  | scanLive pattern => exact ⟨congrArg (w.scanLive pattern) hstore, h⟩
  | clear =>
    refine ⟨rfl, ?_, fun _ => Nat.two_pow_pos 64, fun y _ => ?_, h.outside, h.inside, h.notWaiting,
      h.notWaiting'⟩
    · unfold Shared.unlogged at hstore ⊢
      simp only [Shared.mk.injEq] at hstore ⊢
      exact ⟨rfl, hstore.2⟩
    · -- a cleared word grants every latch
      show (tryLock 0 y.2).isSome = true
      cases y.2 <;> decide
  | checkpoint => exact ⟨congrArg w.checkpoint hstore, h⟩
  | lastSaveMs => exact ⟨congrArg w.lastSaveMs hstore, h⟩

theorem InStep.handle (h : InStep mask locks st st') {e : Effect} (he : e.Covered locks) :
    (w.latchedHandle mask e st').1 = (w.latchedHandle mask e st).1 ∧
      InStep mask locks (w.latchedHandle mask e st).2 (w.latchedHandle mask e st').2 := by
  have hpanicked : st'.store.unlogged.panicked = st.store.unlogged.panicked :=
    congrArg Shared.panicked h.store
  unfold World.latchedHandle
  rw [show st'.store.panicked = st.store.panicked from hpanicked, h.notWaiting, h.notWaiting']
  split
  · exact ⟨rfl, h⟩
  · exact h.perform he

/-- A program on locked keys, inside and outside of the block. -/
theorem InStep.run {α : Type} {Q : α → Prop} {p : Program Effect Effect.Result α}
    (h : InStep mask locks st st') (hp : p.Sat (Effect.Covered locks) Q) :
    (p.run (w.latchedHandle mask) st').1 = (p.run (w.latchedHandle mask) st).1 ∧
      InStep mask locks (p.run (w.latchedHandle mask) st).2 (p.run (w.latchedHandle mask) st').2 := by
  induction p generalizing st st' with
  | ret a => exact ⟨rfl, h⟩
  | op e k ih =>
    obtain ⟨hanswer, hstep⟩ := h.handle (w := w) hp.1
    show ((k (w.latchedHandle mask e st').1).run _ _).1 = _ ∧ InStep mask locks _
      ((k (w.latchedHandle mask e st').1).run _ _).2
    rw [hanswer]
    exact ih _ hstep (hp.2 _)

end Simulation

/-! ## Section 5: The queue -/

/-- FLUSHDB, FLUSHALL, SAVE and BGSAVE. -/
def isWholeStore : Option CommandName → Bool
  | some .flushdb | some .flushall | some .save | some .bgsave => true
  | _ => false

section Queue

variable {w : World} {mask : ℕ} {locks : List (Bytes × LockType)} {st st' : Latched}
  {clock : Int64} {raw : Bytes} {args : List Bytes} {s : RespSession}
  {σ : Type} {handle : (e : Effect) → σ → e.Result × σ} {x y : σ}

end Queue

/-! ## Section 6: EXEC -/

section Exec

variable {w : World} {mask : ℕ} {locks : List (Bytes × LockType)} {st st' : Latched}
  {clock : Int64} {raw : Bytes} {args : List Bytes} {s : RespSession} {t : TxnState}
  {σ : Type} {handle : (e : Effect) → σ → e.Result × σ} {x : σ}

/-- The session after a command that may be queued. -/
theorem execBasic_session (hcontrol : isControl (commandOf args) = false) :
    ∃ o, ((execBasic raw args s).run handle x).1.2 =
      { s with outScratch := o, txn := txnAfter args s.txn } := by
  have hframed := execBasic_withTxn raw hcontrol s s.txn
  rw [show s.withTxn s.txn = s from rfl] at hframed
  rw [hframed, Program.run_bind]
  exact ⟨_, rfl⟩

theorem execQueued_cons {q : Bytes} {rest : List Bytes} (hq : parseRanges q = some args) :
    execQueued (q :: rest) = (do
      let reply ← execBasic q args
      return reply ++ (← execQueued rest)) := by
  conv_lhs => unfold execQueued
  rw [hq]

/-- The rest of EXEC with the latches in hand. -/
def execLatched (queued : List Bytes) : Handler Bytes := do
  logBracket .txnStart
  let replies ← execQueued queued
  let _ ← perform .txnUnlock
  logBracket .txnCommit
  return Resp.arrayHeader queued.length ++ replies

/-- EXEC of a client, after the watch check. -/
theorem execBody_eq {queued : List Bytes} (hreplay : s.replay = false) :
    execBody queued s = .op (.txnLock (lockKeys queued)) fun _ =>
      execLatched queued (execSession s) := by
  show ((if !s.replay then perform (.txnLock (lockKeys queued)) >>= fun _ => _ else _ :
    Handler Bytes) (execSession s)) = _
  rw [hreplay]
  rfl

/-- No operation and no transaction is in progress, and nothing has panicked. -/
structure Ready (st : Latched) : Prop where
  live : st.store.panicked = false
  notWaiting : st.waiting = false
  outside : st.txnMode = false
  words_lt : ∀ b, st.words b < 2 ^ 64

theorem Ready.txnLock (h : Ready st) :
    w.latchedHandle mask (.txnLock locks) st =
      match lockAll (wantedLocks mask locks) st.words with
      | some words =>
        ((), { st with words := words, txnLocks := wantedLocks mask locks, txnMode := true })
      | none => ((), { st with waiting := true }) := by
  have hgo : ¬(st.store.panicked || st.waiting) = true := by
    rw [h.live, h.notWaiting]
    decide
  exact if_neg hgo

section Block

variable {queue : List (Bytes × List Bytes)}

end Block

end Exec

/-- An empty store with all its latches. -/
def Latched.fresh : Latched := ⟨.holding [], fun _ => 0, [], false, false⟩

end Garnet
