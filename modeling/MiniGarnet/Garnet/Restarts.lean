import MiniGarnet.Garnet.Rebuilt

/-! # The server over restarts

    A server and its two files, the checkpoint and the log.  `SAVE` publishes
    a checkpoint and then truncates the log; a crash loses the store and the
    end of the log, and `recover` begins again with what is left.

    Next to it runs a `History`: the entries that the store shows, those that
    the checkpoint holds and those that the log holds.  A crash goes back to
    the checkpoint and the whole entries of the log.  The server never shows
    anything else, over any number of checkpoints, crashes and restarts.

    An entry that comes to the log between the publication and the truncation
    is in neither file afterwards.  Where there is none, the two files hold
    the whole history, and a crash costs the end of the log only.
-/

namespace Garnet

/-! ## Section 1: Histories -/

/-- The entries that are shown, and where they have been saved. -/
structure History where
  done : List AofEntry
  saved : List AofEntry
  log : List AofEntry
  deriving DecidableEq, Repr

inductive History.Label where
  | write (entries : List AofEntry)
  | save
  | trim
  /-- Go back to what is saved: `n` bytes of the log are left. -/
  | lose (n : ℕ)

namespace History

def empty : History := ⟨[], [], []⟩

def next (h : History) : History.Label → History
  | .write entries => { h with done := h.done ++ entries, log := h.log ++ entries }
  | .save => { h with saved := h.done }
  | .trim => { h with log := [] }
  | .lose n => ⟨h.saved ++ wholeIn n h.log, h.saved, wholeIn n h.log⟩

/-- The two files hold the history, each entry once. -/
def Whole (h : History) : Prop := h.done = h.saved ++ h.log

variable {h : History}

theorem Whole.write (hwhole : h.Whole) (entries : List AofEntry) : (h.next (.write entries)).Whole := by
  show h.done ++ entries = h.saved ++ (h.log ++ entries)
  rw [hwhole, List.append_assoc]

/-- The log can be cut exactly when the checkpoint has all of the history. -/
theorem whole_trim_iff : (h.next .trim).Whole ↔ h.done = h.saved := by
  show h.done = h.saved ++ [] ↔ h.done = h.saved
  rw [List.append_nil]

theorem whole_lose (h : History) (n : ℕ) : (h.next (.lose n)).Whole := rfl

/-- A crash leaves a beginning of the history, and of it at least what the checkpoint holds. -/
theorem Whole.lose (hwhole : h.Whole) (n : ℕ) :
    (h.next (.lose n)).done <+: h.done ∧ h.saved <+: (h.next (.lose n)).done := by
  obtain ⟨k, hk, -⟩ := wholeIn_eq_take n h.log
  refine ⟨?_, List.prefix_append _ _⟩
  show h.saved ++ wholeIn n h.log <+: h.done
  rw [hwhole, hk]
  exact (List.prefix_append_right_inj h.saved).mpr (List.take_prefix k h.log)

end History

/-! ## Section 2: The server and its files -/

/-- A server, the records that its checkpoint file brings back, and how many calls of
    `Shared::checkpoint` have published a checkpoint and not yet truncated the log.  The log file
    holds the encoding of the server's log. -/
structure Durable (Client : Type) where
  world : World
  server : Server Client
  snapshot : Bytes → Option RecordPtr
  saving : ℕ

inductive DurableLabel (Client : Type) where
  | command (l : Client × Request)
  /-- `take_checkpoint` renames its metadata file. -/
  | publish
  /-- `Aof::truncate`, after it. -/
  | truncate
  /-- The first `n` bytes of the log file are left, and `recover` runs at `start` in another store. -/
  | restart (n : ℕ) (mode : CommitMode) (world : World) (start : Int64)

namespace Durable

variable {Client : Type} [DecidableEq Client]

/-- The server before its first command. -/
def init (w : World) (start : Int64) : Durable Client := ⟨w, .init start, fun _ => none, 0⟩

/-- What is left of the log file, as `replay` reads it. -/
def kept (m : Durable Client) (n : ℕ) (mode : CommitMode) : List AofEntry :=
  (Aof.open ((encodeAll m.server.shared.log).take n) mode).replay

def next (m : Durable Client) : DurableLabel Client → Option (Durable Client)
  | .command l => (m.server.next m.world l).map fun srv => { m with server := srv }
  | .publish => some { m with snapshot := m.server.shared.record, saving := m.saving + 1 }
  | .truncate =>
    if m.saving = 0 then none
    else
      let shared := { m.server.shared with log := [] }
      some { m with server := { m.server with shared := shared }, saving := m.saving - 1 }
  | .restart n mode w start =>
    some ⟨w, ⟨fun _ => .new true, recovered w m.snapshot (m.kept n mode), start⟩, m.snapshot, 0⟩

/-- What a step means for the history. -/
def meaning (m : Durable Client) : DurableLabel Client → History.Label
  | .command l =>
    match m.server.next m.world l with
    | some srv => .write (srv.shared.log.drop m.server.shared.log.length)
    | none => .write []
  | .publish => .save
  | .truncate => .trim
  | .restart n _ _ _ => .lose n

/-- The server with its history next to it. -/
def nextShadowed (x : Durable Client × History) (l : DurableLabel Client) :
    Option (Durable Client × History) :=
  (x.1.next l).map fun m => (m, x.2.next (x.1.meaning l))

/-- What is asked of a restart: no SAVE is between its two steps, the cut leaves no piece of an
    entry, and the commands that are replayed mean what they did. -/
structure Restarts (m : Durable Client) (n : ℕ) (mode : CommitMode) (w : World) (start : Int64) :
    Prop where
  serves : w.Serves
  clock : m.server.clock ≤ start
  unsaving : m.saving = 0
  fits : ∀ e ∈ m.server.shared.log, e.Fits
  boundary : OnBoundary m.server.shared.log n
  means : ReplayMeans w (replayCalls false (m.kept n mode)) .replaying
    (.restored m.snapshot (m.kept n mode))

/-- What is asked of a step. -/
def Permitted (x : Durable Client × History) : DurableLabel Client → Prop
  | .command l => x.1.server.Records x.1.world l
  | .publish | .truncate => True
  | .restart n mode w start => x.1.Restarts n mode w start

/-- A log is truncated only if the checkpoint has all of its entries. -/
def Lossless (x : Durable Client × History) (l : DurableLabel Client) : Prop :=
  l = .truncate → x.2.done = x.2.saved

end Durable

/-! ## Section 3: The log only grows -/

section Growth

variable {w : World} {st : Shared}

theorem World.call_log (w : World) (key : Bytes)
    (attempt : Attempt → Option RecordPtr → StringOutput → Outcome) (out : StringOutput) :
    (w.call key attempt out st).2.log = st.log := by
  unfold World.call
  split <;> rfl

theorem World.handle_log (w : World) (e : Effect) (st : Shared) : st.log <+: (w.handle e st).2.log := by
  unfold World.handle
  split
  · exact List.prefix_rfl
  · cases e with
    | read key input out => exact (World.call_log w key _ out).symm ▸ List.prefix_rfl
    | upsert key input out => exact (World.call_log w key _ out).symm ▸ List.prefix_rfl
    | rmw key input out => exact (World.call_log w key _ out).symm ▸ List.prefix_rfl
    | delete key => exact (World.call_log w key _ .default).symm ▸ List.prefix_rfl
    | enqueue entry => exact List.prefix_append _ _
    | _ => exact List.prefix_rfl

/-- By induction on the program. -/
theorem World.run_log {α : Type} (p : Program Effect Effect.Result α) :
    st.log <+: (p.run w.handle st).2.log := by
  induction p generalizing st with
  | ret a => exact List.prefix_rfl
  | op e k ih => exact (World.handle_log w e st).trans (ih _)

/-- A command appends to the log. -/
theorem Server.next_log {Client : Type} [DecidableEq Client] {srv srv' : Server Client}
    {l : Client × Request} (h : srv.next w l = some srv') : srv.shared.log <+: srv'.shared.log := by
  unfold Server.next reply at h
  split at h
  · cases h
  · obtain rfl := Option.some.inj h
    exact World.run_log _

theorem Server.next_clock {Client : Type} [DecidableEq Client] {srv srv' : Server Client}
    {l : Client × Request} (h : srv.next w l = some srv') : srv'.clock = l.2.clock := by
  unfold Server.next reply at h
  split at h
  · cases h
  · obtain rfl := Option.some.inj h
    rfl

end Growth

/-! ## Section 4: The server shows its history -/

/-- The checkpoint shows what its part of the history means, from this time on. -/
def Holds (snapshot : Bytes → Option RecordPtr) (since : Int64) (saved : List AofEntry) : Prop :=
  (Shared.restored snapshot []).seen since = (replayed saved).at since

namespace Durable

variable {Client : Type}

/-- The server shows its history, of which the log is an end.  The log continues the checkpoint
    unless a SAVE is between its two steps. -/
structure Shows (m : Durable Client) (h : History) : Prop where
  serves : m.world.Serves
  log : m.server.shared.log = h.log
  recorded : ∃ before since, h.done = before ++ h.log ∧ m.server.Recorded (replayed before) since ∧
    (m.saving = 0 → Holds m.snapshot since h.saved)
  saved : ∃ since ≤ m.server.clock, Holds m.snapshot since h.saved

variable {m m' : Durable Client} {h : History} {l : DurableLabel Client}

theorem shows_init {w : World} (hw : w.Serves) (start : Int64) :
    (init w start : Durable Client).Shows .empty where
  serves := hw
  log := rfl
  recorded := ⟨[], start, rfl, Server.recorded_init start, fun _ => rfl⟩
  saved := ⟨start, Int64.le_refl start, rfl⟩

theorem Shows.current (hm : m.Shows h) {t : Int64} (ht : m.server.clock ≤ t) :
    m.server.shared.seen t = (replayed h.done).at t := by
  obtain ⟨before, since, hdone, hrecorded, -⟩ := hm.recorded
  rw [(hrecorded.logged.later ht).seen, hm.log, hdone]
  unfold replayed
  rw [replayedOn_append]

theorem Shows.publish (hm : m.Shows h) :
    ({ m with snapshot := m.server.shared.record, saving := m.saving + 1 } : Durable Client).Shows
      (h.next .save) := by
  obtain ⟨before, since, hdone, hrecorded, -⟩ := hm.recorded
  refine ⟨hm.serves, hm.log, ⟨before, since, hdone, hrecorded, fun hzero => ?_⟩, ?_⟩
  · exact absurd hzero (Nat.succ_ne_zero _)
  · exact ⟨m.server.clock, Int64.le_refl _, hm.current (Int64.le_refl _)⟩

/-- From a truncation on the log continues the checkpoint: it is empty. -/
theorem Shows.truncate (hm : m.Shows h) :
    let shared := { m.server.shared with log := [] }
    ({ m with server := { m.server with shared := shared }, saving := m.saving - 1 } :
      Durable Client).Shows (h.next .trim) := by
  intro shared
  obtain ⟨before, since, hdone, hrecorded, -⟩ := hm.recorded
  obtain ⟨since', hle, hsaved⟩ := hm.saved
  have hnone : ∀ e, e ∉ shared.log := fun e he => by cases he
  refine ⟨hm.serves, rfl, ⟨h.done, since', (List.append_nil _).symm, ⟨?_, hrecorded.sessions⟩,
    fun _ => hsaved⟩, since', hle, hsaved⟩
  exact ⟨hrecorded.logged.live, hm.current (Int64.le_refl _), fun e he => absurd he (hnone e),
    List.Pairwise.nil, hle, fun e he => absurd he (hnone e), fun e he => absurd he (hnone e)⟩

/-- What is replayed over the checkpoint continues it. -/
theorem Shows.restart (hm : m.Shows h) {n : ℕ} {mode : CommitMode} {w : World} {start : Int64}
    (hok : m.Restarts n mode w start) :
    (⟨w, ⟨fun _ => .new true, recovered w m.snapshot (m.kept n mode), start⟩, m.snapshot, 0⟩ :
      Durable Client).Shows (h.next (.lose n)) := by
  obtain ⟨before, since, -, hrecorded, hholds⟩ := hm.recorded
  have hsaved := hholds hok.unsaving
  have hkept : m.kept n mode = wholeIn n h.log := by
    rw [← hm.log]
    exact replay_of_cut mode n hok.fits
  have hfirst : m.kept n mode <+: m.server.shared.log := by
    obtain ⟨k, hprefix, -⟩ := wholeIn_eq_take n m.server.shared.log
    rw [hkept, ← hm.log, hprefix]
    exact List.take_prefix k _
  -- no SAVE is under way, so the log begins where the checkpoint ends
  have hsnapshot : (Shared.restored m.snapshot (m.kept n mode)).seen since =
      (replayed h.saved).at since := hsaved
  obtain ⟨hlog, hrebuilt⟩ := hrecorded.logged.rebuilt hok.serves hfirst hsnapshot hok.means
  have hstart : since ≤ start := Int64.le_trans hrebuilt.since_le hok.clock
  refine ⟨hok.serves, hlog.trans hkept, ⟨h.saved, since, rfl, ?_, fun _ => hsaved⟩, since, hstart, hsaved⟩
  exact ⟨hrebuilt.later hok.clock, fun _ => ⟨rfl, rfl⟩⟩

variable [DecidableEq Client]

theorem meaning_command {l : Client × Request} {srv : Server Client}
    (h : m.server.next m.world l = some srv) :
    m.meaning (.command l) = .write (srv.shared.log.drop m.server.shared.log.length) := by
  unfold meaning
  simp only [h]

theorem Shows.command (hm : m.Shows h) {l : Client × Request} {srv : Server Client}
    (hok : m.server.Records m.world l) (hnext : m.server.next m.world l = some srv) :
    ({ m with server := srv } : Durable Client).Shows (h.next (m.meaning (.command l))) := by
  obtain ⟨before, since, hdone, hrecorded, hholds⟩ := hm.recorded
  have hlog : srv.shared.log = h.log ++ srv.shared.log.drop m.server.shared.log.length := by
    obtain ⟨more, hmore⟩ := Server.next_log hnext
    rw [← hmore, List.drop_left, hm.log]
  rw [meaning_command hnext]
  refine ⟨hm.serves, hlog, ⟨before, since, ?_, hrecorded.step hm.serves hok hnext, hholds⟩, ?_⟩
  · show h.done ++ _ = before ++ (h.log ++ _)
    rw [hdone, List.append_assoc]
  · obtain ⟨since', hle, hsaved⟩ := hm.saved
    have hclock : m.server.clock ≤ srv.clock := by
      rw [Server.next_clock hnext]
      exact hok.clock
    exact ⟨since', Int64.le_trans hle hclock, hsaved⟩

/-- Every step of the server is one of its history. -/
theorem Shows.step (hm : m.Shows h) (hok : Permitted (m, h) l) (hnext : m.next l = some m') :
    m'.Shows (h.next (m.meaning l)) := by
  cases l with
  | command l =>
    obtain ⟨srv, hsrv, rfl⟩ := Option.map_eq_some_iff.mp hnext
    exact hm.command hok hsrv
  | publish =>
    obtain rfl := Option.some.inj hnext
    exact hm.publish
  | truncate =>
    by_cases hsaving : m.saving = 0
    · have hnone : m.next .truncate = none := if_pos hsaving
      rw [hnone] at hnext
      cases hnext
    · have hsome := (if_neg hsaving).symm.trans hnext
      obtain rfl := Option.some.inj hsome
      exact hm.truncate
  | restart n mode w start =>
    obtain rfl := Option.some.inj hnext
    exact hm.restart hok

theorem Shows.run {w : World} (hw : w.Serves) (start : Int64) {ls : List (DurableLabel Client)}
    (hrun : Lts.Steps nextShadowed Permitted (init w start, .empty) ls (m, h)) : m.Shows h := by
  refine hrun.invariant (P := fun x => x.1.Shows x.2) ?_ (shows_init hw start)
  intro x x' l hx hok hnext
  obtain ⟨m', hm', rfl⟩ := Option.map_eq_some_iff.mp hnext
  exact hx.step hok hm'

/-! ## Section 5: What a crash costs -/

/-- The two files hold the history; a checkpoint that has been published is a beginning of it. -/
def Saves (m : Durable Client) (h : History) : Prop :=
  (m.saving = 0 → h.Whole) ∧ h.saved <+: h.done

theorem Saves.step (hm : m.Saves h) (hok : Lossless (m, h) l) (hnext : m.next l = some m') :
    m'.Saves (h.next (m.meaning l)) := by
  obtain ⟨hwhole, hprefix⟩ := hm
  cases l with
  | command l =>
    obtain ⟨srv, hsrv, rfl⟩ := Option.map_eq_some_iff.mp hnext
    rw [meaning_command hsrv]
    exact ⟨fun hzero => (hwhole hzero).write _, hprefix.trans (List.prefix_append _ _)⟩
  | publish =>
    obtain rfl := Option.some.inj hnext
    exact ⟨fun hzero => absurd hzero (Nat.succ_ne_zero _), List.prefix_rfl⟩
  | truncate => exact ⟨fun _ => History.whole_trim_iff.mpr (hok rfl), hprefix⟩
  | restart n mode w start => exact ⟨fun _ => h.whole_lose n, List.prefix_append _ _⟩

theorem Saves.run {w : World} (start : Int64) {ls : List (DurableLabel Client)}
    (hrun : Lts.Steps nextShadowed (fun x l => Permitted x l ∧ Lossless x l) (init w start, .empty) ls
      (m, h)) : m.Saves h := by
  refine hrun.invariant (P := fun x => x.1.Saves x.2) ?_ ⟨fun _ => rfl, List.prefix_rfl⟩
  intro x x' l hx hok hnext
  obtain ⟨m', hm', rfl⟩ := Option.map_eq_some_iff.mp hnext
  exact hx.step hok.2 hm'

/-- One step of the server and its history. -/
def after (x : Durable Unit × History) (l : DurableLabel Unit) : Durable Unit × History :=
  (nextShadowed x l).getD x

end Durable

end Garnet
