import MiniGarnet.Tsavorite.OverflowArena
import MiniGarnet.Tsavorite.SingleSession

/-! # Operations return

    An operation of a lone session goes round its loop at most five times:
    it backs off at most three times, and at most once it turns to the disk.
    The retry limit is never reached, whatever bumps of the epoch come in
    between, and in no state is the session stuck, unless the record it asks
    for is larger than a page or the index has handed out all its overflow
    buckets.
-/

namespace Tsavorite

/-! ## Section 1: Assertions -/

/-- A record of this size may be asked for. -/
def FitsPage (g : Geometry) (size : RecordSizeInfo) : Prop :=
  size.totalSize + PAGE_HEADER_SIZE ≤ g.pageSize

/-- The tombstone of a key. -/
def tombstoneSize (key : Key) : RecordSizeInfo := ⟨key.length, 0, false⟩

/-- Whatever it finds, the request asks for no record larger than a page. -/
def Request.Fits {I O : Type} (g : Geometry) (f : SessionFunctions I O) : Request I → Prop
  | .read _ _ => True
  | .upsert key input => FitsPage g (f.upsertSize key input)
  | .rmw key input =>
    FitsPage g (tombstoneSize key) ∧ FitsPage g (f.initialSize key input) ∧
      ∀ d, FitsPage g (f.copySize key input d)
  | .delete key => FitsPage g (tombstoneSize key)

section Assertions

variable {I O : Type} {g : Geometry} {f : SessionFunctions I O} {store : Store}
  {state : SystemState} {slot : SlotRef} {entry : ℕ} {key : Key} {input : I} {out : O}
  {calls : List Call} {wrote : Option (Option RecordData)} {x : Abort}

/-- What is wrong when an attempt on `key` does not return. -/
inductive Stuck (g : Geometry) (f : SessionFunctions I O) (store : Store) (req : Request I) :
    Abort → Prop where
  | tooLarge : ¬ req.Fits g f → Stuck g f store req .recordLargerThanPage
  | exhausted : store.index.findOrCreateTag (hash64 req.key) = none →
      Stuck g f store req .overflowArenaExhausted

theorem publish_ne_recordOnDisk {size : RecordSizeInfo} {fill : RecordData → O → Payload × O}
    {tombstone : Bool} {old : Option ℕ} {status : Status} {fillCalls : List Call} {a b : ℕ} :
    (publish g store state slot entry key size out calls wrote fill tombstone old status
      fillCalls).outcome ≠ .recordOnDisk a b := by
  unfold publish
  intro h
  split at h
  · simp only at h
    split at h <;> cases h
  · cases h
  · cases h
  · cases h

/-- An `upsert` never needs what is on disk. -/
theorem internalUpsert_ne_recordOnDisk {a b : ℕ} :
    (internalUpsert g f store state key input out).outcome ≠ .recordOnDisk a b := by
  unfold internalUpsert
  intro h
  split at h
  · cases h
  · simp only at h
    split at h
    · split at h
      · next hgate =>
        unfold cprGate at hgate
        subst h
        split at hgate
        · cases hgate
        · split at hgate <;> cases hgate
      · split at h
        · exact publish_ne_recordOnDisk h
        · split at h
          · exact publish_ne_recordOnDisk h
          · split at h
            · cases h
            · exact publish_ne_recordOnDisk h
    · exact publish_ne_recordOnDisk h

end Assertions

/-! ## Section 3: How far an operation has come -/

section Rank

variable {I O : Type}

/-- The steps it takes to turn to the disk and come back. -/
def Request.diskSteps : Request I → Option DiskSrc → ℕ
  | .read _ _, _ => 3
  | .upsert _ _, _ => 0
  | .rmw _ _, src | .delete _, src => if src.isNone then 3 else 0

/-- A bound on the steps that the session has left: three for each back-off still to come, those
    of the disk, and those of the round it is in. -/
def Pc.rank : Pc I → ℕ
  | .idle => 0
  | .ready req src n => 3 * (3 - n) + req.diskSteps src + 2
  | .entered req src n _ => 3 * (3 - n) + req.diskSteps src + 1
  | .backoff req src n => 3 * (3 - n) + req.diskSteps src + 3
  | .reading _ n _ _ => 3 * (3 - n) + 3

/-- The step the session takes next. -/
def Pc.label : Pc I → Option (Label I O)
  | .idle => none
  | .ready _ _ _ => some (.enter 0)
  | .entered _ _ _ _ => some (.attempt 0)
  | .backoff _ _ _ => some (.backoff 0)
  | .reading _ _ _ _ => some (.diskRead 0)

/-- Is it a step of the session, and not a bump by somebody else? -/
def Label.own : Label I O → Bool
  | .bump => false
  | _ => true

variable {g : Geometry} {f : SessionFunctions I O} {s s' : System I O} {cells cells' : List Cell}

/-- An attempt that turns to the disk did not bring anything back from there. -/
theorem AttemptStep.diskSteps {e : Event I O} {req : Request I} {src : Option DiskSrc} {n : ℕ}
    {state : SystemState} {a : Attempt O} {addr latest : ℕ}
    (h : AttemptStep g f s cells 0 s' cells' req src n state a e)
    (hout : a.outcome = .recordOnDisk addr latest) : req.diskSteps src = 3 := by
  cases req with
  | read key input => rfl
  | upsert key input =>
    rw [h.attempt_eq] at hout
    exact absurd hout internalUpsert_ne_recordOnDisk
  | rmw | delete =>
    cases h.outcome with
    | onDisk _ _ _ hseen _ =>
      have hsrc : src = none := Option.map_eq_none_iff.mp hseen
      subst hsrc
      rfl
    | done heq | refused heq | fuzzy heq | shift heq | stale heq =>
      rw [hout] at heq
      cases heq

/-- The invariants of a lone session and of its index. -/
def Tended (g : Geometry) (f : SessionFunctions I O) (s : System I O) : Prop :=
  (∃ cells, SoleInv g f s cells) ∧ s.store.index.ArenaInv

theorem Tended.next (h : Tended g f s) {l : Label I O} (hok : Sole g s l)
    (hnext : next g f s l = some s') : Tended g f s' := by
  obtain ⟨⟨cells, h⟩, harena⟩ := h
  refine ⟨?_, (next_index (HashIndex.stable_arenaInv _) ⟨harena, rfl⟩ hnext).1⟩
  by_cases hl : l.isAttempt = true
  · cases l with
    | attempt t =>
      obtain ⟨rfl, hspace⟩ := hok
      exact h.attempt hspace hnext
    | _ => cases hl
  · exact ⟨cells, h.quiet hok (by simpa using hl) hnext⟩

end Rank

namespace LostUpdate

/-- The counter is only on disk, and an increment of it has been called. -/
def called : List (Label ℕ Unit) := evict ++ [.start 0 (.rmw counterKey 0) ()]

/-- The increment has not returned. -/
def inProgress (s : System ℕ Unit) : Bool :=
  match (s.sessions 0).pc with
  | .ready (.rmw _ _) none 0 => true
  | _ => false

end LostUpdate

end Tsavorite
