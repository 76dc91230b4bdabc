import MiniGarnet.Tsavorite.Updates

/-! # The plain map

    What the store is for: a map from keys to record bodies, driven by the
    same callbacks.  A plain map has no regions and no pages, so two things
    that the log decides come from outside as `Luck`: whether the current
    record may be changed in place, and whether there is room for a new one.
    An attempt without room has to be made again.
-/

namespace Tsavorite

structure Luck where
  inPlace : Bool
  room : Bool
  deriving DecidableEq, Repr

namespace Plain

variable {I O : Type}

/-- Put a new record in place of the current one. -/
def publish (luck : Luck) (key : Key) (size : RecordSizeInfo) (out : O) (calls : List Call)
    (wrote : Option (Option RecordData)) (fill : RecordData → O → Payload × O) (tombstone : Bool)
    (status : Status) (fillCalls : List Call) : Shown O :=
  if luck.room then
    let (payload, out) := fill (blank key size) out
    ⟨some status, out, calls ++ fillCalls,
      some (if tombstone then none else some ((blank key size).write payload))⟩
  else ⟨none, out, calls, wrote⟩

variable (f : SessionFunctions I O)

def read (cur : Option RecordData) (key : Key) (input : I) (out : O) : Shown O :=
  match cur with
  | none => ⟨some .notFound, out, [], none⟩
  | some d =>
    let (ok, out) := f.reader key input d out
    ⟨some (if ok then .found else .notFound), out, [.reader d], none⟩

def upsertCreate (luck : Luck) (key : Key) (input : I) (out : O) (calls : List Call) :
    Shown O :=
  publish luck key (f.upsertSize key input) out calls none (f.initialWriter key input) false
    .created []

/-- `upsert` is blind: it looks at the current record only where it may write in place. -/
def upsert (luck : Luck) (cur : Option RecordData) (key : Key) (input : I) (out : O) :
    Shown O :=
  match cur, luck.inPlace with
  | some d, true =>
    match f.inPlaceWriter key input d out with
    | (some p, out) =>
      ⟨some .inPlaceUpdated, out, [.inPlaceWriter d], some (some (d.write p))⟩
    | (none, out) => upsertCreate f luck key input out [.inPlaceWriter d]
  | _, _ => upsertCreate f luck key input out []

def rmwInitial (luck : Luck) (key : Key) (input : I) (out : O) (calls : List Call)
    (wrote : Option (Option RecordData)) : Shown O :=
  let (needed, out) := f.needInitialUpdate key input out
  if needed then
    publish luck key (f.initialSize key input) out calls wrote (f.initialUpdater key input) false
      .created []
  else ⟨some .notFound, out, calls, wrote⟩

def bury (luck : Luck) (key : Key) (out : O) (calls : List Call) : Shown O :=
  publish luck key ⟨key.length, 0, false⟩ out calls none (fun d out => (d.payload, out)) true
    .deleted []

def rmwCopy (luck : Luck) (key : Key) (input : I) (out : O) (calls : List Call)
    (old : RecordData) : Shown O :=
  match f.needCopyUpdate key input old out with
  | (.cancel, out) => ⟨some .canceled, out, calls ++ [.needCopyUpdate old], none⟩
  | (.delete, out) => bury luck key out (calls ++ [.needCopyUpdate old])
  | (.copy, out) =>
    publish luck key (f.copySize key input old) out (calls ++ [.needCopyUpdate old]) none
      (f.copyUpdater key input old) false .copyUpdated [.copyUpdater old]

def rmwInPlace (luck : Luck) (key : Key) (input : I) (out : O) (d : RecordData) : Shown O :=
  match f.inPlaceUpdater key input d out with
  | (.updated p, out) =>
    ⟨some .inPlaceUpdated, out, [.inPlaceUpdater d], some (some (d.write p))⟩
  | (.cancel, out) => ⟨some .found, out, [.inPlaceUpdater d], none⟩
  | (.expired, out) => rmwInitial f luck key input out [.inPlaceUpdater d] (some none)
  | (.delete, out) => ⟨some .deleted, out, [.inPlaceUpdater d], some none⟩
  | (.needCopy, out) => rmwCopy f luck key input out [.inPlaceUpdater d] d

def rmw (luck : Luck) (cur : Option RecordData) (key : Key) (input : I) (out : O) :
    Shown O :=
  match cur with
  | none => rmwInitial f luck key input out [] none
  | some d =>
    if luck.inPlace then rmwInPlace f luck key input out d
    else rmwCopy f luck key input out [] d

def delete (luck : Luck) (cur : Option RecordData) (key : Key) (out : O) : Shown O :=
  match cur with
  | none => ⟨some .notFound, out, [], none⟩
  | some _ => if luck.inPlace then ⟨some .deleted, out, [], some none⟩ else bury luck key out []

theorem publish_calls (luck : Luck) (key : Key) (size : RecordSizeInfo) (out : O)
    (calls : List Call) (wrote : Option (Option RecordData)) (fill : RecordData → O → Payload × O)
    (tombstone : Bool) (status : Status) (fillCalls : List Call) :
    ∀ c ∈ (publish luck key size out calls wrote fill tombstone status fillCalls).calls,
      c ∈ calls ++ fillCalls := by
  intro c hc
  unfold publish at hc
  split at hc
  · exact hc
  · exact List.mem_append_left _ hc

theorem rmwInitial_calls (luck : Luck) (key : Key) (input : I) (out : O) (calls : List Call)
    (wrote : Option (Option RecordData)) :
    ∀ c ∈ (rmwInitial f luck key input out calls wrote).calls, c ∈ calls := by
  intro c hc
  unfold rmwInitial at hc
  simp only at hc
  split at hc
  · simpa using publish_calls _ _ _ _ _ _ _ _ _ _ c hc
  · exact hc

theorem rmwCopy_calls (luck : Luck) (key : Key) (input : I) (out : O) (calls : List Call)
    (d : RecordData) (hcalls : ∀ c ∈ calls, c.seen = d) :
    ∀ c ∈ (rmwCopy f luck key input out calls d).calls, c.seen = d := by
  have hmore : ∀ c ∈ calls ++ [.needCopyUpdate d], c.seen = d := by
    intro c hc
    rcases List.mem_append.mp hc with hc | hc
    · exact hcalls c hc
    · rw [List.mem_singleton.mp hc]; rfl
  intro c hc
  unfold rmwCopy at hc
  split at hc
  · exact hmore c hc
  · exact hmore c (by simpa using publish_calls _ _ _ _ _ _ _ _ _ _ c hc)
  · rcases List.mem_append.mp (publish_calls _ _ _ _ _ _ _ _ _ _ c hc) with hc | hc
    · exact hmore c hc
    · rw [List.mem_singleton.mp hc]; rfl

/-- Every record an `rmw` shows to a callback is the current one. -/
theorem rmw_calls_seen {luck : Luck} {cur : Option RecordData} {key : Key} {input : I} {out : O} :
    ∀ c ∈ (rmw f luck cur key input out).calls, cur = some c.seen := by
  intro c hc
  cases cur with
  | none => exact absurd (rmwInitial_calls f _ _ _ _ _ _ c hc) (by simp)
  | some d =>
    have hseen : c.seen = d := by
      simp only [rmw] at hc
      split at hc
      · unfold rmwInPlace at hc
        have hone : ∀ c ∈ [Call.inPlaceUpdater d], c.seen = d := by simp [Call.seen]
        split at hc
        · exact hone c hc
        · exact hone c hc
        · exact hone c (rmwInitial_calls f _ _ _ _ _ _ c hc)
        · exact hone c hc
        · exact rmwCopy_calls f _ _ _ _ _ d hone c hc
      · exact rmwCopy_calls f _ _ _ _ _ d (by simp) c hc
    rw [hseen]

end Plain

end Tsavorite
