import MiniGarnet.Tsavorite.SingleSession

/-! # What many sessions see

    Any number of sessions, with a checkpoint next to them, see one map.
    An attempt runs under the latch of its bucket and acts at once.  A
    `read` that goes to the disk has no latch any more when its answer
    comes: what it returns is what the map held at its attempt, whatever
    has been published, flushed or evicted since.

    As for `rmw`, one thing is asked of a run: no attempt comes back with
    a disk record that a newer one has overtaken and followed to the disk.
-/

namespace Tsavorite

/-! ## Section 1: Histories -/

variable {I O : Type}

/-- The event ends a `read` whose attempt is an earlier event of the session, the last one before
    it, and it shows what the map held then. -/
def Event.ReadEarlier (f : SessionFunctions I O) (h : List (Event I O)) (e : Event I O) : Prop :=
  ∃ later p earlier, h = later ++ p :: earlier ∧ (∀ x ∈ later, x.session ≠ e.session) ∧
    p.session = e.session ∧ p.req = e.req ∧ p.shown.status = none ∧ p.shown.wrote = none ∧
    e.shown.wrote = none ∧ e.Justified f (outcomeOf earlier)

theorem Event.ReadEarlier.wrote_none {f : SessionFunctions I O} {h : List (Event I O)}
    {e : Event I O} (he : e.ReadEarlier f h) : e.shown.wrote = none := by
  obtain ⟨-, -, -, -, -, -, -, -, -, hwrote, -⟩ := he
  exact hwrote

/-- Every event acts on the map at a moment of its own operation: at once, or at the attempt of
    a `read` from disk. -/
def Linearized (f : SessionFunctions I O) : List (Event I O) → Prop
  | [] => True
  | e :: h => (e.Justified f (outcomeOf h) ∨ e.ReadEarlier f h) ∧ Linearized f h

/-- The session is about to make an attempt with a source that has been overtaken. -/
def Pc.sourceOvertaken (g : Geometry) (store : Store) : Pc I → Bool
  | .entered req src _ _ => Tsavorite.overtaken g store req.key (req.source src)
  | _ => false

/-- The condition on a step: an attempt finds address space, and its source, if it uses one, has
    not been overtaken. -/
def Undisturbed (g : Geometry) (s : System I O) : Label I O → Prop
  | .attempt t => s.store.log.HasSpace g ∧ (s.sessions t).pc.sourceOvertaken g s.store = false
  | _ => True

instance (g : Geometry) (s : System I O) : (l : Label I O) → Decidable (Undisturbed g s l)
  | .attempt _ => inferInstanceAs (Decidable (_ ∧ _))
  | .start _ _ _ | .enter _ | .diskRead _ | .backoff _ | .bump | .checkpoint _ => isTrue trivial

/-! ## Section 2: The invariant -/

/-- A `read` on its way to the disk: its attempt is the last event of the session, and its key's
    record as of `latest` is what the map held before that attempt. -/
def ReadingAt (cells : List Cell) (t : ℕ) (h : List (Event I O)) : Pc I → Prop
  | .reading (.read key input) _ _ latest =>
    ∃ later p earlier, h = later ++ p :: earlier ∧ (∀ x ∈ later, x.session ≠ t) ∧
      p.session = t ∧ p.req = .read key input ∧ p.shown.status = none ∧ p.shown.wrote = none ∧
      view (upTo latest cells) key = outcomeOf earlier key
  | _ => True

structure LinearInv (g : Geometry) (f : SessionFunctions I O) (s : System I O)
    (cells : List Cell) : Prop where
  inv : SystemInv g s cells
  linearized : Linearized f s.history
  outcome : outcomeOf s.history = s.published
  reading : ∀ t, ReadingAt cells t s.history (s.sessions t).pc

section Steps

variable {g : Geometry} {f : SessionFunctions I O} {s s' : System I O} {cells cells' : List Cell}
  {t : ℕ}

theorem Undisturbed.roomy {l : Label I O} (h : Undisturbed g s l) : Roomy g s l := by
  cases l with
  | attempt t => exact h.1
  | _ => trivial

/-- Attempts of others leave alone what a `read` on its way to the disk will find. -/
theorem ReadingAt.edits {store : Store} {state : SystemState} {start : ℕ} {key : Key}
    {w : Option (Option RecordData)} {h : List (Event I O)} {pc : Pc I}
    (hread : ReadingAt cells t h pc) (hpc : PcOk g store cells pc) (hinv : StoreInv g store cells)
    (he : Edits state start store.log.readOnly (store.log.tailPos g) key cells w cells') :
    ReadingAt cells' t h pc := by
  cases pc with
  | reading req n addr latest =>
    cases req with
    | read k input =>
      obtain ⟨later, p, earlier, hsplit, hother, hp, hreq, hst, hw, hview⟩ := hread
      refine ⟨later, p, earlier, hsplit, hother, hp, hreq, hst, hw, hview ▸ ?_⟩
      have hro := hinv.log.head_le_readOnly
      have hpend : PendingAt store.log.head (store.log.tailPos g) store.index.mask cells k addr
        latest := hpc
      -- the record as of `latest` is on disk, and edits happen in memory
      have hsame := he.preserve (P := fun cells' =>
          newest (upTo latest cells') k = newest (upTo latest cells) k ∧
            ∀ c ∈ cells', c.data.key = k → c.addr ≤ latest → c.addr < store.log.head)
        (fun {_ c} htail hP => by
          have hlt : latest < c.addr := lt_of_lt_of_le hpend.latest_lt htail
          rw [upTo_cons_of_lt hlt]
          exact ⟨hP.1, cold_cons hlt hP.2⟩)
        (fun {_ a _} ha hf hP =>
          ⟨(newest_upTo_editAt hf (le_trans hro ha) hP.2).trans hP.1, cold_editAt hf hP.2⟩)
        ⟨rfl, hpend.cold⟩
      unfold view
      rw [hsame.1]
    | _ => trivial
  | _ => trivial

/-- An event of another session. -/
theorem ReadingAt.cons {h : List (Event I O)} {pc : Pc I} (hread : ReadingAt cells t h pc)
    {e : Event I O} (he : e.session ≠ t) : ReadingAt cells t (e :: h) pc := by
  cases pc with
  | reading req n addr latest =>
    cases req with
    | read k input =>
      obtain ⟨later, p, earlier, hsplit, hother, hrest⟩ := hread
      refine ⟨e :: later, p, earlier, by rw [hsplit]; rfl, ?_, hrest⟩
      intro x hx
      rcases List.mem_cons.mp hx with rfl | hx
      · exact he
      · exact hother x hx
    | _ => trivial
  | _ => trivial

/-- No attempt uses a source that is not the newest record of its key. -/
theorem AttemptStep.justified_of_undisturbed {req : Request I} {src : Option DiskSrc} {n : ℕ}
    {state : SystemState} {a : Attempt O} {e : Event I O}
    (h : AttemptStep g f s cells t s' cells' req src n state a e) (hinv : SystemInv g s cells)
    (hok : Undisturbed g s (.attempt t)) :
    e.Justified f s.published ∧ a.outcome ≠ .done .error := by
  have hsrc := hinv.sessions t
  have hnot := hok.2
  rw [h.pc] at hsrc hnot
  apply h.justified
  apply SourceAt.fresh hinv.store _ hnot
  intro r seen heq
  cases req with
  | rmw | delete => exact hsrc r seen heq
  | read | upsert => cases heq

/-- The attempt of a `read` that goes on to the disk. -/
theorem AttemptStep.readingAt {req : Request I} {src : Option DiskSrc} {n : ℕ}
    {state : SystemState} {a : Attempt O} {e : Event I O}
    (h : AttemptStep g f s cells t s' cells' req src n state a e) (hinv : LinearInv g f s cells)
    (hj : e.Justified f s.published) : ReadingAt cells' t s'.history (s'.sessions t).pc := by
  have hafter := h.after
  obtain ⟨hsession, hreq, -, hwrote⟩ := h.event
  cases hpc : (s'.sessions t).pc with
  | reading req' n' addr latest =>
    cases req' with
    | read key input =>
      rw [hpc] at hafter
      -- only `recordOnDisk` leads here
      have hout : ∃ st, a.outcome = .recordOnDisk addr latest ∧ req = .read key input ∧
          st = e.shown.status ∧ st = none := by
        cases ho : a.outcome with
        | recordOnDisk addr' latest' =>
          rw [ho] at hafter
          simp only [afterAttempt, Option.some.injEq, Prod.mk.injEq, Pc.reading.injEq] at hafter
          obtain ⟨⟨hr, -, ha, hl⟩, hst⟩ := hafter
          exact ⟨_, by rw [ha, hl], hr, rfl, hst.symm⟩
        | done st =>
          rw [ho] at hafter
          cases hafter
        | aborted x =>
          rw [ho] at hafter
          cases hafter
        | retryNow | retryLater | cprShift =>
          rw [ho] at hafter
          simp only [afterAttempt, handleRetry] at hafter
          split at hafter
          · next hgo =>
            simp only [Option.some.injEq, Prod.mk.injEq] at hafter
            rw [hafter.1] at hgo
            split at hgo
            · cases hgo
            · split at hgo <;> cases hgo
          · cases hafter
      obtain ⟨st, hout, rfl, hst, hnone⟩ := hout
      have hquiet := (hj.read_quiet hreq).2
      refine ⟨[], e, s.history, by rw [h.history]; rfl, fun x hx => absurd hx List.not_mem_nil,
        hsession, hreq, by rw [← hst, hnone], hquiet, ?_⟩
      rw [hinv.outcome, hinv.inv.published]
      cases h.outcome with
      | onDisk heq hcells _ _ hdisk =>
        rw [hout] at heq
        cases heq
        rw [hcells]
        unfold view
        rw [newest_upTo fun c hc hk => ?_]
        rw [hdisk.latest_eq, Store.chainOf, ← hk]
        exact addr_le_headAddr hinv.inv.store.over.log.desc _ hc
      | done heq | refused heq | fuzzy heq | shift heq | stale heq =>
        rw [hout] at heq
        cases heq
    | _ => trivial
  | _ => trivial

theorem LinearInv.attempt (h : LinearInv g f s cells) (hok : Undisturbed g s (.attempt t))
    (hnext : next g f s (.attempt t) = some s') : ∃ cells', LinearInv g f s' cells' := by
  obtain ⟨cells', req, src, n, state, a, e, hstep⟩ := h.inv.attempt hok.1 hnext
  obtain ⟨hj, -⟩ := hstep.justified_of_undisturbed h.inv hok
  obtain ⟨hsession, hreq, -, hwrote⟩ := hstep.event
  refine ⟨cells', hstep.systemInv h.inv, ?_, ?_, fun u => ?_⟩
  · rw [hstep.history]
    exact ⟨.inl (h.outcome ▸ hj), h.linearized⟩
  · rw [hstep.history, hstep.published, outcomeOf, h.outcome, hreq, hwrote]
  · by_cases hu : u = t
    · subst hu
      exact hstep.readingAt h hj
    · rw [hstep.others u hu, hstep.history]
      have hmine := (h.reading u).edits (h.inv.sessions u) h.inv.store hstep.reached.edits
      exact hmine.cons (by rw [hsession]; exact Ne.symm hu)

/-- Every step but an attempt and a disk read leaves the history alone. -/
theorem next_history {l : Label I O} (hattempt : l.isAttempt = false)
    (hdisk : ∀ t, l ≠ .diskRead t) (hnext : next g f s l = some s') : s'.history = s.history := by
  cases l with
  | attempt t => cases hattempt
  | diskRead t => exact absurd rfl (hdisk t)
  | start t req out | enter t | backoff t =>
    simp only [next] at hnext
    split at hnext <;> cases hnext
    rfl
  | bump =>
    cases hnext
    rfl
  | checkpoint u =>
    obtain ⟨x, -, rfl⟩ := Option.map_eq_some_iff.mp hnext
    rfl

/-- Only an attempt leads to the disk. -/
theorem next_not_reading {l : Label I O} (hattempt : l.isAttempt = false)
    (hnext : next g f s l = some s') (ht : l.session = some t) (cells : List Cell)
    (h : List (Event I O)) : ReadingAt cells t h (s'.sessions t).pc := by
  have hset : ∀ (s : System I O) (x : Session I O), ((s.setSession t x).sessions t).pc = x.pc := by
    intro s x
    simp only [System.setSession, if_true]
  cases l with
  | attempt t => cases hattempt
  | start u req out | enter u | backoff u =>
    cases ht
    simp only [next] at hnext
    split at hnext <;> cases hnext
    rw [hset]
    trivial
  | diskRead u =>
    cases ht
    simp only [next] at hnext
    split at hnext
    · split at hnext <;> cases hnext <;> rw [hset] <;> trivial
    · cases hnext
  | bump | checkpoint u => cases ht

/-- The disk read that ends a `read` shows what the map held at the attempt. -/
theorem LinearInv.diskRead (h : LinearInv g f s cells) {key : Key} {input : I}
    {n addr latest v : ℕ}
    (hpc : (s.sessions t).pc = .reading (.read key input) n addr latest) {e : Event I O}
    (he : e = ⟨t, .read key input, v, (s.sessions t).out,
      readFromDisk f key input (s.sessions t).out (findOnDisk s.store.log key (addr + 1) addr)⟩) :
    e.ReadEarlier f s.history := by
  have hpend := h.inv.sessions t
  have hread := h.reading t
  rw [hpc] at hpend hread
  obtain ⟨later, p, earlier, hsplit, hother, hp, hreq, hst, hw, hview⟩ := hread
  have hsrc := (PendingAt.findOnDisk h.inv.store.over hpend).image
  have heq := readFromDisk_eq (f := f) hsrc input (s.sessions t).out
  simp only [Request.key, hview] at heq
  have hstatus : e.shown.status ≠ some .error := by
    rw [he]
    show (readFromDisk f key input _ _).status ≠ _
    rw [heq]
    exact Plain.perform_status (f := f) ⟨true, true⟩ _ (.read key input) _
  have hj : e.Justified f (outcomeOf earlier) := by
    refine .inr ⟨⟨true, true⟩, ?_⟩
    rw [Event.attempted_eq hstatus, he]
    exact heq
  have hquiet := hj.read_quiet (congrArg Event.req he)
  refine ⟨later, p, earlier, hsplit, ?_, ?_, ?_, hst, hw, hquiet.2, hj⟩
  · rw [he]
    exact hother
  · rw [he]
    exact hp
  · rw [he]
    exact hreq

theorem LinearInv.quiet (h : LinearInv g f s cells) {l : Label I O} (hl : l.isAttempt = false)
    (hnext : next g f s l = some s') : LinearInv g f s' cells := by
  obtain ⟨hinv, hpub, hhistory⟩ := h.inv.quiet hl hnext
  have hsessions : ∀ u, ReadingAt cells u s.history (s'.sessions u).pc := by
    intro u
    by_cases hu : l.session = some u
    · exact next_not_reading hl hnext hu cells s.history
    · rw [next_sessions hnext hu]
      exact h.reading u
  by_cases hdisk : ∃ t, l = .diskRead t
  swap
  · have hsame := next_history hl (fun t heq => hdisk ⟨t, heq⟩) hnext
    refine ⟨hinv, ?_, ?_, fun u => ?_⟩
    · rw [hsame]
      exact h.linearized
    · rw [hsame, hpub]
      exact h.outcome
    · rw [hsame]
      exact hsessions u
  obtain ⟨t, rfl⟩ := hdisk
  cases hpc : (s.sessions t).pc with
  | reading req n addr latest =>
    cases req with
    | read key input =>
      simp only [next, hpc, Option.some.injEq] at hnext
      have hearlier := h.diskRead hpc (v := s.store.systemState.version) rfl
      have hwrote := hearlier.wrote_none
      refine ⟨hinv, ?_, ?_, fun u => ?_⟩
      · rw [← hnext]
        exact ⟨.inr hearlier, h.linearized⟩
      · rw [hpub, ← hnext]
        show applyWrote (outcomeOf s.history) key (readFromDisk f key input (s.sessions t).out
          (findOnDisk s.store.log key (addr + 1) addr)).wrote = _
        rw [hwrote]
        exact h.outcome
      · obtain ⟨e, hhist, he⟩ : ∃ e, s'.history = e :: s.history ∧ e.session = t :=
          ⟨_, by rw [← hnext]; rfl, rfl⟩
        by_cases hu : u = t
        · subst hu
          rw [← hnext]
          simp only [System.setSession, if_true]
          trivial
        · rw [hhist]
          exact (hsessions u).cons (by rw [he]; exact Ne.symm hu)
    | upsert | rmw | delete =>
      simp only [next, hpc, Option.some.injEq] at hnext
      have hsame : s'.history = s.history := by rw [← hnext]; rfl
      refine ⟨hinv, ?_, ?_, fun u => ?_⟩
      · rw [hsame]
        exact h.linearized
      · rw [hsame, hpub]
        exact h.outcome
      · rw [hsame]
        exact hsessions u
  | _ => simp [next, hpc] at hnext

theorem linearInv_new (buckets : ℕ) (device : Device) (out : O) :
    LinearInv g f (System.new (Store.new buckets device) out) [] where
  inv := systemInv_new buckets device out
  linearized := trivial
  outcome := rfl
  reading := fun _ => trivial

theorem linearInv_run {buckets : ℕ} {device : Device} {out : O} {ls : List (Label I O)}
    (hrun : Lts.Steps (next g f) (Undisturbed g) (System.new (Store.new buckets device) out) ls s) :
    ∃ cells, LinearInv g f s cells := by
  refine hrun.invariant (P := fun s => ∃ cells, LinearInv g f s cells) ?_
    ⟨[], linearInv_new buckets device out⟩
  rintro s s' l ⟨cells, h⟩ hok hnext
  by_cases hl : l.isAttempt = true
  · cases l with
    | attempt t => exact h.attempt hok hnext
    | _ => cases hl
  · exact ⟨cells, h.quiet (by simpa using hl) hnext⟩

/-- **Many sessions see one map.**  In every run in which no attempt comes back with an overtaken
    source, whatever the sessions, the page turns and a checkpoint do in between, every event acts
    on the map at a moment of its own operation, and the store holds what the events have made of
    each key. -/
theorem sessions_linearized {buckets : ℕ} {device : Device} {out : O} {ls : List (Label I O)}
    (hrun : Lts.Steps (next g f) (Undisturbed g) (System.new (Store.new buckets device) out) ls s) :
    Linearized f s.history ∧ ∀ key, s.store.lookup g key = outcomeOf s.history key := by
  obtain ⟨cells, h⟩ := linearInv_run hrun
  refine ⟨h.linearized, fun key => ?_⟩
  rw [h.inv.lookup_eq, h.outcome]

end Steps

namespace LostUpdate

/-- Session 1 asks for the counter and has to turn to the disk; session 2 increments it; then
    session 1 reads. -/
def readLate : List (Label ℕ Unit) :=
  evict ++ firstTry 1 (.read counterKey 0) ++
    firstTry 2 (.rmw counterKey 0) ++ [.diskRead 2, .enter 2, .attempt 2] ++ retry 2 ++ [.diskRead 1]

/-- The read has shown the counter at one, and it is at two. -/
def showsOld (s : System ℕ Unit) : Bool :=
  readOne s && decide (unaryValue (s.store.lookup geometry counterKey) = 2)

end LostUpdate

open LostUpdate (geometry start readLate showsOld counterKey) in
theorem sessions_linearized_readLate : ∃ s,
    Lts.Steps (next geometry unaryCounter) (Undisturbed geometry) start readLate s ∧
      showsOld s = true ∧ Linearized unaryCounter s.history ∧
      s.store.lookup geometry counterKey = outcomeOf s.history counterKey := by
  obtain ⟨s, hrun, hp⟩ := Lts.exists_steps (next geometry unaryCounter) (Undisturbed geometry) start
    readLate showsOld (by decide +kernel)
  obtain ⟨hlin, hmap⟩ := sessions_linearized hrun
  exact ⟨s, hrun, hp, hlin, hmap counterKey⟩

end Tsavorite
