import MiniGarnet.Tsavorite.SessionInv

/-! # Read-modify-writes by many sessions

    An `rmw` on a key that is only on disk reads its record outside any
    latch and comes back with it.  `internal_rmw` then checks that no newer
    record of the key has shown up, but it looks in memory only: a record
    that was published *and evicted* in between is missed.  As long as that
    does not happen, every `rmw` works on the newest record.
-/

namespace Tsavorite

/-! ## Section 1: The newest record of a key -/

/-- The record at `addr`, in memory or on the device. -/
def HybridLog.recordAnywhere (g : Geometry) (log : HybridLog) (addr : ℕ) : Record :=
  if log.head ≤ addr then log.recordAt g addr else (log.device.data addr).getD Record.zero

/-- Walk a chain across memory and device; the first argument bounds the walk. -/
def walkChain (g : Geometry) (log : HybridLog) (key : Key) : ℕ → ℕ → Option ℕ
  | 0, _ => none
  | n + 1, addr =>
    if FIRST_VALID_ADDRESS ≤ addr then
      let r := log.recordAnywhere g addr
      if r.data.key = key then some addr else walkChain g log key n r.info.previousAddress
    else none

/-- Where the newest record of a key is. -/
def Store.newestAddr (g : Geometry) (store : Store) (key : Key) : Option ℕ :=
  let entry := (store.index.load (keySlot store.index.mask key)).getD TEMP_INVALID_ADDRESS
  walkChain g store.log key (entry + 1) entry

/-- The body of the newest record of a key, if it is live. -/
def Store.lookup (g : Geometry) (store : Store) (key : Key) : Option RecordData :=
  (store.newestAddr g key).bind fun a =>
    let r := store.log.recordAnywhere g a
    if r.info.isTombstone then none else some r.data

section Lookup

variable {g : Geometry} {rest : ℕ → Option Record} {store : Store} {cells : List Cell}

theorem LogOver.recordAnywhere_cell {log : HybridLog} (h : LogOver g rest log cells) {c : Cell}
    (hc : c ∈ cells) : (log.recordAnywhere g c.addr).strip = c.image := by
  unfold HybridLog.recordAnywhere
  split
  · next hhead => exact (h.recordAt_cell hc hhead).2
  · next hhead =>
    have hdisk := h.pages.disk c.addr (h.first_le_addr hc)
      (lt_of_lt_of_le (by omega) h.pages.head_le)
    rw [h.image_of_mem hc] at hdisk
    obtain ⟨r, hr, hstrip⟩ := Option.map_eq_some_iff.mp hdisk
    rw [hr]
    exact hstrip

theorem walkChain_spec {log : HybridLog} {key : Key} {l : List Cell} (hlinked : Linked l)
    (hdesc : l.Pairwise fun newer older => older.addr < newer.addr)
    (hfirst : ∀ c ∈ l, FIRST_VALID_ADDRESS ≤ c.addr)
    (hread : ∀ c ∈ l, (log.recordAnywhere g c.addr).strip = c.image)
    {fuel : ℕ} (hfuel : headAddr l < fuel) :
    walkChain g log key fuel (headAddr l) = (newest l key).map Cell.addr := by
  induction l generalizing fuel with
  | nil =>
    obtain ⟨n, rfl⟩ : ∃ n, fuel = n + 1 := ⟨fuel - 1, by omega⟩
    rw [headAddr_nil, walkChain, if_neg (by decide)]
    rfl
  | cons c l ih =>
    obtain ⟨n, rfl⟩ : ∃ n, fuel = n + 1 := ⟨fuel - 1, by omega⟩
    have hc := hfirst c (by simp)
    have hstrip := hread c (by simp)
    have hk : (log.recordAnywhere g c.addr).data.key = c.data.key :=
      congrArg (fun r => r.data.key) hstrip
    have hp : (log.recordAnywhere g c.addr).info.previousAddress = c.prev :=
      congrArg (fun r => r.info.previousAddress) hstrip
    rw [List.pairwise_cons] at hdesc
    rw [headAddr_cons] at hfuel ⊢
    rw [walkChain, if_pos hc]
    simp only [hk, hp]
    rw [newest_cons]
    by_cases hkey : c.data.key = key
    · rw [if_pos hkey, if_pos hkey]
      rfl
    · rw [if_neg hkey, if_neg hkey, hlinked.1]
      refine ih hlinked.2 hdesc.2 (fun d hd => hfirst d (by simp [hd]))
        (fun d hd => hread d (by simp [hd])) ?_
      have hlt := headAddr_lt hdesc.1 hc
      omega

theorem StoreOver.newestAddr_eq (h : StoreOver g rest store cells) (key : Key) :
    store.newestAddr g key = (newest cells key).map Cell.addr := by
  have hentry : (store.index.load (keySlot store.index.mask key)).getD TEMP_INVALID_ADDRESS =
      headAddr (store.chainOf cells key) := by
    rcases h.entries (keySlot store.index.mask key) with heq | ⟨hnone, hnil⟩
    · rw [heq]; rfl
    · rw [hnone, Store.chainOf, hnil]; rfl
  have hsub := chain_subset store.index.mask (keySlot store.index.mask key) cells
  unfold Store.newestAddr
  simp only [hentry]
  rw [walkChain_spec (l := store.chainOf cells key) (h.linked _) (h.log.desc.filter _)
    (fun c hc => h.log.first_le_addr (hsub c hc))
    (fun c hc => h.log.recordAnywhere_cell (hsub c hc)) (Nat.lt_succ_self _)]
  rw [← newest_chain store.index.mask cells key]
  rfl

/-- The newest record is what the cells say it is. -/
theorem StoreOver.lookup_eq (h : StoreOver g rest store cells) (key : Key) :
    store.lookup g key = view cells key := by
  unfold Store.lookup view
  rw [h.newestAddr_eq]
  cases hn : newest cells key with
  | none => rfl
  | some c =>
    have hstrip := h.log.recordAnywhere_cell (newest_mem hn).1
    have ht : (store.log.recordAnywhere g c.addr).info.isTombstone = c.tombstone :=
      congrArg (fun r => r.info.isTombstone) hstrip
    have hd : (store.log.recordAnywhere g c.addr).data = c.data := congrArg Record.data hstrip
    simp only [Option.map_some, Option.bind_some, ht, hd]
    rfl

end Lookup

/-! ## Section 2: Sources that have been overtaken -/

/-- The newest record of the key was published after `seen` was the head of its chain, and
    has left memory since. -/
def overtaken (g : Geometry) (store : Store) (key : Key) : Option DiskSrc → Bool
  | some (_, seen) => (store.newestAddr g key).any fun a => seen < a && a < store.log.head
  | none => false

/-- Is the session about to make an `rmw` attempt with an overtaken source? -/
def Pc.overtaken {I : Type} (g : Geometry) (store : Store) : Pc I → Bool
  | .entered (.rmw key _) src _ _ => Tsavorite.overtaken g store key src
  | _ => false

/-- The condition on a step: an attempt finds address space, and an `rmw` attempt does not
    come back with a source that has been overtaken. -/
def NotOvertaken {I O : Type} (g : Geometry) (s : System I O) : Label I O → Prop
  | .attempt t => s.store.log.HasSpace g ∧ (s.sessions t).pc.overtaken g s.store = false
  | _ => True

instance {I O : Type} (g : Geometry) (s : System I O) : (l : Label I O) →
    Decidable (NotOvertaken g s l)
  | .attempt _ => inferInstanceAs (Decidable (_ ∧ _))
  | .start _ _ _ | .enter _ | .diskRead _ | .backoff _ | .bump | .checkpoint _ => isTrue trivial

section Sources

variable {I O : Type} {g : Geometry} {f : SessionFunctions I O} {s s' : System I O}
  {cells : List Cell}

theorem NotOvertaken.roomy {l : Label I O} (h : NotOvertaken g s l) : Roomy g s l := by
  cases l with
  | attempt t => exact h.1
  | _ => trivial

/-- A source that has not been overtaken is fresh whenever it is used. -/
theorem SourceAt.fresh {store : Store} {key : Key} {src : Option DiskSrc}
    (hinv : StoreInv g store cells)
    (h : ∀ r seen, src = some (r, seen) →
      SourceAt store.log.head (store.log.tailPos g) cells key r seen)
    (hnot : overtaken g store key src = false) : FreshIfUsed store cells key src := by
  intro r seen hsrc hcold
  have hsource := h r seen hsrc
  unfold FreshSrc
  rw [hsource.image]
  congr 1
  refine newest_upTo fun c hc hk => ?_
  cases hn : newest cells key with
  | none =>
    have hfind := List.find?_eq_none.mp hn c hc
    simp [hk] at hfind
  | some d =>
    have hdc := newest_le hinv.over.log.desc hn hc hk
    have hdh := hcold d hn
    rw [hsrc, overtaken, hinv.over.newestAddr_eq, hn] at hnot
    simp only [Option.map_some, Option.any_some, Bool.and_eq_false_iff, decide_eq_false_iff_not]
      at hnot
    omega

theorem AttemptStep.justified_rmw {cells' : List Cell} {t : ℕ} {req : Request I}
    {src : Option DiskSrc} {n : ℕ} {state : SystemState} {a : Attempt O} {e : Event I O}
    (h : AttemptStep g f s cells t s' cells' req src n state a e) (hinv : SystemInv g s cells)
    (hok : NotOvertaken g s (.attempt t)) {key : Key} {input : I} (hreq : req = .rmw key input) :
    e.Justified f s.published := by
  have hpc := h.pc
  subst hreq
  have hsrc := hinv.sessions t
  have hnot := hok.2
  rw [hpc] at hsrc hnot
  exact (h.justified (SourceAt.fresh hinv.store hsrc hnot)).1

end Sources

/-! ## Section 3: Counting -/

/-- Callbacks for which the input `incr` adds one to what `val` reads off a record. -/
structure Counts {I O : Type} (f : SessionFunctions I O) (key : Key) (incr : I)
    (val : Option RecordData → ℤ) : Prop where
  initial : ∀ (d : RecordData) out, val (some (d.write (f.initialUpdater key incr d out).1)) = val none + 1
  copy : ∀ old (d : RecordData) out,
    val (some (d.write (f.copyUpdater key incr old d out).1)) = val (some old) + 1
  inPlace : ∀ d out p out', f.inPlaceUpdater key incr d out = (.updated p, out') →
    val (some (d.write p)) = val (some d) + 1
  notExpired : ∀ d out, (f.inPlaceUpdater key incr d out).1 ≠ .expired
  notDeleted : ∀ d out, (f.inPlaceUpdater key incr d out).1 ≠ .delete
  notCopyDeleted : ∀ d out, (f.needCopyUpdate key incr d out).1 ≠ .delete

/-- Did the event complete an update of the key? -/
def Event.updates {I O : Type} (key : Key) (e : Event I O) : Bool :=
  e.req.key = key && e.shown.status.any Status.isUpdated

/-- What one attempt on the plain map adds. -/
inductive AddsOne {O : Type} (val : Option RecordData → ℤ) (cur : Option RecordData) (sh : Shown O) :
    Prop where
  | updated {x : Option RecordData} : sh.status.any Status.isUpdated = true → sh.wrote = some x →
      val x = val cur + 1 → AddsOne val cur sh
  | unchanged : sh.status.any Status.isUpdated = false → sh.wrote = none → AddsOne val cur sh

section Counting

variable {I O : Type} {f : SessionFunctions I O} {key : Key} {incr : I}
  {val : Option RecordData → ℤ}

theorem addsOne_publish {cur : Option RecordData} (luck : Luck) {size : RecordSizeInfo} {out : O}
    {calls fillCalls : List Call} {fill : RecordData → O → Payload × O} {status : Status}
    (hstatus : status.isUpdated = true)
    (hfill : ∀ (d : RecordData) out, val (some (d.write (fill d out).1)) = val cur + 1) :
    AddsOne val cur (Plain.publish luck key size out calls none fill false status fillCalls) := by
  unfold Plain.publish
  split
  · exact .updated (by simpa using hstatus) rfl (by simpa using hfill _ _)
  · exact .unchanged rfl rfl

theorem Counts.rmw (h : Counts f key incr val) (luck : Luck) (cur : Option RecordData) (out : O) :
    AddsOne val cur (Plain.rmw f luck cur key incr out) := by
  have hcopy : ∀ (d : RecordData) (out : O) (calls : List Call),
      AddsOne val (some d) (Plain.rmwCopy f luck key incr out calls d) := by
    intro d out calls
    unfold Plain.rmwCopy
    have hnot := h.notCopyDeleted d out
    split
    · exact .unchanged rfl rfl
    · next heq => rw [heq] at hnot; exact absurd rfl hnot
    · exact addsOne_publish luck rfl (h.copy d)
  cases cur with
  | none =>
    simp only [Plain.rmw, Plain.rmwInitial]
    split
    · exact addsOne_publish luck rfl h.initial
    · exact .unchanged rfl rfl
  | some d =>
    simp only [Plain.rmw]
    split
    · have hexp := h.notExpired d out
      have hdel := h.notDeleted d out
      unfold Plain.rmwInPlace
      split
      · next p out' heq => exact .updated rfl rfl (h.inPlace d out p out' heq)
      · exact .unchanged rfl rfl
      · next heq => rw [heq] at hexp; exact absurd rfl hexp
      · next heq => rw [heq] at hdel; exact absurd rfl hdel
      · exact hcopy _ _ _
    · exact hcopy _ _ _

theorem Event.attempted_isUpdated {I O : Type} (e : Event I O) :
    e.attempted.status.any Status.isUpdated = e.shown.status.any Status.isUpdated := by
  simp only [Event.attempted]
  cases hst : e.shown.status with
  | none => rfl
  | some st => cases st <;> rfl

/-- What an event that `m` explains adds. -/
theorem Event.Justified.addsOne (hc : Counts f key incr val) {m : Key → Option RecordData}
    {e : Event I O} (h : e.Justified f m) (hreq : e.req = .rmw key incr) :
    AddsOne val (m key) e.shown := by
  have hstatus := e.attempted_isUpdated
  have hadds : AddsOne val (m key) e.attempted := by
    rcases h with hsilent | ⟨luck, heq⟩
    · rw [hsilent]
      exact .unchanged rfl rfl
    · rw [heq, hreq]
      exact hc.rmw luck (m key) e.input
  cases hadds with
  | updated hs hw hv => exact .updated (hstatus ▸ hs) hw hv
  | unchanged hs hw => exact .unchanged (hstatus ▸ hs) hw

end Counting

/-! ## Section 4: No lost update -/

section NoLostUpdate

variable {I O : Type} {g : Geometry} {f : SessionFunctions I O} {s s' : System I O}
  {cells : List Cell}

/-- The status of an `rmw` that has replaced an existing record. -/
def Status.Replaced (st : Option Status) : Prop :=
  st = some .copyUpdated ∨ st = some .inPlaceUpdated

/-- Who replaces a record has been shown it and has written something. -/
theorem Plain.rmw_replaced {luck : Luck} {cur : Option RecordData} {key : Key} {input : I}
    {out : O} (h : Status.Replaced (Plain.rmw f luck cur key input out).status) :
    (Plain.rmw f luck cur key input out).calls ≠ [] ∧
      ∃ x, (Plain.rmw f luck cur key input out).wrote = some x := by
  have hcopy : ∀ (d : RecordData) (out : O) (calls : List Call),
      Status.Replaced (Plain.rmwCopy f luck key input out calls d).status →
      (Plain.rmwCopy f luck key input out calls d).calls ≠ [] ∧
        ∃ x, (Plain.rmwCopy f luck key input out calls d).wrote = some x := by
    intro d out calls
    unfold Plain.rmwCopy Plain.bury Plain.publish Status.Replaced
    split
    · simp
    · split <;> simp
    · split <;> simp
  have hinit : ∀ (out : O) (calls : List Call) (w : Option (Option RecordData)),
      ¬ Status.Replaced (Plain.rmwInitial f luck key input out calls w).status := by
    intro out calls w
    simp only [Plain.rmwInitial, Plain.publish, Status.Replaced]
    split
    · split <;> simp
    · simp
  cases cur with
  | none => exact absurd h (hinit _ _ _)
  | some d =>
    simp only [Plain.rmw] at h ⊢
    split at h
    · next hluck =>
      rw [if_pos hluck]
      unfold Plain.rmwInPlace at h ⊢
      split at h
      · exact ⟨by simp, _, rfl⟩
      · exact absurd h (by simp [Status.Replaced])
      · exact absurd h (hinit _ _ _)
      · exact absurd h (by simp [Status.Replaced])
      · exact hcopy _ _ _ h
    · next hluck =>
      rw [if_neg hluck]
      exact hcopy _ _ _ h

theorem SystemInv.lookup_eq (h : SystemInv g s cells) (key : Key) :
    s.store.lookup g key = s.published key := by
  rw [h.store.over.lookup_eq, h.published]

/-- A `read` neither writes nor counts as an update. -/
theorem Event.Justified.read_quiet {m : Key → Option RecordData} {e : Event I O}
    (h : e.Justified f m) {key : Key} {input : I} (hreq : e.req = .read key input) :
    e.shown.status.any Status.isUpdated = false ∧ e.shown.wrote = none := by
  have hstatus := e.attempted_isUpdated
  have hquiet : e.attempted.status.any Status.isUpdated = false ∧ e.attempted.wrote = none := by
    rcases h with hsilent | ⟨luck, heq⟩
    · rw [hsilent]
      exact ⟨rfl, rfl⟩
    · rw [heq, hreq]
      simp only [Plain.perform, Plain.read]
      split
      · exact ⟨rfl, rfl⟩
      · simp only
        split <;> exact ⟨rfl, trivial⟩
  exact ⟨hstatus ▸ hquiet.1, hquiet.2⟩

/-- What one event adds to a counter. -/
theorem AddsOne.applyWrote {m : Key → Option RecordData} {key : Key} {e : Event I O}
    {val : Option RecordData → ℤ} (hkey : e.req.key = key) (h : AddsOne val (m key) e.shown) :
    val (applyWrote m e.req.key e.shown.wrote key) =
      val (m key) + ([e].countP (Event.updates key) : ℕ) := by
  cases h with
  | updated hs hw hv => simp [hw, hkey, hv, Event.updates, hs]
  | unchanged hs hw => simp [hw, Event.updates, hs]

/-- What one step adds to a counter. -/
theorem SystemInv.step_counts (h : SystemInv g s cells) {l : Label I O} (hok : NotOvertaken g s l)
    (hnext : next g f s l = some s') :
    ∃ new, s'.history = new ++ s.history ∧ ∀ (key : Key) (incr : I) (val : Option RecordData → ℤ),
      Counts f key incr val →
      (∀ e ∈ new, e.req.key = key → e.req = .rmw key incr ∨ ∃ i, e.req = .read key i) →
      val (s'.published key) = val (s.published key) + (new.countP (Event.updates key) : ℕ) := by
  by_cases hl : l.isAttempt = true
  · cases l with
    | attempt t =>
      obtain ⟨cells', req, src, n, state, a, e, hstep⟩ := h.attempt hok.1 hnext
      obtain ⟨-, hreq, -, hwrote⟩ := hstep.event
      refine ⟨[e], hstep.history, fun key incr val hc honly => ?_⟩
      have honly := honly e (by simp)
      rw [hstep.published, ← hwrote, ← hreq]
      by_cases hkey : e.req.key = key
      · refine AddsOne.applyWrote hkey ?_
        rcases honly hkey with hrmw | ⟨i, hread⟩
        · exact (hstep.justified_rmw h hok (hreq.symm.trans hrmw)).addsOne hc hrmw
        · have hj := (hstep.justified (by
            rw [← hreq, hread]
            intro r seen hsrc
            cases hsrc)).1
          exact .unchanged (hj.read_quiet hread).1 (hj.read_quiet hread).2
      · have hother : applyWrote s.published e.req.key e.shown.wrote key = s.published key := by
          cases e.shown.wrote with
          | none => rfl
          | some x => exact Function.update_of_ne (Ne.symm hkey) _ _
        rw [hother]
        simp [Event.updates, hkey]
    | _ => cases hl
  · obtain ⟨-, hpub, hhist⟩ := h.quiet (by simpa using hl) hnext
    rcases hhist with hsame | ⟨t, k, input, n, addr, latest, version, -, heq⟩
    · exact ⟨[], hsame, fun key incr val _ _ => by simp [hpub]⟩
    · refine ⟨[_], heq, fun key incr val _ _ => ?_⟩
      rw [hpub]
      have hnot : (readFromDisk f k input (s.sessions t).out
          (findOnDisk s.store.log k (addr + 1) addr)).status.any Status.isUpdated = false := by
        unfold readFromDisk
        split
        · split
          · rfl
          · simp only
            split <;> rfl
        · rfl
      simp [Event.updates, hnot]

/-- Over a whole run a counter moves by the number of updates completed. -/
theorem run_counts {ls : List (Label I O)} (hrun : Lts.Steps (next g f) (NotOvertaken g) s ls s')
    (h : SystemInv g s cells) :
    (∃ cells', SystemInv g s' cells') ∧
    ∃ new, s'.history = new ++ s.history ∧ ∀ (key : Key) (incr : I) (val : Option RecordData → ℤ),
      Counts f key incr val →
      (∀ e ∈ new, e.req.key = key → e.req = .rmw key incr ∨ ∃ i, e.req = .read key i) →
      val (s'.published key) = val (s.published key) + (new.countP (Event.updates key) : ℕ) := by
  induction hrun generalizing cells with
  | nil s => exact ⟨⟨cells, h⟩, [], rfl, fun _ _ _ _ _ => by simp⟩
  | cons hok hnext _ ih =>
    obtain ⟨cells₁, h₁⟩ := h.step hok.roomy hnext
    obtain ⟨first, hfirst, hcount₁⟩ := h.step_counts hok hnext
    obtain ⟨hinv, rest, hrest, hcount₂⟩ := ih h₁
    refine ⟨hinv, rest ++ first, by rw [hrest, hfirst, List.append_assoc], ?_⟩
    intro key incr val hc honly
    have h₂ := hcount₂ key incr val hc fun e he => honly e (List.mem_append_left _ he)
    have h₁ := hcount₁ key incr val hc fun e he => honly e (List.mem_append_right _ he)
    rw [h₂, h₁, List.countP_append]
    push_cast
    ring

/-- The attempt that completes an update has worked on the newest record. -/
theorem SystemInv.rmw_newest (h : SystemInv g s cells) {t : ℕ}
    (hok : NotOvertaken g s (.attempt t)) (hnext : next g f s (.attempt t) = some s') :
    ∃ e, s'.history = e :: s.history ∧ ∀ (key : Key) (input : I), e.req = .rmw key input →
      Status.Replaced e.shown.status →
      (∃ luck, e.shown = Plain.rmw f luck (s.store.lookup g key) key input e.input) ∧
      e.shown.calls ≠ [] ∧ (∀ c ∈ e.shown.calls, s.store.lookup g key = some c.seen) ∧
      e.shown.wrote = some (s'.store.lookup g key) := by
  obtain ⟨cells', req, src, n, state, a, e, hstep⟩ := h.attempt hok.1 hnext
  obtain ⟨-, hreq, -, hwrote⟩ := hstep.event
  refine ⟨e, hstep.history, fun key input hrmw hstatus => ?_⟩
  have hsame : e.attempted = e.shown :=
    Event.attempted_eq (by rcases hstatus with hs | hs <;> rw [hs] <;> simp)
  have hj := hstep.justified_rmw h hok (hreq.symm.trans hrmw)
  have hshown : ∃ luck, e.shown = Plain.rmw f luck (s.store.lookup g key) key input e.input := by
    rcases hj with hsilent | ⟨luck, heq⟩
    · rw [← hsame, hsilent] at hstatus
      rcases hstatus with hs | hs <;> cases hs
    · refine ⟨luck, ?_⟩
      rw [← hsame, heq, hrmw, h.lookup_eq]
      rfl
  refine ⟨hshown, ?_⟩
  obtain ⟨luck, heq⟩ := hshown
  have hreplaced := Plain.rmw_replaced (heq ▸ hstatus)
  rw [← heq] at hreplaced
  refine ⟨hreplaced.1, ?_, ?_⟩
  · intro c hc
    rw [heq] at hc
    exact Plain.rmw_calls_seen f c hc
  · obtain ⟨x, hx⟩ := hreplaced.2
    rw [(hstep.systemInv h).lookup_eq, hstep.published, ← hreq, hrmw, ← hwrote, hx]
    simp [Request.key]

/-- **No lost update.**  In every run in which no `rmw` comes back with an overtaken source,
    an `rmw` that replaces a record has computed the new one from the newest record of the
    key at that instant; and a stretch of the run that touches a key only by increments
    (and reads) adds to it exactly the number of increments completed. -/
theorem rmw_replaces_newest {buckets : ℕ} {device : Device} {out : O}
    {before after : List (Label I O)} {s₀ s : System I O}
    (hbefore : Lts.Steps (next g f) (NotOvertaken g) (System.new (Store.new buckets device) out)
      before s₀)
    (hafter : Lts.Steps (next g f) (NotOvertaken g) s₀ after s) :
    (∀ t s', NotOvertaken g s (.attempt t) → next g f s (.attempt t) = some s' →
      ∃ e, s'.history = e :: s.history ∧ ∀ (key : Key) (input : I), e.req = .rmw key input →
        Status.Replaced e.shown.status →
        (∃ luck, e.shown = Plain.rmw f luck (s.store.lookup g key) key input e.input) ∧
        e.shown.calls ≠ [] ∧ (∀ c ∈ e.shown.calls, s.store.lookup g key = some c.seen) ∧
        e.shown.wrote = some (s'.store.lookup g key)) ∧
    ∃ new, s.history = new ++ s₀.history ∧ ∀ (key : Key) (incr : I) (val : Option RecordData → ℤ),
      Counts f key incr val →
      (∀ e ∈ new, e.req.key = key → e.req = .rmw key incr ∨ ∃ i, e.req = .read key i) →
      val (s.store.lookup g key) =
        val (s₀.store.lookup g key) + (new.countP (Event.updates key) : ℕ) := by
  obtain ⟨cells₀, hinv₀⟩ := systemInv_run (fun _ _ => NotOvertaken.roomy) hbefore
  obtain ⟨⟨cells, hinv⟩, new, hnew, hcount⟩ := run_counts hafter hinv₀
  refine ⟨fun t s' hok hnext => hinv.rmw_newest hok hnext, new, hnew, ?_⟩
  intro key incr val hc honly
  rw [hinv.lookup_eq, hinv₀.lookup_eq]
  exact hcount key incr val hc honly

end NoLostUpdate

/-! ## Section 5: The schedule that loses an update -/

/-- A counter in unary; the input of an upsert is the capacity of the value. -/
def unaryCounter : SessionFunctions ℕ Unit where
  reader := fun _ _ _ out => (true, out)
  upsertSize := fun key cap => ⟨key.length, cap, false⟩
  initialWriter := fun _ _ _ out => (⟨[], 0⟩, out)
  inPlaceWriter := fun _ _ _ out => (none, out)
  needInitialUpdate := fun _ _ out => (true, out)
  initialSize := fun key _ => ⟨key.length, 8, false⟩
  initialUpdater := fun _ _ _ out => (⟨[0], 0⟩, out)
  inPlaceUpdater := fun _ _ d out =>
    (if d.value.length < d.valueCap then .updated ⟨0 :: d.value, 0⟩ else .needCopy, out)
  needCopyUpdate := fun _ _ _ out => (.copy, out)
  copySize := fun key _ old => ⟨key.length, old.value.length + 8, false⟩
  copyUpdater := fun _ _ old _ out => (⟨0 :: old.value, 0⟩, out)
  upsertSize_keyLen := fun _ _ => rfl
  initialSize_keyLen := fun _ _ => rfl
  copySize_keyLen := fun _ _ _ => rfl

/-- The number a counter record stands for. -/
def unaryValue (d : Option RecordData) : ℤ := (d.map fun d => d.value.length).getD 0

theorem unaryCounter_counts (key : Key) (incr : ℕ) : Counts unaryCounter key incr unaryValue where
  initial := fun _ _ => rfl
  copy := fun old d out => by
    simp [unaryValue, unaryCounter, RecordData.write, RecordData.value]
  inPlace := by
    intro d out p out' h
    simp only [unaryCounter, Prod.mk.injEq] at h
    split at h
    · obtain ⟨hp, -⟩ := h
      cases hp
      simp [unaryValue, RecordData.write, RecordData.value]
    · cases h.1
  notExpired := by
    intro d out
    simp only [unaryCounter]
    split <;> simp
  notDeleted := by
    intro d out
    simp only [unaryCounter]
    split <;> simp
  notCopyDeleted := fun _ _ => by simp [unaryCounter]

namespace LostUpdate

abbrev geometry : Geometry := Geometry.twoPages 9 Geometry.nine_pageBits

def counterKey : Key := [107]

def fillerKey : Key := [102]

/-- Session `t` makes its first attempt. -/
def firstTry (t : ℕ) (req : Request ℕ) : List (Label ℕ Unit) :=
  [.start t req (), .enter t, .attempt t]

/-- Session `t` backs off and makes another attempt. -/
def retry (t : ℕ) : List (Label ℕ Unit) := [.backoff t, .enter t, .attempt t]

/-- Session 0 creates the counter and fills pages until the counter is only on disk. -/
def evict : List (Label ℕ Unit) :=
  firstTry 0 (.rmw counterKey 0) ++ firstTry 0 (.upsert fillerKey 400) ++
    firstTry 0 (.upsert fillerKey 400) ++ retry 0

/-- Session 1 starts an increment and reads the counter from disk. -/
def readCold : List (Label ℕ Unit) := firstTry 1 (.rmw counterKey 0) ++ [.diskRead 1]

/-- Session 2 increments the counter and fills pages until the new record is on disk too. -/
def overtake : List (Label ℕ Unit) :=
  firstTry 2 (.rmw counterKey 0) ++ [.diskRead 2, .enter 2, .attempt 2] ++ retry 2 ++
    firstTry 2 (.upsert fillerKey 400) ++ retry 2

/-- Session 1 goes on with what it has read; its first attempt finds no room. -/
def comeBack : List (Label ℕ Unit) := [.enter 1, .attempt 1, .backoff 1, .enter 1]

def start : System ℕ Unit := System.new (Store.new 2 Device.empty) ()

/-- The attempt of session 1 completes, working on a record that is not the newest; then
    three increments have completed and the counter reads two. -/
def losesUpdate (s : System ℕ Unit) : Bool :=
  (next geometry unaryCounter s (.attempt 1)).any fun s' =>
    (s'.history.head?.any fun e => decide (e.req = .rmw counterKey 0 ∧
      e.shown.status = some .copyUpdated ∧
      ∃ c ∈ e.shown.calls, s.store.lookup geometry counterKey ≠ some c.seen)) &&
    decide ((∀ e ∈ s'.history, e.req.key = counterKey → e.req = .rmw counterKey 0) ∧
      s'.history.countP (Event.updates counterKey) = 3 ∧
      unaryValue (s'.store.lookup geometry counterKey) = 2)

/-- The events since `s₀`. -/
def since (s₀ s : System ℕ Unit) : List (Event ℕ Unit) :=
  s.history.take (s.history.length - s₀.history.length)

/-- The attempt of session 1 completes, and is the one update since `s₀`. -/
def completes (s₀ s : System ℕ Unit) : Bool :=
  (next geometry unaryCounter s (.attempt 1)).any fun s' => decide
    (NotOvertaken geometry s (.attempt 1) ∧
      (∀ e ∈ s'.history.head?, e.req = .rmw counterKey 0 ∧
        e.shown.status = some .copyUpdated) ∧
      (∀ e ∈ since s₀ s', e.req = .rmw counterKey 0) ∧
      (since s₀ s').countP (Event.updates counterKey) = 1)

/-- An increment of a counter that is on disk, undisturbed. -/
theorem rmw_replaces_newest_cold :
    ∃ s₀ s s', Lts.Steps (next geometry unaryCounter) (NotOvertaken geometry) start evict s₀ ∧
      Lts.Steps (next geometry unaryCounter) (NotOvertaken geometry) s₀ (readCold ++ comeBack) s ∧
      next geometry unaryCounter s (.attempt 1) = some s' ∧
      (∃ e, s'.history = e :: s.history ∧ e.req = .rmw counterKey 0 ∧ e.shown.calls ≠ [] ∧
        ∀ c ∈ e.shown.calls, s.store.lookup geometry counterKey = some c.seen) ∧
      unaryValue (s'.store.lookup geometry counterKey) =
        unaryValue (s₀.store.lookup geometry counterKey) + 1 := by
  obtain ⟨s₀, hs₀, hp₀⟩ := Lts.exists_steps (next geometry unaryCounter)
    (NotOvertaken geometry) start evict
    (fun s₀ => (Lts.runChecked (next geometry unaryCounter) (NotOvertaken geometry) s₀
      (readCold ++ comeBack)).any fun s => completes s₀ s) (by decide +kernel)
  obtain ⟨s, hrun, hp⟩ := (Option.any_eq_true _ _).mp hp₀
  have hs := Lts.steps_of_runChecked hrun
  obtain ⟨s', hnext, hp'⟩ := (Option.any_eq_true _ _).mp hp
  obtain ⟨hok, hlast, honly, hone⟩ := of_decide_eq_true hp'
  refine ⟨s₀, s, s', hs₀, hs, hnext, ?_, ?_⟩
  · obtain ⟨e, he, hnewest⟩ := (rmw_replaces_newest hs₀ hs).1 1 s' hok hnext
    obtain ⟨hreq, hstatus⟩ := hlast e (by rw [he]; rfl)
    obtain ⟨-, hcalls, hseen, -⟩ := hnewest counterKey 0 hreq (.inl hstatus)
    exact ⟨e, he, hreq, hcalls, hseen⟩
  · obtain ⟨-, new, hnew, hcount⟩ := rmw_replaces_newest hs₀
      (hs.append (.cons hok hnext (.nil s')))
    have hsince : since s₀ s' = new := by
      unfold since
      rw [hnew]
      simp
    rw [hsince] at honly hone
    rw [hcount counterKey 0 unaryValue (unaryCounter_counts _ _) fun e he _ => .inl (honly e he),
      hone]
    rfl

/-- Three increments complete and the counter reads two: the last one has replaced a record
    that was not the newest any more. -/
theorem rmw_replaces_overtaken :
    ∃ s s', Lts.Runs (next geometry unaryCounter) start
        (evict ++ readCold ++ overtake ++ comeBack) s ∧
      next geometry unaryCounter s (.attempt 1) = some s' ∧
      (∃ e, s'.history.head? = some e ∧ e.req = .rmw counterKey 0 ∧
        e.shown.status = some .copyUpdated ∧
        ∃ c ∈ e.shown.calls, s.store.lookup geometry counterKey ≠ some c.seen) ∧
      (∀ e ∈ s'.history, e.req.key = counterKey → e.req = .rmw counterKey 0) ∧
      s'.history.countP (Event.updates counterKey) = 3 ∧
      unaryValue (s'.store.lookup geometry counterKey) = 2 := by
  obtain ⟨s, hs, hp⟩ := Lts.exists_runs (next geometry unaryCounter) start
    (evict ++ readCold ++ overtake ++ comeBack) losesUpdate (by decide +kernel)
  obtain ⟨s', hnext, hp'⟩ := (Option.any_eq_true _ _).mp hp
  obtain ⟨hstale, hcount⟩ := Bool.and_eq_true_iff.mp hp'
  obtain ⟨e, he, hstale⟩ := (Option.any_eq_true _ _).mp hstale
  exact ⟨s, s', hs, hnext, ⟨e, he, of_decide_eq_true hstale⟩, of_decide_eq_true hcount⟩

end LostUpdate

end Tsavorite
