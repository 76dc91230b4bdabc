import MiniGarnet.Tsavorite.SingleSession

/-! # Device reads that fail

    `find_on_disk` makes two device reads for each record it visits, and any
    of them may fail.  A failure becomes the same `None` that means that the
    key is not on disk, so the operation goes on as if the key were absent.

    An operation is run here from its call to its return while no other
    thread moves.
-/

namespace Tsavorite

/-! ## Section 1: Operations over a device that fails -/

/-- `find_on_disk`, when the device read number `i` of the operation fails if `fails i`. -/
def findOnDiskFaulty (fails : ℕ → Bool) (log : HybridLog) (key : Key) : ℕ → ℕ → ℕ → Option Record
  | 0, _, _ => none
  | n + 1, i, addr =>
    if log.beginAddress ≤ addr ∧ FIRST_VALID_ADDRESS ≤ addr then do
      -- the header, then the whole record
      let r ← if fails i || fails (i + 1) then none else log.readRecordFromDisk addr
      let r := { r with info := r.info.clearSealed }
      if r.data.key = key then return r
      else findOnDiskFaulty fails log key n (i + 2) r.info.previousAddress
    else none

/-- How many device reads it takes to come to the end of the search. -/
def neededReads (log : HybridLog) (key : Key) : ℕ → ℕ → ℕ
  | 0, _ => 0
  | n + 1, addr =>
    if log.beginAddress ≤ addr ∧ FIRST_VALID_ADDRESS ≤ addr then
      match log.readRecordFromDisk addr with
      | none => 2
      | some r =>
        if r.data.key = key then 2 else 2 + neededReads log key n r.info.previousAddress
    else 0

/-- What an operation returns with. -/
structure Returned (O : Type) where
  status : Status
  store : Store
  out : O

variable {I O : Type} (g : Geometry) (f : SessionFunctions I O)

/-- An operation from its call to its return: `none` if it panics.  The first number bounds
    the attempts. -/
def operate (fails : ℕ → Bool) (req : Request I) :
    ℕ → Store → Option DiskSrc → ℕ → O → Option (Returned O)
  | 0, _, _, _, _ => none
  | n + 1, store, src, retries, out =>
    let a := attempt g f (store.protect 0) store.systemState req src out
    let store := a.store.unprotect 0
    match a.outcome with
    | .recordOnDisk addr latest =>
      let r := findOnDiskFaulty fails store.log req.key (addr + 1) 0 addr
      match req with
      | .read key input =>
        let shown := readFromDisk f key input a.out r
        shown.status.map fun status => ⟨status, store, shown.out⟩
      | _ => operate fails req n store (some (r, latest)) retries a.out
    | outcome =>
      match afterAttempt req src retries outcome with
      | some (_, some status) => some ⟨status, store, a.out⟩
      | some (.backoff _ _ retries, none) =>
        operate fails req n (store.bumpCurrentEpoch g) src retries a.out
      | some (.ready _ _ retries, none) => operate fails req n store src retries a.out
      | _ => none

/-- Where the search on disk for a key that is not in memory begins. -/
def Store.diskStart (store : Store) (key : Key) : ℕ :=
  let entry := (store.index.load (keySlot store.index.mask key)).getD 0
  match traceBack g store.log key store.log.head (entry + 1) entry with
  | .found addr | .stopped addr => addr

/-- Does a read fail that the search for the key needs? -/
def NeededReadFails (fails : ℕ → Bool) (store : Store) (key : Key) : Prop :=
  ∃ i < neededReads store.log key (store.diskStart g key + 1) (store.diskStart g key),
    fails i = true

instance (fails : ℕ → Bool) (store : Store) (key : Key) :
    Decidable (NeededReadFails g fails store key) :=
  inferInstanceAs (Decidable (∃ i < _, _))

/-! ## Section 2: The search -/

section Search

variable {fails : ℕ → Bool} {log : HybridLog} {key : Key}

theorem findOnDiskFaulty_none (n i addr : ℕ)
    (h : ∃ j < neededReads log key n addr, fails (i + j) = true) :
    findOnDiskFaulty fails log key n i addr = none := by
  induction n generalizing i addr with
  | zero => rfl
  | succ n ih =>
    obtain ⟨j, hj, hfail⟩ := h
    rw [neededReads] at hj
    rw [findOnDiskFaulty]
    split
    · rename_i hin
      rw [if_pos hin] at hj
      by_cases hnow : (fails i || fails (i + 1)) = true
      · rw [if_pos hnow]
        rfl
      · -- the failing read is not one of the first two
        rw [if_neg hnow]
        have hlate : 2 ≤ j := by
          rcases j with _ | _ | j
          · exact absurd (by simp [show fails i = true from hfail]) hnow
          · exact absurd (by simp [show fails (i + 1) = true from hfail]) hnow
          · omega
        cases hread : log.readRecordFromDisk addr with
        | none => rfl
        | some r =>
          rw [hread] at hj
          simp only at hj
          split at hj
          · omega
          · rename_i hkey
            have hrest := ih (i + 2) r.info.previousAddress
              ⟨j - 2, by omega, by rw [show i + 2 + (j - 2) = i + j by omega]; exact hfail⟩
            simp only [Option.bind_eq_bind, Option.bind_some]
            rw [if_neg hkey]
            exact hrest
    · rfl

theorem findOnDiskFaulty_eq (n i addr : ℕ)
    (h : ∀ j < neededReads log key n addr, fails (i + j) = false) :
    findOnDiskFaulty fails log key n i addr = findOnDisk log key n addr := by
  induction n generalizing i addr with
  | zero => rfl
  | succ n ih =>
    rw [findOnDiskFaulty, findOnDisk]
    rw [neededReads] at h
    split
    · rename_i hin
      rw [if_pos hin] at h
      have hnow : (fails i || fails (i + 1)) = false := by
        have h₀ := h 0
        have h₁ := h 1
        cases hread : log.readRecordFromDisk addr with
        | none =>
          rw [hread] at h₀ h₁
          simp only [Nat.add_zero] at h₀ h₁
          rw [h₀ (by omega), h₁ (by omega)]
          rfl
        | some r =>
          rw [hread] at h₀ h₁
          simp only [Nat.add_zero] at h₀ h₁
          rw [h₀ (by split <;> omega), h₁ (by split <;> omega)]
          rfl
      rw [hnow]
      cases hread : log.readRecordFromDisk addr with
      | none => rfl
      | some r =>
        rw [hread] at h
        simp only at h
        simp only [Bool.false_eq_true, if_false, Option.bind_eq_bind, Option.bind_some]
        split
        · rfl
        · rename_i hkey
          have hkey' : ¬ r.data.key = key := hkey
          rw [if_neg hkey'] at h
          apply ih
          intro j hj
          rw [show i + 2 + j = i + (2 + j) by omega]
          exact h (2 + j) (Nat.add_lt_add_left hj 2)
    · rfl

end Search

/-! ## Section 3: Keys on disk -/

/-- A well-formed store that nobody is using. -/
structure AtRest (g : Geometry) (store : Store) : Prop where
  inv : ∃ cells, StoreInv g store cells
  due : Due g store.log
  nobody : store.log.epoch.table = []

/-- Between two operations of a single session the store is at rest. -/
theorem SoleInv.atRest {g : Geometry} {f : SessionFunctions I O} {s : System I O}
    {cells : List Cell} (h : SoleInv g f s cells) (hidle : (s.sessions 0).pc.isEntered = false) :
    AtRest g s.store :=
  ⟨⟨cells, h.inv.store⟩, h.due, h.unprotected hidle⟩

/-- The operations that look for their key on disk. -/
def Request.readsDisk : Request I → Bool
  | .upsert _ _ => false
  | .read _ _ | .rmw _ _ | .delete _ => true

section Cold

variable {g : Geometry} {f : SessionFunctions I O} {store : Store} {cells : List Cell} {key : Key}
  {c : Cell} {state : SystemState} {out : O}

/-- The in-memory part of a search whose record is on disk. -/
structure ColdSearch (g : Geometry) (store : Store) (cells : List Cell) (key : Key) : Prop where
  load : store.index.load (keySlot store.index.mask key) =
    some (headAddr (store.chainOf cells key))
  trace : traceBack g store.log key store.log.head (headAddr (store.chainOf cells key) + 1)
    (headAddr (store.chainOf cells key)) = .stopped (store.diskStart g key)
  continues : continuesOnDisk store.log (store.diskStart g key) = true

theorem StoreInv.coldSearch (h : StoreInv g store cells) (hc : newest cells key = some c)
    (hcold : c.addr < store.log.head) : ColdSearch g store cells key := by
  have hload : store.index.load (keySlot store.index.mask key) =
      some (headAddr (store.chainOf cells key)) := by
    rcases h.entries (keySlot store.index.mask key) with heq | ⟨hnone, -⟩
    · exact heq
    · rw [h.over.newest_of_unclaimed hnone] at hc
      cases hc
  have hsearch := h.over.search key (le_refl store.log.head)
  generalize htrace : traceBack g store.log key store.log.head
    (headAddr (store.chainOf cells key) + 1) (headAddr (store.chainOf cells key)) = tr at hsearch
  cases hsearch with
  | @found d hd hle =>
    rw [hc] at hd
    cases hd
    omega
  | @stopped below hsuf hnew hlt =>
    have hstart : store.diskStart g key = headAddr below := by
      unfold Store.diskStart
      simp only [hload, Option.getD_some, htrace]
    refine ⟨hload, by rw [htrace, hstart], ?_⟩
    rw [hstart, h.over.continuesOnDisk hsuf]
    rintro rfl
    rw [hnew] at hc
    cases hc

theorem ColdSearch.findTag (h : ColdSearch g store cells key) :
    store.index.findTag (hash64 key) = some (keySlot store.index.mask key) := by
  rcases store.index.findTag_spec (hash64 key) with ⟨-, hload⟩ | ⟨latest, hfind, -⟩
  · rw [HashIndex.slotOf_hash64, h.load] at hload
    cases hload
  · rw [hfind, HashIndex.slotOf_hash64]

theorem ColdSearch.findOrCreateTag (h : ColdSearch g store cells key) :
    store.index.findOrCreateTag (hash64 key) = some (store.index, keySlot store.index.mask key) := by
  unfold HashIndex.findOrCreateTag
  simp only [HashIndex.slotOf_hash64, h.load, Option.isSome_some, if_true]

/-- The first attempt finds out that the record is on disk. -/
theorem ColdSearch.attempt {req : Request I} (h : ColdSearch g store cells req.key)
    (hreq : req.readsDisk = true) :
    attempt g f store state req none out =
      ⟨.recordOnDisk (store.diskStart g req.key) (headAddr (store.chainOf cells req.key)), store,
        out, [], none⟩ := by
  cases req with
  | upsert key input => cases hreq
  | read key input =>
    have h : ColdSearch g store cells key := h
    simp only [Tsavorite.attempt, internalRead, h.findTag, h.load, Option.getD_some, h.trace,
      h.continues, if_true]
    rfl
  | rmw key input =>
    have h : ColdSearch g store cells key := h
    simp only [Tsavorite.attempt, internalRmw, h.findOrCreateTag, h.load, Option.getD_some, h.trace,
      h.continues, if_true]
    rfl
  | delete key =>
    have h : ColdSearch g store cells key := h
    simp only [Tsavorite.attempt, internalDelete, h.findTag, h.load, Option.getD_some, h.trace,
      h.continues, if_true, Option.map_none]
    rfl

theorem sourceStillLatest_self (log : HybridLog) (key : Key) (latest : ℕ) :
    sourceStillLatest g log key latest latest = true := by
  simp [sourceStillLatest]

/-- The second attempt of a delete for which the device has returned nothing. -/
theorem ColdSearch.delete_absent (h : ColdSearch g store cells key) :
    Tsavorite.attempt g f store state (.delete key)
        (some (none, headAddr (store.chainOf cells key))) out =
      ⟨.done .notFound, store, out, [], none⟩ := by
  simp only [Tsavorite.attempt, internalDelete, h.findTag, h.load, Option.getD_some, h.trace,
    h.continues, if_true, Option.map_some, sourceStillLatest_self, existsOnDisk, Option.any_none,
    Bool.false_eq_true, if_false]

/-- The second attempt of an rmw for which the device has returned nothing: the record that is
    there is not looked at. -/
theorem ColdSearch.rmw_absent (h : ColdSearch g store cells key) (input : I) :
    Tsavorite.attempt g f store state (.rmw key input)
        (some (none, headAddr (store.chainOf cells key))) out =
      rmwInitial g f store state (keySlot store.index.mask key)
        (headAddr (store.chainOf cells key)) key input out [] none := by
  simp only [Tsavorite.attempt, internalRmw, h.findOrCreateTag, h.load, Option.getD_some, h.trace,
    h.continues, if_true, sourceStillLatest_self]

theorem traceBack_setEpoch (log : HybridLog) (e : LightEpoch DrainAction) (key : Key)
    (min n addr : ℕ) :
    traceBack g { log with epoch := e } key min n addr = traceBack g log key min n addr := by
  induction n generalizing addr with
  | zero => rfl
  | succ n ih =>
    rw [traceBack, traceBack]
    simp only [ih]
    rfl

theorem diskStart_protect (store : Store) (key : Key) :
    (store.protect 0).diskStart g key = store.diskStart g key := by
  unfold Store.diskStart Store.protect
  simp only [traceBack_setEpoch]

theorem unprotect_protect (h : store.log.epoch.table = []) :
    (store.protect 0).unprotect 0 = store := by
  have htable : (((0, store.log.epoch.current) ::
      (store.log.epoch.table.filter fun x => x.1 ≠ 0)).filter fun x => x.1 ≠ 0) =
      store.log.epoch.table := by
    rw [h]
    rfl
  unfold Store.unprotect Store.protect LightEpoch.unprotect LightEpoch.protect
  simp only [LightEpoch.unprotect]
  rw [htable]

/-- Up to the return of `find_on_disk`. -/
theorem StoreInv.operate_cold (h : StoreInv g store cells) (hnobody : store.log.epoch.table = [])
    {req : Request I} (hreq : req.readsDisk = true) (hc : newest cells req.key = some c)
    (hcold : c.addr < store.log.head) (fails : ℕ → Bool) (n : ℕ) :
    operate g f fails req (n + 1) store none 0 out =
      let r := findOnDiskFaulty fails store.log req.key (store.diskStart g req.key + 1) 0
        (store.diskStart g req.key)
      match req with
      | .read key input =>
        let shown := readFromDisk f key input out r
        shown.status.map fun status => ⟨status, store, shown.out⟩
      | _ =>
        operate g f fails req n store (some (r, headAddr (store.chainOf cells req.key))) 0 out := by
  have hsearch : ColdSearch g (store.protect 0) cells req.key := (h.protect 0).coldSearch hc hcold
  have hattempt := @ColdSearch.attempt I O g f _ _ store.systemState out _ hsearch hreq
  rw [operate]
  simp only [hattempt, unprotect_protect hnobody, diskStart_protect]
  cases req <;> rfl

/-- `rmw_initial` on a key that is there. -/
inductive InitialSpec (g : Geometry) (f : SessionFunctions I O) (store : Store) (cells : List Cell)
    (key : Key) (input : I) (a : Attempt O) : Prop where
  | done {s : Status} : s = .notFound ∨ s = .created → a.outcome = .done s →
      InitialSpec g f store cells key input a
  | refused : a.outcome = .retryLater → StoreInv g a.store cells →
      Advanced g store.log a.store.log → Refused g store.log a.store.log →
      a.store.index = store.index → InitialSpec g f store cells key input a
  | tooLarge : g.pageSize < (f.initialSize key input).totalSize + PAGE_HEADER_SIZE →
      a.outcome = .aborted .recordLargerThanPage → InitialSpec g f store cells key input a

theorem StoreInv.rmwInitial_spec (h : StoreInv g store cells) (hspace : store.log.HasSpace g)
    {entry : ℕ} (hload : store.index.load (keySlot store.index.mask key) = some entry) (input : I) :
    InitialSpec g f store cells key input
      (rmwInitial g f store state (keySlot store.index.mask key) entry key input out [] none) := by
  unfold rmwInitial
  simp only
  split
  · have hpublish := @publish_spec g _ store cells O h.over hspace state key (f.initialSize key input)
      (f.initialSize_keyLen key input) entry hload (f.needInitialUpdate key input out).2 [] none
      (f.initialUpdater key input) false none .created [] nofun
    generalize publish g store state (keySlot store.index.mask key) entry key
      (f.initialSize key input) (f.needInitialUpdate key input out).2 [] none
      (f.initialUpdater key input) false none .created [] = a at hpublish
    cases hpublish with
    | done _ _ _ _ _ _ _ _ _ => exact .done (.inr rfl) rfl
    | retryLater hinv hadv href => exact .refused rfl hinv.inv hadv href rfl
    | tooLarge hbig => exact .tooLarge hbig rfl
  · exact .done (.inl rfl) rfl

/-- What an rmw comes to for which the device has returned nothing. -/
def ActsAbsent (g : Geometry) (f : SessionFunctions I O) (key : Key) (input : I)
    (result : Option (Returned O)) : Prop :=
  (∃ r, result = some r ∧ (r.status = .notFound ∨ r.status = .created)) ∨
  (g.pageSize < (f.initialSize key input).totalSize + PAGE_HEADER_SIZE ∧ result = none)

/-- Where the loop of such an rmw stands after `n` back-offs. -/
structure Looping (g : Geometry) (store : Store) (cells : List Cell) (key : Key) (n : ℕ) :
    Prop where
  inv : StoreInv g store cells
  due : Due g store.log
  nobody : store.log.epoch.table = []
  space : store.log.HasSpace g
  cold : ∃ c, newest cells key = some c ∧ c.addr < store.log.head
  waits : Waits g store.log n

/-- A back-off of the loop. -/
theorem Looping.backoff {n : ℕ} (h : Looping g store cells key n) {store' : Store}
    (hinv : StoreInv g store' cells) (hadv : Advanced g (store.protect 0).log store'.log)
    (href : Refused g (store.protect 0).log store'.log) :
    n < 3 ∧ Looping g ((store'.unprotect 0).bumpCurrentEpoch g) cells key (n + 1) := by
  have hback : BacksOff g store'.log (n + 1) :=
    (h.waits.setEpoch _).refused (h.inv.protect 0).log href
  have hback' : BacksOff g (store'.unprotect 0).log (n + 1) :=
    ⟨hback.pos, hback.le, hback.shifted, hback.head⟩
  have hinv' := hinv.unprotect 0
  have hdue : Due g (store'.unprotect 0).log := (hadv.due (h.due.setTable _)).setTable _
  have hnobody : (store'.unprotect 0).log.epoch.table = [] := by
    show store'.log.epoch.table.filter (fun x => x.1 ≠ 0) = []
    rw [hadv.table]
    show ((0, store.log.epoch.current) ::
      (store.log.epoch.table.filter fun x => x.1 ≠ 0)).filter (fun x => x.1 ≠ 0) = []
    rw [h.nobody]
    rfl
  have hdr := bumpCurrentEpoch_drained g (store'.unprotect 0).log
  have htail : ((store'.unprotect 0).bumpCurrentEpoch g).log.tailPage = store.log.tailPage := by
    rw [show ((store'.unprotect 0).bumpCurrentEpoch g).log.tailPage = _ from
      tailPage_of_tail_eq hdr.tail]
    exact (href.spec h.inv.log.tailPage_lt).1
  have hle := hback.le
  obtain ⟨c, hc, hcold⟩ := h.cold
  refine ⟨by omega, hinv'.bumpCurrentEpoch, hdue.bumpCurrentEpoch hinv'.log.pages,
    hdr.table.trans hnobody, ?_, ⟨c, hc, ?_⟩, hback'.bump hinv'.log hdue hnobody⟩
  · have hspace := h.space
    unfold HybridLog.HasSpace at hspace ⊢
    rw [htail]
    exact hspace
  · have hhead : store.log.head ≤ store'.log.head := hadv.head
    rw [show ((store'.unprotect 0).bumpCurrentEpoch g).log.head = _ from hdr.head]
    exact lt_of_lt_of_le hcold hhead

/-- One round of the loop. -/
theorem Looping.round {n : ℕ} (h : Looping g store cells key n) (fails : ℕ → Bool) (input : I)
    (fuel : ℕ) (out : O) :
    ActsAbsent g f key input (operate g f fails (.rmw key input) (fuel + 1) store
      (some (none, headAddr (store.chainOf cells key))) n out) ∨
    n < 3 ∧ ∃ store' out', Looping g store' cells key (n + 1) ∧
      operate g f fails (.rmw key input) (fuel + 1) store
        (some (none, headAddr (store.chainOf cells key))) n out =
      operate g f fails (.rmw key input) fuel store'
        (some (none, headAddr (store'.chainOf cells key))) (n + 1) out' := by
  obtain ⟨c, hc, hcold⟩ := h.cold
  have hinv := h.inv.protect 0
  have hsearch : ColdSearch g (store.protect 0) cells key := hinv.coldSearch hc hcold
  have hattempt := @ColdSearch.rmw_absent I O g f _ _ _ store.systemState out hsearch input
  have hspec := @StoreInv.rmwInitial_spec I O g f _ _ _ store.systemState out hinv h.space _
    hsearch.load input
  rw [← hattempt] at hspec
  have hchain : (store.protect 0).chainOf cells key = store.chainOf cells key := rfl
  rw [hchain] at hspec
  rw [operate]
  generalize Tsavorite.attempt g f (store.protect 0) store.systemState (.rmw key input)
    (some (none, headAddr (store.chainOf cells key))) out = a at hspec
  cases hspec with
  | done hs hout =>
    simp only [hout, afterAttempt]
    exact .inl (.inl ⟨_, rfl, hs⟩)
  | tooLarge hbig hout =>
    simp only [hout, afterAttempt]
    exact .inl (.inr ⟨hbig, rfl⟩)
  | refused hout hinv' hadv href hindex =>
    obtain ⟨hn, hloop⟩ := h.backoff hinv' hadv href
    have hmore : ¬ MAX_RETRIES < n + 1 := by
      unfold MAX_RETRIES
      omega
    refine .inr ⟨hn, _, a.out, hloop, ?_⟩
    have hsame : Store.chainOf ((a.store.unprotect 0).bumpCurrentEpoch g) cells key =
        store.chainOf cells key := by
      show chain a.store.index.mask (keySlot a.store.index.mask key) cells = _
      rw [hindex]
      rfl
    simp only [hout, afterAttempt, handleRetry, if_neg hmore, if_true, hsame]

/-- The loop of an rmw for which the device has returned nothing; the induction is on the
    back-offs that are left until there is room. -/
theorem operate_absent (fails : ℕ → Bool) (input : I) (k : ℕ) :
    ∀ {n fuel : ℕ} {store : Store} {out : O}, n + k = 3 → k < fuel →
      Looping g store cells key n →
      ActsAbsent g f key input (operate g f fails (.rmw key input) fuel store
        (some (none, headAddr (store.chainOf cells key))) n out) := by
  induction k with
  | zero =>
    intro n fuel store out hn hfuel h
    obtain ⟨m, rfl⟩ : ∃ m, fuel = m + 1 := ⟨fuel - 1, by omega⟩
    rcases h.round fails input m out with hdone | ⟨hlt, -⟩
    · exact hdone
    · omega
  | succ k ih =>
    intro n fuel store out hn hfuel h
    obtain ⟨m, rfl⟩ : ∃ m, fuel = m + 1 := ⟨fuel - 1, by omega⟩
    rcases h.round fails input m out with hdone | ⟨-, store', out', h', heq⟩
    · exact hdone
    · rw [heq]
      exact ih (by omega) (by omega) h'

end Cold

/-! ## Section 4: Failures -/

/-- What an operation comes to when it takes its key to be absent. -/
def TakesAsAbsent (g : Geometry) (f : SessionFunctions I O) (req : Request I) (store : Store)
    (out : O) (result : Option (Returned O)) : Prop :=
  match req with
  | .rmw key input => ActsAbsent g f key input result
  | _ => result = some ⟨.notFound, store, out⟩

/-- The operation reports the failure and leaves the key alone. -/
def ReportsFailure (g : Geometry) (store : Store) (key : Key) (result : Option (Returned O)) :
    Prop :=
  ∃ r, result = some r ∧ r.status = .error ∧ r.store.lookup g key = store.lookup g key

theorem TakesAsAbsent.not_reports {g : Geometry} {f : SessionFunctions I O} {req : Request I}
    {store : Store} {out : O} {result : Option (Returned O)}
    (h : TakesAsAbsent g f req store out result) :
    ¬ ReportsFailure g store req.key result := by
  rintro ⟨r, rfl, herror, -⟩
  cases req with
  | rmw key input =>
    rcases h with ⟨r', hr', hstatus⟩ | ⟨-, hnone⟩
    · cases hr'
      rw [herror] at hstatus
      rcases hstatus with hbad | hbad <;> cases hbad
    · cases hnone
  | read key input =>
    obtain rfl := Option.some.inj h
    cases herror
  | upsert key input =>
    obtain rfl := Option.some.inj h
    cases herror
  | delete key =>
    obtain rfl := Option.some.inj h
    cases herror

section Failures

variable {g : Geometry} {f : SessionFunctions I O} {store : Store} {req : Request I} {a : ℕ}
  {fails : ℕ → Bool} {out : O} {fuel : ℕ}

/-- With a needed read failing, the operation takes the key to be absent. -/
theorem operate_fails (h : AtRest g store) (hspace : store.log.HasSpace g)
    (hreq : req.readsDisk = true) (hnewest : store.newestAddr g req.key = some a)
    (hdisk : a < store.log.head) (hfuel : 5 ≤ fuel) (hfails : NeededReadFails g fails store req.key) :
    TakesAsAbsent g f req store out (operate g f fails req fuel store none 0 out) := by
  obtain ⟨cells, hinv⟩ := h.inv
  rw [hinv.over.newestAddr_eq] at hnewest
  obtain ⟨c, hc, rfl⟩ := Option.map_eq_some_iff.mp hnewest
  obtain ⟨m, rfl⟩ : ∃ m, fuel = m + 1 := ⟨fuel - 1, by omega⟩
  have hnone : findOnDiskFaulty fails store.log req.key (store.diskStart g req.key + 1) 0
      (store.diskStart g req.key) = none := by
    apply findOnDiskFaulty_none
    obtain ⟨i, hi, hfail⟩ := hfails
    exact ⟨i, hi, by rw [Nat.zero_add]; exact hfail⟩
  rw [hinv.operate_cold h.nobody hreq hc hdisk fails m]
  simp only [hnone]
  cases req with
  | upsert key input => cases hreq
  | read key input => rfl
  | rmw key input =>
    have hloop : Looping g store cells key 0 :=
      ⟨hinv, h.due, h.nobody, hspace, ⟨c, hc, hdisk⟩, waits_zero g _⟩
    exact operate_absent fails input 3 rfl (by omega) hloop
  | delete key =>
    obtain ⟨m, rfl⟩ : ∃ n, m = n + 1 := ⟨m - 1, by omega⟩
    have hsearch : ColdSearch g (store.protect 0) cells key := (hinv.protect 0).coldSearch hc hdisk
    have hattempt := @ColdSearch.delete_absent I O g f _ _ _ store.systemState out hsearch
    simp only [operate]
    rw [show headAddr (store.chainOf cells (Request.delete key : Request I).key) =
      headAddr ((store.protect 0).chainOf cells key) from rfl, hattempt]
    simp only [afterAttempt, unprotect_protect h.nobody]
    rfl

/-- **Device read failures.**  A failed read is reported on no input: the claim of an
    operation on a key that is on disk, that it reports a needed read that fails and leaves the
    key alone, is met only where no needed read fails.  When one does, the operation goes on as
    if the key were absent. -/
theorem device_failure_reported_iff (h : AtRest g store) (hspace : store.log.HasSpace g)
    (hreq : req.readsDisk = true) (hnewest : store.newestAddr g req.key = some a)
    (hdisk : a < store.log.head) (hfuel : 5 ≤ fuel) (fails : ℕ → Bool) (out : O) :
    ((NeededReadFails g fails store req.key → ReportsFailure g store req.key
        (operate g f fails req fuel store none 0 out)) ↔
      ¬ NeededReadFails g fails store req.key) ∧
    (NeededReadFails g fails store req.key →
      TakesAsAbsent g f req store out (operate g f fails req fuel store none 0 out)) := by
  refine ⟨⟨?_, ?_⟩, operate_fails h hspace hreq hnewest hdisk hfuel⟩
  · intro hreports hfails
    exact (operate_fails h hspace hreq hnewest hdisk hfuel hfails).not_reports (hreports hfails)
  · intro hno hfails
    exact absurd hfails hno

end Failures

namespace LostUpdate

/-- The counter is on disk. -/
def counterCold (s : System ℕ Unit) : Bool :=
  decide ((s.sessions 0).pc.isEntered = false ∧ s.store.log.HasSpace geometry) &&
    (s.store.newestAddr geometry counterKey).any fun a => decide (a < s.store.log.head)

/-- The counter, on disk, is incremented while the device fails. -/
theorem device_failure_reported_iff_counter :
    ∃ s, Lts.Steps (next geometry unaryCounter) (Sole geometry) start evict s ∧
      (NeededReadFails geometry (fun i => i = 1) s.store counterKey ∧
        TakesAsAbsent geometry unaryCounter (.rmw counterKey 0) s.store ()
          (operate geometry unaryCounter (fun i => i = 1) (.rmw counterKey 0) 5 s.store none 0 ())) ∧
      ((NeededReadFails geometry (fun i => i = 2) s.store counterKey →
          ReportsFailure geometry s.store counterKey
            (operate geometry unaryCounter (fun i => i = 2) (.rmw counterKey 0) 5 s.store none 0 ()))
        ↔ ¬ NeededReadFails geometry (fun i => i = 2) s.store counterKey) := by
  obtain ⟨s, hrun, hp⟩ := Lts.exists_steps (next geometry unaryCounter) (Sole geometry) start evict
    (fun s => counterCold s && decide (NeededReadFails geometry (fun i => i = 1) s.store counterKey))
    (by decide +kernel)
  obtain ⟨hcold, hfails⟩ := Bool.and_eq_true_iff.mp hp
  obtain ⟨hrest, hnewest⟩ := Bool.and_eq_true_iff.mp hcold
  obtain ⟨hidle, hspace⟩ := of_decide_eq_true hrest
  obtain ⟨a, ha, hdisk⟩ := (Option.any_eq_true _ _).mp hnewest
  obtain ⟨cells, hinv⟩ := soleInv_run hrun
  have hiff := @device_failure_reported_iff _ _ _ unaryCounter _ (.rmw counterKey 0) _ 5
    (hinv.atRest hidle) hspace rfl ha (of_decide_eq_true hdisk) (le_refl _)
  exact ⟨s, hrun, ⟨of_decide_eq_true hfails, (hiff _ ()).2 (of_decide_eq_true hfails)⟩,
    (hiff _ ()).1⟩

/-- What the failing increment leaves: a counter created anew, so the old count is lost. -/
def createsAnew (s : System ℕ Unit) : Bool :=
  decide (NeededReadFails geometry (fun _ => true) s.store counterKey) &&
    (operate geometry unaryCounter (fun _ => true) (.rmw counterKey 0) 5 s.store none 0 ()).any
      fun r => decide (r.status = .created ∧
        unaryValue (s.store.lookup geometry counterKey) = 2 ∧
        unaryValue (r.store.lookup geometry counterKey) = 1)

/-- Two increments, and fillers until the counter is on disk. -/
def evictTwo : List (Label ℕ Unit) := firstTry 0 (.rmw counterKey 0) ++ evict

/-- An increment of a counter that is on disk and stands at two: the read fails, the operation
    reports `Created`, and the counter stands at one. -/
theorem failed_read_creates_anew :
    ∃ s, Lts.Runs (next geometry unaryCounter) start evictTwo s ∧
      (∃ a, s.store.newestAddr geometry counterKey = some a ∧ a < s.store.log.head) ∧
      NeededReadFails geometry (fun _ => true) s.store counterKey ∧
      ∃ r, operate geometry unaryCounter (fun _ => true) (.rmw counterKey 0) 5 s.store none 0 () =
          some r ∧ r.status = .created ∧
        unaryValue (s.store.lookup geometry counterKey) = 2 ∧
        unaryValue (r.store.lookup geometry counterKey) = 1 := by
  obtain ⟨s, hrun, hp⟩ := Lts.exists_runs (next geometry unaryCounter) start evictTwo
    (fun s => counterCold s && createsAnew s) (by decide +kernel)
  obtain ⟨hcold, hanew⟩ := Bool.and_eq_true_iff.mp hp
  obtain ⟨-, hnewest⟩ := Bool.and_eq_true_iff.mp hcold
  obtain ⟨a, ha, hdisk⟩ := (Option.any_eq_true _ _).mp hnewest
  obtain ⟨hfails, hany⟩ := Bool.and_eq_true_iff.mp hanew
  obtain ⟨r, hr, hvalue⟩ := (Option.any_eq_true _ _).mp hany
  exact ⟨s, hrun, ⟨a, ha, of_decide_eq_true hdisk⟩, of_decide_eq_true hfails, r, hr,
    of_decide_eq_true hvalue⟩

end LostUpdate

end Tsavorite
