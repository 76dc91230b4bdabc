import Mathlib.Algebra.BigOperators.Group.Finset.Basic
import Mathlib.Algebra.Order.BigOperators.Group.Finset
import MiniGarnet.Tsavorite.SessionInv

/-! # The overflow arena

    A chain of the hash index takes one overflow bucket from the arena for
    every seven entries behind its first seven, and gives none back before
    `clear`.  So what has been handed out is a sum over the chains, and
    however the entries come in, an index with these entries again takes up
    the same room.
-/

namespace Tsavorite

/-! ## Section 1: What the chains take up -/

/-- The overflow buckets of a chain with `n` entries. -/
def overflowBuckets (n : ℕ) : ℕ := (n - 1) / ENTRIES_PER_BUCKET

theorem overflowBuckets_mono {m n : ℕ} (h : m ≤ n) : overflowBuckets m ≤ overflowBuckets n :=
  Nat.div_le_div_right (by omega)

/-- Another bucket is linked exactly when the chain is full. -/
theorem overflowBuckets_succ {α : Type} (l : List HashEntry) (l' : List α)
    (hlen : l'.length = l.length + 1) :
    overflowBuckets l'.length =
      overflowBuckets l.length + if HashIndex.chainFull l then 1 else 0 := by
  have hseven : ENTRIES_PER_BUCKET = 7 := rfl
  unfold overflowBuckets HashIndex.chainFull
  rw [hlen, hseven]
  by_cases hfull : l.length ≠ 0 ∧ l.length % 7 = 0
  · rw [if_pos (by simpa using hfull)]
    omega
  · rw [if_neg (by simpa using hfull)]
    omega

namespace HashIndex

/-- The overflow buckets of all chains. -/
def overflowUsed (idx : HashIndex) : ℕ :=
  ∑ b ∈ Finset.range (idx.mask + 1), overflowBuckets (idx.buckets b).length

/-- Lengthening one chain changes one summand. -/
theorem overflowUsed_setBucket {idx : HashIndex} {b : ℕ} (hb : b ≤ idx.mask)
    (entries : List HashEntry) :
    (idx.setBucket b entries).overflowUsed + overflowBuckets (idx.buckets b).length =
      idx.overflowUsed + overflowBuckets entries.length := by
  have hmem : b ∈ Finset.range (idx.mask + 1) := Finset.mem_range.mpr (by omega)
  have hsum : ∑ i ∈ (Finset.range (idx.mask + 1)).erase b,
        overflowBuckets ((idx.setBucket b entries).buckets i).length =
      ∑ i ∈ (Finset.range (idx.mask + 1)).erase b, overflowBuckets (idx.buckets i).length := by
    apply Finset.sum_congr rfl
    intro i hi
    have hne := (Finset.mem_erase.mp hi).1
    simp only [setBucket, if_neg hne]
  have hself : (idx.setBucket b entries).buckets b = entries := if_pos rfl
  have hnew := Finset.add_sum_erase _
    (fun i => overflowBuckets ((idx.setBucket b entries).buckets i).length) hmem
  have hold := Finset.add_sum_erase _ (fun i => overflowBuckets (idx.buckets i).length) hmem
  simp only [hself, hsum] at hnew
  change ∑ i ∈ Finset.range (idx.mask + 1), _ + _ = ∑ i ∈ Finset.range (idx.mask + 1), _ + _
  omega

/-- `bucketIndex` stays inside the main table. -/
theorem bucketIndex_le (idx : HashIndex) (hash : ℕ) : idx.bucketIndex hash ≤ idx.mask :=
  Nat.and_le_right

/-! ## Section 2: The invariant -/

/-- The arena has given out what the chains hold, and no tag has two entries. -/
structure ArenaInv (idx : HashIndex) : Prop where
  next_eq : idx.overflowNext = idx.overflowUsed + 1
  next_le : idx.overflowNext ≤ idx.overflowLen + 1
  tags : ∀ b, ((idx.buckets b).map HashEntry.tag).Nodup

section Arena

variable {idx idx' : HashIndex} {hash : ℕ} {slot : SlotRef}

theorem ArenaInv.clear (idx : HashIndex) : idx.clear.ArenaInv where
  next_eq := by
    unfold overflowUsed
    rw [Finset.sum_eq_zero]
    · rfl
    · intro b _
      unfold overflowBuckets
      exact Nat.zero_div _
  next_le := by
    change 1 ≤ _
    omega
  tags := fun _ => .nil

theorem ArenaInv.new (size : ℕ) : (HashIndex.new size).ArenaInv := ArenaInv.clear (HashIndex.new size)

/-- A tag without an entry is not on its chain. -/
theorem tag_not_mem (hnone : idx.load slot = none) :
    slot.tag ∉ (idx.buckets slot.bucket).map HashEntry.tag := by
  intro hmem
  obtain ⟨e, he, htag⟩ := List.mem_map.mp hmem
  rw [load, Option.map_eq_none_iff, List.find?_eq_none] at hnone
  exact hnone e he (by simpa using htag)

theorem reserve_spec {l : List HashEntry} (h : idx.reserve l = some idx') :
    idx'.buckets = idx.buckets ∧ idx'.mask = idx.mask ∧ idx'.overflowLen = idx.overflowLen ∧
      idx'.overflowNext = idx.overflowNext + (if chainFull l then 1 else 0) ∧
      (idx.overflowNext ≤ idx.overflowLen + 1 → idx'.overflowNext ≤ idx.overflowLen + 1) := by
  unfold reserve at h
  by_cases hfull : chainFull l = true
  · rw [if_pos hfull, allocOverflowBucket] at h
    rw [if_pos hfull]
    split at h
    · next hle =>
      cases h
      exact ⟨rfl, rfl, rfl, rfl, fun _ => Nat.succ_le_succ hle⟩
    · cases h
  · rw [if_neg hfull] at h
    rw [if_neg hfull]
    cases h
    exact ⟨rfl, rfl, rfl, rfl, id⟩

/-- Claiming a slot. -/
theorem ArenaInv.findOrCreateTag (h : idx.ArenaInv) (hclaim : idx.findOrCreateTag hash = some (idx', slot)) :
    idx'.ArenaInv ∧ idx'.overflowLen = idx.overflowLen := by
  unfold HashIndex.findOrCreateTag at hclaim
  simp only at hclaim
  split at hclaim
  · cases hclaim
    exact ⟨h, rfl⟩
  · next hnone =>
    have hload : idx.load (idx.slotOf hash) = none := by simpa using hnone
    obtain ⟨idx₁, hres, hret⟩ := Option.map_eq_some_iff.mp hclaim
    obtain ⟨hbuckets, hmask, hlen, hnext, hle⟩ := reserve_spec hres
    simp only [Prod.mk.injEq] at hret
    obtain ⟨rfl, rfl⟩ := hret
    have hb : (idx.slotOf hash).bucket ≤ idx₁.mask := by
      rw [hmask]
      exact idx.bucketIndex_le hash
    have hused : idx₁.overflowUsed = idx.overflowUsed := by
      unfold overflowUsed
      rw [hbuckets, hmask]
    have hgrow := overflowBuckets_succ (idx.buckets (idx.slotOf hash).bucket)
      (idx.buckets (idx.slotOf hash).bucket ++ [HashEntry.make (idx.slotOf hash).tag TEMP_INVALID_ADDRESS])
      List.length_append
    have hsum := overflowUsed_setBucket hb
      (idx.buckets (idx.slotOf hash).bucket ++ [HashEntry.make (idx.slotOf hash).tag TEMP_INVALID_ADDRESS])
    rw [hbuckets, hused] at hsum
    refine ⟨⟨?_, ?_, ?_⟩, hlen⟩
    · change idx₁.overflowNext = _
      rw [hnext, h.next_eq]
      omega
    · change idx₁.overflowNext ≤ idx₁.overflowLen + 1
      rw [hlen]
      exact hle h.next_le
    · intro b
      simp only [setBucket]
      split
      · rw [List.map_append, List.nodup_append]
        refine ⟨h.tags _, List.nodup_singleton _, ?_⟩
        intro x hx y hy heq
        rw [List.mem_singleton.mp hy] at heq
        subst heq
        exact tag_not_mem hload hx
      · rw [hbuckets]
        exact h.tags b

/-- Publishing an address keeps the entries and their tags. -/
theorem tryCas_tags {expected a : ℕ} (h : idx.tryCas slot expected a = some idx') :
    idx'.mask = idx.mask ∧ idx'.overflowLen = idx.overflowLen ∧
      idx'.overflowNext = idx.overflowNext ∧
      ∀ b, (idx'.buckets b).map HashEntry.tag = (idx.buckets b).map HashEntry.tag := by
  unfold tryCas at h
  split at h
  · cases h
    refine ⟨rfl, rfl, rfl, ?_⟩
    intro b
    simp only [setBucket]
    split
    · next hb =>
      subst hb
      rw [List.map_map]
      apply List.map_congr_left
      intro e _
      simp only [Function.comp_apply]
      split
      · next he => exact he.symm
      · rfl
    · rfl
  · cases h

theorem ArenaInv.tryCas {expected a : ℕ} (h : idx.ArenaInv)
    (hcas : idx.tryCas slot expected a = some idx') :
    idx'.ArenaInv ∧ idx'.overflowLen = idx.overflowLen := by
  obtain ⟨hmask, hlen, hnext, htags⟩ := tryCas_tags hcas
  have hlength : ∀ b, (idx'.buckets b).length = (idx.buckets b).length := by
    intro b
    have := congrArg List.length (htags b)
    rwa [List.length_map, List.length_map] at this
  refine ⟨⟨?_, ?_, ?_⟩, hlen⟩
  · rw [hnext, h.next_eq]
    unfold overflowUsed
    rw [hmask]
    congr 1
    apply Finset.sum_congr rfl
    intro b _
    rw [hlength]
  · rw [hnext, hlen]
    exact h.next_le
  · intro b
    rw [htags]
    exact h.tags b

end Arena

/-! ## Section 3: Another index with the same entries -/

/-- The overflow buckets an index with entries for the slots `S` takes up. -/
def overflowNeed (mask : ℕ) (S : Finset SlotRef) : ℕ :=
  ∑ b ∈ Finset.range (mask + 1), overflowBuckets (S.filter fun s => s.bucket = b).card

/-- All entries are for slots of `S`. -/
def Within (idx : HashIndex) (S : Finset SlotRef) : Prop :=
  ∀ b, ∀ e ∈ idx.buckets b, (⟨b, e.tag⟩ : SlotRef) ∈ S

/-- The slots of a chain. -/
def slotsOf (idx : HashIndex) (b : ℕ) : Finset SlotRef :=
  ((idx.buckets b).map fun e => (⟨b, e.tag⟩ : SlotRef)).toFinset

section Need

variable {idx idx' : HashIndex} {hash : ℕ} {slot : SlotRef} {S : Finset SlotRef}

theorem ArenaInv.card_slotsOf (h : idx.ArenaInv) (b : ℕ) :
    (idx.slotsOf b).card = (idx.buckets b).length := by
  have hnodup : ((idx.buckets b).map fun e => (⟨b, e.tag⟩ : SlotRef)).Nodup := by
    have := (h.tags b).map (f := fun t => (⟨b, t⟩ : SlotRef)) fun _ _ heq => (SlotRef.mk.inj heq).2
    rwa [List.map_map] at this
  rw [slotsOf, List.toFinset_card_of_nodup hnodup, List.length_map]

theorem Within.slotsOf_subset (h : idx.Within S) (b : ℕ) :
    idx.slotsOf b ⊆ S.filter fun s => s.bucket = b := by
  intro s hs
  obtain ⟨e, he, rfl⟩ := List.mem_map.mp (List.mem_toFinset.mp hs)
  exact Finset.mem_filter.mpr ⟨h b e he, rfl⟩

/-- As long as all entries are for slots of `S`, the arena has a bucket for one more. -/
theorem ArenaInv.findOrCreateTag_isSome (h : idx.ArenaInv) (hwithin : idx.Within S)
    (hslot : idx.slotOf hash ∈ S) (hneed : overflowNeed idx.mask S ≤ idx.overflowLen) :
    ∃ idx', idx.findOrCreateTag hash = some (idx', idx.slotOf hash) := by
  unfold HashIndex.findOrCreateTag
  simp only
  by_cases hsome : (idx.load (idx.slotOf hash)).isSome = true
  · rw [if_pos hsome]
    exact ⟨idx, rfl⟩
  rw [if_neg hsome]
  have hload : idx.load (idx.slotOf hash) = none := by simpa using hsome
  have hres : ∃ idx₁, idx.reserve (idx.buckets (idx.slotOf hash).bucket) = some idx₁ := by
    unfold reserve
    by_cases hfull : chainFull (idx.buckets (idx.slotOf hash).bucket) = true
    swap
    · rw [if_neg hfull]
      exact ⟨_, rfl⟩
    rw [if_pos hfull, allocOverflowBucket]
    -- the slot is one more than the chain has
    have hlt : idx.overflowUsed < overflowNeed idx.mask S := by
      apply Finset.sum_lt_sum
      · intro b _
        apply overflowBuckets_mono
        rw [← h.card_slotsOf b]
        exact Finset.card_le_card (hwithin.slotsOf_subset b)
      · refine ⟨(idx.slotOf hash).bucket,
          Finset.mem_range.mpr (Nat.lt_succ_of_le (idx.bucketIndex_le hash)), ?_⟩
        have hnot : idx.slotOf hash ∉ idx.slotsOf (idx.slotOf hash).bucket := by
          intro hmem
          obtain ⟨e, he, heq⟩ := List.mem_map.mp (List.mem_toFinset.mp hmem)
          apply tag_not_mem hload
          exact List.mem_map.mpr ⟨e, he, congrArg SlotRef.tag heq⟩
        have hcard : (idx.buckets (idx.slotOf hash).bucket).length + 1 ≤
            (S.filter fun s => s.bucket = (idx.slotOf hash).bucket).card := by
          rw [← h.card_slotsOf, ← Finset.card_insert_of_notMem hnot]
          apply Finset.card_le_card
          apply Finset.insert_subset
          · exact Finset.mem_filter.mpr ⟨hslot, rfl⟩
          · exact hwithin.slotsOf_subset _
        have hgrow := overflowBuckets_succ (idx.buckets (idx.slotOf hash).bucket)
          (idx.buckets (idx.slotOf hash).bucket ++ [HashEntry.make 0 0]) List.length_append
        rw [if_pos hfull, List.length_append] at hgrow
        have := overflowBuckets_mono hcard
        simp only [List.length_singleton] at hgrow
        omega
    have hnext := h.next_eq
    rw [if_pos (by omega)]
    exact ⟨_, rfl⟩
  obtain ⟨idx₁, hidx₁⟩ := hres
  rw [hidx₁]
  exact ⟨_, rfl⟩

theorem Within.clear (idx : HashIndex) (S : Finset SlotRef) : idx.clear.Within S :=
  fun _ _ he => absurd he List.not_mem_nil

theorem Within.findOrCreateTag (h : idx.Within S) (hslot : idx.slotOf hash ∈ S)
    (hclaim : idx.findOrCreateTag hash = some (idx', slot)) : idx'.Within S := by
  unfold HashIndex.findOrCreateTag at hclaim
  simp only at hclaim
  split at hclaim
  · cases hclaim
    exact h
  · obtain ⟨idx₁, hres, hret⟩ := Option.map_eq_some_iff.mp hclaim
    obtain ⟨hbuckets, -⟩ := reserve_spec hres
    simp only [Prod.mk.injEq] at hret
    obtain ⟨rfl, rfl⟩ := hret
    intro b e he
    simp only [setBucket] at he
    split at he
    · next hb =>
      subst hb
      rcases List.mem_append.mp he with he | he
      · exact h _ e he
      · rw [List.mem_singleton.mp he]
        exact hslot
    · rw [hbuckets] at he
      exact h b e he

theorem Within.tryCas {expected a : ℕ} (h : idx.Within S)
    (hcas : idx.tryCas slot expected a = some idx') : idx'.Within S := by
  obtain ⟨-, -, -, htags⟩ := tryCas_tags hcas
  intro b e he
  have hmem : e.tag ∈ (idx.buckets b).map HashEntry.tag := by
    rw [← htags]
    exact List.mem_map_of_mem he
  obtain ⟨e', he', heq⟩ := List.mem_map.mp hmem
  rw [← heq]
  exact h b e' he'

/-- What the entries of one index need, another one has room for. -/
theorem ArenaInv.overflowNeed_le (h : idx.ArenaInv)
    (hloaded : ∀ s ∈ S, (idx.load s).isSome = true) :
    overflowNeed idx.mask S ≤ idx.overflowLen := by
  have hle : overflowNeed idx.mask S ≤ idx.overflowUsed := by
    apply Finset.sum_le_sum
    intro b _
    apply overflowBuckets_mono
    rw [← h.card_slotsOf b]
    apply Finset.card_le_card
    intro s hs
    obtain ⟨hmem, rfl⟩ := Finset.mem_filter.mp hs
    obtain ⟨a, ha⟩ := Option.isSome_iff_exists.mp (hloaded s hmem)
    obtain ⟨e, he, -⟩ := Option.map_eq_some_iff.mp ha
    have htag : e.tag = s.tag := by simpa using List.find?_some he
    refine List.mem_toFinset.mpr (List.mem_map.mpr ⟨e, List.mem_of_find?_eq_some he, ?_⟩)
    rw [htag]
  have := h.next_eq
  have := h.next_le
  omega

end Need

end HashIndex

/-! ## Section 4: Sessions

    An attempt claims a slot and publishes one address in it.  What both
    preserve holds of the index in every run. -/

/-- What claiming a slot and publishing an address preserve. -/
structure HashIndex.Stable (P : HashIndex → Prop) : Prop where
  claim : ∀ {idx idx' : HashIndex} {hash : ℕ} {slot : SlotRef}, P idx →
    idx.findOrCreateTag hash = some (idx', slot) → P idx'
  cas : ∀ {idx idx' : HashIndex} {slot : SlotRef} {expected a : ℕ}, P idx →
    idx.tryCas slot expected a = some idx' → P idx'

theorem HashIndex.stable_arenaInv (len : ℕ) :
    HashIndex.Stable fun idx => idx.ArenaInv ∧ idx.overflowLen = len where
  claim := by
    rintro idx idx' hash slot ⟨h, rfl⟩ hclaim
    exact h.findOrCreateTag hclaim
  cas := by
    rintro idx idx' slot expected a ⟨h, rfl⟩ hcas
    exact h.tryCas hcas

section Attempts

variable {I O : Type} {g : Geometry} {f : SessionFunctions I O} {P : HashIndex → Prop}
  {store : Store} {state : SystemState} {slot : SlotRef} {entry : ℕ} {key : Key} {out : O}
  {calls : List Call} {wrote : Option (Option RecordData)}

theorem sealOld_index (old : Option ℕ) : (sealOld g old store).index = store.index := by
  cases old <;> rfl

theorem publish_index (hP : HashIndex.Stable P) (h : P store.index) {size : RecordSizeInfo}
    {fill : RecordData → O → Payload × O} {tombstone : Bool} {old : Option ℕ} {status : Status}
    {fillCalls : List Call} :
    P (publish g store state slot entry key size out calls wrote fill tombstone old status
      fillCalls).store.index := by
  unfold publish
  split
  · simp only
    split
    · next hcas =>
      rw [sealOld_index]
      exact hP.cas h hcas
    · exact h
  · exact h
  · exact h
  · exact h

theorem rmwInitial_index (hP : HashIndex.Stable P) (h : P store.index) {input : I} :
    P (rmwInitial g f store state slot entry key input out calls wrote).store.index := by
  unfold rmwInitial
  simp only
  split
  · exact publish_index hP h
  · exact h

theorem rmwCopy_index (hP : HashIndex.Stable P) (h : P store.index) {input : I}
    {oldAddr : Option ℕ} {old : RecordData} :
    P (rmwCopy g f store state slot entry key input out calls oldAddr old).store.index := by
  unfold rmwCopy
  split
  · exact h
  · exact publish_index hP h
  · exact publish_index hP h

theorem internalRead_index {input : I} :
    (internalRead g f store state key input out).store.index = store.index := by
  unfold internalRead
  split
  · rfl
  · simp only
    split
    · split
      · rfl
      · split <;> rfl
    · split <;> rfl

theorem internalUpsert_index (hP : HashIndex.Stable P) (h : P store.index) {input : I} :
    P (internalUpsert g f store state key input out).store.index := by
  unfold internalUpsert
  split
  · exact h
  · next hclaim =>
    have h' := hP.claim h hclaim
    simp only
    split
    · split
      · exact h'
      · split
        · exact publish_index hP h'
        · split
          · exact publish_index hP h'
          · split
            · exact h'
            · exact publish_index hP h'
    · exact publish_index hP h'

theorem internalRmw_index (hP : HashIndex.Stable P) (h : P store.index) {input : I}
    {src : Option DiskSrc} :
    P (internalRmw g f store state key input out src).store.index := by
  unfold internalRmw
  split
  · exact h
  · next hclaim =>
    have h' := hP.claim h hclaim
    simp only
    split
    · split
      · exact h'
      · split
        · exact rmwInitial_index hP h'
        · split
          · unfold rmwMutable
            split
            · exact rmwCopy_index hP h'
            · simp only
              split
              · exact h'
              · exact h'
              · exact rmwInitial_index hP h'
              · exact h'
              · exact rmwCopy_index hP h'
          · split
            · exact h'
            · exact rmwCopy_index hP h'
    · split
      · split
        · split
          · split
            · split
              · exact rmwInitial_index hP h'
              · exact rmwCopy_index hP h'
            · exact rmwInitial_index hP h'
          · exact h'
        · exact h'
      · exact rmwInitial_index hP h'

theorem internalDelete_index (hP : HashIndex.Stable P) (h : P store.index)
    {src : Option (Bool × ℕ)} :
    P (internalDelete g store state key out src).store.index := by
  unfold internalDelete
  split
  · exact h
  · simp only
    split
    · split
      · exact h
      · split
        · exact h
        · split
          · exact h
          · exact publish_index hP h
    · split
      · split
        · split
          · split
            · exact publish_index hP h
            · exact h
          · exact h
        · exact h
      · exact h

theorem attempt_index (hP : HashIndex.Stable P) (h : P store.index) {req : Request I}
    {src : Option DiskSrc} : P (attempt g f store state req src out).store.index := by
  cases req with
  | read key input =>
    change P (internalRead g f store state key input out).store.index
    rw [internalRead_index]
    exact h
  | upsert key input => exact internalUpsert_index hP h
  | rmw key input => exact internalRmw_index hP h
  | delete key => exact internalDelete_index hP h

theorem awaitStep_index (cond : Bool) (here there : CheckpointPc) :
    (store.awaitStep g cond here there).1.index = store.index := by
  unfold Store.awaitStep
  split <;> rfl

theorem checkpointStep_index {u : ℕ} {store' : Store} {pc pc' : CheckpointPc}
    {info : Option CheckpointInfo} (h : checkpointStep g u store pc = some (store', pc', info)) :
    store'.index = store.index := by
  cases pc with
  | idle =>
    simp only [checkpointStep] at h
    split at h
    · obtain ⟨start, -, heq⟩ := Option.map_eq_some_iff.mp h
      cases heq
      rfl
    · cases h
  | capturing =>
    obtain ⟨final, -, heq⟩ := Option.map_eq_some_iff.mp h
    cases heq
    rfl
  | waitPrepare | waitInProgress | waitWaitFlush | waitFlushed | waitRest =>
    cases h
    exact awaitStep_index _ _ _
  | done => cases h
  | _ =>
    cases h
    rfl

/-- Every step of the system keeps what claims and publications preserve. -/
theorem next_index (hP : HashIndex.Stable P) {s s' : System I O} (h : P s.store.index)
    {l : Label I O} (hnext : next g f s l = some s') : P s'.store.index := by
  cases l with
  | attempt t =>
    simp only [next] at hnext
    split at hnext
    · obtain ⟨⟨pc, status⟩, -, rfl⟩ := Option.map_eq_some_iff.mp hnext
      exact attempt_index hP h
    · cases hnext
  | checkpoint u =>
    obtain ⟨⟨store', pc', info⟩, hstep, rfl⟩ := Option.map_eq_some_iff.mp hnext
    have hsame : store'.index = s.store.index := checkpointStep_index hstep
    change P store'.index
    rw [hsame]
    exact h
  | start t req out => 
    simp only [next] at hnext
    split at hnext <;> cases hnext
    exact h
  | enter t =>
    simp only [next] at hnext
    split at hnext <;> cases hnext
    exact h
  | diskRead t =>
    simp only [next] at hnext
    split at hnext
    · split at hnext <;> cases hnext <;> exact h
    · cases hnext
  | backoff t =>
    simp only [next] at hnext
    split at hnext <;> cases hnext
    exact h
  | bump =>
    cases hnext
    exact h

end Attempts

end Tsavorite
