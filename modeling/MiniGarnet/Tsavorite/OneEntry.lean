import Mathlib.Data.List.Nodup
import MiniGarnet.Tsavorite.TagProtocol

/-! # One index entry per tag

    A claimant writes a tentative entry, looks at every other slot of the
    chain, and makes its entry permanent only if none has its tag.  Of two
    claims of one tag in one chain, the later one starts to look after the
    earlier entry was written.  `LookedAt p q` says that the claim of `p` has
    already looked at `q`; the invariant is that two claims of one tag have
    never both looked at each other (`Apart`).

    The rest of the invariant says that chains are what they seem to be:
    buckets are linked once, behind the last bucket, and a scan that reaches
    the end of the chain has passed every slot of it (`Linked`).
-/

namespace Tsavorite.TagProtocol

/-! ## Section 1: Invariant -/

/-- The claim a thread is carrying out: what it was called with, and its slot. -/
def Pc.claim : Pc → Option (SlotRef × Slot)
  | .rescanning k mine _ _ => some (k, mine)
  | .clearing k mine => some (k, mine)
  | .finalizing k mine => some (k, mine)
  | _ => none

/-- The overflow bucket a thread has allocated and may still link. -/
def Pc.pending : Pc → Option ℕ
  | .linking _ _ newAddr _ => some newAddr
  | _ => none

/-- `q` comes before position `i` of bucket `b` in a walk along `chain`. -/
def Before (chain : List BucketId) (q : Slot) (b : BucketId) (i : ℕ) : Prop :=
  chain.idxOf q.bucket < chain.idxOf b ∨ q.bucket = b ∧ q.entry < i

/-- A thread at this point has looked at `q` for its own claim of `p`. -/
def Pc.LookedAt (chains : ℕ → List BucketId) (p q : Slot) : Pc → Prop
  | .rescanning k mine b i => mine = p ∧ Before (chains k.bucket) q b i
  | .finalizing _ mine => mine = p
  | _ => False

/-- The claim of `p` has looked at `q`; a permanent entry has looked everywhere. -/
def LookedAt {Thread : Type*} (s : State Thread) (p q : Slot) : Prop :=
  (s.entries p).tentative = false ∨ ∃ t, (s.pc t).LookedAt s.chains p q

/-- `p` is a slot of the chain of `bi`. -/
def SlotIn (chains : ℕ → List BucketId) (bi : ℕ) (p : Slot) : Prop :=
  p.bucket ∈ chains bi ∧ p.entry < ENTRIES_PER_BUCKET

/-- A thread is somewhere in the chain it was called for. -/
def PcOk (chains : ℕ → List BucketId) : Pc → Prop
  | .idle => True
  | .finding k b _ => b ∈ chains k.bucket
  | .scanning k b _ free => b ∈ chains k.bucket ∧ ∀ f ∈ free, SlotIn chains k.bucket f
  | .allocating k b _ => b ∈ chains k.bucket
  | .linking k b _ _ => b ∈ chains k.bucket
  | .claiming k free => SlotIn chains k.bucket free
  | .rescanning k mine b _ => SlotIn chains k.bucket mine ∧ b ∈ chains k.bucket
  | .clearing k mine => SlotIn chains k.bucket mine
  | .finalizing k mine => SlotIn chains k.bucket mine

/-- The chains: each starts in the main table, no bucket is on two of them, and
    entry 7 leads from each bucket to the one linked behind it. -/
structure Linked {Thread : Type*} (s : State Thread) : Prop where
  head : ∀ bi, (s.chains bi)[0]? = some (.main bi)
  nodup : ∀ bi, (s.chains bi).Nodup
  disjoint : ∀ bi bj b, b ∈ s.chains bi → b ∈ s.chains bj → bi = bj
  next : ∀ bi k b, (s.chains bi)[k]? = some b → (s.overflow b).bucket = (s.chains bi)[k + 1]?
  outside : ∀ b, (∀ bi, b ∉ s.chains bi) → (s.overflow b).bucket = none
  below : ∀ bi addr, .overflow addr ∈ s.chains bi → addr < s.overflowNext
  positive : 0 < s.overflowNext

/-- A permanent entry for `k`. -/
def Permanent {Thread : Type*} (s : State Thread) (k : SlotRef) (p : Slot) : Prop :=
  SlotIn s.chains k.bucket p ∧ s.entries p ≠ .zero ∧ (s.entries p).tag = k.tag ∧
    (s.entries p).tentative = false

/-- Two claims of one tag in one chain have not both looked at each other. -/
def Apart {Thread : Type*} (s : State Thread) : Prop :=
  ∀ bi p q, p ≠ q → SlotIn s.chains bi p → SlotIn s.chains bi q → s.entries p ≠ .zero →
    s.entries q ≠ .zero → (s.entries p).tag = (s.entries q).tag → LookedAt s p q → ¬ LookedAt s q p

structure Inv {Thread : Type*} (s : State Thread) : Prop where
  linked : Linked s
  outside : ∀ p, (∀ bi, p.bucket ∉ s.chains bi) → s.entries p = .zero
  pcs : ∀ t, PcOk s.chains (s.pc t)
  /-- Buckets waiting to be linked are new, and each has one owner. -/
  pending : ∀ t addr, (s.pc t).pending = some addr →
    addr ≠ 0 ∧ addr < s.overflowNext ∧ ∀ bi, .overflow addr ∉ s.chains bi
  pendingUnique : ∀ t u addr, (s.pc t).pending = some addr → (s.pc u).pending = some addr → t = u
  claimed : ∀ t k p, (s.pc t).claim = some (k, p) →
    s.entries p = .make k.tag TEMP_INVALID_ADDRESS true
  claimUnique : ∀ t u k k' p, (s.pc t).claim = some (k, p) → (s.pc u).claim = some (k', p) → t = u
  apart : Apart s
  returned : ∀ r ∈ s.returned, Permanent s r.1 r.2

theorem inv_new {Thread : Type*} : Inv (initial : State Thread) := by
  refine ⟨⟨fun bi => rfl, fun bi => List.nodup_singleton _, ?_, ?_, fun b _ => rfl, ?_,
    Nat.zero_lt_one⟩, fun p _ => rfl, fun t => trivial, ?_, ?_, ?_, ?_, ?_, ?_⟩
  · intro bi bj b hi hj
    have h : BucketId.main bi = .main bj := (List.mem_singleton.mp hi).symm.trans (List.mem_singleton.mp hj)
    cases h
    rfl
  · intro bi k b hb
    cases k with
    | zero => rfl
    | succ k => cases hb
  · intro bi addr hb
    cases List.mem_singleton.mp hb
  · intro t addr h
    cases h
  · intro t u addr h
    cases h
  · intro t k p h
    cases h
  · intro t u k k' p h
    cases h
  · intro bi p q _ _ _ hp
    exact absurd rfl hp
  · intro r hr
    cases hr

/-! ## Section 2: Chains -/

section Linked

variable {Thread : Type*} {s : State Thread} {bi : ℕ} {b b' : BucketId}

theorem OverflowWord.bucket_congr {w w' : OverflowWord} (h : w'.next = w.next) :
    w'.bucket = w.bucket := by
  unfold OverflowWord.bucket
  rw [h]

theorem Linked.main_mem (h : Linked s) (bi : ℕ) : .main bi ∈ s.chains bi :=
  List.mem_of_getElem? (h.head bi)

theorem Linked.idxOf_main (h : Linked s) (bi : ℕ) : (s.chains bi).idxOf (.main bi) = 0 := by
  have hhead := h.head bi
  cases hc : s.chains bi with
  | nil =>
    rw [hc] at hhead
    cases hhead
  | cons x xs =>
    rw [hc] at hhead
    cases hhead
    exact List.idxOf_cons_self

/-- The walk from `b` to the bucket behind it. -/
theorem Linked.next_bucket (h : Linked s) (hb : b ∈ s.chains bi)
    (hnext : (s.overflow b).bucket = some b') :
    b' ∈ s.chains bi ∧ (s.chains bi).idxOf b' = (s.chains bi).idxOf b + 1 := by
  have hget := h.next bi _ b (List.getElem?_idxOf hb)
  rw [hnext] at hget
  refine ⟨List.mem_of_getElem? hget.symm, ?_⟩
  obtain ⟨hlt, heq⟩ := List.getElem?_eq_some_iff.mp hget.symm
  rw [← heq]
  exact (h.nodup bi).idxOf_getElem _ hlt

/-- A bucket without overflow bucket is the last of its chain. -/
theorem Linked.last_bucket (h : Linked s) (hb : b ∈ s.chains bi)
    (hnext : (s.overflow b).bucket = none) (hb' : b' ∈ s.chains bi) :
    (s.chains bi).idxOf b' ≤ (s.chains bi).idxOf b := by
  have hget := h.next bi _ b (List.getElem?_idxOf hb)
  rw [hnext] at hget
  have hlen : (s.chains bi).length ≤ (s.chains bi).idxOf b + 1 :=
    List.getElem?_eq_none_iff.mp hget.symm
  have hlt : (s.chains bi).idxOf b' < (s.chains bi).length := List.idxOf_lt_length_of_mem hb'
  omega

/-- The buckets a walk visits are those that were linked. -/
theorem Linked.mem_of_inChain (h : Linked s) (hb : InChain s bi b) : b ∈ s.chains bi := by
  induction hb with
  | head => exact h.main_mem bi
  | next _ hnext ih => exact (h.next_bucket ih hnext).1

/-- A whole bucket is before the bucket behind it. -/
theorem Linked.before_next (h : Linked s) (hb : b ∈ s.chains bi)
    (hnext : (s.overflow b).bucket = some b') {q : Slot} (hq : SlotIn s.chains bi q)
    (hbefore : Before (s.chains bi) q b' 0) {i : ℕ} (hi : ENTRIES_PER_BUCKET ≤ i) :
    Before (s.chains bi) q b i := by
  obtain ⟨hmem, hidx⟩ := h.next_bucket hb hnext
  rcases hbefore with hlt | ⟨-, hlt⟩
  · rw [hidx] at hlt
    rcases Nat.lt_or_eq_of_le (Nat.le_of_lt_succ hlt) with hlt | heq
    · exact .inl hlt
    · exact .inr ⟨(List.idxOf_inj hq.1).mp heq, Nat.lt_of_lt_of_le hq.2 hi⟩
  · exact absurd hlt (Nat.not_lt_zero _)

/-- The whole chain is before the end of its last bucket. -/
theorem Linked.before_end (h : Linked s) (hb : b ∈ s.chains bi)
    (hnext : (s.overflow b).bucket = none) {q : Slot} (hq : SlotIn s.chains bi q) {i : ℕ}
    (hi : ENTRIES_PER_BUCKET ≤ i) : Before (s.chains bi) q b i := by
  rcases Nat.lt_or_eq_of_le (h.last_bucket hb hnext hq.1) with hlt | heq
  · exact .inl hlt
  · exact .inr ⟨(List.idxOf_inj hq.1).mp heq, Nat.lt_of_lt_of_le hq.2 hi⟩

end Linked

theorem before_succ {chain : List BucketId} {q : Slot} {b : BucketId} {i : ℕ}
    (h : Before chain q b (i + 1)) : Before chain q b i ∨ q = ⟨b, i⟩ := by
  rcases h with hlt | ⟨hb, hlt⟩
  · exact .inl (.inl hlt)
  · rcases Nat.lt_or_eq_of_le (Nat.le_of_lt_succ hlt) with hlt | heq
    · exact .inl (.inr ⟨hb, hlt⟩)
    · right
      cases q
      cases hb
      cases heq
      rfl

/-! ## Section 3: Step lemmas -/

section Steps

variable {Thread : Type*} {s s' : State Thread} {t : Thread} {k : SlotRef} {p : Slot}

theorem make_ne_zero (tag : ℕ) (tentative : Bool) :
    Word.make tag TEMP_INVALID_ADDRESS tentative ≠ .zero := by
  intro h
  have haddr : maskAddress TEMP_INVALID_ADDRESS = 0 := congrArg Word.address h
  revert haddr
  decide

theorem Linked.congr (h : Linked s) (hchains : s'.chains = s.chains)
    (hoverflow : ∀ b, (s'.overflow b).bucket = (s.overflow b).bucket)
    (hnext : s.overflowNext ≤ s'.overflowNext) : Linked s' := by
  refine ⟨?_, ?_, ?_, ?_, ?_, ?_, Nat.lt_of_lt_of_le h.positive hnext⟩
  · rw [hchains]
    exact h.head
  · rw [hchains]
    exact h.nodup
  · rw [hchains]
    exact h.disjoint
  · intro bi i b hb
    rw [hchains] at hb ⊢
    rw [hoverflow]
    exact h.next bi i b hb
  · intro b hb
    rw [hchains] at hb
    rw [hoverflow]
    exact h.outside b hb
  · intro bi addr hb
    rw [hchains] at hb
    exact Nat.lt_of_lt_of_le (h.below bi addr hb) hnext

/-- Only a claimant of `p` looks around for `p`. -/
theorem Pc.LookedAt.claim {chains : ℕ → List BucketId} {p q : Slot} {c : Pc}
    (h : c.LookedAt chains p q) : ∃ k, c.claim = some (k, p) := by
  cases c with
  | rescanning k mine b i =>
    obtain ⟨rfl, -⟩ := h
    exact ⟨k, rfl⟩
  | finalizing k mine =>
    cases h
    exact ⟨k, rfl⟩
  | _ => cases h

/-- The slot of a claim is in the chain the claimant was called for. -/
theorem PcOk.claim {chains : ℕ → List BucketId} {c : Pc} (h : PcOk chains c)
    (hc : c.claim = some (k, p)) : SlotIn chains k.bucket p := by
  cases c with
  | rescanning k' mine b i =>
    cases hc
    exact h.1
  | clearing k' mine =>
    cases hc
    exact h
  | finalizing k' mine =>
    cases hc
    exact h
  | _ => cases hc

/-- `t` alone may claim `p` for `k`: nobody else does. -/
def Owned (s : State Thread) (t : Thread) (k : SlotRef) (p : Slot) : Prop :=
  s.entries p = .make k.tag TEMP_INVALID_ADDRESS true ∧
    ∀ u k', u ≠ t → (s.pc u).claim ≠ some (k', p)

theorem Inv.owned (inv : Inv s) (h : (s.pc t).claim = some (k, p)) : Owned s t k p :=
  ⟨inv.claimed t k p h, fun u k' hu hc => hu (inv.claimUnique u t k' k p hc h)⟩

/-- A permanent entry is nobody's claim. -/
theorem Inv.ne_of_permanent (inv : Inv s) {r : SlotRef × Slot} (hr : r ∈ s.returned)
    (hp : s.entries p = .zero ∨ (s.entries p).tentative = true) : r.2 ≠ p := by
  intro heq
  obtain ⟨-, hne, -, hperm⟩ := inv.returned r hr
  rw [heq] at hne hperm
  rcases hp with hp | hp
  · exact hne hp
  · rw [hperm] at hp
    cases hp

/-- `find_tag` and `find_or_create_tag` return permanent entries. -/
theorem Inv.returns (inv : Inv s) (h : Permanent s k p) :
    Inv { s with returned := (k, p) :: s.returned } := by
  refine ⟨inv.linked.congr rfl (fun _ => rfl) (Nat.le_refl _), inv.outside, inv.pcs, inv.pending,
    inv.pendingUnique, inv.claimed, inv.claimUnique, inv.apart, ?_⟩
  intro r hr
  rcases List.mem_cons.mp hr with rfl | hr
  · exact h
  · exact inv.returned r hr

/-- The words that belong to the chains stay, the latch bits may change, and
    the arena may be used up further. -/
theorem Inv.arena {overflow : BucketId → OverflowWord} {overflowNext : ℕ} (inv : Inv s)
    (hoverflow : ∀ b, (overflow b).bucket = (s.overflow b).bucket)
    (hnext : s.overflowNext ≤ overflowNext) :
    Inv { s with overflow := overflow, overflowNext := overflowNext } := by
  refine ⟨inv.linked.congr rfl hoverflow hnext, inv.outside, inv.pcs, ?_, inv.pendingUnique,
    inv.claimed, inv.claimUnique, inv.apart, inv.returned⟩
  intro u addr hu
  obtain ⟨hne, hlt, hnot⟩ := inv.pending u addr hu
  exact ⟨hne, Nat.lt_of_lt_of_le hlt hnext, hnot⟩

theorem store_entries_of_ne (s : State Thread) {x : Slot} (w : Word) (h : x ≠ p) :
    (s.store p w).entries x = s.entries x := by
  simp [State.store, Function.update_of_ne h]

@[simp] theorem store_entries (s : State Thread) (p : Slot) (w : Word) :
    (s.store p w).entries p = w := by
  simp [State.store]

/-- A word that is nobody's claim and no permanent entry is overwritten. -/
theorem Inv.overwrite (inv : Inv s) {bi : ℕ} {w : Word} (hp : SlotIn s.chains bi p)
    (hold : s.entries p = .zero ∨ (s.entries p).tentative = true)
    (hfree : ∀ u k, (s.pc u).claim ≠ some (k, p)) (hapart : Apart (s.store p w)) :
    Inv (s.store p w) := by
  refine ⟨inv.linked.congr rfl (fun _ => rfl) (Nat.le_refl _), ?_, inv.pcs, inv.pending,
    inv.pendingUnique, ?_, inv.claimUnique, hapart, ?_⟩
  · intro x hx
    have hxp : x ≠ p := by
      intro heq
      rw [heq] at hx
      exact hx bi hp.1
    rw [store_entries_of_ne s w hxp]
    exact inv.outside x hx
  · intro u k x hu
    have hxp : x ≠ p := by
      intro heq
      rw [heq] at hu
      exact hfree u k hu
    rw [store_entries_of_ne s w hxp]
    exact inv.claimed u k x hu
  · intro r hr
    have hrp : r.2 ≠ p := inv.ne_of_permanent hr hold
    obtain ⟨hin, hrest⟩ := inv.returned r hr
    refine ⟨hin, ?_⟩
    rw [store_entries_of_ne s w hrp]
    exact hrest

/-- A tentative entry is written into a free slot, or taken back. -/
theorem Inv.store (inv : Inv s) {bi : ℕ} {w : Word} (hp : SlotIn s.chains bi p)
    (hold : s.entries p = .zero ∨ (s.entries p).tentative = true)
    (hfree : ∀ u k, (s.pc u).claim ≠ some (k, p)) (hw : w = .zero ∨ w.tentative = true) :
    Inv (s.store p w) := by
  -- nobody looks around for the written slot
  have hnot : ∀ x, (s.store p w).entries p ≠ .zero → ¬ LookedAt (s.store p w) p x := by
    intro x hne hl
    rw [store_entries] at hne
    rcases hl with hperm | ⟨u, hu⟩
    · rw [store_entries] at hperm
      rcases hw with hw | hw
      · exact hne hw
      · rw [hperm] at hw
        cases hw
    · obtain ⟨k, hk⟩ := hu.claim
      exact hfree u k hk
  refine inv.overwrite hp hold hfree ?_
  intro bi x y hxy hx hy hnx hny htag hl hl'
  by_cases hxp : x = p
  · rw [hxp] at hnx hl
    exact hnot y hnx hl
  by_cases hyp : y = p
  · rw [hyp] at hny hl'
    exact hnot x hny hl'
  unfold LookedAt at hl hl'
  rw [store_entries_of_ne s w hxp] at hnx htag hl
  rw [store_entries_of_ne s w hyp] at hny htag hl'
  exact inv.apart bi x y hxy hx hy hnx hny htag hl hl'

variable [DecidableEq Thread] {c : Pc}

@[simp] theorem goto_pc (s : State Thread) (t : Thread) (c : Pc) : (s.goto t c).pc t = c := by
  simp [State.goto]

theorem goto_pc_of_ne (s : State Thread) (c : Pc) {u : Thread} (h : u ≠ t) :
    (s.goto t c).pc u = s.pc u := by
  simp [State.goto, Function.update_of_ne h]

/-- A step of `t` to `c` that changes no word.  What `c` has looked at beyond
    the old position does not hold the tag. -/
theorem Inv.goto (inv : Inv s) (hok : PcOk s.chains c)
    (hpending : ∀ addr, c.pending = some addr →
      (addr ≠ 0 ∧ addr < s.overflowNext ∧ ∀ bi, .overflow addr ∉ s.chains bi) ∧
        ∀ u, u ≠ t → (s.pc u).pending ≠ some addr)
    (hclaim : ∀ k p, c.claim = some (k, p) → Owned s t k p)
    (hlooked : ∀ k p x, c.claim = some (k, p) → SlotIn s.chains k.bucket x →
      c.LookedAt s.chains p x → (s.pc t).LookedAt s.chains p x ∨ x = p ∨ s.entries x = .zero ∨
        (s.entries x).tag ≠ k.tag) : Inv (s.goto t c) := by
  refine ⟨inv.linked.congr rfl (fun _ => rfl) (Nat.le_refl _), inv.outside, ?_, ?_, ?_, ?_, ?_, ?_,
    inv.returned⟩
  · intro u
    by_cases hut : u = t
    · rw [hut, goto_pc]
      exact hok
    · rw [goto_pc_of_ne s c hut]
      exact inv.pcs u
  · intro u addr hu
    by_cases hut : u = t
    · rw [hut, goto_pc] at hu
      exact (hpending addr hu).1
    · rw [goto_pc_of_ne s c hut] at hu
      exact inv.pending u addr hu
  · intro u v addr hu hv
    by_cases hut : u = t
    · by_cases hvt : v = t
      · rw [hut, hvt]
      · rw [hut, goto_pc] at hu
        rw [goto_pc_of_ne s c hvt] at hv
        exact absurd hv ((hpending addr hu).2 v hvt)
    · rw [goto_pc_of_ne s c hut] at hu
      by_cases hvt : v = t
      · rw [hvt, goto_pc] at hv
        exact absurd hu ((hpending addr hv).2 u hut)
      · rw [goto_pc_of_ne s c hvt] at hv
        exact inv.pendingUnique u v addr hu hv
  · intro u k p hu
    by_cases hut : u = t
    · rw [hut, goto_pc] at hu
      exact (hclaim k p hu).1
    · rw [goto_pc_of_ne s c hut] at hu
      exact inv.claimed u k p hu
  · intro u v k k' p hu hv
    by_cases hut : u = t
    · by_cases hvt : v = t
      · rw [hut, hvt]
      · rw [hut, goto_pc] at hu
        rw [goto_pc_of_ne s c hvt] at hv
        exact absurd hv ((hclaim k p hu).2 v k' hvt)
    · rw [goto_pc_of_ne s c hut] at hu
      by_cases hvt : v = t
      · rw [hvt, goto_pc] at hv
        exact absurd hu ((hclaim k' p hv).2 u k hut)
      · rw [goto_pc_of_ne s c hvt] at hv
        exact inv.claimUnique u v k k' p hu hv
  · -- nothing new has been looked at among the slots with the same tag
    have hback : ∀ bi p q, p ≠ q → SlotIn s.chains bi p → SlotIn s.chains bi q →
        s.entries q ≠ .zero → (s.entries p).tag = (s.entries q).tag →
        LookedAt (s.goto t c) p q → LookedAt s p q := by
      intro bi p q hpq hp hq hne htag hl
      rcases hl with hperm | ⟨u, hu⟩
      · exact .inl hperm
      · by_cases hut : u = t
        · rw [hut, goto_pc] at hu
          obtain ⟨k, hk⟩ := hu.claim
          have hbi : k.bucket = bi := inv.linked.disjoint _ _ _ (hok.claim hk).1 hp.1
          rcases hlooked k p q hk (hbi ▸ hq) hu with hold | heq | hzero | hother
          · exact .inr ⟨t, hold⟩
          · exact absurd heq.symm hpq
          · exact absurd hzero hne
          · rw [← htag, (hclaim k p hk).1] at hother
            exact absurd rfl hother
        · rw [goto_pc_of_ne s c hut] at hu
          exact .inr ⟨u, hu⟩
    intro bi p q hpq hp hq hnp hnq htag hl hl'
    exact inv.apart bi p q hpq hp hq hnp hnq htag (hback bi p q hpq hp hq hnq htag hl)
      (hback bi q p hpq.symm hq hp hnp htag.symm hl')

/-- A step outside the claim and link phases. -/
theorem Inv.goto_plain (inv : Inv s) (hok : PcOk s.chains c) (hpending : c.pending = none)
    (hclaim : c.claim = none) : Inv (s.goto t c) := by
  refine inv.goto hok ?_ ?_ ?_
  · intro addr h
    rw [hpending] at h
    cases h
  · intro k p h
    rw [hclaim] at h
    cases h
  · intro k p x h
    rw [hclaim] at h
    cases h

/-- A step that goes on with a claim. -/
theorem Inv.goto_claim (inv : Inv s) (hok : PcOk s.chains c) (hpending : c.pending = none)
    (hclaim : c.claim = some (k, p)) (hold : (s.pc t).claim = some (k, p))
    (hlooked : ∀ x, SlotIn s.chains k.bucket x → c.LookedAt s.chains p x →
      (s.pc t).LookedAt s.chains p x ∨ x = p ∨ s.entries x = .zero ∨ (s.entries x).tag ≠ k.tag) :
    Inv (s.goto t c) := by
  refine inv.goto hok ?_ ?_ ?_
  · intro addr h
    rw [hpending] at h
    cases h
  · intro k' p' h
    rw [hclaim] at h
    cases h
    exact inv.owned hold
  · intro k' p' x h hx hl
    rw [hclaim] at h
    cases h
    exact hlooked x hx hl

theorem Inv.ret (inv : Inv s) (h : Permanent s k p) : Inv (s.ret t k p) :=
  (inv.returns h).goto_plain trivial rfl rfl

theorem Inv.restart (inv : Inv s) (k : SlotRef) : Inv (s.restart t k) := by
  refine inv.goto_plain ⟨inv.linked.main_mem k.bucket, ?_⟩ rfl rfl
  intro f hf
  cases hf

/-! ## Section 4: Claims -/

/-- The claim succeeds: `t` starts to look around. -/
theorem Inv.claim (inv : Inv s) (hp : SlotIn s.chains k.bucket p) (hzero : s.entries p = .zero) :
    Inv ((s.store p (.make k.tag TEMP_INVALID_ADDRESS true)).goto t
      (.rescanning k p (.main k.bucket) 0)) := by
  have hfree : ∀ u k', (s.pc u).claim ≠ some (k', p) := by
    intro u k' hu
    have hclaimed := inv.claimed u k' p hu
    rw [hzero] at hclaimed
    exact make_ne_zero _ _ hclaimed.symm
  have hstored := inv.store (w := .make k.tag TEMP_INVALID_ADDRESS true) hp (.inl hzero) hfree
    (.inr rfl)
  refine hstored.goto ⟨hp, inv.linked.main_mem k.bucket⟩ ?_ ?_ ?_
  · intro addr h
    cases h
  · intro k' p' h
    cases h
    exact ⟨store_entries s p _, fun u k' _ => hfree u k'⟩
  · intro k' p' x h hx hl
    cases h
    -- the walk has not started
    obtain ⟨-, hlt | ⟨-, hlt⟩⟩ := hl
    · have hmain : (s.chains k.bucket).idxOf (.main k.bucket) = 0 := inv.linked.idxOf_main k.bucket
      have hlt' : (s.chains k.bucket).idxOf x.bucket < (s.chains k.bucket).idxOf (.main k.bucket) := hlt
      omega
    · exact absurd hlt (Nat.not_lt_zero _)

/-- The loser of a race clears its slot. -/
theorem Inv.clear (inv : Inv s) (hpc : s.pc t = .clearing k p) :
    Inv ((s.store p .zero).restart t k) := by
  have hclaim : (s.pc t).claim = some (k, p) := by rw [hpc]; rfl
  have hin : SlotIn s.chains k.bucket p := (inv.pcs t).claim hclaim
  obtain ⟨hword, hothers⟩ := inv.owned hclaim
  have hmoved : Inv (s.restart t k) := inv.restart k
  refine hmoved.store (w := .zero) hin (.inr ?_) ?_ (.inl rfl)
  · show (s.entries p).tentative = true
    rw [hword]
    rfl
  · intro u k' hu
    by_cases hut : u = t
    · rw [hut, State.restart, goto_pc] at hu
      cases hu
    · rw [State.restart, goto_pc_of_ne s _ hut] at hu
      exact hothers u k' hut hu

/-- The winner clears the tentative bit. -/
theorem Inv.finalize (inv : Inv s) (hpc : s.pc t = .finalizing k p) :
    Inv ((s.store p (.make k.tag TEMP_INVALID_ADDRESS false)).ret t k p) := by
  have hclaim : (s.pc t).claim = some (k, p) := by rw [hpc]; rfl
  have hin : SlotIn s.chains k.bucket p := (inv.pcs t).claim hclaim
  obtain ⟨hword, hothers⟩ := inv.owned hclaim
  -- leave the claim first, then write
  have hmoved : Inv (s.goto t .idle) := inv.goto_plain trivial rfl rfl
  have hfree : ∀ u k', ((s.goto t .idle).pc u).claim ≠ some (k', p) := by
    intro u k' hu
    by_cases hut : u = t
    · rw [hut, goto_pc] at hu
      cases hu
    · rw [goto_pc_of_ne s _ hut] at hu
      exact hothers u k' hut hu
  have hstored : Inv ((s.goto t .idle).store p (.make k.tag TEMP_INVALID_ADDRESS false)) := by
    refine hmoved.overwrite hin (.inr ?_) hfree ?_
    · show (s.entries p).tentative = true
      rw [hword]
      rfl
    -- `p` has looked everywhere, as it had before the store
    have hback : ∀ x y, LookedAt ((s.goto t .idle).store p
        (.make k.tag TEMP_INVALID_ADDRESS false)) x y → LookedAt s x y := by
      intro x y hl
      by_cases hxp : x = p
      · exact .inr ⟨t, by rw [hpc, hxp]; exact rfl⟩
      rcases hl with hperm | ⟨u, hu⟩
      · rw [store_entries_of_ne _ _ hxp] at hperm
        exact .inl hperm
      · by_cases hut : u = t
        · rw [hut] at hu
          simp [State.store, State.goto, Pc.LookedAt] at hu
        · refine .inr ⟨u, ?_⟩
          rwa [show ((s.goto t .idle).store p _).pc u = s.pc u from goto_pc_of_ne s _ hut] at hu
    have htags : ∀ x, ((s.goto t .idle).store p
        (.make k.tag TEMP_INVALID_ADDRESS false)).entries x ≠ .zero →
        s.entries x ≠ .zero ∧ (((s.goto t .idle).store p
          (.make k.tag TEMP_INVALID_ADDRESS false)).entries x).tag = (s.entries x).tag := by
      intro x hx
      by_cases hxp : x = p
      · rw [hxp, store_entries, hword]
        exact ⟨make_ne_zero _ _, rfl⟩
      · rw [store_entries_of_ne _ _ hxp] at hx ⊢
        exact ⟨hx, rfl⟩
    intro bi x y hxy hx hy hnx hny htag hl hl'
    obtain ⟨hnx', htx⟩ := htags x hnx
    obtain ⟨hny', hty⟩ := htags y hny
    rw [htx, hty] at htag
    exact inv.apart bi x y hxy hx hy hnx' hny' htag (hback x y hl) (hback y x hl')
  refine hstored.returns ⟨hin, ?_, ?_, ?_⟩
  · rw [store_entries]
    exact make_ne_zero _ _
  · rw [store_entries]
    rfl
  · rw [store_entries]
    rfl

end Steps

/-! ## Section 5: Linking -/

section Link

variable {Thread : Type*} {s s' : State Thread} {k : SlotRef}

theorem before_append {chain more : List BucketId} {q : Slot} {b : BucketId} {i : ℕ}
    (hq : q.bucket ∈ chain) (hb : b ∈ chain) :
    Before (chain ++ more) q b i ↔ Before chain q b i := by
  unfold Before
  rw [List.idxOf_append_of_mem hq, List.idxOf_append_of_mem hb]

/-- The chains after linking the bucket at `addr`. -/
theorem mem_link {b b' : BucketId} {cur : OverflowWord} {addr bi : ℕ} :
    b' ∈ (s.link k b cur addr).chains bi ↔
      b' ∈ s.chains bi ∨ bi = k.bucket ∧ b' = .overflow addr := by
  by_cases hbi : bi = k.bucket
  · rw [hbi]
    simp [State.link]
  · simp [State.link, hbi]

theorem Linked.link (h : Linked s) {b : BucketId} {cur : OverflowWord} {addr : ℕ}
    (hb : b ∈ s.chains k.bucket) (hcur : s.overflow b = cur) (hnone : cur.next = 0)
    (hne : addr ≠ 0) (hlt : addr < s.overflowNext) (hnew : ∀ bi, .overflow addr ∉ s.chains bi) :
    Linked (s.link k b cur addr) := by
  have hbucket : (s.overflow b).bucket = none := by
    rw [hcur]
    simp [OverflowWord.bucket, hnone]
  have hlast : (s.chains k.bucket)[(s.chains k.bucket).idxOf b + 1]? = none := by
    rw [← h.next k.bucket _ b (List.getElem?_idxOf hb), hbucket]
  have hoverflow : ∀ b', b' ≠ b → (s.link k b cur addr).overflow b' = s.overflow b' := by
    intro b' hb'
    simp [State.link, Function.update_of_ne hb']
  have hlinked : ((s.link k b cur addr).overflow b).bucket = some (.overflow addr) := by
    simp [State.link, OverflowWord.bucket, hne]
  have hother : ∀ bi, bi ≠ k.bucket → (s.link k b cur addr).chains bi = s.chains bi := by
    intro bi hbi
    simp [State.link, Function.update_of_ne hbi]
  have hself : (s.link k b cur addr).chains k.bucket = s.chains k.bucket ++ [.overflow addr] := by
    simp [State.link]
  refine ⟨?_, ?_, ?_, ?_, ?_, ?_, h.positive⟩
  · intro bi
    by_cases hbi : bi = k.bucket
    · rw [hbi, hself, List.getElem?_append_left (List.length_pos_of_mem hb)]
      exact h.head k.bucket
    · rw [hother bi hbi]
      exact h.head bi
  · intro bi
    by_cases hbi : bi = k.bucket
    · rw [hbi, hself]
      exact (h.nodup k.bucket).append (List.nodup_singleton _) (by simpa using hnew k.bucket)
    · rw [hother bi hbi]
      exact h.nodup bi
  · intro bi bj b' hi hj
    rw [mem_link] at hi hj
    rcases hi with hi | ⟨hi, hbi⟩
    · rcases hj with hj | ⟨hj, hbj⟩
      · exact h.disjoint bi bj b' hi hj
      · rw [hbj] at hi
        exact absurd hi (hnew bi)
    · rcases hj with hj | ⟨hj, hbj⟩
      · rw [hbi] at hj
        exact absurd hj (hnew bj)
      · rw [hi, hj]
  · intro bi i b' hb'
    by_cases hbi : bi = k.bucket
    · rw [hbi, hself] at hb' ⊢
      have hlen : (s.chains k.bucket).length = (s.chains k.bucket).idxOf b + 1 := by
        have hle := List.getElem?_eq_none_iff.mp hlast
        have hlt := List.idxOf_lt_length_of_mem hb
        omega
      rcases Nat.lt_or_ge i (s.chains k.bucket).length with hi | hi
      · rw [List.getElem?_append_left hi] at hb'
        by_cases hbb : b' = b
        · -- the bucket that was last
          have hidx : i = (s.chains k.bucket).idxOf b := by
            obtain ⟨hlt, heq⟩ := List.getElem?_eq_some_iff.mp hb'
            rw [← hbb, ← heq]
            exact ((h.nodup k.bucket).idxOf_getElem i hlt).symm
          rw [hbb, hlinked, hidx, List.getElem?_append_right (by omega), hlen]
          simp
        · rw [hoverflow b' hbb, h.next k.bucket i b' hb']
          have hi' : i + 1 < (s.chains k.bucket).length := by
            refine Nat.lt_of_le_of_ne hi fun heq => hbb ?_
            have hib : i = (s.chains k.bucket).idxOf b := by omega
            rw [hib, List.getElem?_idxOf hb] at hb'
            exact (Option.some.inj hb').symm
          rw [List.getElem?_append_left hi']
      · -- the new bucket has no bucket behind it
        rw [List.getElem?_append_right hi] at hb'
        obtain ⟨hlt, heq⟩ := List.getElem?_eq_some_iff.mp hb'
        have hzero : i - (s.chains k.bucket).length = 0 := by simpa using hlt
        have hb'' : b' = .overflow addr := by
          rw [← heq]
          simp
        have hbb : b' ≠ b := by
          intro heq
          rw [← heq, hb''] at hb
          exact hnew k.bucket hb
        rw [hoverflow b' hbb, h.outside b' (by rw [hb'']; exact hnew)]
        rw [List.getElem?_eq_none]
        simp
        omega
    · rw [hother bi hbi] at hb' ⊢
      have hbb : b' ≠ b := by
        intro heq
        rw [heq] at hb'
        exact hbi (h.disjoint bi k.bucket b (List.mem_of_getElem? hb') hb)
      rw [hoverflow b' hbb]
      exact h.next bi i b' hb'
  · intro b' hb'
    have hout : ∀ bi, b' ∉ s.chains bi := fun bi hmem => hb' bi (mem_link.mpr (.inl hmem))
    have hbb : b' ≠ b := by
      intro heq
      rw [heq] at hout
      exact hout k.bucket hb
    rw [hoverflow b' hbb]
    exact h.outside b' hout
  · intro bi a ha
    rw [mem_link] at ha
    rcases ha with ha | ⟨-, ha⟩
    · exact h.below bi a ha
    · cases ha
      exact hlt

theorem PcOk.mono {chains chains' : ℕ → List BucketId} {c : Pc} (h : PcOk chains c)
    (hsub : ∀ bi b, b ∈ chains bi → b ∈ chains' bi) : PcOk chains' c := by
  have hslot : ∀ bi p, SlotIn chains bi p → SlotIn chains' bi p :=
    fun bi p hp => ⟨hsub bi _ hp.1, hp.2⟩
  cases c with
  | idle => trivial
  | finding k b i => exact hsub _ _ h
  | scanning k b i free => exact ⟨hsub _ _ h.1, fun f hf => hslot _ f (h.2 f hf)⟩
  | allocating k b w => exact hsub _ _ h
  | linking k b newAddr cur => exact hsub _ _ h
  | claiming k free => exact hslot _ _ h
  | rescanning k mine b i => exact ⟨hslot _ _ h.1, hsub _ _ h.2⟩
  | clearing k mine => exact hslot _ _ h
  | finalizing k mine => exact hslot _ _ h

/-- A new overflow bucket is linked behind the last bucket of the chain. -/
theorem Inv.link (inv : Inv s) {b : BucketId} {cur : OverflowWord} {addr : ℕ}
    (hb : b ∈ s.chains k.bucket) (hcur : s.overflow b = cur) (hnone : cur.next = 0)
    (hne : addr ≠ 0) (hlt : addr < s.overflowNext) (hnew : ∀ bi, .overflow addr ∉ s.chains bi)
    (hpending : ∀ u, (s.pc u).pending ≠ some addr) : Inv (s.link k b cur addr) := by
  have hsub : ∀ bi b', b' ∈ s.chains bi → b' ∈ (s.link k b cur addr).chains bi :=
    fun bi b' h => mem_link.mpr (.inl h)
  -- the new bucket is empty, so every entry is in the old part of its chain
  have hslot : ∀ bi p, SlotIn (s.link k b cur addr).chains bi p → s.entries p ≠ .zero →
      SlotIn s.chains bi p := by
    intro bi p hp hnz
    rcases mem_link.mp hp.1 with hmem | ⟨-, heq⟩
    · exact ⟨hmem, hp.2⟩
    · exact absurd (inv.outside p (by rw [heq]; exact hnew)) hnz
  have hback : ∀ bi p q, SlotIn s.chains bi p → SlotIn s.chains bi q →
      LookedAt (s.link k b cur addr) p q → LookedAt s p q := by
    intro bi p q hp hq hl
    rcases hl with hperm | ⟨u, hu⟩
    · exact .inl hperm
    · refine .inr ⟨u, ?_⟩
      have hpc : (s.link k b cur addr).pc u = s.pc u := rfl
      have hok := inv.pcs u
      rw [hpc] at hu
      cases hcu : s.pc u with
      | rescanning k' mine b' i =>
        rw [hcu] at hu hok
        obtain ⟨rfl, hbefore⟩ := hu
        refine ⟨rfl, ?_⟩
        have hbi : k'.bucket = bi := inv.linked.disjoint _ _ _ hok.1.1 hp.1
        by_cases hk : k'.bucket = k.bucket
        · have hself : (s.link k b cur addr).chains k'.bucket =
              s.chains k'.bucket ++ [.overflow addr] := by
            simp [State.link, hk]
          rw [hself] at hbefore
          exact (before_append (by rw [hbi]; exact hq.1) hok.2).mp hbefore
        · have hother : (s.link k b cur addr).chains k'.bucket = s.chains k'.bucket := by
            simp [State.link, Function.update_of_ne hk]
          rwa [hother] at hbefore
      | finalizing k' mine =>
        rw [hcu] at hu
        exact hu
      | _ =>
        rw [hcu] at hu
        cases hu
  refine ⟨inv.linked.link hb hcur hnone hne hlt hnew, ?_, fun u => (inv.pcs u).mono hsub, ?_,
    inv.pendingUnique, inv.claimed, inv.claimUnique, ?_, ?_⟩
  · intro p hp
    exact inv.outside p fun bi hmem => hp bi (hsub bi _ hmem)
  · intro u a hu
    obtain ⟨ha, hlt', hnot⟩ := inv.pending u a hu
    refine ⟨ha, hlt', fun bi hmem => ?_⟩
    rcases mem_link.mp hmem with hmem | ⟨-, heq⟩
    · exact hnot bi hmem
    · cases heq
      exact hpending u hu
  · intro bi p q hpq hp hq hnp hnq htag hl hl'
    have hp' := hslot bi p hp hnp
    have hq' := hslot bi q hq hnq
    exact inv.apart bi p q hpq hp' hq' hnp hnq htag (hback bi p q hp' hq' hl)
      (hback bi q p hq' hp' hl')
  · intro r hr
    obtain ⟨hin, hrest⟩ := inv.returned r hr
    exact ⟨⟨hsub _ _ hin.1, hin.2⟩, hrest⟩

end Link

/-! ## Section 6: Main result -/

section Main

variable {Thread : Type*} {size : ℕ} {s s' : State Thread} {t : Thread}

/-- Two permanent entries for one tag in one chain are the same entry. -/
theorem Inv.one_entry (inv : Inv s) {k : SlotRef} {p q : Slot} (hp : Permanent s k p)
    (hq : Permanent s k q) : p = q := by
  by_contra hpq
  obtain ⟨hinp, hnp, htp, hpermp⟩ := hp
  obtain ⟨hinq, hnq, htq, hpermq⟩ := hq
  exact inv.apart k.bucket p q hpq hinp hinq hnp hnq (htp.trans htq.symm) (.inl hpermp) (.inl hpermq)

variable [DecidableEq Thread]

/-- One position of the look around. -/
theorem Inv.rescan (inv : Inv s) {k : SlotRef} {mine : Slot} {b : BucketId} {i : ℕ}
    (hpc : s.pc t = .rescanning k mine b i) (h : stepPc size s t (.rescanning k mine b i) = some s') :
    Inv s' := by
  have hok := inv.pcs t
  rw [hpc] at hok
  have hclaim : (s.pc t).claim = some (k, mine) := by rw [hpc]; rfl
  -- one word further in the same bucket
  have hadvance : (⟨b, i⟩ : Slot) = mine ∨ s.entries ⟨b, i⟩ = .zero ∨
      (s.entries ⟨b, i⟩).tag ≠ k.tag → Inv (s.goto t (.rescanning k mine b (i + 1))) := by
    intro hseen
    refine inv.goto_claim hok rfl rfl hclaim ?_
    rintro x hx ⟨-, hbefore⟩
    rcases before_succ hbefore with hold | rfl
    · rw [hpc]
      exact .inl ⟨rfl, hold⟩
    · exact .inr hseen
  simp only [stepPc] at h
  split at h
  · split at h
    · cases h
      exact hadvance (.inl ‹_›)
    · split at h
      · cases h
        refine inv.goto_claim hok.1 rfl rfl hclaim ?_
        intro x hx hl
        cases hl
      · rename_i hseen
        cases h
        refine hadvance (.inr ?_)
        by_cases hzero : s.entries ⟨b, i⟩ = .zero
        · exact .inl hzero
        · exact .inr fun htag => hseen ⟨hzero, htag⟩
  · rename_i hi
    split at h
    · rename_i b' hnext
      cases h
      obtain ⟨hmem, -⟩ := inv.linked.next_bucket hok.2 hnext
      refine inv.goto_claim ⟨hok.1, hmem⟩ rfl rfl hclaim ?_
      rintro x hx ⟨-, hbefore⟩
      rw [hpc]
      exact .inl ⟨rfl, inv.linked.before_next hok.2 hnext hx hbefore (by omega)⟩
    · rename_i hnext
      cases h
      -- the end of the chain: every slot of it has been looked at
      refine inv.goto_claim hok.1 rfl rfl hclaim ?_
      intro x hx _
      rw [hpc]
      exact .inl ⟨rfl, inv.linked.before_end hok.2 hnext hx (by omega)⟩

/-- One position of `find_tag_or_free`. -/
theorem Inv.scan (inv : Inv s) {k : SlotRef} {b : BucketId} {i : ℕ} {free : Option Slot}
    (hpc : s.pc t = .scanning k b i free) (h : stepPc size s t (.scanning k b i free) = some s') :
    Inv s' := by
  have hok := inv.pcs t
  rw [hpc] at hok
  obtain ⟨hb, hfree⟩ := hok
  simp only [stepPc] at h
  split at h
  · rename_i hi
    have hslot : SlotIn s.chains k.bucket ⟨b, i⟩ := ⟨hb, hi⟩
    split at h
    · cases h
      refine inv.goto_plain ⟨hb, ?_⟩ rfl rfl
      intro f hf
      cases hfr : free with
      | none =>
        rw [hfr] at hf
        cases hf
        exact hslot
      | some g =>
        rw [hfr] at hf
        cases hf
        exact hfree f (by rw [hfr]; rfl)
    · rename_i hne
      split at h
      · rename_i hfound
        cases h
        exact inv.ret ⟨hslot, hne, hfound⟩
      · cases h
        exact inv.goto_plain ⟨hb, hfree⟩ rfl rfl
  · split at h
    · rename_i b' _ hnext
      cases h
      exact inv.goto_plain ⟨(inv.linked.next_bucket hb hnext).1, hfree⟩ rfl rfl
    · rename_i f _
      cases h
      exact inv.goto_plain (c := .claiming k f) (hfree f rfl) rfl rfl
    · cases h
      exact inv.goto_plain (c := .allocating k b (s.overflow b)) hb rfl rfl

theorem Inv.stepPc (inv : Inv s) (h : TagProtocol.stepPc size s t (s.pc t) = some s') : Inv s' := by
  have hok := inv.pcs t
  cases hpc : s.pc t with
  | idle =>
    rw [hpc] at h
    cases h
  | finding k b i =>
    rw [hpc] at h hok
    simp only [TagProtocol.stepPc] at h
    split at h
    · rename_i hi
      split at h
      · rename_i hfound
        cases h
        exact inv.ret ⟨⟨hok, hi⟩, hfound⟩
      · cases h
        exact inv.goto_plain (c := .finding k b (i + 1)) hok rfl rfl
    · split at h
      · rename_i b' hnext
        cases h
        exact inv.goto_plain (c := .finding k b' 0) (inv.linked.next_bucket hok hnext).1 rfl rfl
      · cases h
        exact inv.goto_plain trivial rfl rfl
  | scanning k b i free =>
    rw [hpc] at h
    exact inv.scan hpc h
  | allocating k b w =>
    rw [hpc] at h hok
    simp only [TagProtocol.stepPc, Option.ite_none_right_eq_some, Option.some.injEq] at h
    obtain ⟨-, rfl⟩ := h
    have hgrown : Inv { s with overflowNext := s.overflowNext + 1 } :=
      inv.arena (fun _ => rfl) (Nat.le_succ _)
    refine hgrown.goto hok ?_ ?_ ?_
    · intro addr haddr
      cases haddr
      refine ⟨⟨?_, Nat.lt_succ_self _, ?_⟩, ?_⟩
      · exact Nat.ne_of_gt inv.linked.positive
      · intro bi hmem
        exact absurd (inv.linked.below bi _ hmem) (Nat.lt_irrefl _)
      · intro u _ hu
        exact absurd (inv.pending u _ hu).2.1 (Nat.lt_irrefl _)
    · intro k' p hc
      cases hc
    · intro k' p x hc
      cases hc
  | linking k b newAddr cur =>
    rw [hpc] at h hok
    have hpend : (s.pc t).pending = some newAddr := by rw [hpc]; rfl
    have hrescan : Inv (s.goto t (.scanning k b 0 none)) := by
      refine inv.goto_plain ⟨hok, ?_⟩ rfl rfl
      intro f hf
      cases hf
    simp only [TagProtocol.stepPc] at h
    split at h
    · cases h
      exact hrescan
    · rename_i hnext
      split at h
      · rename_i hcur
        cases h
        obtain ⟨hne, hlt, hnew⟩ := inv.pending t newAddr hpend
        refine hrescan.link hok hcur (by simpa using hnext) hne hlt hnew ?_
        intro u hu
        by_cases hut : u = t
        · rw [hut, goto_pc] at hu
          cases hu
        · rw [goto_pc_of_ne s _ hut] at hu
          exact hut (inv.pendingUnique u t newAddr hu hpend)
      · cases h
        refine inv.goto (c := .linking k b newAddr (s.overflow b)) hok ?_ ?_ ?_
        · intro addr haddr
          cases haddr
          exact ⟨inv.pending t newAddr hpend,
            fun u hut hu => hut (inv.pendingUnique u t newAddr hu hpend)⟩
        · intro k' p hc
          cases hc
        · intro k' p x hc
          cases hc
  | claiming k free =>
    rw [hpc] at h hok
    simp only [TagProtocol.stepPc] at h
    split at h
    · cases h
      exact inv.claim hok ‹_›
    · cases h
      exact inv.restart k
  | rescanning k mine b i =>
    rw [hpc] at h
    exact inv.rescan hpc h
  | clearing k mine =>
    rw [hpc] at h
    cases h
    exact inv.clear hpc
  | finalizing k mine =>
    rw [hpc] at h
    cases h
    exact inv.finalize hpc

theorem Inv.step {l : Label Thread} (inv : Inv s) (h : next size s l = some s') : Inv s' := by
  cases l with
  | findTag t hash =>
    simp only [next, Option.ite_none_right_eq_some, Option.some.injEq] at h
    obtain ⟨-, rfl⟩ := h
    exact inv.goto_plain (inv.linked.main_mem _) rfl rfl
  | findOrCreateTag t hash =>
    simp only [next, Option.ite_none_right_eq_some, Option.some.injEq] at h
    obtain ⟨-, rfl⟩ := h
    exact inv.restart _
  | latch b bits =>
    cases h
    refine inv.arena (fun b' => OverflowWord.bucket_congr ?_) (Nat.le_refl _)
    by_cases hb : b' = b
    · rw [hb, Function.update_self]
    · rw [Function.update_of_ne hb]
  | step t => exact inv.stepPc h

theorem inv_run {ls : List (Label Thread)} (h : Lts.Runs (next size) initial ls s) : Inv s :=
  h.invariant (fun inv _ hnext => inv.step hnext) inv_new

/-- **One index entry per tag.**  In every reachable state each bucket chain holds
    at most one permanent entry for each tag, and calls with the same bucket and
    tag have all returned the same slot. -/
theorem one_entry_per_tag {ls : List (Label Thread)} (h : Lts.Runs (next size) initial ls s) :
    (∀ bi p q, InChain s bi p.bucket → p.entry < ENTRIES_PER_BUCKET →
      InChain s bi q.bucket → q.entry < ENTRIES_PER_BUCKET →
      s.entries p ≠ .zero → s.entries q ≠ .zero →
      (s.entries p).tentative = false → (s.entries q).tentative = false →
      (s.entries p).tag = (s.entries q).tag → p = q) ∧
    ∀ k p q, (k, p) ∈ s.returned → (k, q) ∈ s.returned → p = q := by
  have inv : Inv s := inv_run h
  constructor
  · intro bi p q hp hip hq hiq hnp hnq hpermp hpermq htag
    have hinp : SlotIn s.chains bi p := ⟨inv.linked.mem_of_inChain hp, hip⟩
    have hinq : SlotIn s.chains bi q := ⟨inv.linked.mem_of_inChain hq, hiq⟩
    exact inv.one_entry (k := ⟨bi, (s.entries p).tag⟩) ⟨hinp, hnp, rfl, hpermp⟩
      ⟨hinq, hnq, htag.symm, hpermq⟩
  · intro k p q hp hq
    exact inv.one_entry (inv.returned _ hp) (inv.returned _ hq)

end Main

/-- Thread 1 finds the slot free as well, but its claim comes too late; in its
    second pass it finds the entry of thread 0. -/
def race : List (Label ℕ) :=
  [.findOrCreateTag 0 0, .findOrCreateTag 1 0] ++ List.replicate 8 (.step 1) ++
  List.replicate 18 (.step 0) ++ List.replicate 2 (.step 1)

theorem one_entry_per_tag_race :
    ∃ s : State ℕ, s.returned.length = 2 ∧
      ∀ p q, (⟨0, 0⟩, p) ∈ s.returned → (⟨0, 0⟩, q) ∈ s.returned → p = q := by
  obtain ⟨s, hs, hp⟩ := Lts.exists_runs (next 2) (initial : State ℕ) race
    (fun s => s.returned.length = 2) (by decide +kernel)
  exact ⟨s, by simpa using hp, (one_entry_per_tag hs).2 ⟨0, 0⟩⟩

end Tsavorite.TagProtocol
