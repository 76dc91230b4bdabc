import Mathlib.Data.List.Sort
import MiniGarnet.Garnet.Commands
import MiniGarnet.Tsavorite.Chains

/-! # The latches of a transaction

    `txn_lock` (`store.rs`) maps the keys of a transaction to buckets, sorts
    them with exclusive requests first, and keeps the first request of each
    bucket.  So every key is protected, one that is written by an exclusive
    latch, and the latches are taken in ascending order.
-/

namespace Garnet

open Tsavorite (keySlot)

/-! ## Section 1: The list of latches -/

/-- The order of `sort_by_key` in `txn_lock`: by bucket, exclusive first. -/
def lockLe (x y : ℕ × LockType) : Prop :=
  x.1 < y.1 ∨ x.1 = y.1 ∧ (x.2 = .exclusive ∨ y.2 = .shared)

instance : DecidableRel lockLe := fun _ _ => inferInstanceAs (Decidable (_ ∨ _))

/-- `dedup_by_key` on the bucket, behind an element of the given bucket. -/
def dedupBuckets : Option ℕ → List (ℕ × LockType) → List (ℕ × LockType)
  | _, [] => []
  | last, x :: rest =>
    if last = some x.1 then dedupBuckets last rest else x :: dedupBuckets (some x.1) rest

/-- The main-table bucket of a key. -/
def bucketOf (mask : ℕ) (key : Bytes) : ℕ := (keySlot mask key).bucket

/-- The latches `txn_lock` takes, in its order. -/
def wantedLocks (mask : ℕ) (keys : List (Bytes × LockType)) : List (ℕ × LockType) :=
  dedupBuckets none ((keys.map fun x => (bucketOf mask x.1, x.2)).insertionSort lockLe)

/-! ## Section 2: The latches protect the keys -/

/-- The latches protect the keys: an exclusive key has an exclusive latch. -/
def Covers (mask : ℕ) (locks : List (Bytes × LockType)) (held : List (ℕ × LockType)) : Prop :=
  ∀ x ∈ locks, ∃ y ∈ held, y.1 = bucketOf mask x.1 ∧ (x.2 = .exclusive → y.2 = .exclusive)

/-- No bucket twice. -/
def Distinct (held : List (ℕ × LockType)) : Prop := held.Pairwise fun x y => x.1 ≠ y.1

instance : Std.Total lockLe where
  total x y := by
    unfold lockLe
    rcases Nat.lt_trichotomy x.1 y.1 with h | h | h
    · exact .inl (.inl h)
    · cases hx : x.2 with
      | exclusive => exact .inl (.inr ⟨h, .inl rfl⟩)
      | shared => exact .inr (.inr ⟨h.symm, .inr rfl⟩)
    · exact .inr (.inl h)

instance : IsTrans (ℕ × LockType) lockLe where
  trans x y z hxy hyz := by
    unfold lockLe at *
    rcases hxy with hxy | ⟨hxy, hxy'⟩
    · rcases hyz with hyz | ⟨hyz, -⟩
      · exact .inl (hxy.trans hyz)
      · exact .inl (hyz ▸ hxy)
    · rcases hyz with hyz | ⟨hyz, hyz'⟩
      · exact .inl (hxy ▸ hyz)
      · refine .inr ⟨hxy.trans hyz, ?_⟩
        rcases hxy' with hxy' | hxy'
        · exact .inl hxy'
        · rcases hyz' with hyz' | hyz'
          · rw [hxy'] at hyz'
            cases hyz'
          · exact .inr hyz'

/-- Of each bucket the first element stays, and that is an exclusive one if there is one. -/
theorem dedupBuckets_covers {l : List (ℕ × LockType)} (h : l.Pairwise lockLe) (last : Option ℕ)
    {x : ℕ × LockType} (hx : x ∈ l) (hlast : last ≠ some x.1) :
    ∃ y ∈ dedupBuckets last l, y.1 = x.1 ∧ (x.2 = .exclusive → y.2 = .exclusive) := by
  induction l generalizing last with
  | nil => cases hx
  | cons z l ih =>
    rw [List.pairwise_cons] at h
    rw [dedupBuckets]
    rcases List.mem_cons.mp hx with rfl | hx
    · rw [if_neg hlast]
      exact ⟨x, List.mem_cons_self, rfl, id⟩
    · split
      · exact ih h.2 last hx hlast
      · by_cases hz : z.1 = x.1
        · refine ⟨z, List.mem_cons_self, hz, fun hex => ?_⟩
          rcases h.1 x hx with hlt | ⟨-, hz' | hx'⟩
          · omega
          · exact hz'
          · rw [hex] at hx'
            cases hx'
        · obtain ⟨y, hy, hyx⟩ := ih h.2 (some z.1) hx (by simpa using hz)
          exact ⟨y, List.mem_cons_of_mem _ hy, hyx⟩

theorem dedupBuckets_ascending {l : List (ℕ × LockType)} (h : l.Pairwise lockLe) (last : Option ℕ)
    (hlast : ∀ b, last = some b → ∀ x ∈ l, b ≤ x.1) :
    (dedupBuckets last l).Pairwise (fun x y => x.1 < y.1) ∧
      ∀ b, last = some b → ∀ x ∈ dedupBuckets last l, b < x.1 := by
  induction l generalizing last with
  | nil => exact ⟨.nil, fun _ _ _ hx => by cases hx⟩
  | cons z l ih =>
    rw [List.pairwise_cons] at h
    rw [dedupBuckets]
    have hz : ∀ x ∈ l, z.1 ≤ x.1 := by
      intro x hx
      rcases h.1 x hx with hlt | ⟨heq, -⟩ <;> omega
    split
    · exact ih h.2 last fun b hb x hx => hlast b hb x (List.mem_cons_of_mem _ hx)
    · rename_i hne
      obtain ⟨hrest, habove⟩ := ih h.2 (some z.1) fun b hb x hx => by cases hb; exact hz x hx
      refine ⟨List.pairwise_cons.mpr ⟨habove z.1 rfl, hrest⟩, fun b hb x hx => ?_⟩
      have hbz : b < z.1 := by
        have hle := hlast b hb z List.mem_cons_self
        have hneq : b ≠ z.1 := fun h => hne (h ▸ hb)
        omega
      rcases List.mem_cons.mp hx with rfl | hx
      · exact hbz
      · exact hbz.trans (habove z.1 rfl x hx)

theorem wantedLocks_covers (mask : ℕ) (keys : List (Bytes × LockType)) :
    Covers mask keys (wantedLocks mask keys) := by
  intro x hx
  have hsorted := List.pairwise_insertionSort lockLe (keys.map fun x => (bucketOf mask x.1, x.2))
  have hmem : (bucketOf mask x.1, x.2) ∈
      (keys.map fun x => (bucketOf mask x.1, x.2)).insertionSort lockLe := by
    rw [List.mem_insertionSort]
    exact List.mem_map_of_mem hx
  exact dedupBuckets_covers hsorted none hmem (by simp)

theorem mem_of_mem_dedupBuckets {last : Option ℕ} {l : List (ℕ × LockType)} {x : ℕ × LockType}
    (hx : x ∈ dedupBuckets last l) : x ∈ l := by
  induction l generalizing last with
  | nil => cases hx
  | cons z l ih =>
    rw [dedupBuckets] at hx
    split at hx
    · exact List.mem_cons_of_mem _ (ih hx)
    · rcases List.mem_cons.mp hx with rfl | hx
      · exact List.mem_cons_self
      · exact List.mem_cons_of_mem _ (ih hx)

/-- Only buckets of keys are latched. -/
theorem wantedLocks_bucket {mask : ℕ} {keys : List (Bytes × LockType)} {x : ℕ × LockType}
    (hx : x ∈ wantedLocks mask keys) : ∃ y ∈ keys, x.1 = bucketOf mask y.1 := by
  have hmem := mem_of_mem_dedupBuckets hx
  rw [List.mem_insertionSort] at hmem
  obtain ⟨y, hy, rfl⟩ := List.mem_map.mp hmem
  exact ⟨y, hy, rfl⟩

/-- The latches are taken in ascending order of their buckets, each once. -/
theorem wantedLocks_ascending (mask : ℕ) (keys : List (Bytes × LockType)) :
    (wantedLocks mask keys).Pairwise fun x y => x.1 < y.1 := by
  have hsorted := List.pairwise_insertionSort lockLe (keys.map fun x => (bucketOf mask x.1, x.2))
  exact (dedupBuckets_ascending hsorted none fun b hb => by cases hb).1

theorem wantedLocks_distinct (mask : ℕ) (keys : List (Bytes × LockType)) :
    Distinct (wantedLocks mask keys) :=
  (wantedLocks_ascending mask keys).imp fun hlt => Nat.ne_of_lt hlt

end Garnet
