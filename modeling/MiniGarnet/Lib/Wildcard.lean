import Mathlib.Data.List.Basic

/-! # Wildcard patterns

    A pattern is a list of elements, each a star or a test of one symbol.
    `accepts` is the recursive matcher that tries every split at every star.
    A matcher that walks forward and keeps only the last star is complete
    because a later star makes the earlier ones superfluous (`star_last`).
-/

namespace Wildcard

variable {α : Type*}

/-- One element of a pattern. -/
inductive Element (α : Type*) where
  /-- Any run of symbols. -/
  | star
  /-- One symbol that passes the test. -/
  | one (test : α → Bool)

/-- Some suffix passes. -/
def anySuffix (f : List α → Bool) : List α → Bool
  | [] => f []
  | c :: s => f (c :: s) || anySuffix f s

/-- The naive matcher: a star tries every suffix of what is left of the subject. -/
def accepts : List (Element α) → List α → Bool
  | [] => fun s => s.isEmpty
  | .star :: ps => anySuffix (accepts ps)
  | .one test :: ps => fun
    | [] => false
    | c :: s => test c && accepts ps s

variable {ps : List (Element α)} {s : List α}

@[simp] theorem accepts_star_nil : accepts (.star :: ps) ([] : List α) = accepts ps [] := rfl

@[simp] theorem accepts_one_nil {test : α → Bool} :
    accepts (.one test :: ps) ([] : List α) = false := rfl

@[simp] theorem accepts_one_cons {test : α → Bool} {c : α} :
    accepts (.one test :: ps) (c :: s) = (test c && accepts ps s) := rfl

/-- A star is done, or it has moved one symbol on. -/
theorem accepts_star : accepts (.star :: ps) s = (accepts ps s || accepts (.star :: ps) s.tail) := by
  cases s with
  | nil => simp
  | cons c s => rfl

/-- A star takes any run of symbols. -/
theorem accepts_star_iff : accepts (.star :: ps) s = true ↔ ∃ k, accepts ps (s.drop k) = true := by
  induction s with
  | nil => simp
  | cons c s ih =>
    rw [accepts_star, Bool.or_eq_true, List.tail_cons, ih]
    constructor
    · rintro (hnow | ⟨k, hk⟩)
      · exact ⟨0, hnow⟩
      · exact ⟨k + 1, hk⟩
    · rintro ⟨k, hk⟩
      cases k with
      | zero => exact Or.inl hk
      | succ k => exact Or.inr ⟨k, hk⟩

/-! ## Runs without a star -/

/-- The element takes exactly one symbol. -/
def Element.isOne : Element α → Bool
  | .star => false
  | .one _ => true

/-- Elements without a star take as many symbols as they are. -/
theorem accepts_ones {us : List (Element α)} (hus : ∀ u ∈ us, u.isOne = true)
    (h : accepts (us ++ ps) s = true) :
    us.length ≤ s.length ∧ accepts ps (s.drop us.length) = true := by
  induction us generalizing s with
  | nil => exact ⟨Nat.zero_le _, h⟩
  | cons u us ih =>
    have hhead := hus u List.mem_cons_self
    cases u with
    | star => exact absurd hhead Bool.false_ne_true
    | one test =>
      cases s with
      | nil =>
        rw [List.cons_append, accepts_one_nil] at h
        exact absurd h Bool.false_ne_true
      | cons c s =>
        rw [List.cons_append, accepts_one_cons, Bool.and_eq_true] at h
        obtain ⟨hlen, hrest⟩ := ih (fun v hv => hus v (List.mem_cons_of_mem _ hv)) h.2
        exact ⟨Nat.succ_le_succ hlen, hrest⟩

/-- The last star suffices: what an earlier star accepts from one symbol further on, a star
    met after `us` accepts from where it was met. -/
theorem star_last {us : List (Element α)} (hus : ∀ u ∈ us, u.isOne = true) {k : ℕ}
    (h : accepts (.star :: (us ++ .star :: ps)) (s.drop k) = true) :
    accepts (.star :: ps) (s.drop us.length) = true := by
  obtain ⟨i, hi⟩ := accepts_star_iff.mp h
  obtain ⟨-, hstar⟩ := accepts_ones hus hi
  obtain ⟨j, hj⟩ := accepts_star_iff.mp hstar
  rw [List.drop_drop, List.drop_drop, List.drop_drop] at hj
  -- The symbols skipped by both stars are skipped by the later one alone.
  apply accepts_star_iff.mpr
  refine ⟨k + i + j, ?_⟩
  rw [List.drop_drop]
  convert hj using 2
  congr 1
  omega

/-- At the end of the subject nothing is left to gain from an earlier star. -/
theorem star_end {us : List (Element α)} (hus : ∀ u ∈ us, u.isOne = true) {k : ℕ}
    (hk : s.length ≤ k + us.length) (h : accepts (.star :: (us ++ ps)) (s.drop k) = true) :
    accepts ps [] = true := by
  obtain ⟨i, hi⟩ := accepts_star_iff.mp h
  obtain ⟨-, hps⟩ := accepts_ones hus hi
  rw [List.drop_drop, List.drop_drop, List.drop_of_length_le (by omega)] at hps
  exact hps

/-- Without symbols, stars are all that is accepted. -/
theorem accepts_end (ps : List (Element α)) :
    accepts ps [] = ps.all fun e => !e.isOne := by
  induction ps with
  | nil => rfl
  | cons e ps ih =>
    cases e with
    | star => rw [accepts_star_nil, ih]; rfl
    | one test => rw [accepts_one_nil]; rfl

end Wildcard
