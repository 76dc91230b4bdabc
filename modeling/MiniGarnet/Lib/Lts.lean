import Mathlib.Data.List.Basic

/-! # Executable transition systems

    A transition system here is a partial step function `next : σ → ℓ → Option σ`:
    `next s l = none` means that `l` is not enabled in `s`.  Nondeterminism
    (which thread moves, which size it asks for) lives in the labels, so a
    concrete interleaving is a list of labels and can be evaluated by `run`.

    Most results in this development hold for the runs *all of whose steps
    meet a condition*.  `Steps next ok` is that notion of run, and the rules
    below are the two inductions over it: one for state invariants and one
    for relations between an earlier and a later state.
-/

namespace Lts

variable {σ ℓ : Type*}

/-- `Steps next ok s ls s'`: the labels `ls` lead from `s` to `s'`, and every
    step met `ok` in the state in which it was taken. -/
inductive Steps (next : σ → ℓ → Option σ) (ok : σ → ℓ → Prop) : σ → List ℓ → σ → Prop where
  | nil (s : σ) : Steps next ok s [] s
  | cons {s s' s'' : σ} {l : ℓ} {ls : List ℓ} :
      ok s l → next s l = some s' → Steps next ok s' ls s'' → Steps next ok s (l :: ls) s''

/-- Runs without a condition on their steps. -/
abbrev Runs (next : σ → ℓ → Option σ) : σ → List ℓ → σ → Prop :=
  Steps next (fun _ _ => True)

/-- Evaluate a list of labels. -/
def run (next : σ → ℓ → Option σ) : σ → List ℓ → Option σ
  | s, [] => some s
  | s, l :: ls => (next s l).bind fun s' => run next s' ls

/-- Evaluate a list of labels, checking the condition on each step. -/
def runChecked (next : σ → ℓ → Option σ) (ok : σ → ℓ → Prop) [∀ s l, Decidable (ok s l)] :
    σ → List ℓ → Option σ
  | s, [] => some s
  | s, l :: ls => if ok s l then (next s l).bind fun s' => runChecked next ok s' ls else none

variable {next : σ → ℓ → Option σ} {ok : σ → ℓ → Prop}

theorem runs_of_run {s s' : σ} {ls : List ℓ} (h : run next s ls = some s') :
    Runs next s ls s' := by
  induction ls generalizing s with
  | nil =>
    simp only [run, Option.some.injEq] at h
    subst h
    exact .nil s
  | cons l ls ih =>
    simp only [run, Option.bind_eq_some_iff] at h
    obtain ⟨s₁, hs₁, hrun⟩ := h
    exact .cons trivial hs₁ (ih hrun)

theorem steps_of_runChecked [∀ s l, Decidable (ok s l)] {s s' : σ} {ls : List ℓ}
    (h : runChecked next ok s ls = some s') : Steps next ok s ls s' := by
  induction ls generalizing s with
  | nil =>
    simp only [runChecked, Option.some.injEq] at h
    subst h
    exact .nil s
  | cons l ls ih =>
    simp only [runChecked, Option.ite_none_right_eq_some, Option.bind_eq_some_iff] at h
    obtain ⟨hok, s₁, hs₁, hrun⟩ := h
    exact .cons hok hs₁ (ih hrun)

/-- A trace whose final state satisfies `p`. -/
theorem exists_runs (next : σ → ℓ → Option σ) (s : σ) (ls : List ℓ) (p : σ → Bool)
    (h : (run next s ls).map p = some true) : ∃ s', Runs next s ls s' ∧ p s' = true := by
  cases hr : run next s ls with
  | none => simp [hr] at h
  | some s' => exact ⟨s', runs_of_run hr, by simpa [hr] using h⟩

/-- A trace whose steps all meet the condition and whose final state satisfies `p`. -/
theorem exists_steps (next : σ → ℓ → Option σ) (ok : σ → ℓ → Prop) [∀ s l, Decidable (ok s l)]
    (s : σ) (ls : List ℓ) (p : σ → Bool)
    (h : (runChecked next ok s ls).map p = some true) :
    ∃ s', Steps next ok s ls s' ∧ p s' = true := by
  cases hr : runChecked next ok s ls with
  | none => simp [hr] at h
  | some s' => exact ⟨s', steps_of_runChecked hr, by simpa [hr] using h⟩

/-- **Invariant rule**: what every permitted step preserves holds after a run. -/
theorem Steps.invariant {P : σ → Prop} {s s' : σ} {ls : List ℓ}
    (hrun : Steps next ok s ls s')
    (hstep : ∀ {s s' : σ} {l : ℓ}, P s → ok s l → next s l = some s' → P s')
    (h : P s) : P s' := by
  induction hrun with
  | nil => exact h
  | cons hok hnext _ ih => exact ih (hstep h hok hnext)

/-- **Two-state rule**: a reflexive and transitive relation that every permitted
    step from an invariant state establishes holds between the two ends of a run. -/
theorem Steps.relation {Inv : σ → Prop} {R : σ → σ → Prop} {s s' : σ} {ls : List ℓ}
    (hrun : Steps next ok s ls s')
    (hinv : ∀ {s s' : σ} {l : ℓ}, Inv s → ok s l → next s l = some s' → Inv s')
    (hrefl : ∀ s, R s s)
    (htrans : ∀ {a b c : σ}, R a b → R b c → R a c)
    (hstep : ∀ {s s' : σ} {l : ℓ}, Inv s → ok s l → next s l = some s' → R s s')
    (h : Inv s) : R s s' := by
  induction hrun with
  | nil => exact hrefl _
  | cons hok hnext _ ih => exact htrans (hstep h hok hnext) (ih (hinv h hok hnext))

/-- Runs meet every condition that follows, label by label, from theirs. -/
theorem Steps.imp {ok' : σ → ℓ → Prop} {s s' : σ} {ls : List ℓ} (h : Steps next ok s ls s')
    (himp : ∀ l ∈ ls, ∀ s, ok s l → ok' s l) : Steps next ok' s ls s' := by
  induction h with
  | nil => exact .nil _
  | cons hok hnext _ ih =>
    refine .cons (himp _ List.mem_cons_self _ hok) hnext (ih ?_)
    intro l hl
    exact himp l (List.mem_cons_of_mem _ hl)

/-- A run is one of another system that can take the same steps under other labels. -/
theorem Steps.relabel {ℓ' : Type*} {next' : σ → ℓ' → Option σ} {ok' : σ → ℓ' → Prop} {s s' : σ}
    {ls : List ℓ} (φ : ℓ → ℓ') (h : Steps next ok s ls s')
    (hstep : ∀ {s s' l}, ok s l → next s l = some s' → ok' s (φ l) ∧ next' s (φ l) = some s') :
    Steps next' ok' s (ls.map φ) s' := by
  induction h with
  | nil => exact .nil _
  | cons hok hnext _ ih =>
    obtain ⟨hok', hnext'⟩ := hstep hok hnext
    exact .cons hok' hnext' ih

theorem Steps.append {s s' s'' : σ} {ls ls' : List ℓ}
    (h : Steps next ok s ls s') (h' : Steps next ok s' ls' s'') :
    Steps next ok s (ls ++ ls') s'' := by
  induction h with
  | nil => exact h'
  | cons hok hnext _ ih => exact .cons hok hnext (ih h')

end Lts
