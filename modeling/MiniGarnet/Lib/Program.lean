import Mathlib.Data.List.Basic

/-! # Programs over operations

    A program performs operations of a type `E` one after another and goes on
    with their results; what an operation does is left open.  The same
    program can be run at once against a state (`run`), or one operation at a
    time, interleaved with other programs.

    `Sat P Q` says that every operation the program can perform, whatever the
    results of the earlier ones, meets `P`, and that it returns only values
    that meet `Q`.  `Follows T Q` says the same of a program whose operations
    move a typestate along the relation `T`, and `Ensures A Q` that it
    returns only values that meet `Q` as long as the operations have results
    that meet `A`.  Facts about a program are derived from facts about its
    parts by the rules for `bind`.
-/

inductive Program (E : Type) (R : E → Type) (α : Type) where
  | ret (a : α) : Program E R α
  | op (e : E) (k : R e → Program E R α) : Program E R α

namespace Program

variable {E : Type} {R : E → Type} {α β σ : Type}

protected def bind : Program E R α → (α → Program E R β) → Program E R β
  | .ret a, f => f a
  | .op e k, f => .op e fun r => (k r).bind f

instance : Monad (Program E R) where
  pure := .ret
  bind := Program.bind

/-- A single operation. -/
def perform (e : E) : Program E R (R e) := .op e .ret

@[simp] theorem ret_bind (a : α) (f : α → Program E R β) : (.ret a : Program E R α) >>= f = f a := rfl

@[simp] theorem pure_eq (a : α) : (pure a : Program E R α) = .ret a := rfl

@[simp] theorem op_bind (e : E) (k : R e → Program E R α) (f : α → Program E R β) :
    (.op e k : Program E R α) >>= f = .op e fun r => k r >>= f := rfl

theorem bind_assoc {γ : Type} (p : Program E R α) (f : α → Program E R β)
    (g : β → Program E R γ) : p >>= f >>= g = p >>= fun a => f a >>= g := by
  induction p with
  | ret a => rfl
  | op e k ih => exact congrArg (Program.op e) (funext fun r => ih r)

/-- Every operation the program may perform meets `P`, and every result `Q`. -/
def Sat (P : E → Prop) (Q : α → Prop) : Program E R α → Prop
  | .ret a => Q a
  | .op e k => P e ∧ ∀ r, (k r).Sat P Q

theorem Sat.bind {P : E → Prop} {Q : α → Prop} {Q' : β → Prop} {p : Program E R α}
    {f : α → Program E R β} (hp : p.Sat P Q) (hf : ∀ a, Q a → (f a).Sat P Q') :
    (p >>= f).Sat P Q' := by
  induction p with
  | ret a => exact hf a hp
  | op e k ih => exact ⟨hp.1, fun r => ih r (hp.2 r)⟩

section Typestate

variable {S : Type} {T : S → E → S → Prop} {Q : α → S → Prop} {o : S}

/-- From the typestate on the right, every operation is one that `T` allows there, and
    every result meets `Q` in the typestate the program ends in. -/
def Follows (T : S → E → S → Prop) (Q : α → S → Prop) : Program E R α → S → Prop
  | .ret a, o => Q a o
  | .op e k, o => ∃ o', T o e o' ∧ ∀ r, (k r).Follows T Q o'

theorem Follows.bind {Q' : β → S → Prop} {p : Program E R α} {f : α → Program E R β}
    (hp : p.Follows T Q o) (hf : ∀ a o', Q a o' → (f a).Follows T Q' o') :
    (p >>= f).Follows T Q' o := by
  induction p generalizing o with
  | ret a => exact hf a o hp
  | op e k ih =>
    obtain ⟨o', hstep, hrest⟩ := hp
    exact ⟨o', hstep, fun r => ih r (hrest r)⟩

theorem Follows.imp {Q' : α → S → Prop} {p : Program E R α} (hp : p.Follows T Q o)
    (hQ : ∀ a o', Q a o' → Q' a o') : p.Follows T Q' o := by
  induction p generalizing o with
  | ret a => exact hQ a o hp
  | op e k ih =>
    obtain ⟨o', hstep, hrest⟩ := hp
    exact ⟨o', hstep, fun r => ih r (hrest r)⟩

/-- A program whose operations are allowed in one typestate and stay in it. -/
theorem Sat.follows {P : E → Prop} {q : α → Prop} {p : Program E R α} (hp : p.Sat P q)
    (hP : ∀ e, P e → T o e o) : p.Follows T (fun a o' => q a ∧ o' = o) o := by
  induction p with
  | ret a => exact ⟨hp, rfl⟩
  | op e k ih => exact ⟨o, hP e hp.1, fun r => ih r (hp.2 r)⟩

end Typestate

/-- Whatever results that meet `A` the operations have, the program returns a value that
    meets `Q`. -/
def Ensures (A : (e : E) → R e → Prop) (Q : α → Prop) : Program E R α → Prop
  | .ret a => Q a
  | .op e k => ∀ r, A e r → (k r).Ensures A Q

section Ensures

variable {A : (e : E) → R e → Prop} {Q : α → Prop}

theorem Ensures.bind {Q' : β → Prop} {p : Program E R α} {f : α → Program E R β}
    (hp : p.Ensures A Q) (hf : ∀ a, Q a → (f a).Ensures A Q') : (p >>= f).Ensures A Q' := by
  induction p with
  | ret a => exact hf a hp
  | op e k ih => exact fun r hr => ih r (hp r hr)

theorem Ensures.imp {Q' : α → Prop} {p : Program E R α} (hp : p.Ensures A Q)
    (hQ : ∀ a, Q a → Q' a) : p.Ensures A Q' := by
  induction p with
  | ret a => exact hQ a hp
  | op e k ih => exact fun r hr => ih r (hp r hr)

end Ensures

/-- Run the program against a state. -/
def run (handle : (e : E) → σ → R e × σ) : Program E R α → σ → α × σ
  | .ret a, s => (a, s)
  | .op e k, s => (k (handle e s).1).run handle (handle e s).2

theorem run_bind (handle : (e : E) → σ → R e × σ) (p : Program E R α) (f : α → Program E R β)
    (s : σ) : (p >>= f).run handle s = (f (p.run handle s).1).run handle (p.run handle s).2 := by
  induction p generalizing s with
  | ret a => rfl
  | op e k ih => exact ih _ _

/-- A run against a state that answers as `A` says. -/
theorem Ensures.run {A : (e : E) → R e → Prop} {Q : α → Prop} {p : Program E R α}
    (hp : p.Ensures A Q) (handle : (e : E) → σ → R e × σ) (hA : ∀ e s, A e (handle e s).1)
    (s : σ) : Q (p.run handle s).1 := by
  induction p generalizing s with
  | ret a => exact hp
  | op e k ih => exact ih _ (hp _ (hA e s)) _

/-- What `note` makes of the operations of a run, with their results and the states before and
    after. -/
def trace {τ : Type} (handle : (e : E) → σ → R e × σ)
    (note : (e : E) → R e → σ → σ → Option τ) : Program E R α → σ → List τ
  | .ret _, _ => []
  | .op e k, s =>
    (note e (handle e s).1 s (handle e s).2).toList ++
      (k (handle e s).1).trace handle note (handle e s).2

theorem trace_bind {τ : Type} (handle : (e : E) → σ → R e × σ)
    (note : (e : E) → R e → σ → σ → Option τ) (p : Program E R α) (f : α → Program E R β) (s : σ) :
    (p >>= f).trace handle note s =
      p.trace handle note s ++
        (f (p.run handle s).1).trace handle note (p.run handle s).2 := by
  induction p generalizing s with
  | ret a => rfl
  | op e k ih =>
    show _ ++ Program.trace handle note (k (handle e s).1 >>= f) (handle e s).2 = _
    rw [ih, ← List.append_assoc]
    rfl

end Program
