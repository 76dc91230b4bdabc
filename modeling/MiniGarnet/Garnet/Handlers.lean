import MiniGarnet.Garnet.Commands

/-! # What handlers return

    Rules for what a handler returns and how it leaves the session, given
    what the shared state may answer.  `I` is the invariant of the session,
    `A` the answers that are possible.
-/

namespace Garnet

/-- From a session that meets `I`, with answers that meet `A`, the handler returns a value that
    meets `Q` and leaves a session that meets `I`. -/
def Handler.Ensures (I : RespSession → Prop) (A : (e : Effect) → e.Result → Prop) {α : Type}
    (Q : α → Prop) (h : Handler α) : Prop :=
  ∀ s, I s → (h s).Ensures A fun x => Q x.1 ∧ I x.2

namespace Handler

variable {I : RespSession → Prop} {A : (e : Effect) → e.Result → Prop} {α β : Type}
  {Q : α → Prop} {Q' : β → Prop}

theorem ensures_pure {a : α} (h : Q a) : Handler.Ensures I A Q (pure a) := fun _ hs => ⟨h, hs⟩

theorem Ensures.bind {h : Handler α} {f : α → Handler β} (hh : h.Ensures I A Q)
    (hf : ∀ a, Q a → (f a).Ensures I A Q') : Handler.Ensures I A Q' (h >>= f) :=
  fun s hs => (hh s hs).bind fun x hx => hf x.1 hx.1 x.2 hx.2

theorem Ensures.imp {h : Handler α} {Q' : α → Prop} (hh : h.Ensures I A Q)
    (hQ : ∀ a, Q a → Q' a) : h.Ensures I A Q' :=
  fun s hs => (hh s hs).imp fun x hx => ⟨hQ x.1 hx.1, hx.2⟩

theorem ensures_get : Handler.Ensures I A I (get : Handler RespSession) := fun _ hs => ⟨hs, hs⟩

theorem ensures_modify {f : RespSession → RespSession} (hf : ∀ s, I s → I (f s)) :
    Handler.Ensures I A (fun _ => True) (modify f : Handler PUnit) := fun s hs => ⟨trivial, hf s hs⟩

theorem ensures_set {s : RespSession} (hs : I s) :
    Handler.Ensures I A (fun _ => True) (set s : Handler PUnit) := fun _ _ => ⟨trivial, hs⟩

theorem ensures_perform (e : Effect) : Handler.Ensures I A (A e) (perform e) :=
  fun _ hs _ hr => ⟨hr, hs⟩

theorem ensures_ite {c : Prop} [Decidable c] {h h' : Handler α} (hh : c → h.Ensures I A Q)
    (hh' : ¬ c → h'.Ensures I A Q) : Handler.Ensures I A Q (if c then h else h') := by
  split
  · rename_i hc
    exact hh hc
  · rename_i hc
    exact hh' hc

/-- The two branches of a `do` block with one continuation. -/
theorem ensures_guarded {c : Prop} [Decidable c] {h : Handler Unit} {f : Unit → Handler β}
    (hh : h.Ensures I A fun _ => True) (hf : ∀ u, (f u).Ensures I A Q') :
    Handler.Ensures I A Q' (if c then h >>= f else f ()) :=
  ensures_ite (fun _ => hh.bind fun u _ => hf u) fun _ => hf ()

end Handler

/-- Only QUIT closes the connection: every dispatch returns the action that its arguments
    decide, whatever the session and the shared state are. -/
theorem dispatch_action (clock : Int64) (raw : Bytes) (args : List Bytes) :
    (dispatch clock raw args).Ensures (fun _ => True) (fun _ _ => True)
      fun x => x.2 = actionOf args := by
  have hany : ∀ {α : Type} (h : Handler α),
      h.Ensures (fun _ => True) (fun _ _ => True) fun _ => True := by
    intro α h s _
    generalize h s = p
    induction p with
    | ret a => exact ⟨trivial, trivial⟩
    | op e k ih => exact fun r _ => ih r
  unfold dispatch
  refine Handler.ensures_ite ?_ ?_
  · rintro rfl
    exact Handler.ensures_pure (by decide)
  · intro _
    refine (hany _).bind fun _ _ => ?_
    refine Handler.ensures_get.bind fun s _ => ?_
    refine Handler.ensures_ite ?_ ?_
    · intro hqueue
      have hcontrol : isControl (commandOf args) = false := by
        simpa using (Bool.and_eq_true_iff.mp hqueue).2
      have hcontinue : Action.continue_ = actionOf args := by
        unfold actionOf
        split
        · rename_i hquit
          rw [hquit] at hcontrol
          cases hcontrol
        · rfl
      split
      · exact (hany _).bind fun _ _ => Handler.ensures_pure hcontinue
      · exact (hany _).bind fun _ _ => Handler.ensures_pure hcontinue
    · intro _
      exact Handler.ensures_ite (fun _ => (hany _).bind fun _ _ => Handler.ensures_pure rfl)
        fun _ => (hany _).bind fun _ _ => Handler.ensures_pure rfl

end Garnet
