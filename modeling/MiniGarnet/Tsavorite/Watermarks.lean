import MiniGarnet.Tsavorite.LogInv
import MiniGarnet.Tsavorite.LogProtocol

/-! # The order of the boundaries

    `log.rs` states the address invariant

      ClosedUntil ≤ SafeHead ≤ Head ≤ FlushedUntil ≤ SafeReadOnly ≤ ReadOnly ≤ Tail.

    Each boundary is moved by its own code, in two steps, by whichever thread
    gets there; a flush may fail half way and actions run in any order.  What
    keeps the order is that every value on its way to a boundary is already
    bounded by the next boundary, and that boundaries only rise: `PcOk` says
    this of the values threads hold, and the registered actions carry the
    same bounds.

    The tail is the end of the allocated space (`TailProtocol.frontier`).  It
    rises as long as neither field of the tail word overflows; a page turn
    past page `2 ^ 32 - 1` sends it back to page 0.
-/

namespace Tsavorite.LogProtocol


/-! ## Section 1: Statement -/

/-- The offset field of the tail word does not overflow in this step. -/
def OffsetFits {Thread : Type*} (s : State Thread) : Label Thread → Prop
  | .alloc (.fetchAdd _ size) => (unpack s.alloc.tail).2 + size < 2 ^ 32
  | _ => True

instance {Thread : Type*} (s : State Thread) (l : Label Thread) : Decidable (OffsetFits s l) :=
  match l with
  | .alloc (.fetchAdd _ _) => inferInstanceAs (Decidable (_ < _))
  | .alloc (.checkFree _) | .alloc (.refuse _) | .alloc (.zero _) | .alloc (.publish _)
  | .alloc (.close _) | .protect _ | .unprotect _ | .loadHead _ | .loadRo _ | .checkpoint _
  | .startAction _ _ | .step _ | .failWrite _ => inferInstanceAs (Decidable True)

/-- The page field of the tail word does not overflow in this step. -/
def PageFits {Thread : Type*} (s : State Thread) : Label Thread → Prop
  | .alloc (.publish t) => (s.alloc.pc t).PageInRange
  | _ => True

instance {Thread : Type*} (s : State Thread) (l : Label Thread) : Decidable (PageFits s l) :=
  match l with
  | .alloc (.publish t) => inferInstanceAs (Decidable (s.alloc.pc t).PageInRange)
  | .alloc (.checkFree _) | .alloc (.refuse _) | .alloc (.zero _) | .alloc (.fetchAdd _ _)
  | .alloc (.close _) | .protect _ | .unprotect _ | .loadHead _ | .loadRo _ | .checkpoint _
  | .startAction _ _ | .step _ | .failWrite _ => inferInstanceAs (Decidable True)

/-- Neither field overflows. -/
def TailFits {Thread : Type*} (s : State Thread) (l : Label Thread) : Prop :=
  OffsetFits s l ∧ PageFits s l

instance {Thread : Type*} (s : State Thread) (l : Label Thread) : Decidable (TailFits s l) :=
  inferInstanceAs (Decidable (_ ∧ _))

/-- The seven boundaries. -/
structure Bounds where
  closed : ℕ
  safeHead : ℕ
  head : ℕ
  flushed : ℕ
  safeReadOnly : ℕ
  readOnly : ℕ
  tail : ℕ

def State.bounds {Thread : Type*} (g : Geometry) (s : State Thread) : Bounds where
  closed := s.alloc.closedUntil
  safeHead := s.safeHead
  head := s.head
  flushed := s.flushedUntil
  safeReadOnly := s.safeReadOnly
  readOnly := s.readOnly
  tail := TailProtocol.frontier g s.alloc

/-- The address invariant. -/
structure Bounds.Ordered (b : Bounds) : Prop where
  closed_le : b.closed ≤ b.safeHead
  safeHead_le : b.safeHead ≤ b.head
  head_le : b.head ≤ b.flushed
  flushed_le : b.flushed ≤ b.safeReadOnly
  safeReadOnly_le : b.safeReadOnly ≤ b.readOnly
  readOnly_le : b.readOnly ≤ b.tail

/-- No boundary is lower in `b'`. -/
structure Bounds.Rises (b b' : Bounds) : Prop where
  closed : b.closed ≤ b'.closed
  safeHead : b.safeHead ≤ b'.safeHead
  head : b.head ≤ b'.head
  flushed : b.flushed ≤ b'.flushed
  safeReadOnly : b.safeReadOnly ≤ b'.safeReadOnly
  readOnly : b.readOnly ≤ b'.readOnly
  tail : b.tail ≤ b'.tail

/-! ## Section 2: The invariant -/

/-- The value a thread is about to use is bounded by the boundary above it. -/
def PcOk (g : Geometry) (b : Bounds) : Pc → Prop
  | .issuing next => next * g.pageSize ≤ b.tail
  | .loadingRo new _ => new ≤ b.tail
  | .casingRo _ new _ => new ≤ b.tail
  | .registeringRo new _ => new ≤ b.readOnly
  | .loadingHead new => new ≤ b.flushed
  | .casingHead _ new => new ≤ b.flushed
  | .registeringHead new => new ≤ b.head
  | .marking new => new ≤ b.readOnly
  | .lockingFlush u => u ≤ b.safeReadOnly
  | .loadingFlushed u => u ≤ b.safeReadOnly
  | .flushing u _ => u ≤ b.safeReadOnly
  | .raising new => new ≤ b.head
  | .lockingClose new => new ≤ b.safeHead
  | .closing new => new ≤ b.safeHead
  | .storingClosed new pageEnd => new ≤ b.safeHead ∧ pageEnd ≤ new ∧ b.closed ≤ pageEnd
  | _ => True

/-- A registered action is about a boundary that has been published. -/
def ActionOk (b : Bounds) : DrainAction → Prop
  | .markReadOnly new => new ≤ b.readOnly
  | .closePages new => new ≤ b.head
  | .observe => True

/-- The thread holds the lock of `on_pages_closed`. -/
def Pc.closes : Pc → Bool
  | .closing _ => true
  | .storingClosed _ _ => true
  | .unlockingClose => true
  | _ => false

structure Inv {Thread : Type*} (g : Geometry) (s : State Thread) : Prop where
  tail : TailProtocol.Inv g s.alloc
  ordered : (s.bounds g).Ordered
  pcs : ∀ t, PcOk g (s.bounds g) (s.pc t)
  actions : ∀ a ∈ s.actions, ActionOk (s.bounds g) a.action
  closeHeld : ∀ t, (s.pc t).closes = true → s.closeLock = true
  closeUnique : ∀ t u, (s.pc t).closes = true → (s.pc u).closes = true → t = u

theorem inv_new {Thread : Type*} (g : Geometry) : Inv g (initial : State Thread) := by
  have hw : unpack (pack 0 FIRST_VALID_ADDRESS) = (0, 64) := by decide +kernel
  have hps := g.pageSize_ge
  have hfirst : FIRST_VALID_ADDRESS = 64 := rfl
  have hfront : TailProtocol.frontier g (TailProtocol.initial : TailProtocol.State Thread) = 64 := by
    simp only [TailProtocol.frontier, TailProtocol.initial, hw]
    omega
  refine ⟨TailProtocol.inv_initial g, ⟨?_, ?_, ?_, ?_, ?_, ?_⟩, fun _ => trivial, ?_, ?_, ?_⟩
  · exact Nat.zero_le _
  · exact Nat.le_refl _
  · exact Nat.le_refl _
  · exact Nat.le_refl _
  · exact Nat.le_refl _
  · exact Nat.le_of_eq (hfirst.trans hfront.symm)
  · intro a ha
    cases ha
  · intro t ht
    cases ht
  · intro t u ht
    cases ht

section Bounds

variable {g : Geometry} {b b' b'' : Bounds}

theorem Bounds.Rises.refl (b : Bounds) : b.Rises b :=
  ⟨Nat.le_refl _, Nat.le_refl _, Nat.le_refl _, Nat.le_refl _, Nat.le_refl _, Nat.le_refl _,
    Nat.le_refl _⟩

theorem Bounds.Rises.trans (h : b.Rises b') (h' : b'.Rises b'') : b.Rises b'' :=
  ⟨Nat.le_trans h.closed h'.closed, Nat.le_trans h.safeHead h'.safeHead,
    Nat.le_trans h.head h'.head, Nat.le_trans h.flushed h'.flushed,
    Nat.le_trans h.safeReadOnly h'.safeReadOnly, Nat.le_trans h.readOnly h'.readOnly,
    Nat.le_trans h.tail h'.tail⟩

/-- Bounds survive the rise of boundaries.  The value read from ClosedUntil is
    the exception: it stays good because its reader holds the lock. -/
theorem PcOk.rises {p : Pc} (h : PcOk g b p) (hr : b.Rises b')
    (hclosed : p.closes = true → b'.closed = b.closed) : PcOk g b' p := by
  cases p with
  | issuing next => exact Nat.le_trans h hr.tail
  | loadingRo new k => exact Nat.le_trans h hr.tail
  | casingRo cur new k => exact Nat.le_trans h hr.tail
  | registeringRo new k => exact Nat.le_trans h hr.readOnly
  | loadingHead new => exact Nat.le_trans h hr.flushed
  | casingHead cur new => exact Nat.le_trans h hr.flushed
  | registeringHead new => exact Nat.le_trans h hr.head
  | marking new => exact Nat.le_trans h hr.readOnly
  | lockingFlush u => exact Nat.le_trans h hr.safeReadOnly
  | loadingFlushed u => exact Nat.le_trans h hr.safeReadOnly
  | flushing u addr => exact Nat.le_trans h hr.safeReadOnly
  | raising new => exact Nat.le_trans h hr.head
  | lockingClose new => exact Nat.le_trans h hr.safeHead
  | closing new => exact Nat.le_trans h hr.safeHead
  | storingClosed new pageEnd =>
    exact ⟨Nat.le_trans h.1 hr.safeHead, h.2.1, by rw [hclosed rfl]; exact h.2.2⟩
  | _ => trivial

theorem ActionOk.rises {a : DrainAction} (h : ActionOk b a) (hr : b.Rises b') : ActionOk b' a := by
  cases a with
  | markReadOnly new => exact Nat.le_trans h hr.readOnly
  | closePages new => exact Nat.le_trans h hr.head
  | observe => trivial

end Bounds

/-! ## Section 3: Steps outside the allocator -/

/-- What `tail_address` returns is not beyond the end of the allocated space. -/
theorem tailAddress_le {Thread : Type*} {g : Geometry} {a : TailProtocol.State Thread} {final : ℕ}
    (h : tailAddress g a.tail = some final) : final ≤ TailProtocol.frontier g a := by
  by_cases hodd : OddPageFull g a.tail
  · -- at the end of an odd page the result falls a page short
    obtain ⟨hpage, hoff⟩ := hodd
    simp only [tailAddress, hoff, Nat.le_refl, if_true, Option.some.injEq] at h
    rw [Geometry.pageSize, Bits.shiftLeft_or_two_pow, if_pos hpage] at h
    rw [← h]
    exact Nat.le_add_right _ _
  · obtain ⟨hle, rfl⟩ := tailAddress_eq h hodd
    simp only [TailProtocol.frontier]
    omega

section Steps

variable {Thread : Type*} {g : Geometry} {s s' : State Thread} {t u : Thread} {p : Pc}

/-- What a step of `t` to `p` may do to the lock of `on_pages_closed`. -/
inductive LockStep (t : Thread) (s s₁ : State Thread) (p : Pc) : Prop where
  | keep : s₁.closeLock = s.closeLock → p.closes = (s.pc t).closes → LockStep t s s₁ p
  | acquire : s.closeLock = false → s₁.closeLock = true → LockStep t s s₁ p
  | release : (s.pc t).closes = true → p.closes = false → LockStep t s s₁ p

/-- No other thread holds the lock across a step that could disturb it. -/
theorem LockStep.other {s₁ : State Thread} (h : LockStep t s s₁ p) (inv : Inv g s) (hu : u ≠ t)
    (hc : (s.pc u).closes = true) : s₁.closeLock = true ∧ p.closes = false := by
  have hheld := inv.closeHeld u hc
  cases h with
  | keep hlock hp =>
    refine ⟨hlock.trans hheld, ?_⟩
    cases hpc : p.closes with
    | false => rfl
    | true => exact absurd (inv.closeUnique u t hc (hp.symm.trans hpc)) hu
  | acquire hfree _ =>
    rw [hheld] at hfree
    cases hfree
  | release ht _ => exact absurd (inv.closeUnique u t hc ht) hu

theorem LockStep.held {s₁ : State Thread} (h : LockStep t s s₁ p) (inv : Inv g s)
    (hp : p.closes = true) : s₁.closeLock = true := by
  cases h with
  | keep hlock heq => exact hlock.trans (inv.closeHeld t (heq.symm.trans hp))
  | acquire _ hlock => exact hlock
  | release _ hnot =>
    rw [hp] at hnot
    cases hnot

/-- `bump_with_action`: a boundary that has been published is registered. -/
theorem Inv.register {a : DrainAction} (inv : Inv g s) (ha : ActionOk (s.bounds g) a) :
    Inv g (s.register a) := by
  refine ⟨inv.tail, inv.ordered, inv.pcs, ?_, inv.closeHeld, inv.closeUnique⟩
  intro b hb
  rcases List.mem_append.mp hb with hb | hb
  · exact inv.actions b hb
  · rw [List.mem_singleton.mp hb]
    exact ha

theorem afterTurn_closes (l : TailProtocol.Label Thread) : (s.afterTurn l).closes = false := by
  unfold State.afterTurn
  split
  · split <;> rfl
  · split <;> rfl
  · rfl

/-- The conditions of the two modules agree on requests that are not empty. -/
theorem TailFits.inRange {l : TailProtocol.Label Thread} (h : TailFits s (.alloc l))
    (hpos : positiveSize l = true) : TailProtocol.InRange g s.alloc l := by
  obtain ⟨hoff, hpage⟩ := h
  cases l with
  | fetchAdd u size =>
    have hsize : 0 < size := by simpa [positiveSize] using hpos
    exact ⟨hoff, fun hzero => absurd hzero (by omega)⟩
  | publish u => exact hpage
  | checkFree u => trivial
  | refuse u => trivial
  | zero u => trivial
  | close u => trivial

/-- The page whose turn has just ended lies below the tail. -/
theorem Inv.afterTurn {l : TailProtocol.Label Thread} {alloc : TailProtocol.State Thread}
    (inv : Inv g s) (hadv : TailProtocol.frontier g s.alloc ≤ TailProtocol.frontier g alloc) :
    ∀ b : Bounds, b.tail = TailProtocol.frontier g alloc → PcOk g b (s.afterTurn l) := by
  intro b hb
  have howned : ∀ u page, (s.alloc.pc u).owned = some page →
      (page + 1) * g.pageSize ≤ TailProtocol.frontier g alloc := by
    intro u page hu
    have hfront := inv.tail.frontier_of_owner hu
    calc (page + 1) * g.pageSize = page * g.pageSize + g.pageSize := by ring
      _ = TailProtocol.frontier g s.alloc := hfront.symm
      _ ≤ TailProtocol.frontier g alloc := hadv
  unfold State.afterTurn
  split
  · split
    · rename_i page hpc
      exact Nat.le_trans (howned _ page (by rw [hpc]; rfl)) (Nat.le_of_eq hb.symm)
    · trivial
  · split
    · rename_i page size hpc
      exact Nat.le_trans (howned _ page (by rw [hpc]; rfl)) (Nat.le_of_eq hb.symm)
    · trivial
  · trivial

variable [DecidableEq Thread]

@[simp] theorem goto_pc (s : State Thread) (t : Thread) (p : Pc) : (s.goto t p).pc t = p := by
  simp [State.goto]

theorem goto_pc_of_ne (s : State Thread) (p : Pc) (h : u ≠ t) : (s.goto t p).pc u = s.pc u := by
  simp [State.goto, Function.update_of_ne h]

/-- One step of `t`: the boundaries rise to those of `s₁` and `t` moves to `p`. -/
theorem Inv.move {s₁ : State Thread} (inv : Inv g s) (htail : TailProtocol.Inv g s₁.alloc)
    (hrises : (s.bounds g).Rises (s₁.bounds g)) (hord : (s₁.bounds g).Ordered)
    (hpcs : s₁.pc = s.pc) (hactions : ∀ a ∈ s₁.actions, ActionOk (s₁.bounds g) a.action)
    (hclosed : s₁.alloc.closedUntil = s.alloc.closedUntil ∨ (s.pc t).closes = true)
    (hlock : LockStep t s s₁ p) (hok : PcOk g (s₁.bounds g) p) :
    Inv g (s₁.goto t p) ∧ (s.bounds g).Rises ((s₁.goto t p).bounds g) := by
  refine ⟨⟨htail, hord, ?_, hactions, ?_, ?_⟩, hrises⟩
  · intro u
    by_cases hu : u = t
    · rw [hu, goto_pc]
      exact hok
    · rw [goto_pc_of_ne s₁ p hu, hpcs]
      refine (inv.pcs u).rises hrises fun hc => ?_
      rcases hclosed with heq | ht
      · exact heq
      · exact absurd (inv.closeUnique u t hc ht) hu
  · intro u hc
    by_cases hu : u = t
    · rw [hu, goto_pc] at hc
      exact hlock.held inv hc
    · rw [goto_pc_of_ne s₁ p hu, hpcs] at hc
      exact (hlock.other inv hu hc).1
  · intro u v hcu hcv
    by_cases hu : u = t
    · by_cases hv : v = t
      · rw [hu, hv]
      · rw [goto_pc_of_ne s₁ p hv, hpcs] at hcv
        rw [hu, goto_pc, (hlock.other inv hv hcv).2] at hcu
        cases hcu
    · rw [goto_pc_of_ne s₁ p hu, hpcs] at hcu
      by_cases hv : v = t
      · rw [hv, goto_pc, (hlock.other inv hu hcu).2] at hcv
        cases hcv
      · rw [goto_pc_of_ne s₁ p hv, hpcs] at hcv
        exact inv.closeUnique u v hcu hcv

/-- A step that moves no boundary. -/
theorem Inv.goto (inv : Inv g s) (hlock : p.closes = (s.pc t).closes)
    (hok : PcOk g (s.bounds g) p) :
    Inv g (s.goto t p) ∧ (s.bounds g).Rises ((s.goto t p).bounds g) :=
  inv.move inv.tail (.refl _) inv.ordered rfl inv.actions (.inl rfl) (.keep rfl hlock) hok

/-- A step that raises boundaries between ClosedUntil and the tail. -/
theorem Inv.raise {sh h f sr r : ℕ} (inv : Inv g s)
    (hrises : (s.bounds g).Rises
      ⟨s.alloc.closedUntil, sh, h, f, sr, r, TailProtocol.frontier g s.alloc⟩)
    (hord : Bounds.Ordered
      ⟨s.alloc.closedUntil, sh, h, f, sr, r, TailProtocol.frontier g s.alloc⟩)
    (hlock : p.closes = (s.pc t).closes)
    (hok : PcOk g ⟨s.alloc.closedUntil, sh, h, f, sr, r, TailProtocol.frontier g s.alloc⟩ p) :
    let s₁ := { s with
      safeHead := sh, head := h, flushedUntil := f, safeReadOnly := sr, readOnly := r }
    Inv g (s₁.goto t p) ∧ (s.bounds g).Rises ((s₁.goto t p).bounds g) :=
  inv.move inv.tail hrises hord rfl (fun a ha => (inv.actions a ha).rises hrises) (.inl rfl)
    (.keep rfl hlock) hok

theorem Inv.resume (inv : Inv g s) (k : After) (hlock : (s.pc t).closes = false) :
    Inv g (s.resume t k) ∧ (s.bounds g).Rises ((s.resume t k).bounds g) := by
  cases k with
  | issueHead next => exact inv.goto hlock.symm trivial
  | waitFlushed final => exact inv.goto hlock.symm trivial

/-- `on_pages_closed` closes one more page. -/
theorem Inv.closePage {new pageEnd : ℕ} (inv : Inv g s)
    (hpc : s.pc t = .storingClosed new pageEnd) :
    let s₁ := { s with alloc := { s.alloc with closedUntil := pageEnd } }
    Inv g (s₁.goto t (.closing new)) ∧
      (s.bounds g).Rises ((s₁.goto t (.closing new)).bounds g) := by
  intro s₁
  have hok := inv.pcs t
  rw [hpc] at hok
  obtain ⟨hnew, hend, hclosed⟩ := hok
  have htail : TailProtocol.Inv g s₁.alloc :=
    ⟨inv.tail.word, inv.tail.header, inv.tail.owner, inv.tail.unique, inv.tail.sizes,
      inv.tail.inPage, inv.tail.below, inv.tail.ordered⟩
  have hrises : (s.bounds g).Rises (s₁.bounds g) :=
    ⟨hclosed, Nat.le_refl _, Nat.le_refl _, Nat.le_refl _, Nat.le_refl _, Nat.le_refl _,
      Nat.le_refl _⟩
  refine inv.move htail hrises ⟨?_, inv.ordered.safeHead_le, inv.ordered.head_le,
    inv.ordered.flushed_le, inv.ordered.safeReadOnly_le, inv.ordered.readOnly_le⟩ rfl
    (fun a ha => (inv.actions a ha).rises hrises) (.inr ?_) (.keep rfl ?_) hnew
  · exact Nat.le_trans hend hnew
  · rw [hpc]
    rfl
  · rw [hpc]
    rfl

theorem Inv.stepPc (inv : Inv g s) (h : LogProtocol.stepPc g s t (s.pc t) = some s') :
    Inv g s' ∧ (s.bounds g).Rises (s'.bounds g) := by
  have hord := inv.ordered
  have hsafeHead := hord.safeHead_le
  have hhead := hord.head_le
  have hflushed := hord.flushed_le
  have hsafeRo := hord.safeReadOnly_le
  have hro := hord.readOnly_le
  have hclosed := hord.closed_le
  have hrefl := Bounds.Rises.refl (s.bounds g)
  have hok := inv.pcs t
  cases hp : s.pc t with
  | idle =>
    rw [hp] at h
    cases h
  | issuing next =>
    rw [hp] at h hok
    simp only [LogProtocol.stepPc, Option.some.injEq] at h
    subst h
    split
    · refine inv.goto (by rw [hp]; rfl) ?_
      exact Nat.le_trans (desiredRo_le g next) hok
    · exact inv.goto (by rw [hp]; rfl) trivial
  | loadingRo new k =>
    rw [hp] at h hok
    cases h
    exact inv.goto (by rw [hp]; rfl) hok
  | casingRo cur new k =>
    rw [hp] at h hok
    have hnew : new ≤ TailProtocol.frontier g s.alloc := hok
    simp only [LogProtocol.stepPc] at h
    split at h
    · cases h
      exact inv.resume k (by rw [hp]; rfl)
    split at h
    · cases h
      have hlt : s.readOnly ≤ new := by omega
      exact inv.raise { hrefl with readOnly := hlt }
        { hord with
          safeReadOnly_le := Nat.le_trans hsafeRo hlt
          readOnly_le := hnew } (by rw [hp]; rfl) (Nat.le_refl _)
    · cases h
      exact inv.goto (by rw [hp]; rfl) hnew
  | registeringRo new k =>
    rw [hp] at h hok
    cases h
    have hreg : Inv g (s.register (.markReadOnly new)) := inv.register hok
    exact hreg.resume k (by show (s.pc t).closes = false; rw [hp]; rfl)
  | issuingHead next =>
    rw [hp] at h
    simp only [LogProtocol.stepPc, Option.some.injEq] at h
    subst h
    split
    · exact inv.goto (by rw [hp]; rfl) trivial
    · exact inv.goto (by rw [hp]; rfl) trivial
  | clamping desired =>
    rw [hp] at h
    cases h
    exact inv.goto (by rw [hp]; rfl) (Nat.min_le_right _ _)
  | loadingHead new =>
    rw [hp] at h hok
    cases h
    exact inv.goto (by rw [hp]; rfl) hok
  | casingHead cur new =>
    rw [hp] at h hok
    have hnew : new ≤ s.flushedUntil := hok
    simp only [LogProtocol.stepPc] at h
    split at h
    · cases h
      exact inv.goto (by rw [hp]; rfl) trivial
    split at h
    · cases h
      have hlt : s.head ≤ new := by omega
      exact inv.raise { hrefl with head := hlt }
        { hord with
          safeHead_le := Nat.le_trans hsafeHead hlt
          head_le := hnew } (by rw [hp]; rfl) (Nat.le_refl _)
    · cases h
      exact inv.goto (by rw [hp]; rfl) hnew
  | registeringHead new =>
    rw [hp] at h hok
    cases h
    have hreg : Inv g (s.register (.closePages new)) := inv.register hok
    exact hreg.goto (by show _ = (s.pc t).closes; rw [hp]; rfl) trivial
  | loadingTail =>
    rw [hp] at h
    simp only [LogProtocol.stepPc, Option.map_eq_some_iff] at h
    obtain ⟨final, hfinal, rfl⟩ := h
    exact inv.goto (by rw [hp]; rfl) (tailAddress_le hfinal)
  | waiting final =>
    rw [hp] at h
    simp only [LogProtocol.stepPc, Option.ite_none_right_eq_some, Option.some.injEq] at h
    obtain ⟨hle, rfl⟩ := h
    exact inv.goto (by rw [hp]; rfl) (Nat.le_trans hle hflushed)
  | marking new =>
    rw [hp] at h hok
    cases h
    have hnew : new ≤ s.readOnly := hok
    exact inv.raise { hrefl with safeReadOnly := Nat.le_max_left _ _ }
      { hord with
        flushed_le := Nat.le_trans hflushed (Nat.le_max_left _ _)
        safeReadOnly_le := Nat.max_le.mpr ⟨hsafeRo, hnew⟩ } (by rw [hp]; rfl)
      (Nat.le_max_right _ _)
  | lockingFlush u =>
    rw [hp] at h hok
    simp only [LogProtocol.stepPc] at h
    split at h
    · cases h
    · cases h
      exact inv.move inv.tail hrefl hord rfl inv.actions (.inl rfl)
        (.keep rfl (by rw [hp]; rfl)) hok
  | loadingFlushed u =>
    rw [hp] at h hok
    simp only [LogProtocol.stepPc, Option.some.injEq] at h
    subst h
    split
    · exact inv.goto (by rw [hp]; rfl) trivial
    · exact inv.goto (by rw [hp]; rfl) hok
  | flushing u addr =>
    rw [hp] at h hok
    have hu : u ≤ s.safeReadOnly := hok
    simp only [LogProtocol.stepPc, Option.some.injEq] at h
    subst h
    split
    · exact inv.goto (by rw [hp]; rfl) hu
    · exact inv.raise { hrefl with flushed := Nat.le_max_left _ _ }
        { hord with
          head_le := Nat.le_trans hhead (Nat.le_max_left _ _)
          flushed_le := Nat.max_le.mpr ⟨hflushed, hu⟩ } (by rw [hp]; rfl) trivial
  | unlockingFlush =>
    rw [hp] at h
    cases h
    exact inv.move inv.tail hrefl hord rfl inv.actions (.inl rfl)
      (.keep rfl (by rw [hp]; rfl)) trivial
  | raising new =>
    rw [hp] at h hok
    cases h
    have hnew : new ≤ s.head := hok
    exact inv.raise { hrefl with safeHead := Nat.le_max_left _ _ }
      { hord with
        closed_le := Nat.le_trans hclosed (Nat.le_max_left _ _)
        safeHead_le := Nat.max_le.mpr ⟨hsafeHead, hnew⟩ } (by rw [hp]; rfl)
      (Nat.le_max_right _ _)
  | lockingClose new =>
    rw [hp] at h hok
    simp only [LogProtocol.stepPc] at h
    split at h
    · cases h
    · rename_i hfree
      cases h
      exact inv.move inv.tail hrefl hord rfl inv.actions (.inl rfl)
        (.acquire (by simpa using hfree) rfl) hok
  | closing new =>
    rw [hp] at h hok
    simp only [LogProtocol.stepPc, Option.some.injEq] at h
    subst h
    split
    · exact inv.goto (by rw [hp]; rfl) trivial
    · refine inv.goto (by rw [hp]; rfl) ⟨hok, ?_, ?_⟩
      · omega
      · exact Nat.le_add_right _ _
  | storingClosed new pageEnd =>
    rw [hp] at h
    cases h
    exact inv.closePage hp
  | unlockingClose =>
    rw [hp] at h
    cases h
    exact inv.move inv.tail hrefl hord rfl inv.actions (.inl rfl)
      (.release (by rw [hp]; rfl) rfl) trivial

/-! ## Section 4: Steps of the allocator -/

/-- An allocation step changes the allocator, history, and where the thread
    goes next. -/
theorem allocStep_eq {l : TailProtocol.Label Thread} (h : allocStep g s t l = some s') :
    ∃ alloc turns slots born allocated, TailProtocol.next g s.alloc l = some alloc ∧
      s' = { s with
        alloc := alloc
        turns := turns
        slots := slots
        born := born
        allocated := allocated }.goto t (s.afterTurn l) := by
  simp only [allocStep, Option.map_eq_some_iff] at h
  obtain ⟨alloc, hnext, rfl⟩ := h
  have hzero : ∃ turns slots, s.recordZero g l = { s with turns := turns, slots := slots } := by
    unfold State.recordZero
    split
    · split
      · exact ⟨_, _, rfl⟩
      · exact ⟨_, _, rfl⟩
    · exact ⟨_, _, rfl⟩
  obtain ⟨turns, slots, hzero⟩ := hzero
  unfold State.afterAlloc
  rw [hzero]
  unfold State.recordGrant
  split
  · exact ⟨alloc, turns, slots, _, _, hnext, rfl⟩
  · exact ⟨alloc, turns, slots, _, _, hnext, rfl⟩

/-- The allocator itself never touches ClosedUntil. -/
theorem next_closedUntil {a a' : TailProtocol.State Thread} {l : TailProtocol.Label Thread}
    (ht : allocThread l = some t) (h : TailProtocol.next g a l = some a') :
    a'.closedUntil = a.closedUntil := by
  cases l with
  | fetchAdd u size =>
    simp only [TailProtocol.next, Option.ite_none_right_eq_some, Option.some.injEq] at h
    obtain ⟨-, rfl⟩ := h
    simp only [TailProtocol.afterFetchAdd]
    split
    · rfl
    · split <;> rfl
  | checkFree u =>
    simp only [TailProtocol.next] at h
    split at h
    · split at h <;> cases h <;> rfl
    · cases h
  | refuse u =>
    simp only [TailProtocol.next] at h
    split at h
    · cases h
      rfl
    · cases h
  | zero u =>
    simp only [TailProtocol.next] at h
    split at h
    · cases h
      rfl
    · cases h
  | publish u =>
    simp only [TailProtocol.next] at h
    split at h
    · cases h
      rfl
    · cases h
  | close u => cases ht

theorem Inv.allocStep {l : TailProtocol.Label Thread} (inv : Inv g s) (hfits : TailFits s (.alloc l))
    (hpos : positiveSize l = true) (ht : allocThread l = some t) (hidle : s.pc t = .idle)
    (h : LogProtocol.allocStep g s t l = some s') :
    Inv g s' ∧ (s.bounds g).Rises (s'.bounds g) := by
  obtain ⟨alloc, turns, slots, born, allocated, hnext, rfl⟩ := allocStep_eq h
  obtain ⟨htail, hadv⟩ := TailProtocol.step_spec inv.tail (hfits.inRange hpos) hnext
  have hclosed := next_closedUntil ht hnext
  have hrises : (s.bounds g).Rises
      ⟨alloc.closedUntil, s.safeHead, s.head, s.flushedUntil, s.safeReadOnly, s.readOnly,
        TailProtocol.frontier g alloc⟩ :=
    { Bounds.Rises.refl (s.bounds g) with
      closed := Nat.le_of_eq hclosed.symm
      tail := hadv.frontier_le }
  refine inv.move htail hrises ?_ rfl (fun a ha => (inv.actions a ha).rises hrises) (.inl hclosed)
    (.keep rfl ?_) (inv.afterTurn hadv.frontier_le _ rfl)
  · exact { inv.ordered with
      closed_le := Nat.le_trans (Nat.le_of_eq hclosed) inv.ordered.closed_le
      readOnly_le := Nat.le_trans inv.ordered.readOnly_le hadv.frontier_le }
  · rw [afterTurn_closes, hidle]
    rfl

end Steps

/-! ## Section 5: Main result -/

section Main

variable {Thread : Type*} {g : Geometry} {s s' : State Thread}

/-- A step that touches only sections and history. -/
theorem Inv.history (inv : Inv g s) (halloc : s'.alloc = s.alloc) (hbounds : s'.bounds g = s.bounds g)
    (hpc : s'.pc = s.pc) (hactions : s'.actions = s.actions) (hlock : s'.closeLock = s.closeLock) :
    Inv g s' ∧ (s.bounds g).Rises (s'.bounds g) := by
  rw [hbounds]
  refine ⟨⟨halloc ▸ inv.tail, hbounds ▸ inv.ordered, ?_, ?_, ?_, ?_⟩, .refl _⟩
  · rw [hbounds, hpc]
    exact inv.pcs
  · rw [hbounds, hactions]
    exact inv.actions
  · rw [hpc, hlock]
    exact inv.closeHeld
  · rw [hpc]
    exact inv.closeUnique

variable [DecidableEq Thread]

theorem Inv.startAction {t : Thread} {i : ℕ} {a : Registered Thread} (inv : Inv g s)
    (ha : s.actions[i]? = some a) (hidle : s.pc t = .idle) :
    let s₁ := { s with actions := s.actions.eraseIdx i }
    Inv g (s₁.goto t (firstPc a.action)) ∧
      (s.bounds g).Rises ((s₁.goto t (firstPc a.action)).bounds g) := by
  intro s₁
  have hok : ActionOk (s.bounds g) a.action := inv.actions a (List.mem_of_getElem? ha)
  refine inv.move inv.tail (.refl _) inv.ordered rfl
    (fun b hb => inv.actions b (List.mem_of_mem_eraseIdx hb)) (.inl rfl) (.keep rfl ?_) ?_
  · rw [hidle]
    cases a.action <;> rfl
  · cases haction : a.action with
    | markReadOnly new =>
      rw [haction] at hok
      exact hok
    | closePages new =>
      rw [haction] at hok
      exact hok
    | observe => trivial

theorem Inv.step {l : Label Thread} (inv : Inv g s) (hfits : TailFits s l)
    (h : next g s l = some s') : Inv g s' ∧ (s.bounds g).Rises (s'.bounds g) := by
  cases l with
  | alloc l =>
    simp only [next] at h
    split at h
    · rename_i t ht
      simp only [Option.ite_none_right_eq_some] at h
      obtain ⟨⟨hidle, hpos⟩, h⟩ := h
      exact inv.allocStep hfits hpos ht hidle h
    · cases h
  | protect t =>
    simp only [next, Option.ite_none_right_eq_some, Option.some.injEq] at h
    obtain ⟨-, rfl⟩ := h
    exact inv.history rfl rfl rfl rfl rfl
  | unprotect t =>
    simp only [next, Option.ite_none_right_eq_some, Option.some.injEq] at h
    obtain ⟨-, rfl⟩ := h
    exact inv.history rfl rfl rfl rfl rfl
  | loadHead t =>
    simp only [next, Option.ite_none_right_eq_some, Option.some.injEq] at h
    obtain ⟨-, rfl⟩ := h
    exact inv.history rfl rfl rfl rfl rfl
  | loadRo t =>
    simp only [next, Option.ite_none_right_eq_some, Option.some.injEq] at h
    obtain ⟨-, rfl⟩ := h
    exact inv.history rfl rfl rfl rfl rfl
  | checkpoint t =>
    simp only [next, Option.ite_none_right_eq_some, Option.some.injEq] at h
    obtain ⟨⟨hidle, -⟩, rfl⟩ := h
    exact inv.goto (by rw [hidle]; rfl) trivial
  | startAction t i =>
    simp only [next] at h
    split at h
    · simp only [Option.ite_none_right_eq_some, Option.some.injEq] at h
      obtain ⟨⟨hidle, -⟩, rfl⟩ := h
      exact inv.startAction ‹_› hidle
    · cases h
  | step t => exact inv.stepPc h
  | failWrite t =>
    simp only [next] at h
    split at h
    · rename_i u addr hpc
      cases h
      exact inv.goto (by rw [hpc]; rfl) trivial
    · cases h

theorem inv_run {ls : List (Label Thread)} (h : Lts.Steps (next g) TailFits initial ls s) :
    Inv g s :=
  h.invariant (fun inv hok hnext => (inv.step hok hnext).1) (inv_new g)

/-- **The address invariant.**  In every run in which neither field of the tail
    word overflows, the boundaries are in order in every state reached, and
    none of them ever goes back. -/
theorem bounds_ordered_and_rise {before after : List (Label Thread)}
    (hbefore : Lts.Steps (next g) TailFits initial before s)
    (hafter : Lts.Steps (next g) TailFits s after s') :
    (s.bounds g).Ordered ∧ (s.bounds g).Rises (s'.bounds g) := by
  have inv : Inv g s := inv_run hbefore
  refine ⟨inv.ordered, ?_⟩
  exact hafter.relation (fun inv hok hnext => (inv.step hok hnext).1)
    (fun s => .refl (s.bounds g)) (fun h h' => h.trans h')
    (fun inv hok hnext => (inv.step hok hnext).2) inv

end Main

/-- Page 0 is filled, the turn to page 1 shifts ReadOnly, and the action
    registered for it flushes page 0. -/
def turnAndFlush : List (Label ℕ) :=
  [.alloc (.fetchAdd 0 448), .alloc (.fetchAdd 0 448), .alloc (.checkFree 0), .alloc (.zero 0),
   .alloc (.publish 0)] ++ List.replicate 8 (.step 0) ++ [.startAction 1 0] ++
  List.replicate 6 (.step 1)

theorem bounds_ordered_turnAndFlush :
    ∃ s : State ℕ, s.flushedUntil = 512 ∧
      (s.bounds (Geometry.twoPages 9 (by decide))).Ordered ∧
      ((initial : State ℕ).bounds (Geometry.twoPages 9 (by decide))).Rises
        (s.bounds (Geometry.twoPages 9 (by decide))) := by
  obtain ⟨s, hs, hp⟩ := Lts.exists_steps (next (Geometry.twoPages 9 (by decide))) TailFits
    initial turnAndFlush (fun s => s.flushedUntil = 512) (by decide +kernel)
  exact ⟨s, by simpa using hp, (bounds_ordered_and_rise hs (.nil s)).1,
    (bounds_ordered_and_rise (.nil initial) hs).2⟩

/-! ## Section 6: The page field

    The page of the tail word has 32 bits as well, and nothing bounds it
    either.  With enough memory no boundary has to move, and one thread that
    fills page after page reaches the last page of the field.
-/

namespace PageField

/-- 512-byte pages, and more of them in memory than the page field can number. -/
def wide : Geometry where
  pageBits := 9
  bufferSize := 2 ^ 33
  mutablePages := 2 ^ 33 - 1
  nine_le_pageBits := Nat.le_refl _
  pageBits_le_thirty := by decide
  two_le_bufferSize := by decide
  bufferSize_isPowerOfTwo := ⟨33, rfl⟩
  one_le_mutablePages := by decide
  mutablePages_lt := by decide

theorem isFree_wide {page closed : ℕ} (hp : page < 2 ^ 33) :
    wide.pageIsFree closed page = true := by
  have hb : wide.bufferSize = 2 ^ 33 := rfl
  unfold Geometry.pageIsFree
  rw [hb, decide_eq_true hp, Bool.true_or]

theorem desiredHead_wide {page : ℕ} (hp : page + 2 ≤ 2 ^ 33) :
    HybridLog.desiredHead wide page = 0 := by
  have hb : wide.bufferSize = 2 ^ 33 := rfl
  unfold HybridLog.desiredHead
  rw [hb, Nat.sub_eq_zero_of_le hp, Nat.zero_mul]

theorem desiredRo_wide {page : ℕ} (hp : page + 2 ≤ 2 ^ 33) : HybridLog.desiredRo wide page = 0 := by
  have hm : wide.mutablePages = 2 ^ 33 - 1 := rfl
  have hle : page + 1 ≤ 2 ^ 33 - 1 := by omega
  unfold HybridLog.desiredRo
  rw [desiredHead_wide hp, hm, Nat.sub_eq_zero_of_le hle, Nat.zero_mul, Nat.max_self]

/-- Thread 0 is outside every call and the tail stands at the end of `page`. -/
structure AtEnd (page : ℕ) (s : State ℕ) : Prop where
  tail : unpack s.alloc.tail = (page, 512)
  allocIdle : s.alloc.pc 0 = .idle
  idle : s.pc 0 = .idle

/-- Turn to the next page and fill it. -/
def turn : List (Label ℕ) :=
  [.alloc (.fetchAdd 0 448), .alloc (.checkFree 0), .alloc (.zero 0), .alloc (.publish 0),
   .step 0, .step 0]

/-- What the turn from `page` leaves. -/
structure Turned (g : Geometry) (page : ℕ) (s s' : State ℕ) : Prop where
  tail : s'.alloc.tail = pack (page + 1) 512
  allocIdle : s'.alloc.pc 0 = .idle
  idle : s'.pc 0 = .idle
  granted : s'.alloc.granted =
    ((page + 1) <<< g.pageBits ||| FIRST_VALID_ADDRESS, 448) :: s.alloc.granted
  turns : s'.turns = s.turns + 1
  slots : s'.slots = Function.update s.slots (g.slotOf (page + 1)) (page + 1, s.turns + 1)
  born : s'.born =
    Function.update s.born ((page + 1) <<< g.pageBits ||| FIRST_VALID_ADDRESS) (s.turns + 1)
  sections : s'.sections = s.sections
  loaded : s'.loaded = s.loaded

theorem turn_run {g : Geometry} {page : ℕ} {s : State ℕ} (h : AtEnd page s)
    (hps : g.pageSize = 512) (hfree : g.pageIsFree s.alloc.closedUntil (page + 1) = true)
    (hro : HybridLog.desiredRo g (page + 1) = 0) (hhead : HybridLog.desiredHead g (page + 1) = 0) :
    ∃ s', Lts.Steps (next g) OffsetFits s turn s' ∧ Turned g page s s' := by
  have htail := h.tail
  have halloc := h.allocIdle
  have hidle := h.idle
  have hrun : ∃ s', Lts.runChecked (next g) OffsetFits s turn = some s' ∧ Turned g page s s' := by
    simp [Lts.runChecked, turn, OffsetFits, next, allocThread, positiveSize, htail, halloc, hidle,
      allocStep, TailProtocol.next, TailProtocol.AdmittedSize, TailProtocol.MayAdd,
      TailProtocol.afterFetchAdd, hps, PAGE_HEADER_SIZE, State.afterAlloc, State.recordGrant,
      State.recordZero, State.goto, State.afterTurn, hfree, stepPc, hro, hhead]
    constructor <;> simp [FIRST_VALID_ADDRESS, PAGE_HEADER_SIZE]
  obtain ⟨s', hrun, hturned⟩ := hrun
  exact ⟨s', Lts.steps_of_runChecked hrun, hturned⟩

theorem turn_wide {page : ℕ} {s : State ℕ} (h : AtEnd page s) (hp : page < 2 ^ 32) :
    ∃ s', Lts.Steps (next wide) OffsetFits s turn s' ∧ Turned wide page s s' :=
  turn_run h rfl (isFree_wide (by omega)) (desiredRo_wide (by omega)) (desiredHead_wide (by omega))

/-- What turns beyond `page` leave alone. -/
structure Keeps (page : ℕ) (s s' : State ℕ) : Prop where
  sections : s'.sections = s.sections
  loaded : s'.loaded = s.loaded
  granted : ∀ x ∈ s.alloc.granted, x ∈ s'.alloc.granted
  turns : s.turns ≤ s'.turns
  born : ∀ x, x < (page + 1) * 512 → s'.born x = s.born x

theorem Keeps.refl (page : ℕ) (s : State ℕ) : Keeps page s s :=
  ⟨rfl, rfl, fun _ h => h, Nat.le_refl _, fun _ _ => rfl⟩

theorem Turned.keeps {page later : ℕ} {s s' : State ℕ} (h : Turned wide later s s')
    (hle : page ≤ later) : Keeps page s s' := by
  refine ⟨h.sections, h.loaded, ?_, by rw [h.turns]; omega, ?_⟩
  · intro x hx
    rw [h.granted]
    exact List.mem_cons_of_mem _ hx
  · intro x hx
    have haddr : (later + 1) <<< wide.pageBits ||| FIRST_VALID_ADDRESS = (later + 1) * 512 + 64 :=
      wide.join_eq wide.header_lt_pageSize
    rw [h.born, haddr]
    have hmul : (page + 1) * 512 ≤ (later + 1) * 512 := Nat.mul_le_mul_right _ (by omega)
    exact Function.update_of_ne (by omega) _ _

theorem Keeps.trans {page : ℕ} {s s' s'' : State ℕ} (h : Keeps page s s') (h' : Keeps page s' s'') :
    Keeps page s s'' :=
  ⟨h'.sections.trans h.sections, h'.loaded.trans h.loaded, fun x hx => h'.granted x (h.granted x hx),
    Nat.le_trans h.turns h'.turns, fun x hx => (h'.born x hx).trans (h.born x hx)⟩

/-- Turning `n` pages, up to the last page of the field. -/
theorem turn_pages (n : ℕ) {page : ℕ} {s : State ℕ} (h : AtEnd page s) (hp : page + n < 2 ^ 32) :
    ∃ ls s', Lts.Steps (next wide) OffsetFits s ls s' ∧ (∀ l ∈ ls, l ∈ turn) ∧
      AtEnd (page + n) s' ∧ Keeps page s s' := by
  induction n with
  | zero => exact ⟨[], s, .nil s, by simp, h, .refl page s⟩
  | succ n ih =>
    obtain ⟨ls, s₁, hrun, hls, hend, hkeeps⟩ := ih (by omega)
    obtain ⟨s', hturn, hturned⟩ := turn_wide hend (by omega)
    refine ⟨ls ++ turn, s', hrun.append hturn, ?_, ⟨?_, hturned.allocIdle, hturned.idle⟩,
      hkeeps.trans (hturned.keeps (by omega))⟩
    · intro l hl
      rcases List.mem_append.mp hl with hl | hl
      · exact hls l hl
      · exact hl
    · rw [hturned.tail, unpack_pack (by omega) (by norm_num), Nat.add_assoc]

/-- The first allocation fills page 0. -/
theorem first_page :
    ∃ s, Lts.Steps (next wide) OffsetFits initial [.alloc (.fetchAdd 0 448)] s ∧ AtEnd 0 s := by
  obtain ⟨s, hs, hp⟩ := Lts.exists_steps (next wide) OffsetFits initial
    [.alloc (.fetchAdd 0 448)]
    (fun s => unpack s.alloc.tail = (0, 512) ∧ s.alloc.pc 0 = .idle ∧ s.pc 0 = .idle)
    (by decide +kernel)
  simp only [decide_eq_true_eq] at hp
  exact ⟨s, hs, hp.1, hp.2.1, hp.2.2⟩

end PageField

open PageField in
/-- After `2 ^ 32` pages of 512 bytes the tail is back in page 0, although the
    offset field has not overflowed. -/
theorem tail_falls_after_last_page :
    ∃ (before after : List (Label ℕ)) (s s' : State ℕ),
      Lts.Steps (next wide) OffsetFits initial before s ∧
      Lts.Steps (next wide) OffsetFits s after s' ∧
      ¬ (s.bounds wide).Rises (s'.bounds wide) := by
  obtain ⟨s₀, hfirst, hend₀⟩ := first_page
  obtain ⟨ls, s, hrun, -, hend, -⟩ := turn_pages (2 ^ 32 - 1) hend₀ (by norm_num)
  obtain ⟨s', hturn, hturned⟩ := turn_wide hend (by norm_num)
  refine ⟨_, _, s, s', hfirst.append hrun, hturn, fun h => ?_⟩
  have hwrap : unpack (pack (0 + (2 ^ 32 - 1) + 1) 512) = (0, 512) := by decide +kernel
  have htail := h.tail
  simp only [State.bounds, TailProtocol.frontier, hend.tail, hturned.tail, hwrap] at htail
  have hps : wide.pageSize = 512 := rfl
  rw [hps] at htail
  omega

end Tsavorite.LogProtocol
