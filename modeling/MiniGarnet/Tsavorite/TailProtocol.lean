import MiniGarnet.Lib.Lts
import MiniGarnet.Tsavorite.Geometry

/-! # The tail allocation protocol

    Any number of threads run `try_allocate_retry_now`.  The atomic steps of
    one call are the fetch-and-add on the tail word, the page-free check made
    by the thread that owns the page turn, the store that puts the tail back
    when the check fails, the zeroing of the next page, and the store that
    publishes the new page.  Everything between two such steps is local.

    The offset field of the tail word has 32 bits and nothing in the code
    bounds it: threads that lose the page turn keep adding to it.  The results
    below are therefore about the runs in which it does not overflow, and the
    counterexamples show what an overflow does.
-/

namespace Tsavorite.TailProtocol

/-! ## Section 1: Model -/

/-- Where a thread stands inside `try_allocate_retry_now`. -/
inductive Pc where
  /-- Not inside the call. -/
  | idle
  /-- Got `RetryNow` and spins: it will add the same `size` again. -/
  | retrying (size : ℕ)
  /-- Crossed the end of `page` first: owns the page turn. -/
  | turning (page size : ℕ)
  /-- Found page `page + 1` not free: about to put the tail back. -/
  | refusing (page : ℕ)
  /-- Found page `page + 1` free: about to zero it. -/
  | zeroing (page size : ℕ)
  /-- Zeroed page `page + 1`: about to publish it. -/
  | publishing (page size : ℕ)
  deriving DecidableEq, Repr

/-- The page whose turn a thread owns. -/
def Pc.owned : Pc → Option ℕ
  | .turning page _ => some page
  | .refusing page => some page
  | .zeroing page _ => some page
  | .publishing page _ => some page
  | _ => none

/-- Global state.  `granted` is history: the allocations returned so far,
    newest first, each with its size. -/
structure State (Thread : Type*) where
  tail : ℕ
  closedUntil : ℕ
  pc : Thread → Pc
  granted : List (ℕ × ℕ)

inductive Label (Thread : Type*) where
  /-- The fetch-and-add of a call that asks for `size` bytes. -/
  | fetchAdd (t : Thread) (size : ℕ)
  /-- The owner's page-free check. -/
  | checkFree (t : Thread)
  /-- The owner puts the tail back at the end of the page. -/
  | refuse (t : Thread)
  /-- The owner zeroes the next page. -/
  | zero (t : Thread)
  /-- The owner publishes the next page. -/
  | publish (t : Thread)
  /-- `on_pages_closed` moves `closed_until_address`. -/
  | close (until_ : ℕ)

/-- The two assertions at the head of `try_allocate`. -/
def AdmittedSize (g : Geometry) (size : ℕ) : Prop :=
  size % 8 = 0 ∧ size + PAGE_HEADER_SIZE ≤ g.pageSize

instance (g : Geometry) (size : ℕ) : Decidable (AdmittedSize g size) :=
  inferInstanceAs (Decidable (_ ∧ _))

variable {Thread : Type*}

section Transitions

variable [DecidableEq Thread]

def setPc (pc : Thread → Pc) (t : Thread) (p : Pc) : Thread → Pc :=
  fun u => if u = t then p else pc u

@[simp] theorem setPc_self (pc : Thread → Pc) (t : Thread) (p : Pc) : setPc pc t p t = p := by
  simp [setPc]

@[simp] theorem setPc_ne (pc : Thread → Pc) {t u : Thread} (p : Pc) (h : u ≠ t) :
    setPc pc t p u = pc u := by
  simp [setPc, h]

/-- A thread may issue its fetch-and-add from outside the call, or while it spins
    on `RetryNow` with the size it asked for. -/
def MayAdd (p : Pc) (size : ℕ) : Prop := p = .idle ∨ p = .retrying size

instance (p : Pc) (size : ℕ) : Decidable (MayAdd p size) := inferInstanceAs (Decidable (_ ∨ _))

/-- The effect of the fetch-and-add and of the branch on its result. -/
def afterFetchAdd (g : Geometry) (s : State Thread) (t : Thread) (size : ℕ) : State Thread :=
  let (page, off) := unpack s.tail
  let moved := { s with tail := fetchAdd s.tail size }
  if off + size ≤ g.pageSize then
    { moved with
      pc := setPc s.pc t .idle
      granted := (page <<< g.pageBits ||| off, size) :: s.granted }
  else if g.pageSize < off then
    { moved with pc := setPc s.pc t (.retrying size) }
  else
    { moved with pc := setPc s.pc t (.turning page size) }

def next (g : Geometry) (s : State Thread) : Label Thread → Option (State Thread)
  | .fetchAdd t size =>
    if AdmittedSize g size ∧ MayAdd (s.pc t) size then some (afterFetchAdd g s t size) else none
  | .checkFree t =>
    match s.pc t with
    | .turning page size =>
      if g.pageIsFree s.closedUntil (page + 1) then
        some { s with pc := setPc s.pc t (.zeroing page size) }
      else
        some { s with pc := setPc s.pc t (.refusing page) }
    | _ => none
  | .refuse t =>
    match s.pc t with
    | .refusing page =>
      some { s with tail := pack page g.pageSize, pc := setPc s.pc t .idle }
    | _ => none
  | .zero t =>
    match s.pc t with
    | .zeroing page size => some { s with pc := setPc s.pc t (.publishing page size) }
    | _ => none
  | .publish t =>
    match s.pc t with
    | .publishing page size =>
      some { s with
        tail := pack (page + 1) (FIRST_VALID_ADDRESS + size)
        pc := setPc s.pc t .idle
        granted := ((page + 1) <<< g.pageBits ||| FIRST_VALID_ADDRESS, size) :: s.granted }
    | _ => none
  | .close u => some { s with closedUntil := u }

end Transitions

/-- The state `HybridLog::new` leaves behind, with every thread outside the call. -/
def initial : State Thread where
  tail := pack 0 FIRST_VALID_ADDRESS
  closedUntil := 0
  pc := fun _ => .idle
  granted := []

/-! ## Section 2: The condition on steps

    A fetch-and-add must not carry out of the offset field, an empty request
    must not be made at the very end of a page, and a page turn must not
    leave the 32-bit page field. -/

/-- The page a thread is about to publish fits the page field. -/
def Pc.PageInRange : Pc → Prop
  | .publishing page _ => page + 1 < 2 ^ 32
  | _ => True

instance : DecidablePred Pc.PageInRange
  | .publishing page _ => inferInstanceAs (Decidable (page + 1 < 2 ^ 32))
  | .idle | .retrying _ | .turning _ _ | .refusing _ | .zeroing _ _ =>
    inferInstanceAs (Decidable True)

/-- The fields of the tail word do not overflow in this step. -/
def InRange (g : Geometry) (s : State Thread) : Label Thread → Prop
  | .fetchAdd _ size =>
    (unpack s.tail).2 + size < 2 ^ 32 ∧ (size = 0 → (unpack s.tail).2 ≠ g.pageSize)
  | .publish t => (s.pc t).PageInRange
  | _ => True

instance (g : Geometry) (s : State Thread) (l : Label Thread) : Decidable (InRange g s l) :=
  match l with
  | .fetchAdd _ _ => inferInstanceAs (Decidable (_ ∧ _))
  | .publish t => inferInstanceAs (Decidable (s.pc t).PageInRange)
  | .checkFree _ | .refuse _ | .zero _ | .close _ => inferInstanceAs (Decidable True)

/-! ## Section 3: Invariant -/

/-- The end of the space handed out so far: the position of the tail word, with the
    offset cut at the page size while a page turn is in progress. -/
def frontier (g : Geometry) (s : State Thread) : ℕ :=
  (unpack s.tail).1 * g.pageSize + min (unpack s.tail).2 g.pageSize

/-- `[a, a + size)` lies inside one page, behind its header. -/
def InOnePage (g : Geometry) (a size : ℕ) : Prop :=
  PAGE_HEADER_SIZE ≤ g.pageOffset a ∧ g.pageOffset a + size ≤ g.pageSize

structure Inv (g : Geometry) (s : State Thread) : Prop where
  word : s.tail < 2 ^ 64
  header : FIRST_VALID_ADDRESS ≤ (unpack s.tail).2
  /-- A thread that owns a turn owns the turn of the current page, and the offset
      is past the page end until it stores the tail. -/
  owner : ∀ t page, (s.pc t).owned = some page →
    page = (unpack s.tail).1 ∧ g.pageSize < (unpack s.tail).2
  unique : ∀ t u, (s.pc t).owned ≠ none → (s.pc u).owned ≠ none → t = u
  sizes : ∀ t page size, s.pc t = .turning page size ∨ s.pc t = .zeroing page size ∨
    s.pc t = .publishing page size → size + PAGE_HEADER_SIZE ≤ g.pageSize
  inPage : ∀ x ∈ s.granted, InOnePage g x.1 x.2
  below : ∀ x ∈ s.granted, x.1 + x.2 ≤ frontier g s
  ordered : s.granted.Pairwise fun x y => y.1 + y.2 ≤ x.1

theorem inv_initial (g : Geometry) : Inv g (initial : State Thread) := by
  have hw : unpack (pack 0 FIRST_VALID_ADDRESS) = (0, 64) := by decide +kernel
  constructor <;> simp [initial, hw, Pc.owned]
  · decide +kernel
  · decide

/-! ## Section 4: Ownership of the page turn -/

/-- While nobody is past the page end, nobody owns a turn. -/
theorem Inv.no_owner {g : Geometry} {s : State Thread} (h : Inv g s)
    (hle : (unpack s.tail).2 ≤ g.pageSize) (t : Thread) : (s.pc t).owned = none := by
  cases hp : (s.pc t).owned with
  | none => rfl
  | some page =>
    have := (h.owner t page hp).2
    omega

/-- The page whose turn is owned fits its field, since it is in the tail word. -/
theorem Inv.owned_page_lt {g : Geometry} {s : State Thread} (h : Inv g s) {t : Thread} {page : ℕ}
    (hown : (s.pc t).owned = some page) : page < 2 ^ 32 := by
  have hword := h.word
  rw [(h.owner t page hown).1, unpack_eq]
  simp only
  omega

theorem Inv.frontier_of_owner {g : Geometry} {s : State Thread} (h : Inv g s) {t : Thread}
    {page : ℕ} (hown : (s.pc t).owned = some page) :
    frontier g s = page * g.pageSize + g.pageSize := by
  obtain ⟨hpage, hpast⟩ := h.owner t page hown
  simp only [frontier]
  rw [← hpage, Nat.min_eq_right (by omega)]

/-! ## Section 5: Progress of the frontier

    A step leaves what was granted alone, grants only at or above the old
    frontier, and never moves the frontier back. -/

structure Advances (g : Geometry) (s s' : State Thread) : Prop where
  granted : ∃ new, s'.granted = new ++ s.granted ∧ ∀ x ∈ new, frontier g s ≤ x.1
  frontier_le : frontier g s ≤ frontier g s'

theorem Advances.refl (g : Geometry) (s : State Thread) : Advances g s s :=
  ⟨⟨[], rfl, by simp⟩, le_refl _⟩

theorem Advances.trans {g : Geometry} {a b c : State Thread} (hab : Advances g a b)
    (hbc : Advances g b c) : Advances g a c := by
  obtain ⟨new, hnew, habove⟩ := hab.granted
  obtain ⟨new', hnew', habove'⟩ := hbc.granted
  refine ⟨⟨new' ++ new, by rw [hnew', hnew, List.append_assoc], ?_⟩,
    le_trans hab.frontier_le hbc.frontier_le⟩
  intro x hx
  rcases List.mem_append.mp hx with hx | hx
  · exact le_trans hab.frontier_le (habove' x hx)
  · exact habove x hx

/-- The shape shared by all steps that leave nobody owning a turn: the tail word
    is at `(page, off)` inside a page and at most one range was granted. -/
theorem inv_of_settled {g : Geometry} {s s' : State Thread} {page off : ℕ} (new : List (ℕ × ℕ))
    (h : Inv g s) (hword : s'.tail < 2 ^ 64) (hun : unpack s'.tail = (page, off))
    (hoff : FIRST_VALID_ADDRESS ≤ off) (hfit : off ≤ g.pageSize)
    (hfree : ∀ t, (s'.pc t).owned = none) (hgr : s'.granted = new ++ s.granted)
    (hfront : frontier g s ≤ page * g.pageSize + off)
    (hnew : new = [] ∨ ∃ a size, new = [(a, size)] ∧ InOnePage g a size ∧ frontier g s ≤ a ∧
      a + size ≤ page * g.pageSize + off) :
    Inv g s' ∧ Advances g s s' := by
  have hfr : frontier g s' = page * g.pageSize + off := by
    simp only [frontier, hun]
    rw [Nat.min_eq_left hfit]
  have hold : ∀ x ∈ s.granted, x.1 + x.2 ≤ page * g.pageSize + off :=
    fun x hx => le_trans (h.below x hx) hfront
  have hsizes : ∀ t page size, s'.pc t = .turning page size ∨ s'.pc t = .zeroing page size ∨
      s'.pc t = .publishing page size → size + PAGE_HEADER_SIZE ≤ g.pageSize := by
    intro t p n hp
    have := hfree t
    rcases hp with hp | hp | hp <;> rw [hp] at this <;> simp [Pc.owned] at this
  have howner : ∀ t p, (s'.pc t).owned = some p →
      p = (unpack s'.tail).1 ∧ g.pageSize < (unpack s'.tail).2 := by
    intro t p hp
    rw [hfree t] at hp
    cases hp
  have hunique : ∀ t u, (s'.pc t).owned ≠ none → (s'.pc u).owned ≠ none → t = u :=
    fun t _ ht _ => absurd (hfree t) ht
  rcases hnew with rfl | ⟨a, size, rfl, hin, hge, hle⟩
  · rw [List.nil_append] at hgr
    refine ⟨⟨hword, by rw [hun]; exact hoff, howner, hunique, hsizes, ?_, ?_, ?_⟩,
      ⟨[], by rw [hgr]; rfl, by simp⟩, by rw [hfr]; exact hfront⟩
    · rw [hgr]; exact h.inPage
    · rw [hgr, hfr]; exact hold
    · rw [hgr]; exact h.ordered
  · rw [List.singleton_append] at hgr
    refine ⟨⟨hword, by rw [hun]; exact hoff, howner, hunique, hsizes, ?_, ?_, ?_⟩,
      ⟨[(a, size)], hgr, by simpa using hge⟩, by rw [hfr]; exact hfront⟩
    · rw [hgr]
      intro x hx
      rcases List.mem_cons.mp hx with rfl | hx
      · exact hin
      · exact h.inPage x hx
    · rw [hgr, hfr]
      intro x hx
      rcases List.mem_cons.mp hx with rfl | hx
      · exact hle
      · exact hold x hx
    · rw [hgr]
      exact List.pairwise_cons.mpr
        ⟨fun y hy => le_trans (h.below y hy) hge, h.ordered⟩

/-! ## Section 6: Steps -/

/-- The tail word after a fetch-and-add that stays in range. -/
theorem tail_after_fetchAdd {g : Geometry} {s : State Thread} {t : Thread} {size : ℕ}
    (h : Inv g s) (hok : InRange g s (.fetchAdd t size)) :
    unpack (fetchAdd s.tail size) = ((unpack s.tail).1, (unpack s.tail).2 + size) ∧
      fetchAdd s.tail size < 2 ^ 64 :=
  ⟨unpack_fetchAdd h.word hok.1, fetchAdd_lt _ _⟩

variable [DecidableEq Thread]

/-- Changing one thread's program counter to one that owns the same page keeps the
    ownership part of the invariant. -/
theorem Inv.setPc_same {g : Geometry} {s : State Thread} {t : Thread} {p : Pc} (h : Inv g s)
    (hown : p.owned = (s.pc t).owned)
    (hsize : ∀ page size, p = .turning page size ∨ p = .zeroing page size ∨
      p = .publishing page size → size + PAGE_HEADER_SIZE ≤ g.pageSize) :
    Inv g { s with pc := setPc s.pc t p } := by
  have howned : ∀ u, (setPc s.pc t p u).owned = (s.pc u).owned := by
    intro u
    by_cases hu : u = t
    · subst hu; simp [hown]
    · simp [hu]
  refine ⟨h.word, h.header, ?_, ?_, ?_, h.inPage, h.below, h.ordered⟩
  · intro u page hu
    exact h.owner u page (by rw [← howned u]; exact hu)
  · intro u v hu hv
    exact h.unique u v (by rw [← howned u]; exact hu) (by rw [← howned v]; exact hv)
  · intro u page size hu
    by_cases hut : u = t
    · subst hut
      exact hsize page size (by simpa using hu)
    · exact h.sizes u page size (by simpa [hut] using hu)

/-- Once the owner of a turn has left, nobody owns one. -/
theorem Inv.no_owner_after {g : Geometry} {s : State Thread} (h : Inv g s) {t : Thread}
    (hown : (s.pc t).owned ≠ none) (u : Thread) : (setPc s.pc t .idle u).owned = none := by
  by_cases hu : u = t
  · subst hu; simp [Pc.owned]
  · rw [setPc_ne _ _ hu]
    by_contra hne
    exact hu (h.unique u t hne hown)

theorem MayAdd.owned_none {p : Pc} {size : ℕ} (h : MayAdd p size) : p.owned = none := by
  rcases h with rfl | rfl <;> rfl

theorem step_fetchAdd {g : Geometry} {s : State Thread} {t : Thread} {size : ℕ}
    (h : Inv g s) (hok : InRange g s (.fetchAdd t size)) (hsize : AdmittedSize g size)
    (hmay : MayAdd (s.pc t) size) :
    Inv g (afterFetchAdd g s t size) ∧ Advances g s (afterFetchAdd g s t size) := by
  obtain ⟨hun, hword⟩ := tail_after_fetchAdd h hok
  have hhdr := h.header
  unfold afterFetchAdd
  simp only
  split
  · -- The range fits: granted at the old tail position.
    next hfit =>
    have hle : (unpack s.tail).2 ≤ g.pageSize := by omega
    have hlt : (unpack s.tail).2 < g.pageSize := by
      rcases Nat.lt_or_eq_of_le hle with hlt | heq
      · exact hlt
      · exact absurd heq (hok.2 (by omega))
    have hfront : frontier g s = (unpack s.tail).1 * g.pageSize + (unpack s.tail).2 := by
      simp only [frontier]
      rw [Nat.min_eq_left hle]
    refine inv_of_settled [(_, size)] h hword hun (by omega) hfit ?_ rfl
      (by rw [hfront]; omega) (.inr ⟨_, size, rfl, ?_, ?_, ?_⟩)
    · intro u
      by_cases hu : u = t
      · subst hu; simp [Pc.owned]
      · simpa [hu] using h.no_owner hle u
    · rw [g.join_eq hlt, InOnePage, g.pageOffset_join hlt]
      exact ⟨hhdr, hfit⟩
    · rw [g.join_eq hlt, hfront]
    · rw [g.join_eq hlt]; omega
  · next hnofit =>
    split
    · -- Somebody else owns the turn: only the offset moves, beyond the page end.
      next hpast =>
      have hfront : ∀ w, unpack w = ((unpack s.tail).1, (unpack s.tail).2 + size) →
          (unpack w).1 * g.pageSize + min (unpack w).2 g.pageSize = frontier g s := by
        intro w hw
        simp only [frontier, hw]
        rw [Nat.min_eq_right (by omega), Nat.min_eq_right (by omega)]
      have hmoved : Inv g { s with tail := fetchAdd s.tail size } := by
        refine ⟨hword, by rw [hun]; simp only; omega, ?_, h.unique, h.sizes, h.inPage, ?_,
          h.ordered⟩
        · intro u page hu
          have := h.owner u page hu
          rw [hun]
          exact ⟨this.1, by simp only; omega⟩
        · intro x hx
          exact le_trans (h.below x hx) (by simp only [frontier] at hfront ⊢; rw [hfront _ hun])
      refine ⟨hmoved.setPc_same (by rw [hmay.owned_none]; rfl) (by simp), ⟨[], rfl, by simp⟩, ?_⟩
      exact le_of_eq (hfront _ hun).symm
    · -- This thread crosses the page end first.
      next hcross =>
      have hle : (unpack s.tail).2 ≤ g.pageSize := by omega
      have hfree := h.no_owner hle
      have hfront : frontier g s ≤ (unpack s.tail).1 * g.pageSize + g.pageSize := by
        simp only [frontier]; omega
      have hfront' : (unpack s.tail).1 * g.pageSize + g.pageSize =
          (unpack (fetchAdd s.tail size)).1 * g.pageSize +
            min (unpack (fetchAdd s.tail size)).2 g.pageSize := by
        rw [hun]
        simp only
        rw [Nat.min_eq_right (by omega)]
      have hpc : ∀ u, u ≠ t →
          setPc s.pc t (.turning (unpack s.tail).1 size) u = s.pc u :=
        fun u hu => setPc_ne _ _ hu
      refine ⟨⟨hword, by rw [hun]; simp only; omega, ?_, ?_, ?_, h.inPage, ?_, h.ordered⟩,
        ⟨[], rfl, by simp⟩, ?_⟩
      · intro u page hu
        by_cases hut : u = t
        · subst hut
          simp only [setPc_self, Pc.owned, Option.some.injEq] at hu
          subst hu
          rw [hun]
          exact ⟨rfl, by simp only; omega⟩
        · simp only [hpc u hut, hfree u] at hu
          cases hu
      · intro u v hu hv
        by_cases hut : u = t
        · by_cases hvt : v = t
          · rw [hut, hvt]
          · simp only [hpc v hvt, hfree v] at hv
            exact absurd rfl hv
        · simp only [hpc u hut, hfree u] at hu
          exact absurd rfl hu
      · intro u page n hu
        by_cases hut : u = t
        · subst hut
          simp only [setPc_self, Pc.turning.injEq, reduceCtorEq, or_self, or_false] at hu
          rw [← hu.2]
          exact hsize.2
        · simp only [hpc u hut] at hu
          exact h.sizes u page n hu
      · intro x hx
        exact le_trans (h.below x hx) (le_trans hfront (le_of_eq hfront'))
      · exact le_trans hfront (le_of_eq hfront')

theorem step_refuse {g : Geometry} {s : State Thread} {t : Thread} {page : ℕ}
    (h : Inv g s) (hpc : s.pc t = .refusing page) :
    let s' := { s with tail := pack page g.pageSize, pc := setPc s.pc t .idle }
    Inv g s' ∧ Advances g s s' := by
  have hown : (s.pc t).owned = some page := by rw [hpc]; rfl
  have hp := h.owned_page_lt hown
  have hps := g.pageSize_le
  have hps' := g.pageSize_ge
  have hword : pack page g.pageSize < 2 ^ 64 := by rw [pack_eq hp (by omega)]; omega
  refine inv_of_settled [] h hword (unpack_pack hp (by omega)) ?_ (le_refl _)
    (h.no_owner_after (by rw [hown]; simp)) rfl (le_of_eq (h.frontier_of_owner hown)) (.inl rfl)
  exact le_of_lt g.header_lt_pageSize

theorem step_publish {g : Geometry} {s : State Thread} {t : Thread} {page size : ℕ}
    (h : Inv g s) (hpc : s.pc t = .publishing page size) (hrange : page + 1 < 2 ^ 32) :
    let s' := { s with
      tail := pack (page + 1) (FIRST_VALID_ADDRESS + size)
      pc := setPc s.pc t .idle
      granted := ((page + 1) <<< g.pageBits ||| FIRST_VALID_ADDRESS, size) :: s.granted }
    Inv g s' ∧ Advances g s s' := by
  have hown : (s.pc t).owned = some page := by rw [hpc]; rfl
  have hsize : size + PAGE_HEADER_SIZE ≤ g.pageSize :=
    h.sizes t page size (.inr (.inr hpc))
  have hhdr : FIRST_VALID_ADDRESS = PAGE_HEADER_SIZE := rfl
  have hps := g.pageSize_le
  have hoff : FIRST_VALID_ADDRESS + size < 2 ^ 32 := by omega
  have hjoin : (page + 1) <<< g.pageBits ||| FIRST_VALID_ADDRESS =
      (page + 1) * g.pageSize + FIRST_VALID_ADDRESS := g.join_eq g.header_lt_pageSize
  have hfront := h.frontier_of_owner hown
  have hnextpage : (page + 1) * g.pageSize = page * g.pageSize + g.pageSize := by ring
  have hword : pack (page + 1) (FIRST_VALID_ADDRESS + size) < 2 ^ 64 := by
    rw [pack_eq hrange hoff]; omega
  refine inv_of_settled [(_, size)] h hword (unpack_pack hrange hoff) (by omega)
    (by omega) (h.no_owner_after (by rw [hown]; simp)) rfl (by omega)
    (.inr ⟨_, size, rfl, ?_, ?_, ?_⟩)
  · rw [hjoin, InOnePage, g.pageOffset_join g.header_lt_pageSize]
    exact ⟨le_refl _, by omega⟩
  · rw [hjoin]; omega
  · rw [hjoin]; omega

/-- What a step in range does, in one statement. -/
theorem step_spec {g : Geometry} {s s' : State Thread} {l : Label Thread}
    (h : Inv g s) (hok : InRange g s l) (hnext : next g s l = some s') :
    Inv g s' ∧ Advances g s s' := by
  have hlocal : ∀ {t : Thread} {p : Pc}, p.owned = (s.pc t).owned →
      (∀ page size, p = .turning page size ∨ p = .zeroing page size ∨
        p = .publishing page size → size + PAGE_HEADER_SIZE ≤ g.pageSize) →
      Inv g { s with pc := setPc s.pc t p } ∧ Advances g s { s with pc := setPc s.pc t p } :=
    fun hown hsize => ⟨h.setPc_same hown hsize, ⟨[], rfl, by simp⟩, le_refl _⟩
  cases l with
  | fetchAdd t size =>
    simp only [next, Option.ite_none_right_eq_some, Option.some.injEq] at hnext
    obtain ⟨⟨hsize, hmay⟩, rfl⟩ := hnext
    exact step_fetchAdd h hok hsize hmay
  | checkFree t =>
    cases hpc : s.pc t with
    | turning page size =>
      have hsize := h.sizes t page size (.inl hpc)
      simp only [next, hpc] at hnext
      split at hnext
      · cases hnext
        refine hlocal (by rw [hpc]; rfl) ?_
        intro p n hp
        simp only [reduceCtorEq, Pc.zeroing.injEq, or_false, false_or] at hp
        rw [← hp.2]
        exact hsize
      · cases hnext
        exact hlocal (by rw [hpc]; rfl) (by simp)
    | _ => simp [next, hpc] at hnext
  | refuse t =>
    cases hpc : s.pc t with
    | refusing page =>
      simp only [next, hpc, Option.some.injEq] at hnext
      subst hnext
      exact step_refuse h hpc
    | _ => simp [next, hpc] at hnext
  | zero t =>
    cases hpc : s.pc t with
    | zeroing page size =>
      have hsize := h.sizes t page size (.inr (.inl hpc))
      simp only [next, hpc, Option.some.injEq] at hnext
      subst hnext
      refine hlocal (by rw [hpc]; rfl) ?_
      intro p n hp
      simp only [reduceCtorEq, Pc.publishing.injEq, false_or] at hp
      rw [← hp.2]
      exact hsize
    | _ => simp [next, hpc] at hnext
  | publish t =>
    cases hpc : s.pc t with
    | publishing page size =>
      simp only [next, hpc, Option.some.injEq] at hnext
      subst hnext
      refine step_publish h hpc ?_
      simpa only [InRange, hpc, Pc.PageInRange] using hok
    | _ => simp [next, hpc] at hnext
  | close u =>
    simp only [next, Option.some.injEq] at hnext
    subst hnext
    exact ⟨⟨h.word, h.header, h.owner, h.unique, h.sizes, h.inPage, h.below, h.ordered⟩,
      ⟨[], rfl, by simp⟩, le_refl _⟩

/-! ## Section 7: Main results

    Each result is followed by a run inside its condition and by a run outside
    it on which the conclusion fails. -/

/-- Two ranges have no byte in common. -/
def DisjointRanges (x y : ℕ × ℕ) : Prop := x.1 + x.2 ≤ y.1 ∨ y.1 + y.2 ≤ x.1

instance (x y : ℕ × ℕ) : Decidable (DisjointRanges x y) := inferInstanceAs (Decidable (_ ∨ _))

/-- **Allocations are disjoint.**  In every run from `HybridLog::new`, by any number
    of threads, in which the fields of the tail word do not overflow, any two
    granted ranges are disjoint and each lies inside one page behind its header. -/
theorem granted_disjoint_in_page (g : Geometry) {ls : List (Label Thread)} {s : State Thread}
    (hrun : Lts.Steps (next g) (InRange g) initial ls s) :
    s.granted.Pairwise DisjointRanges ∧ ∀ x ∈ s.granted, InOnePage g x.1 x.2 := by
  have h : Inv g s := hrun.invariant (fun h hok hn => (step_spec h hok hn).1) (inv_initial g)
  exact ⟨h.ordered.imp Or.inr, h.inPage⟩

/-- Page 0 is filled and page 1 is opened, with one thread losing the turn. -/
def fillAndTurn : List (Label ℕ) :=
  [.fetchAdd 0 448, .fetchAdd 1 64, .fetchAdd 0 64, .checkFree 1, .zero 1, .publish 1]

theorem granted_disjoint_in_page_fillAndTurn :
    ∃ s : State ℕ, s.granted.length = 2 ∧
      s.granted.Pairwise DisjointRanges ∧
      ∀ x ∈ s.granted, InOnePage (Geometry.twoPages 9 (by decide)) x.1 x.2 := by
  obtain ⟨s, hs, hp⟩ := Lts.exists_steps (next (Geometry.twoPages 9 (by decide)))
    (InRange (Geometry.twoPages 9 (by decide))) initial fillAndTurn
    (fun s => s.granted.length = 2) (by decide +kernel)
  exact ⟨s, by simpa using hp, granted_disjoint_in_page _ hs⟩

/-- Two threads that wait for the owner of the first page turn carry the offset into
    the page field; one of them is then granted the start of page 1, header
    included, and the owner grants the same bytes again. -/
def carryIntoPage : List (Label ℕ) :=
  [.fetchAdd 0 1073741760, .fetchAdd 1 1073741760, .fetchAdd 2 1073741760,
   .fetchAdd 2 1073741760, .fetchAdd 3 192, .fetchAdd 3 192,
   .checkFree 1, .zero 1, .publish 1]

/-- With pages of `2 ^ 30` bytes, four losing additions are enough for an overlap. -/
theorem granted_overlap_after_carry :
    ∃ s, Lts.Runs (next (Geometry.twoPages 30 (by decide))) initial carryIntoPage s ∧
      ¬ s.granted.Pairwise DisjointRanges ∧
      ∃ x ∈ s.granted, ¬ InOnePage (Geometry.twoPages 30 (by decide)) x.1 x.2 := by
  obtain ⟨s, hs, hp⟩ := Lts.exists_runs (next (Geometry.twoPages 30 (by decide)))
    initial carryIntoPage
    (fun s => s.granted = [(1073741888, 1073741760), (1073741824, 192), (64, 1073741760)])
    (by decide +kernel)
  simp only [decide_eq_true_eq] at hp
  refine ⟨s, hs, ?_, (1073741824, 192), ?_, ?_⟩
  · rw [hp]; decide
  · rw [hp]; decide
  · simp only [InOnePage]; decide

/-- **The tail address is exact.**  Split a run of the tail protocol at a moment at
    which `tail_address` returns `T` and does not find the tail word at the end of
    an odd page.  Then everything granted before ends at or below `T`, everything
    granted later starts at or above `T`, and every later result of `tail_address`
    that is not taken at the end of an odd page is at least `T`. -/
theorem tailAddress_exact (g : Geometry) {before after : List (Label Thread)}
    {s s' : State Thread} {T : ℕ}
    (hbefore : Lts.Steps (next g) (InRange g) initial before s)
    (hafter : Lts.Steps (next g) (InRange g) s after s')
    (hT : tailAddress g s.tail = some T) (hodd : ¬ OddPageFull g s.tail) :
    (∀ x ∈ s.granted, x.1 + x.2 ≤ T) ∧
    (∃ new, s'.granted = new ++ s.granted ∧ ∀ x ∈ new, T ≤ x.1) ∧
    (∀ T', tailAddress g s'.tail = some T' → ¬ OddPageFull g s'.tail → T ≤ T') := by
  have h : Inv g s := hbefore.invariant (fun h hok hn => (step_spec h hok hn).1) (inv_initial g)
  have hadv : Advances g s s' :=
    hafter.relation (fun h hok hn => (step_spec h hok hn).1) (Advances.refl g) Advances.trans
      (fun h hok hn => (step_spec h hok hn).2) h
  have hposition : ∀ {w U : ℕ}, tailAddress g w = some U → ¬ OddPageFull g w →
      (unpack w).1 * g.pageSize + min (unpack w).2 g.pageSize = U := by
    intro w U hU hne
    obtain ⟨hle, rfl⟩ := tailAddress_eq hU hne
    rw [Nat.min_eq_left hle]
  have hfT : frontier g s = T := hposition hT hodd
  rw [← hfT]
  refine ⟨h.below, hadv.granted, fun T' hT' hodd' => ?_⟩
  have hfT' : frontier g s' = T' := hposition hT' hodd'
  rw [← hfT']
  exact hadv.frontier_le

/-- The moment in `fillAndTurn` at which page 0 is full, and its end. -/
theorem tailAddress_exact_fillAndTurn :
    ∃ s s' : State ℕ, s.granted = [(64, 448)] ∧ s'.granted.length = 2 ∧
      tailAddress (Geometry.twoPages 9 (by decide)) s'.tail = some 640 ∧
      (∀ x ∈ s.granted, x.1 + x.2 ≤ 512) ∧
      (∃ new, s'.granted = new ++ s.granted ∧ ∀ x ∈ new, 512 ≤ x.1) := by
  let g := Geometry.twoPages 9 (by decide)
  obtain ⟨s, hs, hp⟩ := Lts.exists_steps (next g) (InRange g) initial
    [.fetchAdd 0 448]
    (fun s => s.tail = 512 && s.granted = [(64, 448)] &&
      ((Lts.runChecked (next g) (InRange g) s fillAndTurn.tail).map fun s' =>
        s'.tail = pack 1 128 && s'.granted.length = 2) = some true) (by decide +kernel)
  simp only [Bool.and_eq_true, decide_eq_true_eq] at hp
  obtain ⟨⟨htail, hgr⟩, hrest⟩ := hp
  obtain ⟨s', hs', hp'⟩ := Lts.exists_steps _ _ _ _ _ hrest
  simp only [Bool.and_eq_true, decide_eq_true_eq] at hp'
  have hexact := tailAddress_exact g (T := 512) hs hs' (by rw [htail]; decide +kernel)
    (by rw [htail]; decide +kernel)
  refine ⟨s, s', hgr, hp'.2, ?_, hexact.1, hexact.2.1⟩
  rw [hp'.1]
  decide +kernel

/-- One thread fills page 0 and then page 1 exactly. -/
def fillTwoPages : List (Label ℕ) :=
  [.fetchAdd 0 448, .fetchAdd 0 448, .checkFree 0, .zero 0, .publish 0]

/-- With 512-byte pages, `tail_address` returns 512 once page 1 has been filled,
    although the range `[576, 1024)` has been granted. -/
theorem tailAddress_odd_page_full :
    ∃ s, Lts.Runs (next (Geometry.twoPages 9 (by decide))) initial fillTwoPages s ∧
      ∃ T, tailAddress (Geometry.twoPages 9 (by decide)) s.tail = some T ∧
        ∃ x ∈ s.granted, ¬ x.1 + x.2 ≤ T := by
  obtain ⟨s, hs, hp⟩ := Lts.exists_runs (next (Geometry.twoPages 9 (by decide)))
    initial fillTwoPages
    (fun s => tailAddress (Geometry.twoPages 9 (by decide)) s.tail = some 512 &&
      s.granted.contains (576, 448)) (by decide +kernel)
  simp only [Bool.and_eq_true, decide_eq_true_eq, List.contains_iff_mem] at hp
  exact ⟨s, hs, 512, hp.1, (576, 448), hp.2, by decide⟩

end Tsavorite.TailProtocol
