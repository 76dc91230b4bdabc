import MiniGarnet.Lib.Bits
import MiniGarnet.Lib.Lts

/-! # The latch word of a bucket

    Entry 7 of a bucket is one 64-bit word (`index.rs`): the address of the
    overflow bucket in the low 48 bits, the number of readers in the next 15,
    and the exclusive bit on top.  Threads change it by compare-and-swap,
    `fetch_sub` and `fetch_and`, each of which is a step here; the loops of
    the two `try_lock` functions and of the linking of an overflow bucket are
    modelled with their counters, and a weak compare-and-swap may fail for no
    reason.
-/

namespace Tsavorite

/-! ## Section 1: Operations on the word -/

def SHARED_ONE : ℕ := 1 <<< 48

def SHARED_MASK : ℕ := (2 ^ 15 - 1) <<< 48

def EXCLUSIVE_BIT : ℕ := 1 <<< 63

/-- `(1 << ADDRESS_BITS) - 1` -/
def ADDRESS_MASK : ℕ := 2 ^ 48 - 1

def MAX_LOCK_SPINS : ℕ := 10

def MAX_READER_DRAIN_SPINS : ℕ := 100

namespace LatchWord

/-- `cur + SHARED_ONE` -/
def addReader (w : ℕ) : ℕ := (w + SHARED_ONE) % 2 ^ 64

/-- `fetch_sub(SHARED_ONE)` -/
def subReader (w : ℕ) : ℕ := (w + (2 ^ 64 - SHARED_ONE)) % 2 ^ 64

/-- `cur | EXCLUSIVE_BIT` -/
def setExclusive (w : ℕ) : ℕ := w ||| EXCLUSIVE_BIT

/-- `fetch_and(!EXCLUSIVE_BIT)` -/
def clearExclusive (w : ℕ) : ℕ := w &&& (2 ^ 64 - 1 - EXCLUSIVE_BIT)

/-- `(cur & !ADDRESS_MASK) | new_addr` -/
def link (w addr : ℕ) : ℕ := w &&& (2 ^ 64 - 1 - ADDRESS_MASK) ||| addr

/-- A word from its three fields. -/
def pack (addr readers : ℕ) (exclusive : Bool) : ℕ :=
  addr + 2 ^ 48 * readers + 2 ^ 63 * exclusive.toNat

section Pack

variable {addr readers : ℕ} {exclusive : Bool}

theorem pack_lt (ha : addr < 2 ^ 48) (hr : readers < 2 ^ 15) :
    pack addr readers exclusive < 2 ^ 64 := by
  have := Bool.toNat_le exclusive
  unfold pack
  omega

theorem pack_and_exclusive (ha : addr < 2 ^ 48) (hr : readers < 2 ^ 15) :
    pack addr readers exclusive &&& EXCLUSIVE_BIT = 2 ^ 63 * exclusive.toNat := by
  have hb := Bool.toNat_le exclusive
  have hdiv : pack addr readers exclusive / 2 ^ 63 = exclusive.toNat := by
    unfold pack
    omega
  unfold EXCLUSIVE_BIT
  rw [Bits.and_shiftLeft, Bits.shiftRight_eq, hdiv, Nat.shiftLeft_eq]
  cases exclusive <;> rfl

theorem pack_and_shared (ha : addr < 2 ^ 48) (hr : readers < 2 ^ 15) :
    pack addr readers exclusive &&& SHARED_MASK = 2 ^ 48 * readers := by
  have hb := Bool.toNat_le exclusive
  unfold SHARED_MASK
  rw [Bits.and_shiftLeft, Bits.shiftRight_eq, Bits.and_two_pow_sub_one, Nat.shiftLeft_eq]
  have hmod : pack addr readers exclusive / 2 ^ 48 % 2 ^ 15 = readers := by
    unfold pack
    omega
  rw [hmod, Nat.mul_comm]

theorem pack_and_address (ha : addr < 2 ^ 48) : pack addr readers exclusive &&& ADDRESS_MASK = addr := by
  unfold ADDRESS_MASK
  rw [Bits.and_two_pow_sub_one]
  unfold pack
  omega

theorem addReader_pack (ha : addr < 2 ^ 48) (hr : readers + 1 < 2 ^ 15) :
    addReader (pack addr readers exclusive) = pack addr (readers + 1) exclusive := by
  have hb := Bool.toNat_le exclusive
  have hone : SHARED_ONE = 2 ^ 48 := by decide
  unfold addReader pack
  rw [hone]
  omega

theorem subReader_pack (ha : addr < 2 ^ 48) (hr : readers + 1 < 2 ^ 15) :
    subReader (pack addr (readers + 1) exclusive) = pack addr readers exclusive := by
  have hb := Bool.toNat_le exclusive
  have hone : SHARED_ONE = 2 ^ 48 := by decide
  unfold subReader pack
  rw [hone]
  omega

theorem setExclusive_pack (ha : addr < 2 ^ 48) (hr : readers < 2 ^ 15) :
    setExclusive (pack addr readers false) = pack addr readers true := by
  have hlt : pack addr readers false < 2 ^ 63 := by
    unfold pack
    simp only [Bool.toNat_false]
    omega
  unfold setExclusive EXCLUSIVE_BIT
  rw [Nat.lor_comm, Bits.shiftLeft_or_of_lt hlt]
  unfold pack
  simp only [Bool.toNat_false, Bool.toNat_true]
  omega

theorem clearExclusive_pack (ha : addr < 2 ^ 48) (hr : readers < 2 ^ 15) :
    clearExclusive (pack addr readers exclusive) = pack addr readers false := by
  have hb := Bool.toNat_le exclusive
  have hmask : 2 ^ 64 - 1 - EXCLUSIVE_BIT = 2 ^ 63 - 1 := by decide
  unfold clearExclusive
  rw [hmask, Bits.and_two_pow_sub_one]
  unfold pack
  simp only [Bool.toNat_false]
  omega

theorem link_pack (ha : addr < 2 ^ 48) (hr : readers < 2 ^ 15) :
    link (pack 0 readers exclusive) addr = pack addr readers exclusive := by
  have hb := Bool.toNat_le exclusive
  have hmask : 2 ^ 64 - 1 - ADDRESS_MASK = (2 ^ 16 - 1) <<< 48 := by decide
  have hdiv : pack 0 readers exclusive / 2 ^ 48 % 2 ^ 16 = readers + 2 ^ 15 * exclusive.toNat := by
    unfold pack
    omega
  unfold link
  rw [hmask, Bits.and_shiftLeft, Bits.shiftRight_eq, Bits.and_two_pow_sub_one, hdiv,
    Bits.shiftLeft_or_of_lt ha]
  unfold pack
  omega

end Pack

/-! ## Section 2: The protocol -/

/-- Where a thread stands in a call; loops carry their counter. -/
inductive Pc where
  | idle
  /-- `try_lock_shared`, about to load the word. -/
  | sharedLoad (spins : ℕ)
  | sharedCas (spins cur : ℕ)
  /-- `try_lock_exclusive`, about to load the word. -/
  | exclusiveLoad (spins : ℕ)
  | exclusiveCas (spins cur : ℕ)
  /-- The bit is set; waiting for the readers to leave. -/
  | draining (spins : ℕ)
  /-- They have not left in time: about to clear the bit again. -/
  | givingUp
  /-- `find_tag_or_free` at the end of a full chain, about to load the word. -/
  | linkLoad (newAddr : ℕ)
  | linkCas (cur newAddr : ℕ)
  deriving DecidableEq, Repr

/-- A thread, with the latches it has got and not given back. -/
structure Local where
  pc : Pc
  shared : ℕ
  exclusive : Bool
  deriving DecidableEq, Repr

/-- `holders`, `owner` and `links` are bookkeeping: the readers, each as often as it has the
    latch, the thread that has set the exclusive bit, and the addresses that were linked. -/
structure State (Thread : Type) where
  word : ℕ
  threads : Thread → Local
  holders : List Thread
  owner : Option Thread
  links : List ℕ

inductive Move where
  /-- Call `try_lock_shared`. -/
  | tryShared
  /-- Call `try_lock_exclusive`. -/
  | tryExclusive
  /-- `unlock_shared`, by a holder. -/
  | unlockShared
  /-- `unlock_exclusive`, by the holder. -/
  | unlockExclusive
  /-- Go to link the overflow bucket at this address. -/
  | link (newAddr : ℕ)
  /-- The next step of the call; a weak compare-and-swap may be told to fail. -/
  | step (spurious : Bool)
  deriving DecidableEq, Repr

structure Label (Thread : Type) where
  thread : Thread
  move : Move

section Protocol

variable {Thread : Type} [DecidableEq Thread]

def State.init : State Thread where
  word := 0
  threads := fun _ => ⟨.idle, 0, false⟩
  holders := []
  owner := none
  links := []

def State.set (s : State Thread) (t : Thread) (lo : Local) : State Thread :=
  { s with threads := fun u => if u = t then lo else s.threads u }

def State.goto (s : State Thread) (t : Thread) (pc : Pc) : State Thread :=
  s.set t { s.threads t with pc := pc }

variable (s : State Thread) (t : Thread)

/-- The next turn of the loop of `try_lock_shared`, or `false`. -/
def sharedAgain (spins : ℕ) : Pc := if spins + 1 < MAX_LOCK_SPINS then .sharedLoad (spins + 1) else .idle

def exclusiveAgain (spins : ℕ) : Pc :=
  if spins + 1 < MAX_LOCK_SPINS then .exclusiveLoad (spins + 1) else .idle

/-- The next turn of the linking loop: somebody else may have linked a bucket. -/
def linkAgain (cur newAddr : ℕ) : Pc :=
  if cur &&& ADDRESS_MASK ≠ 0 then .idle else .linkCas cur newAddr

def stepCall (spurious : Bool) : Pc → Option (State Thread)
  | .idle => none
  | .sharedLoad n =>
    if s.word &&& EXCLUSIVE_BIT ≠ 0 ∨ s.word &&& SHARED_MASK = SHARED_MASK then
      some (s.goto t (sharedAgain n))
    else some (s.goto t (.sharedCas n s.word))
  | .sharedCas n cur =>
    if s.word = cur ∧ spurious = false then
      some ({ s with word := addReader cur, holders := t :: s.holders }.set t
        ⟨.idle, (s.threads t).shared + 1, (s.threads t).exclusive⟩)
    else some (s.goto t (sharedAgain n))
  | .exclusiveLoad n =>
    if s.word &&& EXCLUSIVE_BIT ≠ 0 then some (s.goto t (exclusiveAgain n))
    else some (s.goto t (.exclusiveCas n s.word))
  | .exclusiveCas n cur =>
    if s.word = cur ∧ spurious = false then
      some ({ s with word := setExclusive cur, owner := some t }.goto t (.draining 0))
    else some (s.goto t (exclusiveAgain n))
  | .draining n =>
    if s.word &&& SHARED_MASK = 0 then
      some (s.set t ⟨.idle, (s.threads t).shared, true⟩)
    else some (s.goto t (if n + 1 < MAX_READER_DRAIN_SPINS then .draining (n + 1) else .givingUp))
  | .givingUp => some ({ s with word := clearExclusive s.word, owner := none }.goto t .idle)
  | .linkLoad newAddr => some (s.goto t (linkAgain s.word newAddr))
  | .linkCas cur newAddr =>
    if s.word = cur then
      some ({ s with word := LatchWord.link cur newAddr, links := newAddr :: s.links }.goto t .idle)
    else some (s.goto t (linkAgain s.word newAddr))

def stepThread : Move → Option (State Thread)
  | .step spurious => stepCall s t spurious (s.threads t).pc
  | m =>
    if (s.threads t).pc = .idle then
      match m with
      | .tryShared => some (s.goto t (.sharedLoad 0))
      | .tryExclusive => some (s.goto t (.exclusiveLoad 0))
      | .unlockShared =>
        if 0 < (s.threads t).shared then
          some ({ s with word := subReader s.word, holders := s.holders.erase t }.set t
            ⟨.idle, (s.threads t).shared - 1, (s.threads t).exclusive⟩)
        else none
      | .unlockExclusive =>
        if (s.threads t).exclusive then
          some ({ s with word := clearExclusive s.word, owner := none }.set t
            ⟨.idle, (s.threads t).shared, false⟩)
        else none
      | .link newAddr =>
        if 0 < newAddr ∧ newAddr < 2 ^ 48 then some (s.goto t (.linkLoad newAddr)) else none
      | .step _ => none
    else none

def next (s : State Thread) (l : Label Thread) : Option (State Thread) :=
  stepThread s l.thread l.move

end Protocol

/-! ## Section 3: The invariant -/

section Invariant

variable {Thread : Type} [DecidableEq Thread] {s s' : State Thread} {t u : Thread}

/-- In `try_lock_exclusive`, with the bit set. -/
def Pc.hasBit : Pc → Bool
  | .draining _ | .givingUp => true
  | _ => false

@[simp] theorem Pc.hasBit_idle : Pc.idle.hasBit = false := rfl

/-- The thread has set the exclusive bit and not cleared it. -/
def Local.Owns (lo : Local) : Prop := lo.exclusive = true ∨ lo.pc.hasBit = true

/-- The address a linking thread brings along. -/
def Pc.newAddr? : Pc → Option ℕ
  | .linkLoad a | .linkCas _ a => some a
  | _ => none

/-- What the thread has checked of the word it compares with. -/
def Pc.Checked : Pc → Prop
  | .sharedCas _ cur => cur &&& EXCLUSIVE_BIT = 0 ∧ cur &&& SHARED_MASK ≠ SHARED_MASK
  | .exclusiveCas _ cur => cur &&& EXCLUSIVE_BIT = 0
  | .linkCas cur _ => cur &&& ADDRESS_MASK = 0
  | _ => True

/-- What is true of a thread by itself. -/
structure Local.Ok (lo : Local) : Prop where
  checked : lo.pc.Checked
  linking : ∀ a, lo.pc.newAddr? = some a → 0 < a ∧ a < 2 ^ 48
  /-- It has the latch or is on its way to it, not both. -/
  once : lo.exclusive = true → lo.pc.hasBit = false

structure Inv (s : State Thread) : Prop where
  word : s.word = pack (s.links.headD 0) s.holders.length s.owner.isSome
  readers : s.holders.length < 2 ^ 15
  counts : ∀ t, s.holders.count t = (s.threads t).shared
  owner : ∀ t, s.owner = some t ↔ (s.threads t).Owns
  locals : ∀ t, (s.threads t).Ok
  alone : ∀ t, (s.threads t).exclusive = true → s.holders = []
  links : s.links.length ≤ 1
  linked : ∀ a ∈ s.links, 0 < a ∧ a < 2 ^ 48

theorem Inv.addr_lt (h : Inv s) : s.links.headD 0 < 2 ^ 48 := by
  cases hl : s.links with
  | nil => decide
  | cons a l => exact (h.linked a (by rw [hl]; exact List.mem_cons_self)).2

theorem Inv.and_exclusive (h : Inv s) :
    s.word &&& EXCLUSIVE_BIT ≠ 0 ↔ s.owner.isSome = true := by
  rw [h.word, pack_and_exclusive h.addr_lt h.readers]
  cases s.owner.isSome <;> simp

theorem Inv.and_shared (h : Inv s) : s.word &&& SHARED_MASK = 2 ^ 48 * s.holders.length := by
  rw [h.word, pack_and_shared h.addr_lt h.readers]

theorem Inv.and_address (h : Inv s) : s.word &&& ADDRESS_MASK = s.links.headD 0 := by
  rw [h.word, pack_and_address h.addr_lt]

/-- The invariant after a step of `t`, from what the step does. -/
theorem Inv.step_of (h : Inv s) {w : ℕ} {holders : List Thread} {owner : Option Thread}
    {links : List ℕ} {lo : Local} (hok : lo.Ok)
    (hword : w = pack (links.headD 0) holders.length owner.isSome)
    (hreaders : holders.length < 2 ^ 15) (hcount : holders.count t = lo.shared)
    (hcounts : ∀ u, u ≠ t → holders.count u = s.holders.count u)
    (howner : owner = some t ↔ lo.Owns) (howners : ∀ u, u ≠ t → (owner = some u ↔ s.owner = some u))
    (halone : lo.exclusive = true → holders = [])
    (halones : ∀ u, u ≠ t → (s.threads u).exclusive = true → holders = [])
    (hlinks : links.length ≤ 1) (hlinked : ∀ a ∈ links, 0 < a ∧ a < 2 ^ 48) :
    Inv (State.set ⟨w, s.threads, holders, owner, links⟩ t lo) where
  word := hword
  readers := hreaders
  counts := by
    intro u
    show holders.count u = (if u = t then lo else s.threads u).shared
    split
    · rename_i hu
      rw [hu, hcount]
    · rename_i hu
      rw [hcounts u hu, h.counts u]
  owner := by
    intro u
    show owner = some u ↔ (if u = t then lo else s.threads u).Owns
    split
    · rename_i hu
      rw [hu, howner]
    · rename_i hu
      rw [howners u hu, h.owner u]
  locals := by
    intro u
    show (if u = t then lo else s.threads u).Ok
    split
    · exact hok
    · exact h.locals u
  alone := by
    intro u hu
    replace hu : (if u = t then lo else s.threads u).exclusive = true := hu
    split at hu
    · exact halone hu
    · rename_i hne
      exact halones u hne hu
  links := hlinks
  linked := hlinked

/-- A step that touches nothing but the program counter. -/
theorem Inv.goto (h : Inv s) {pc : Pc} (hbit : pc.hasBit = (s.threads t).pc.hasBit)
    (hchecked : pc.Checked) (hlinking : ∀ a, pc.newAddr? = some a → 0 < a ∧ a < 2 ^ 48) :
    Inv (s.goto t pc) := by
  refine h.step_of ⟨hchecked, hlinking, ?_⟩ h.word h.readers (h.counts t) (fun _ _ => rfl) ?_
    (fun _ _ => Iff.rfl) (h.alone t) (fun u _ => h.alone u) h.links h.linked
  · intro hex
    exact hbit.trans ((h.locals t).once hex)
  · show s.owner = some t ↔ (s.threads t).exclusive = true ∨ pc.hasBit = true
    rw [hbit]
    exact h.owner t

theorem Inv.owner_none (h : Inv s) (hword : s.word &&& EXCLUSIVE_BIT = 0) : s.owner = none := by
  cases ho : s.owner with
  | none => rfl
  | some u => exact absurd hword (h.and_exclusive.mpr (by rw [ho]; rfl))

theorem Inv.not_exclusive (h : Inv s) (hnone : s.owner = none) (u : Thread) :
    (s.threads u).exclusive = false := by
  by_contra hex
  have := (h.owner u).mpr (.inl (by simpa using hex))
  rw [hnone] at this
  cases this

/-- A reader gets the latch. -/
theorem Inv.addReader (h : Inv s) (hpc : (s.threads t).pc.hasBit = false)
    (hbit : s.word &&& EXCLUSIVE_BIT = 0) (hfull : s.word &&& SHARED_MASK ≠ SHARED_MASK) :
    Inv (State.set { s with word := addReader s.word, holders := t :: s.holders } t
      ⟨.idle, (s.threads t).shared + 1, (s.threads t).exclusive⟩) := by
  have hnone := h.owner_none hbit
  have hroom : s.holders.length + 1 < 2 ^ 15 := by
    have hne : s.holders.length ≠ 2 ^ 15 - 1 := by
      intro heq
      rw [h.and_shared, heq] at hfull
      exact hfull (by decide)
    have := h.readers
    omega
  have hnot := h.not_exclusive hnone
  refine h.step_of ⟨trivial, nofun, fun _ => rfl⟩ ?_ hroom ?_ (fun u hu => ?_) ?_
    (fun _ _ => Iff.rfl) (fun hex => ?_) (fun u _ hex => ?_) h.links h.linked
  · rw [h.word, addReader_pack h.addr_lt hroom]
    rfl
  · rw [List.count_cons_self, h.counts t]
  · exact List.count_cons_of_ne (Ne.symm hu)
  · rw [h.owner t]
    simp [Local.Owns, hpc]
  · rw [hnot t] at hex
    cases hex
  · rw [hnot u] at hex
    cases hex

/-- A reader gives it back. -/
theorem Inv.subReader (h : Inv s) (hpc : (s.threads t).pc = .idle) (hpos : 0 < (s.threads t).shared) :
    Inv (State.set { s with word := subReader s.word, holders := s.holders.erase t } t
      ⟨.idle, (s.threads t).shared - 1, (s.threads t).exclusive⟩) := by
  have hmem : t ∈ s.holders := by
    rw [← List.count_pos_iff, h.counts t]
    exact hpos
  have hlen : (s.holders.erase t).length + 1 = s.holders.length := by
    rw [List.length_erase_of_mem hmem]
    have := List.length_pos_of_mem hmem
    omega
  have hreaders := h.readers
  refine h.step_of ⟨trivial, nofun, fun _ => rfl⟩ ?_ (by omega) ?_ (fun u hu => ?_) ?_
    (fun _ _ => Iff.rfl) (fun hex => ?_) (fun u _ hex => ?_) h.links h.linked
  · rw [h.word, ← hlen, subReader_pack h.addr_lt (by omega)]
  · rw [List.count_erase_self, h.counts t]
  · exact List.count_erase_of_ne hu
  · rw [h.owner t]
    simp [Local.Owns, hpc]
  · rw [h.alone t hex] at hmem
    cases hmem
  · rw [h.alone u hex] at hmem
    cases hmem

/-- A thread sets the exclusive bit. -/
theorem Inv.setExclusive (h : Inv s) (hbit : s.word &&& EXCLUSIVE_BIT = 0) :
    Inv (State.goto { s with word := setExclusive s.word, owner := some t } t (.draining 0)) := by
  have hnone := h.owner_none hbit
  have hnot := h.not_exclusive hnone
  refine h.step_of ⟨trivial, nofun, fun hex => ?_⟩ ?_ h.readers (h.counts t) (fun _ _ => rfl) ?_
    (fun u hu => ?_) (h.alone t) (fun u _ => h.alone u) h.links h.linked
  · rw [hnot t] at hex
    cases hex
  · rw [h.word, hnone]
    exact setExclusive_pack h.addr_lt h.readers
  · exact ⟨fun _ => .inr rfl, fun _ => rfl⟩
  · rw [hnone]
    exact ⟨fun heq => absurd (Option.some.inj heq).symm hu, nofun⟩

/-- The thread that has set the bit clears it. -/
theorem Inv.clearExclusive (h : Inv s) (howns : (s.threads t).Owns) :
    Inv (State.set { s with word := clearExclusive s.word, owner := none } t
      ⟨.idle, (s.threads t).shared, false⟩) := by
  have howner := (h.owner t).mpr howns
  refine h.step_of ⟨trivial, nofun, nofun⟩ ?_ h.readers (h.counts t) (fun _ _ => rfl) ?_
    (fun u hu => ?_) nofun (fun u _ => h.alone u) h.links h.linked
  · rw [h.word]
    exact clearExclusive_pack h.addr_lt h.readers
  · simp [Local.Owns]
  · rw [howner]
    exact ⟨nofun, fun heq => absurd (Option.some.inj heq).symm hu⟩

/-- The readers have left: the thread has the latch. -/
theorem Inv.drained (h : Inv s) (hpc : (s.threads t).pc.hasBit = true)
    (hempty : s.word &&& SHARED_MASK = 0) :
    Inv (s.set t ⟨.idle, (s.threads t).shared, true⟩) := by
  have hnil : s.holders = [] := by
    rw [h.and_shared] at hempty
    rw [← List.length_eq_zero_iff]
    omega
  refine h.step_of ⟨trivial, nofun, fun _ => rfl⟩ h.word h.readers (h.counts t) (fun _ _ => rfl) ?_
    (fun _ _ => Iff.rfl) (fun _ => hnil) (fun _ _ _ => hnil) h.links h.linked
  exact ⟨fun _ => .inl rfl, fun _ => (h.owner t).mpr (.inr hpc)⟩

/-- An overflow bucket is linked. -/
theorem Inv.link (h : Inv s) {a : ℕ} (hbit : (s.threads t).pc.hasBit = false)
    (haddr : s.word &&& ADDRESS_MASK = 0) (ha : 0 < a ∧ a < 2 ^ 48) :
    Inv (State.goto { s with word := LatchWord.link s.word a, links := a :: s.links } t .idle) := by
  have hnil : s.links = [] := by
    rw [h.and_address] at haddr
    cases hl : s.links with
    | nil => rfl
    | cons b l =>
      have := (h.linked b (by rw [hl]; exact List.mem_cons_self)).1
      rw [hl] at haddr
      simp only [List.headD_cons] at haddr
      omega
  refine h.step_of ⟨trivial, nofun, fun _ => rfl⟩ ?_ h.readers (h.counts t) (fun _ _ => rfl) ?_
    (fun _ _ => Iff.rfl) (h.alone t) (fun u _ => h.alone u) ?_ ?_
  · rw [h.word, hnil]
    exact link_pack ha.2 h.readers
  · rw [h.owner t]
    simp [Local.Owns, hbit]
  · rw [hnil]
    exact Nat.le_refl 1
  · rw [hnil]
    intro b hb
    rw [List.mem_singleton.mp hb]
    exact ha

theorem Inv.linkAgain (h : Inv s) {cur a : ℕ} (hbit : (s.threads t).pc.hasBit = false)
    (ha : 0 < a ∧ a < 2 ^ 48) : Inv (s.goto t (linkAgain cur a)) := by
  unfold LatchWord.linkAgain
  split
  · exact h.goto hbit.symm trivial nofun
  · rename_i hzero
    refine h.goto hbit.symm (not_not.mp hzero) fun b hb => ?_
    rw [← Option.some.inj hb]
    exact ha

theorem Inv.stepCall (h : Inv s) {spurious : Bool} {pc : Pc} (hpc : (s.threads t).pc = pc)
    (hstep : stepCall s t spurious pc = some s') : Inv s' := by
  have hok := h.locals t
  cases pc with
  | idle => cases hstep
  | sharedLoad n =>
    simp only [LatchWord.stepCall] at hstep
    split at hstep <;> cases hstep
    · unfold sharedAgain
      split <;> exact h.goto (by rw [hpc]; rfl) trivial nofun
    · rename_i hcheck
      simp only [not_or, not_not] at hcheck
      exact h.goto (by rw [hpc]; rfl) hcheck nofun
  | sharedCas n cur =>
    simp only [LatchWord.stepCall] at hstep
    split at hstep
    · rename_i hcas
      obtain ⟨rfl, -⟩ := hcas
      obtain rfl := Option.some.inj hstep
      have hchecked := hok.checked
      rw [hpc] at hchecked
      exact h.addReader (by rw [hpc]; rfl) hchecked.1 hchecked.2
    · cases hstep
      unfold sharedAgain
      split <;> exact h.goto (by rw [hpc]; rfl) trivial nofun
  | exclusiveLoad n =>
    simp only [LatchWord.stepCall] at hstep
    split at hstep <;> cases hstep
    · unfold exclusiveAgain
      split <;> exact h.goto (by rw [hpc]; rfl) trivial nofun
    · rename_i hcheck
      exact h.goto (by rw [hpc]; rfl) (not_not.mp hcheck) nofun
  | exclusiveCas n cur =>
    simp only [LatchWord.stepCall] at hstep
    split at hstep <;> cases hstep
    · rename_i hcas
      obtain ⟨rfl, -⟩ := hcas
      have hchecked := hok.checked
      rw [hpc] at hchecked
      exact h.setExclusive hchecked
    · unfold exclusiveAgain
      split <;> exact h.goto (by rw [hpc]; rfl) trivial nofun
  | draining n =>
    simp only [LatchWord.stepCall] at hstep
    split at hstep <;> cases hstep
    · rename_i hempty
      exact h.drained (by rw [hpc]; rfl) hempty
    · split <;> exact h.goto (by rw [hpc]; rfl) trivial nofun
  | givingUp =>
    cases hstep
    have hex : (s.threads t).exclusive = false := by
      by_contra hex
      have := hok.once (by simpa using hex)
      rw [hpc] at this
      cases this
    have hclear := h.clearExclusive (t := t) (.inr (by rw [hpc]; rfl))
    rw [← hex] at hclear
    exact hclear
  | linkLoad a =>
    cases hstep
    exact h.linkAgain (by rw [hpc]; rfl) (hok.linking a (by rw [hpc]; rfl))
  | linkCas cur a =>
    have ha := hok.linking a (by rw [hpc]; rfl)
    simp only [LatchWord.stepCall] at hstep
    split at hstep <;> cases hstep
    · rename_i hcas
      subst hcas
      have hchecked := hok.checked
      rw [hpc] at hchecked
      exact h.link (by rw [hpc]; rfl) hchecked ha
    · exact h.linkAgain (by rw [hpc]; rfl) ha

theorem Inv.step (h : Inv s) {l : Label Thread} (hstep : next s l = some s') : Inv s' := by
  obtain ⟨t, m⟩ := l
  simp only [next, stepThread] at hstep
  split at hstep
  · exact h.stepCall rfl hstep
  · split at hstep
    · rename_i hpc
      split at hstep
      · cases hstep
        exact h.goto (by rw [hpc]; rfl) trivial nofun
      · cases hstep
        exact h.goto (by rw [hpc]; rfl) trivial nofun
      · split at hstep
        · rename_i hpos
          obtain rfl := Option.some.inj hstep
          exact h.subReader hpc hpos
        · cases hstep
      · split at hstep
        · rename_i hex
          cases hstep
          exact h.clearExclusive (.inl hex)
        · cases hstep
      · split at hstep
        · rename_i ha
          cases hstep
          refine h.goto (by rw [hpc]; rfl) trivial fun b hb => ?_
          rw [← Option.some.inj hb]
          exact ha
        · cases hstep
      · cases hstep
    · cases hstep

theorem Inv.init : Inv (State.init : State Thread) where
  word := rfl
  readers := Nat.two_pow_pos 15
  counts := fun _ => rfl
  owner := fun t => by simp [State.init, Local.Owns]
  locals := fun _ => ⟨trivial, nofun, nofun⟩
  alone := fun _ _ => rfl
  links := Nat.zero_le 1
  linked := nofun

/-! ## Section 4: The latch is correct -/

/-- What the word says of the threads. -/
structure Correct (s : State Thread) : Prop where
  /-- The count is the number of readers, each counted as often as it has the latch. -/
  count : s.word &&& SHARED_MASK = s.holders.length <<< 48
  holders : ∀ t, s.holders.count t = (s.threads t).shared
  /-- The count stays below the exclusive bit. -/
  no_carry : s.holders.length < 2 ^ 15
  excludes : ∀ t, (s.threads t).exclusive = true → s.word &&& EXCLUSIVE_BIT ≠ 0 ∧
    (∀ u, (s.threads u).shared = 0) ∧ ∀ u, (s.threads u).exclusive = true → u = t
  /-- The exclusive bit is that of a thread that has the latch or is still trying. -/
  no_trace : s.word &&& EXCLUSIVE_BIT ≠ 0 → ∃ t, (s.threads t).exclusive = true ∨
    (s.threads t).pc.hasBit = true
  /-- The address is the one that was linked, and at most one was. -/
  pointer : s.word &&& ADDRESS_MASK = s.links.headD 0
  linked_once : s.links.length ≤ 1

/-- **The bucket latch.**  In every state that any number of threads can reach. -/
theorem latch_correct {ls : List (Label Thread)} (h : Lts.Runs next State.init ls s) :
    Correct s := by
  have hinv : Inv s := h.invariant (fun hinv _ hstep => hinv.step hstep) .init
  refine ⟨?_, hinv.counts, hinv.readers, fun t hex => ⟨?_, fun u => ?_, fun u hu => ?_⟩, ?_,
    hinv.and_address, hinv.links⟩
  · rw [hinv.and_shared, Nat.shiftLeft_eq, Nat.mul_comm]
  · rw [hinv.and_exclusive, (hinv.owner t).mpr (.inl hex)]
    rfl
  · rw [← hinv.counts u, hinv.alone t hex]
    rfl
  · have ht := (hinv.owner t).mpr (.inl hex)
    rw [(hinv.owner u).mpr (.inl hu)] at ht
    exact Option.some.inj ht
  · intro hbit
    obtain ⟨t, ht⟩ := Option.isSome_iff_exists.mp (hinv.and_exclusive.mp hbit)
    exact ⟨t, (hinv.owner t).mp ht⟩

end Invariant

/-- A reader, a writer that waits for it, and a bucket linked in between. -/
def readerWriterLink : List (Label ℕ) :=
  [⟨0, .tryShared⟩, ⟨0, .step false⟩, ⟨0, .step false⟩, ⟨1, .tryExclusive⟩, ⟨1, .step false⟩,
   ⟨2, .link 5⟩, ⟨2, .step false⟩, ⟨1, .step false⟩, ⟨2, .step false⟩, ⟨1, .step false⟩,
   ⟨2, .step false⟩, ⟨0, .unlockShared⟩, ⟨1, .step false⟩]

theorem latch_correct_readerWriterLink :
    ∃ s : State ℕ, Lts.Runs next State.init readerWriterLink s ∧
      s.word = pack 5 0 true ∧ (s.threads 1).exclusive = true ∧ Correct s := by
  obtain ⟨s, hrun, hp⟩ := Lts.exists_runs next State.init readerWriterLink
    (fun s => s.word = pack 5 0 true && (s.threads 1).exclusive) (by decide +kernel)
  rw [Bool.and_eq_true] at hp
  exact ⟨s, hrun, by simpa using hp.1, hp.2, latch_correct hrun⟩

end LatchWord

end Tsavorite
