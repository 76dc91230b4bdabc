import MiniGarnet.Tsavorite.Geometry
import MiniGarnet.Tsavorite.RecordBytes

/-! # Walking bytes

    `for_each_record_in_buf` over arbitrary bytes (`log.rs`): the sizes it
    walks by are read from the records themselves, and an all-zero header is
    the end of the data.  Sums of `usize` wrap around.
-/

namespace Tsavorite

/-! ## Section 1: The walker -/

/-- `a + b` on `usize` -/
def usizeAdd (a b : ℕ) : ℕ := (a + b) % 2 ^ 64

namespace RawWalk

/-- The test that ends a walk: an all-zero header. -/
def isZeroHeader (m : Memory) (r : RecordPtr) : Bool :=
  r.info m == 0 && r.keyLen m == 0 && r.valueCap m == 0

/-- The loop of `for_each_record_in_buf`: the offsets `f` is called with.  The first argument
    bounds the number of turns, and `none` is a loop that takes more. -/
def forEachRecord (m : Memory) (base limit : ℕ) : ℕ → ℕ → Option (List ℕ)
  | 0, _ => none
  | n + 1, off =>
    if usizeAdd off MIN_DISK_READ ≤ limit then
      let r : RecordPtr := ⟨base + off⟩
      if isZeroHeader m r then some []
      else
        let size := r.totalSize m
        if limit < usizeAdd off size then some []
        else (forEachRecord m base limit n (usizeAdd off size)).map (off :: ·)
    else some []

/-- `for_each_record_in_buf(base, from_off, limit, f)`, for `limit + 1` turns. -/
def forEachRecordInBuf (m : Memory) (base fromOff limit : ℕ) : Option (List ℕ) :=
  forEachRecord m base limit (limit + 1) (max fromOff PAGE_HEADER_SIZE)

/-- The bytes of the record at an offset. -/
def sizeAt (m : Memory) (base off : ℕ) : ℕ := RecordPtr.totalSize ⟨base + off⟩ m

/-! ## Section 2: Any bytes -/

section Safety

variable {m : Memory} {base limit n off : ℕ} {visits : List ℕ}

theorem hdrU32_lt (p : RecordPtr) (m : Memory) (i : ℕ) : p.hdrU32 m i < 2 ^ 32 := Memory.readLE_lt

theorem totalSize_lt (p : RecordPtr) (m : Memory) : p.totalSize m < 2 ^ 34 := by
  have hkey := hdrU32_lt p m 0
  have hcap := hdrU32_lt p m 2
  unfold RecordPtr.totalSize RecordPtr.keyOffset RecordPtr.keyLen RecordPtr.valueCap align8
    FIXED_HEADER_SIZE EXPIRATION_SIZE
  split <;> omega

theorem usizeAdd_of_lt {a b : ℕ} (h : a + b < 2 ^ 64) : usizeAdd a b = a + b := Nat.mod_eq_of_lt h

/-- What a walk visits from `off` on. -/
structure Visits (m : Memory) (base limit off : ℕ) (visits : List ℕ) : Prop where
  apart : visits.Pairwise fun a b => a + sizeAt m base a ≤ b
  inside : ∀ a ∈ visits, off ≤ a ∧ a + sizeAt m base a ≤ limit

theorem Visits.nil : Visits m base limit off [] := ⟨.nil, nofun⟩

theorem Visits.cons (h : Visits m base limit (off + sizeAt m base off) visits)
    (hin : off + sizeAt m base off ≤ limit) : Visits m base limit off (off :: visits) where
  apart := List.pairwise_cons.mpr ⟨fun a ha => (h.inside a ha).1, h.apart⟩
  inside := List.forall_mem_cons.mpr ⟨⟨Nat.le_refl _, hin⟩, fun a ha =>
    ⟨Nat.le_trans (Nat.le_add_right _ _) (h.inside a ha).1, (h.inside a ha).2⟩⟩

/-- Every record takes the walk at least a header further, so it ends. -/
theorem forEachRecord_visits (m : Memory) (base : ℕ) (hlimit : limit < 2 ^ 63) (hoff : off + MIN_DISK_READ < 2 ^ 64)
    (hfuel : limit - off < n) :
    ∃ visits, forEachRecord m base limit n off = some visits ∧
      Visits m base limit off visits := by
  induction n generalizing off with
  | zero => omega
  | succ n ih =>
    have hmin : MIN_DISK_READ = 24 := rfl
    unfold forEachRecord
    rw [usizeAdd_of_lt hoff]
    split
    · next hroom =>
      have hsize := totalSize_lt ⟨base + off⟩ m
      have hheader := RecordPtr.header_le_totalSize ⟨base + off⟩ m
      simp only [usizeAdd_of_lt (by omega : off + RecordPtr.totalSize ⟨base + off⟩ m < 2 ^ 64)]
      split
      · exact ⟨[], rfl, .nil⟩
      · split
        · exact ⟨[], rfl, .nil⟩
        · next hin =>
          have hnext : off + RecordPtr.totalSize ⟨base + off⟩ m + MIN_DISK_READ < 2 ^ 64 := by omega
          obtain ⟨visits, hrest, hv⟩ := ih hnext (by omega)
          rw [hrest]
          exact ⟨off :: visits, rfl, hv.cons (Nat.le_of_not_lt hin)⟩
    · exact ⟨[], rfl, .nil⟩

/-- Only bytes from the first offset up to the limit are read. -/
theorem forEachRecord_congr {m' : Memory} (hlimit : limit < 2 ^ 63)
    (hoff : off + MIN_DISK_READ < 2 ^ 64)
    (hsame : ∀ x, base + off ≤ x → x < base + limit → m' x = m x) :
    forEachRecord m' base limit n off = forEachRecord m base limit n off := by
  induction n generalizing off with
  | zero => rfl
  | succ n ih =>
    have hmin : MIN_DISK_READ = 24 := rfl
    unfold forEachRecord
    rw [usizeAdd_of_lt hoff]
    split
    · next hroom =>
      have hread : ∀ k ≤ MIN_DISK_READ, m'.read (base + off) k = m.read (base + off) k :=
        fun k hk => Memory.read_congr fun i hi => hsame _ (by omega) (by omega)
      have hword : ∀ i < 4, RecordPtr.hdrU32 ⟨base + off⟩ m' i = RecordPtr.hdrU32 ⟨base + off⟩ m i := by
        intro i hi
        have hrecord : RECORD_INFO_SIZE = 8 := rfl
        exact congrArg LittleEndian.ofBytes
          (Memory.read_congr fun j hj => hsame _ (by simp only; omega) (by simp only; omega))
      have hzero : isZeroHeader m' ⟨base + off⟩ = isZeroHeader m ⟨base + off⟩ := by
        unfold isZeroHeader RecordPtr.info RecordPtr.keyLen RecordPtr.valueCap Memory.readLE
        rw [hword 0 (by decide), hword 2 (by decide), hread 8 (by decide)]
      have htotal : RecordPtr.totalSize ⟨base + off⟩ m' = RecordPtr.totalSize ⟨base + off⟩ m := by
        unfold RecordPtr.totalSize RecordPtr.keyOffset RecordPtr.hasExpirationSlot
          RecordPtr.flags RecordPtr.keyLen RecordPtr.valueCap
        rw [hword 0 (by decide), hword 2 (by decide), hword 3 (by decide)]
      have hsize := totalSize_lt ⟨base + off⟩ m
      simp only [hzero, htotal,
        usizeAdd_of_lt (by omega : off + RecordPtr.totalSize ⟨base + off⟩ m < 2 ^ 64)]
      split
      · rfl
      · split
        · rfl
        · next hin =>
          have hnext : off + RecordPtr.totalSize ⟨base + off⟩ m + MIN_DISK_READ < 2 ^ 64 := by omega
          rw [ih hnext fun x hx hx' => hsame x (by omega) hx']
    · rfl

end Safety

/-! ## Section 3: Initialised records -/

/-- A record whose header word is not zero: after `init` it is sealed until it is validated, and
    the only ones made invalid afterwards belong to the new version. -/
inductive Initialised : RecordFields → Prop where
  | init (previousAddress : BitVec 64) (inNewVersion : Bool) (size : RecordSizeInfo) (key : Key)
      (buffer : List UInt8) : Initialised (.init previousAddress inNewVersion size key buffer)
  | apply {f : RecordFields} (op : RecordOp) : Initialised f →
      (op = .setInvalid → f.info.inNewVersion = true) → Initialised (f.apply op)

/-- The bytes of a record, padding included. -/
structure ImageOf (img : List UInt8) (f : RecordFields) : Prop where
  initialised : Initialised f
  fits : f.Fits
  size : img.length = f.totalSize
  layout : ∃ w, HeaderWord.decode w = f.info ∧ img.take f.rawSize = (f.segments w).flatten

/-- Where the images begin that lie one behind the other from `off` on. -/
def offsets : ℕ → List (List UInt8) → List ℕ
  | _, [] => []
  | off, img :: rest => off :: offsets (off + img.length) rest

theorem Initialised.info {f : RecordFields} (h : Initialised f) :
    f.info.isValid = true ∨ f.info.isSealed = true ∨ f.info.inNewVersion = true := by
  induction h with
  | init => exact Or.inr (Or.inl rfl)
  | @apply f op _ hinvalid ih =>
    cases op with
    | setInvalid => exact Or.inr (Or.inr (hinvalid rfl))
    | unsealAndValidate => exact Or.inl rfl
    | sealAndInvalidate => exact Or.inr (Or.inl rfl)
    | trySeal =>
      show f.info.trySeal.isValid = true ∨ _ ∨ f.info.trySeal.inNewVersion = true
      unfold RecordFields.apply RecordInfo.trySeal
      split
      · exact ih
      · exact Or.inr (Or.inl rfl)
    | setValueLen | writeValue | setExpiration | setTombstone | setModified => exact ih

section Exact

variable {m : Memory} {base limit n off z : ℕ} {img : List UInt8} {imgs rest : List (List UInt8)}
  {f : RecordFields} {fs : List RecordFields}

/-- Where an image lies the pointer stores its record. -/
theorem ImageOf.stores (h : ImageOf img f) {p : RecordPtr} (hm : m.Holds p.ptr (img :: rest)) :
    p.Stores m f := by
  obtain ⟨w, hw, hlayout⟩ := h.layout
  have hle : f.rawSize ≤ img.length := by
    rw [h.size]
    exact align8_ge _
  refine ⟨h.fits, w, hw, ?_⟩
  unfold Memory.Holds
  rw [f.length_segments, ← hlayout, ← Memory.take_read hle, (Memory.holds_cons.mp hm).1]

/-- No initialised record has an all-zero header. -/
theorem Initialised.not_zero (h : Initialised f) {p : RecordPtr} (hp : p.Stores m f) :
    isZeroHeader m p = false := by
  by_contra hzero
  rw [Bool.not_eq_false, isZeroHeader, Bool.and_eq_true, Bool.and_eq_true, beq_iff_eq] at hzero
  have hinfo := hp.info
  rw [hzero.1.1] at hinfo
  rcases h.info with hbit | hbit | hbit <;> rw [← hinfo] at hbit <;> exact absurd hbit (by decide)

/-- A header of zeros ends the walk. -/
theorem isZeroHeader_of_zeros {p : RecordPtr} (hz : MIN_DISK_READ ≤ z)
    (h : m.read p.ptr z = List.replicate z 0) : isZeroHeader m p = true := by
  have hmin : MIN_DISK_READ = 24 := rfl
  have hrecord : RECORD_INFO_SIZE = 8 := rfl
  have hbytes : ∀ i < z, m (p.ptr + i) = 0 := by
    intro i hi
    have hget := Memory.getElem?_read (m := m) (a := p.ptr) hi
    rw [h, List.getElem?_replicate_of_lt hi] at hget
    exact (Option.some.inj hget).symm
  have hword : ∀ k j, k + j ≤ z → m.readLE (p.ptr + k) j = 0 := by
    intro k j hkj
    have hread : m.read (p.ptr + k) j = List.replicate j 0 := by
      apply Memory.read_eq_iff.mpr
      refine ⟨List.length_replicate .., fun i hi => ?_⟩
      rw [List.getElem?_replicate_of_lt hi, Nat.add_assoc, hbytes (k + i) (by omega)]
    rw [Memory.readLE, hread, LittleEndian.ofBytes_replicate_zero]
  have hinfo : p.info m = 0 := by
    rw [RecordPtr.info, ← Nat.add_zero p.ptr, hword 0 8 (by omega)]
    rfl
  have hhdr : ∀ i < 4, p.hdrU32 m i = 0 := by
    intro i hi
    rw [RecordPtr.hdrU32, Nat.add_assoc]
    exact hword _ _ (by omega)
  rw [isZeroHeader, hinfo, RecordPtr.keyLen, RecordPtr.valueCap, hhdr 0 (by decide),
    hhdr 2 (by decide)]
  rfl

/-- Images one behind the other with nothing but zeros behind them are all that is visited. -/
theorem forEachRecord_exact (himgs : List.Forall₂ ImageOf imgs fs) (hlimit : limit < 2 ^ 63)
    (hm : m.Holds (base + off) (imgs ++ [List.replicate z 0]))
    (hend : off + imgs.flatten.length + z = limit) (hfuel : limit - off < n) :
    forEachRecord m base limit n off = some (offsets off imgs) ∧
      List.Forall₂ (fun a f => RecordPtr.Shows ⟨base + a⟩ m f) (offsets off imgs) fs := by
  have hmin : MIN_DISK_READ = 24 := rfl
  induction himgs generalizing off n with
  | nil =>
    obtain ⟨n, rfl⟩ := Nat.exists_eq_succ_of_ne_zero (Nat.ne_of_gt (Nat.zero_lt_of_lt hfuel))
    refine ⟨?_, .nil⟩
    unfold forEachRecord
    rw [usizeAdd_of_lt (by simp at hend; omega)]
    split
    · next hroom =>
      have hzeros := (Memory.holds_cons.mp hm).1
      rw [List.length_replicate] at hzeros
      have hz : MIN_DISK_READ ≤ z := by simp at hend; omega
      exact if_pos (isZeroHeader_of_zeros (p := ⟨base + off⟩) hz hzeros)
    · rfl
  | @cons img f imgs fs himg _ ih =>
    obtain ⟨n, rfl⟩ := Nat.exists_eq_succ_of_ne_zero (Nat.ne_of_gt (Nat.zero_lt_of_lt hfuel))
    have hstores := himg.stores (p := ⟨base + off⟩) hm
    have hsize : RecordPtr.totalSize ⟨base + off⟩ m = img.length := by
      rw [hstores.totalSize, himg.size]
    have hheader := RecordPtr.header_le_totalSize ⟨base + off⟩ m
    rw [List.flatten_cons, List.length_append] at hend
    have hrest := (Memory.holds_cons.mp hm).2
    rw [Nat.add_assoc] at hrest
    obtain ⟨hwalk, hshows⟩ := ih (n := n) hrest (by omega) (by omega)
    refine ⟨?_, .cons hstores.shows_ hshows⟩
    unfold forEachRecord
    rw [usizeAdd_of_lt (by omega), if_pos (by omega)]
    simp only [himg.initialised.not_zero hstores, hsize, usizeAdd_of_lt (by omega :
      off + img.length < 2 ^ 64), if_neg (by omega : ¬limit < off + img.length), hwalk,
      Bool.false_eq_true, if_false]
    rfl

end Exact

/-! ## Section 4: The walker is safe -/

/-- On any bytes the walk ends, what it visits are ranges apart and in order inside the page, with
    header and key inside each range, and it reads nothing outside; and of images followed by
    zeros it visits exactly these.  The offset is one in the buffer, or any other for which the
    first sum does not overflow. -/
theorem forEachRecordInBuf_spec (m : Memory) (base : ℕ) {fromOff limit : ℕ}
    (hlimit : limit < 2 ^ 63) (hfrom : fromOff + MIN_DISK_READ < 2 ^ 64) :
    ∃ visits, forEachRecordInBuf m base fromOff limit = some visits ∧
      (visits.Pairwise fun a b => a + sizeAt m base a ≤ b) ∧
      (∀ off ∈ visits, PAGE_HEADER_SIZE ≤ off ∧ off + sizeAt m base off ≤ limit ∧
        MIN_DISK_READ ≤ sizeAt m base off ∧
        RecordPtr.keyOffset ⟨base + off⟩ m + RecordPtr.keyLen ⟨base + off⟩ m ≤
          sizeAt m base off) ∧
      (∀ m' : Memory, (∀ x, base + PAGE_HEADER_SIZE ≤ x → x < base + limit → m' x = m x) →
        forEachRecordInBuf m' base fromOff limit = some visits) ∧
      ∀ (imgs : List (List UInt8)) (fs : List RecordFields) (z : ℕ), PAGE_HEADER_SIZE ≤ fromOff →
        List.Forall₂ ImageOf imgs fs →
        m.Holds (base + fromOff) (imgs ++ [List.replicate z 0]) →
        fromOff + imgs.flatten.length + z = limit →
        visits = offsets fromOff imgs ∧
          List.Forall₂ (fun a f => RecordPtr.Shows ⟨base + a⟩ m f) visits fs := by
  have hheader : PAGE_HEADER_SIZE = 64 := rfl
  have hmin : MIN_DISK_READ = 24 := rfl
  have hoff : max fromOff PAGE_HEADER_SIZE + MIN_DISK_READ < 2 ^ 64 := by omega
  obtain ⟨visits, hwalk, hv⟩ :=
    forEachRecord_visits m base hlimit hoff (by omega : _ < limit + 1)
  refine ⟨visits, hwalk, hv.apart, ?_, ?_, ?_⟩
  · intro off hvisit
    obtain ⟨hfirst, hin⟩ := hv.inside off hvisit
    have hkey := RecordPtr.le_totalSize ⟨base + off⟩ m
    refine ⟨by omega, hin, RecordPtr.header_le_totalSize _ m, ?_⟩
    unfold sizeAt
    omega
  · intro m' hsame
    rw [← hwalk]
    exact forEachRecord_congr hlimit hoff fun x hx hx' => hsame x (by omega) hx'
  · intro imgs fs z hle himgs hm hend
    rw [Nat.max_eq_left hle] at hwalk
    obtain ⟨hexact, hshows⟩ := forEachRecord_exact himgs hlimit hm hend (by omega : _ < limit + 1)
    obtain rfl := Option.some.inj (hwalk.symm.trans hexact)
    exact ⟨rfl, hshows⟩

theorem forEachRecordInBuf_spec_ones :
    ∃ visits, forEachRecordInBuf (fun _ => 255) 0 64 4096 = some visits ∧
      (visits.Pairwise fun a b => a + sizeAt (fun _ => 255) 0 a ≤ b) ∧
      ∀ off ∈ visits, PAGE_HEADER_SIZE ≤ off ∧ off + sizeAt (fun _ => 255) 0 off ≤ 4096 := by
  obtain ⟨visits, hwalk, hapart, hinside, -⟩ := forEachRecordInBuf_spec (fun _ => 255) 0
    (by decide : 4096 < 2 ^ 63) (by decide : 64 + MIN_DISK_READ < 2 ^ 64)
  exact ⟨visits, hwalk, hapart, fun off hoff => ⟨(hinside off hoff).1, (hinside off hoff).2.1⟩⟩

end RawWalk

end Tsavorite
