import Mathlib.Data.List.Basic
import MiniGarnet.Lib.LittleEndian

/-! # Raw memory

    Memory maps addresses to bytes.  `read` and `write` are the accesses
    through raw pointers, `readLE` and `writeLE` those of little-endian
    integers.  Writes that do not overlap commute past reads, and a write
    into a part of a region replaces that part of what is read from it.
-/

abbrev Memory : Type := ℕ → UInt8

namespace Memory

variable {m m' : Memory} {a b n k : ℕ} {bs : List UInt8}

def read (m : Memory) (a n : ℕ) : List UInt8 := (List.range n).map fun i => m (a + i)

def write (m : Memory) (a : ℕ) (bs : List UInt8) : Memory := fun x =>
  if a ≤ x then (bs[x - a]?).getD (m x) else m x

/-- A buffer that holds a list of bytes at address 0 and zeros behind it. -/
def ofList (bs : List UInt8) : Memory := fun x => (bs[x]?).getD 0

def readLE (m : Memory) (a width : ℕ) : ℕ := LittleEndian.ofBytes (m.read a width)

def writeLE (m : Memory) (a width v : ℕ) : Memory := m.write a (LittleEndian.toBytes width v)

@[simp] theorem length_read : (m.read a n).length = n := by
  rw [read, List.length_map, List.length_range]

theorem getElem?_read {i : ℕ} (h : i < n) : (m.read a n)[i]? = some (m (a + i)) := by
  simp [read, h]

/-- What is read is the bytes one by one. -/
theorem read_eq_iff : m.read a n = bs ↔ bs.length = n ∧ ∀ i < n, bs[i]? = some (m (a + i)) := by
  constructor
  · rintro rfl
    exact ⟨length_read, fun i hi => getElem?_read hi⟩
  · rintro ⟨hlen, hbytes⟩
    apply List.ext_getElem?
    intro i
    by_cases hi : i < n
    · rw [getElem?_read hi, hbytes i hi]
    · rw [List.getElem?_eq_none (by rw [length_read]; omega), List.getElem?_eq_none (by omega)]

theorem read_congr (h : ∀ i < n, m (a + i) = m' (b + i)) : m.read a n = m'.read b n :=
  read_eq_iff.mpr ⟨length_read, fun i hi => by rw [getElem?_read hi, h i hi]⟩

theorem read_add : m.read a (n + k) = m.read a n ++ m.read (a + n) k := by
  simp only [read, List.range_add, List.map_append, List.map_map, Nat.add_assoc]
  rfl

theorem take_read (h : k ≤ n) : (m.read a n).take k = m.read a k := by
  obtain ⟨j, rfl⟩ := Nat.exists_eq_add_of_le h
  rw [read_add, List.take_append_of_le_length (by rw [length_read]), List.take_of_length_le
    (by rw [length_read])]

theorem drop_read : (m.read a (k + n)).drop k = m.read (a + k) n := by
  rw [read_add, List.drop_append_of_le_length (by rw [length_read]), List.drop_of_length_le
    (by rw [length_read]), List.nil_append]

theorem write_apply_of_lt {x : ℕ} (h : x < a) : m.write a bs x = m x :=
  if_neg (Nat.not_le_of_lt h)

theorem write_apply_of_ge {x : ℕ} (h : a + bs.length ≤ x) : m.write a bs x = m x := by
  rw [write, if_pos (by omega), List.getElem?_eq_none (by omega)]
  rfl

theorem write_apply_outside {x : ℕ} (h : x < a ∨ a + bs.length ≤ x) : m.write a bs x = m x :=
  h.elim write_apply_of_lt write_apply_of_ge

theorem writeLE_apply_outside {x v : ℕ} (h : x < a ∨ a + n ≤ x) : m.writeLE a n v x = m x :=
  write_apply_outside (by rwa [LittleEndian.length_toBytes])

theorem write_apply_of_mem {i : ℕ} (h : i < bs.length) : some (m.write a bs (a + i)) = bs[i]? := by
  rw [write, if_pos (Nat.le_add_right a i), Nat.add_sub_cancel_left, List.getElem?_eq_getElem h]
  rfl

theorem read_write_self : (m.write a bs).read a bs.length = bs :=
  read_eq_iff.mpr ⟨rfl, fun _ hi => (write_apply_of_mem hi).symm⟩

theorem read_write_of_apart (h : b + n ≤ a ∨ a + bs.length ≤ b) :
    (m.write a bs).read b n = m.read b n := by
  apply read_congr
  intro i hi
  rcases h with h | h
  · exact write_apply_of_lt (by omega)
  · exact write_apply_of_ge (by omega)

theorem read_ofList : (ofList bs).read 0 bs.length = bs := by
  apply read_eq_iff.mpr
  refine ⟨rfl, fun i hi => ?_⟩
  rw [ofList, Nat.zero_add, List.getElem?_eq_getElem hi]
  rfl

theorem readLE_lt : m.readLE a n < 256 ^ n := by
  have h := LittleEndian.ofBytes_lt (m.read a n)
  rwa [length_read] at h

theorem readLE_of_read {width v : ℕ} (h : m.read a width = LittleEndian.toBytes width v)
    (hv : v < 256 ^ width) : m.readLE a width = v := by
  rw [readLE, h, LittleEndian.ofBytes_toBytes_of_lt hv]

/-! ## Regions of several segments -/

/-- From address `a` on memory holds the segments one behind the other. -/
def Holds (m : Memory) (a : ℕ) (segs : List (List UInt8)) : Prop :=
  m.read a segs.flatten.length = segs.flatten

section Segments

variable {segs front behind : List (List UInt8)} {seg new : List UInt8}

@[simp] theorem holds_nil : m.Holds a [] := rfl

theorem holds_cons : m.Holds a (seg :: segs) ↔
    m.read a seg.length = seg ∧ m.Holds (a + seg.length) segs := by
  unfold Holds
  rw [List.flatten_cons, List.length_append, read_add]
  constructor
  · intro h
    exact List.append_inj h length_read
  · rintro ⟨hseg, hsegs⟩
    rw [hseg, hsegs]

theorem holds_append : m.Holds a (front ++ behind) ↔
    m.Holds a front ∧ m.Holds (a + front.flatten.length) behind := by
  induction front generalizing a with
  | nil => simp
  | cons seg front ih =>
    rw [List.cons_append, holds_cons, holds_cons, ih, List.flatten_cons, List.length_append,
      and_assoc, Nat.add_assoc]

/-- Only the bytes count, not how they are cut. -/
theorem Holds.recut {segs' : List (List UInt8)} (h : m.Holds a segs)
    (heq : segs'.flatten = segs.flatten) : m.Holds a segs' := by
  unfold Holds
  rw [heq]
  exact h

theorem Holds.read (front behind : List (List UInt8)) (h : m.Holds a (front ++ seg :: behind)) :
    m.read (a + front.flatten.length) seg.length = seg :=
  (holds_cons.mp (holds_append.mp h).2).1

/-- A segment is overwritten by one of the same length. -/
theorem Holds.write (front behind : List (List UInt8)) (h : m.Holds a (front ++ seg :: behind))
    (hlen : new.length = seg.length) (hb : b = a + front.flatten.length) :
    (m.write b new).Holds a (front ++ new :: behind) := by
  subst hb
  obtain ⟨hfront, hrest⟩ := holds_append.mp h
  obtain ⟨-, hbehind⟩ := holds_cons.mp hrest
  apply holds_append.mpr
  constructor
  · exact (read_write_of_apart (Or.inl (Nat.le_refl _))).trans hfront
  · apply holds_cons.mpr
    refine ⟨read_write_self, ?_⟩
    rw [← hlen] at hbehind
    exact (read_write_of_apart (Or.inr (Nat.le_refl _))).trans hbehind

theorem Holds.readLE (front behind : List (List UInt8)) {width v : ℕ}
    (h : m.Holds a (front ++ LittleEndian.toBytes width v :: behind)) (hv : v < 256 ^ width)
    (hb : b = a + front.flatten.length) : m.readLE b width = v := by
  subst hb
  have hread := h.read front behind
  rw [LittleEndian.length_toBytes] at hread
  exact readLE_of_read hread hv

theorem Holds.writeLE (front behind : List (List UInt8)) {width v : ℕ}
    (h : m.Holds a (front ++ seg :: behind)) (hlen : seg.length = width)
    (hb : b = a + front.flatten.length) :
    (m.writeLE b width v).Holds a (front ++ LittleEndian.toBytes width v :: behind) :=
  h.write front behind (by rw [LittleEndian.length_toBytes, hlen]) hb

end Segments

end Memory
