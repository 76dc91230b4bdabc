import Mathlib.Data.List.TakeWhile
import MiniGarnet.Garnet.Resp
import MiniGarnet.Lib.Wildcard

/-! # Glob patterns

    `glob_match` walks the pattern and the subject with two indices and keeps
    the last star as the only place to come back to.  `elements` reads the
    same pattern as a list of elements for the naive matcher; it has no
    answer where a set is not closed.  The loop ends because every turn moves
    the last star on, the place its retry starts from, or the pattern index.
-/

namespace Garnet

open Wildcard (Element accepts)

namespace Glob

/-! ## Section 1: The bytes with a meaning -/

def STAR : UInt8 := 42

def QUESTION : UInt8 := 63

def OPEN : UInt8 := 91

def CLOSE : UInt8 := 93

def CARET : UInt8 := 94

def BANG : UInt8 := 33

def BACKSLASH : UInt8 := 92

def DASH : UInt8 := 45

/-- `in_set`, on what is left of the set. -/
def inSet : Bytes → UInt8 → Bool
  | lo :: mid :: hi :: rest, c =>
    if mid = DASH then
      if lo ≤ c ∧ c ≤ hi then true else inSet rest c
    else if lo = c then true else inSet (mid :: hi :: rest) c
  | b :: rest, c => if b = c then true else inSet rest c
  | [], _ => false

/-! ## Section 2: The iterative matcher -/

/-- The loop `while j < p.len() && p[j] != b']'`. -/
def setStop (p : Bytes) (j : ℕ) : ℕ :=
  if h : j < p.length then
    if p[j] ≠ CLOSE then setStop p (j + 1) else j
  else j
  termination_by p.length - j

/-- The branches of `match p[pi]` other than the star: the pattern index behind the element at
    `pi` where it takes the byte `c`. -/
def takeOne (p : Bytes) (pi : ℕ) (h : pi < p.length) (c : UInt8) : Option ℕ :=
  if p[pi] = QUESTION then some (pi + 1)
  else if p[pi] = OPEN then
    let negate := p[pi + 1]? == some CARET || p[pi + 1]? == some BANG
    let setStart := if negate then pi + 1 + 1 else pi + 1
    let j := setStop p setStart
    let set := (p.take (min j p.length)).drop setStart
    if inSet set c ^^ negate then some (j + 1) else none
  else if p[pi] = BACKSLASH ∧ pi + 1 < p.length then
    if p[pi + 1]? = some c then some (pi + 2) else none
  else if p[pi] = c then some (pi + 1) else none

/-- The variables of `helper`.  A remembered star lies behind both indices. -/
structure Cursor where
  pi : ℕ
  si : ℕ
  star : Option (ℕ × ℕ)
  star_behind : ∀ sp ss, star = some (sp, ss) → sp < pi ∧ ss ≤ si

namespace Cursor

/-- At a star: it becomes the place to come back to. -/
def remember (c : Cursor) : Cursor where
  pi := c.pi + 1
  si := c.si
  star := some (c.pi, c.si)
  star_behind := by
    intro sp ss h
    obtain ⟨rfl, rfl⟩ := Prod.mk.inj (Option.some.inj h)
    exact ⟨Nat.lt_succ_self _, Nat.le_refl _⟩

/-- An element has taken the byte at `si`. -/
def advance (c : Cursor) (pi : ℕ) (h : c.pi < pi) : Cursor where
  pi := pi
  si := c.si + 1
  star := c.star
  star_behind := by
    intro sp ss hstar
    obtain ⟨hsp, hss⟩ := c.star_behind sp ss hstar
    exact ⟨Nat.lt_trans hsp h, Nat.le_succ_of_le hss⟩

/-- Back to the star, which takes one byte more; without a star the match has failed. -/
def back (c : Cursor) : Option Cursor :=
  match c.star with
  | some (sp, ss) =>
    some {
      pi := sp + 1
      si := ss + 1
      star := some (sp, ss + 1)
      star_behind := by
        intro sp' ss' h
        obtain ⟨rfl, rfl⟩ := Prod.mk.inj (Option.some.inj h)
        exact ⟨Nat.lt_succ_self _, Nat.le_refl _⟩ }
  | none => none

end Cursor

theorem setStop_eq (p : Bytes) (j : ℕ) :
    setStop p j = j + ((p.drop j).takeWhile (· != CLOSE)).length := by
  fun_induction setStop p j with
  | case1 j h hne ih =>
    have htake : ((p[j] :: p.drop (j + 1)).takeWhile (· != CLOSE)).length =
        ((p.drop (j + 1)).takeWhile (· != CLOSE)).length + 1 := by
      rw [List.takeWhile_cons_of_pos (by simpa using hne), List.length_cons]
    rw [ih, List.drop_eq_getElem_cons h, htake]
    omega
  | case2 j h heq =>
    rw [List.drop_eq_getElem_cons h, List.takeWhile_cons_of_neg (by simpa using heq)]
    rfl
  | case3 j h =>
    rw [List.drop_of_length_le (Nat.le_of_not_lt h)]
    rfl

theorem takeOne_lt {p : Bytes} {pi pi' : ℕ} {h : pi < p.length} {c : UInt8}
    (ht : takeOne p pi h c = some pi') : pi < pi' := by
  unfold takeOne at ht
  simp only [setStop_eq] at ht
  split_ifs at ht <;> cases ht <;> omega

/-- One turn of the loop at the subject byte `b`; `none` is `return false`. -/
def helperStep (p : Bytes) (b : UInt8) (c : Cursor) : Option Cursor :=
  if h : c.pi < p.length then
    if p[c.pi] = STAR then some c.remember
    else
      match ht : takeOne p c.pi h b with
      | some pi => some (c.advance pi (takeOne_lt ht))
      | none => c.back
  else c.back

/-- The three ways a turn goes on. -/
theorem helperStep_cases {p : Bytes} {b : UInt8} {c : Cursor} {r : Option Cursor}
    (hr : helperStep p b c = r) :
    (∃ h : c.pi < p.length, p[c.pi] = STAR ∧ r = some c.remember) ∨
    (∃ (h : c.pi < p.length) (pi : ℕ) (ht : takeOne p c.pi h b = some pi), p[c.pi] ≠ STAR ∧
      r = some (c.advance pi (takeOne_lt ht))) ∨
    ((∀ h : c.pi < p.length, p[c.pi] ≠ STAR ∧ takeOne p c.pi h b = none) ∧ r = c.back) := by
  unfold helperStep at hr
  split at hr
  · next h =>
    split at hr
    · next hstar => exact Or.inl ⟨h, hstar, hr.symm⟩
    · next hstar =>
      split at hr
      · next pi ht => exact Or.inr (Or.inl ⟨h, pi, ht, hstar, hr.symm⟩)
      · next ht => exact Or.inr (Or.inr ⟨fun _ => ⟨hstar, ht⟩, hr.symm⟩)
  · next h => exact Or.inr (Or.inr ⟨fun h' => absurd h' h, hr.symm⟩)

/-- How far the last star is: 0 before the first one. -/
def Cursor.starAt (c : Cursor) : ℕ :=
  match c.star with
  | some (sp, _) => sp + 1
  | none => 0

/-- Where the last star's next retry starts. -/
def Cursor.retryAt (c : Cursor) : ℕ :=
  match c.star with
  | some (_, ss) => ss
  | none => 0

/-- Every turn moves the last star on, or its retry, or else the pattern index. -/
theorem helperStep_progress {p s : Bytes} {b : UInt8} {c c' : Cursor} (hsi : c.si < s.length)
    (hstep : helperStep p b c = some c') :
    Prod.Lex (· < ·) (Prod.Lex (· < ·) (· < ·))
      (p.length + 1 - c'.starAt, s.length - c'.retryAt, p.length - c'.pi)
      (p.length + 1 - c.starAt, s.length - c.retryAt, p.length - c.pi) := by
  obtain ⟨h, -, hc⟩ | ⟨h, pi, ht, -, hc⟩ | ⟨-, hc⟩ := helperStep_cases hstep
  · obtain rfl := Option.some.inj hc
    apply Prod.Lex.left
    have hat : c.starAt ≤ c.pi := by
      unfold Cursor.starAt
      split
      · next sp ss hstar => exact (c.star_behind sp ss hstar).1
      · exact Nat.zero_le _
    show p.length + 1 - (c.pi + 1) < p.length + 1 - c.starAt
    omega
  · obtain rfl := Option.some.inj hc
    apply Prod.Lex.right
    apply Prod.Lex.right
    have := takeOne_lt ht
    show p.length - pi < p.length - c.pi
    omega
  · unfold Cursor.back at hc
    split at hc
    · next sp ss hstar =>
      obtain rfl := Option.some.inj hc
      have hss := (c.star_behind sp ss hstar).2
      simp only [Cursor.starAt, Cursor.retryAt, hstar]
      apply Prod.Lex.right
      apply Prod.Lex.left
      omega
    · exact absurd hc nofun

/-- The loop `while pi < p.len() && p[pi] == b'*'`. -/
def skipStars (p : Bytes) (pi : ℕ) : ℕ :=
  if h : pi < p.length then
    if p[pi] = STAR then skipStars p (pi + 1) else pi
  else pi
  termination_by p.length - pi

/-- `helper` from the state of its variables on. -/
def helper (p s : Bytes) (c : Cursor) : Bool :=
  if h : c.si < s.length then
    match hc : helperStep p s[c.si] c with
    | some c' => helper p s c'
    | none => false
  else skipStars p c.pi == p.length
  termination_by (p.length + 1 - c.starAt, s.length - c.retryAt, p.length - c.pi)
  decreasing_by exact helperStep_progress h hc

def Cursor.start : Cursor := ⟨0, 0, none, nofun⟩

end Glob

/-- Redis-style glob matching: `*`, `?`, `[set]`, `\` escape. -/
def globMatch (pat s : Bytes) : Bool := Glob.helper pat s Glob.Cursor.start

namespace Glob

/-! ## Section 3: The pattern as a list of elements -/

/-- The byte behind `[` negates the set. -/
def negated (p : Bytes) : Bool := p[0]? == some CARET || p[0]? == some BANG

/-- What stands between `[`, or its negation, and the rest of the pattern. -/
def setBody (p : Bytes) : Bytes := if negated p then p.tail else p

/-- The bytes in front of the first `]`. -/
def setBytes (p : Bytes) : Bytes := (setBody p).takeWhile (· != CLOSE)

/-- The rest of the pattern behind the set. -/
def behindSet (p : Bytes) : Bytes := (setBody p).drop ((setBytes p).length + 1)

theorem behindSet_length (p : Bytes) : (behindSet p).length ≤ p.length := by
  have hbody : (setBody p).length ≤ p.length := by
    unfold setBody
    split
    · rw [List.length_tail]; omega
    · exact Nat.le_refl _
  rw [behindSet, List.length_drop]
  omega

/-- The elements of a pattern: `*` is any run of bytes, `?` any byte, a set one byte accepted by
    `in_set` (negated after `^` or `!`), a backslash in front of a byte that byte, and any other
    byte itself.  There are none where a set is not closed. -/
def elements : Bytes → Option (List (Element UInt8))
  | [] => some []
  | b :: p =>
    if b = STAR then (elements p).map (.star :: ·)
    else if b = QUESTION then (elements p).map (.one (fun _ => true) :: ·)
    else if b = OPEN then
      if CLOSE ∈ setBody p then
        (elements (behindSet p)).map (.one (fun c => inSet (setBytes p) c ^^ negated p) :: ·)
      else none
    else
      match p with
      | d :: p' =>
        if b = BACKSLASH then (elements p').map (.one (d == ·) :: ·)
        else (elements (d :: p')).map (.one (b == ·) :: ·)
      | [] => some [.one (b == ·)]
  termination_by p => p.length
  decreasing_by
    all_goals simp only [List.length_cons]
    all_goals try have := behindSet_length p
    all_goals omega

/-- Each `[` that starts a set has a later `]`. -/
def SetsClosed (pat : Bytes) : Prop := (elements pat).isSome

/-- The naive recursive matcher. -/
def naiveMatch (pat s : Bytes) : Bool :=
  match elements pat with
  | some es => accepts es s
  | none => false

section Elements

variable {p : Bytes} {pi : ℕ} {ts : List (Element UInt8)}

theorem elements_cons (b : UInt8) (p : Bytes) : elements (b :: p) =
    if b = STAR then (elements p).map (.star :: ·)
    else if b = QUESTION then (elements p).map (.one (fun _ => true) :: ·)
    else if b = OPEN then
      if CLOSE ∈ setBody p then
        (elements (behindSet p)).map (.one (fun c => inSet (setBytes p) c ^^ negated p) :: ·)
      else none
    else if b = BACKSLASH ∧ p ≠ [] then
      (elements p.tail).map (.one (fun c => p[0]? == some c) :: ·)
    else (elements p).map (.one (b == ·) :: ·) := by
  rw [elements.eq_def]
  cases p with
  | nil => simp [elements]
  | cons d p' => simp

theorem elements_star (h : pi < p.length) (hstar : p[pi] = STAR)
    (hts : elements (p.drop pi) = some ts) :
    ∃ es, ts = .star :: es ∧ elements (p.drop (pi + 1)) = some es := by
  rw [List.drop_eq_getElem_cons h, elements_cons, if_pos hstar] at hts
  obtain ⟨es, hes, rfl⟩ := Option.map_eq_some_iff.mp hts
  exact ⟨es, rfl, hes⟩

/-- What `takeOne` does at an element that is not a star. -/
structure TakesOne (p : Bytes) (pi : ℕ) (h : pi < p.length) (test : UInt8 → Bool)
    (es : List (Element UInt8)) : Prop where
  refuses : ∀ b, test b = false → takeOne p pi h b = none
  takes : ∀ b, test b = true → ∃ pi' ≤ p.length, takeOne p pi h b = some pi' ∧
    elements (p.drop pi') = some es

/-- An element that goes on at one fixed index. -/
theorem TakesOne.of_eq {h : pi < p.length} {test : UInt8 → Bool} {es : List (Element UInt8)}
    (stop : ℕ) (htake : ∀ b, takeOne p pi h b = if test b then some stop else none)
    (hstop : stop ≤ p.length) (hes : elements (p.drop stop) = some es) :
    TakesOne p pi h test es where
  refuses b hb := by rw [htake b, hb]; rfl
  takes b hb := ⟨stop, hstop, by rw [htake b, hb]; rfl, hes⟩

theorem getElem_succ_eq_drop : p[pi + 1]? = (p.drop (pi + 1))[0]? := by
  rw [List.getElem?_drop]

theorem setBytes_length_lt {q : Bytes} (hclose : CLOSE ∈ setBody q) :
    (setBytes q).length < (setBody q).length := by
  have hidx : (setBody q).findIdx (fun b => !(b != CLOSE)) < (setBody q).length :=
    List.findIdx_lt_length_of_exists ⟨CLOSE, hclose, by simp⟩
  rw [setBytes, List.takeWhile_eq_take_findIdx_not, List.length_take]
  omega

/-- The set between the loop's indices is the one in front of the first `]`. -/
theorem takeOne_set (h : pi < p.length) (hopen : p[pi] = OPEN)
    (hclose : CLOSE ∈ setBody (p.drop (pi + 1))) :
    ∃ stop ≤ p.length, p.drop stop = behindSet (p.drop (pi + 1)) ∧ ∀ b, takeOne p pi h b =
      if inSet (setBytes (p.drop (pi + 1))) b ^^ negated (p.drop (pi + 1)) then some stop
      else none := by
  have hneg : (p[pi + 1]? == some CARET || p[pi + 1]? == some BANG) =
      negated (p.drop (pi + 1)) := by
    unfold negated
    rw [getElem_succ_eq_drop]
  generalize hq : p.drop (pi + 1) = q at *
  -- `start` is the index of the set's first byte.
  obtain ⟨start, hstart, hbody⟩ : ∃ start, (if negated q then pi + 1 + 1 else pi + 1) = start ∧
      p.drop start = setBody q := by
    refine ⟨_, rfl, ?_⟩
    unfold setBody
    split
    · rw [← List.drop_drop, hq, List.drop_one]
    · exact hq
  have hstop : setStop p start = start + (setBytes q).length := by
    rw [setStop_eq, hbody]
    rfl
  have hlen : (setBytes q).length < p.length - start := by
    rw [← List.length_drop, hbody]
    exact setBytes_length_lt hclose
  have hset : (p.take (start + (setBytes q).length)).drop start = setBytes q := by
    rw [List.drop_take, hbody, Nat.add_sub_cancel_left]
    exact (List.prefix_iff_eq_take.mp (List.takeWhile_prefix _)).symm
  refine ⟨start + (setBytes q).length + 1, by omega, ?_, ?_⟩
  · rw [behindSet, ← hbody, List.drop_drop]
    congr 1
  · intro b
    have hquestion : p[pi] ≠ QUESTION := by rw [hopen]; decide
    rw [takeOne, if_neg hquestion, if_pos hopen]
    simp only [hneg, hstart, hstop, Nat.min_eq_left (by omega : start + (setBytes q).length ≤
      p.length), hset]

/-- The loop reads the element that stands at its index. -/
theorem elements_one (h : pi < p.length) (hne : p[pi] ≠ STAR)
    (hts : elements (p.drop pi) = some ts) :
    ∃ test es, ts = .one test :: es ∧ TakesOne p pi h test es := by
  rw [List.drop_eq_getElem_cons h, elements_cons, if_neg hne] at hts
  split_ifs at hts with hquestion hopen hclose hback
  · obtain ⟨es, hes, rfl⟩ := Option.map_eq_some_iff.mp hts
    refine ⟨_, es, rfl, TakesOne.of_eq (pi + 1) (fun b => ?_) h hes⟩
    rw [takeOne, if_pos hquestion]
    rfl
  · obtain ⟨es, hes, rfl⟩ := Option.map_eq_some_iff.mp hts
    obtain ⟨stop, hstop, hbehind, htake⟩ := takeOne_set h hopen hclose
    rw [← hbehind] at hes
    exact ⟨_, es, rfl, TakesOne.of_eq stop htake hstop hes⟩
  · obtain ⟨es, hes, rfl⟩ := Option.map_eq_some_iff.mp hts
    have hmore : pi + 1 < p.length := by
      have hnil := mt List.drop_of_length_le hback.2
      omega
    rw [List.tail_drop] at hes
    refine ⟨_, es, rfl, TakesOne.of_eq (pi + 2) (fun b => ?_) hmore hes⟩
    rw [takeOne, if_neg hquestion, if_neg hopen, if_pos ⟨hback.1, hmore⟩, getElem_succ_eq_drop]
    simp only [beq_iff_eq]
  · obtain ⟨es, hes, rfl⟩ := Option.map_eq_some_iff.mp hts
    refine ⟨_, es, rfl, TakesOne.of_eq (pi + 1) (fun b => ?_) h hes⟩
    have hlast : ¬(p[pi] = BACKSLASH ∧ pi + 1 < p.length) := by
      rintro ⟨hb, hmore⟩
      apply hback
      refine ⟨hb, fun hnil => ?_⟩
      rw [List.drop_eq_nil_iff] at hnil
      omega
    rw [takeOne, if_neg hquestion, if_neg hopen, if_neg hlast]
    simp only [beq_iff_eq]

end Elements

/-! ## Section 4: The last star is enough -/

/-- What the cursor stands for: `ts` is left of the pattern, and `us` is what has been matched
    since the last star, one byte for each element. -/
structure Follows (p : Bytes) (c : Cursor) (us ts : List (Element UInt8)) : Prop where
  pi_le : c.pi ≤ p.length
  rest : elements (p.drop c.pi) = some ts
  ones : ∀ u ∈ us, u.isOne = true
  saved : ∀ sp ss, c.star = some (sp, ss) →
    elements (p.drop (sp + 1)) = some (us ++ ts) ∧ c.si = ss + us.length

/-- What the star still has to offer. -/
def Cursor.retry (c : Cursor) (es : List (Element UInt8)) (s : Bytes) : Bool :=
  match c.star with
  | some (_, ss) => accepts (.star :: es) (s.drop (ss + 1))
  | none => false

/-- The naive matcher's answer for what is left, or for the star's next retries. -/
def Cursor.answer (c : Cursor) (us ts : List (Element UInt8)) (s : Bytes) : Bool :=
  accepts ts (s.drop c.si) || c.retry (us ++ ts) s

/-- What a turn of the loop comes to: the same answer from the next cursor, or no match. -/
def Turned (p s : Bytes) (answer : Bool) : Option Cursor → Prop
  | some c' => c'.si ≤ s.length ∧
      ∃ us ts, Follows p c' us ts ∧ c'.answer us ts s = answer
  | none => answer = false

section Loop

variable {p s : Bytes} {c c' : Cursor} {us ts es : List (Element UInt8)}

/-- A new star makes the remembered one superfluous. -/
theorem Follows.remember (hf : Follows p c us ts) (h : c.pi < p.length)
    (hstar : p[c.pi] = STAR) :
    ∃ es, Follows p c.remember [] es ∧ c.remember.answer [] es s = c.answer us ts s := by
  obtain ⟨es, rfl, hes⟩ := elements_star h hstar hf.rest
  refine ⟨es, ⟨h, hes, List.forall_mem_nil _, ?_⟩, ?_⟩
  · intro sp ss hsaved
    obtain ⟨rfl, rfl⟩ := Prod.mk.inj (Option.some.inj hsaved)
    exact ⟨hes, rfl⟩
  · have hnew : c.remember.answer [] es s = accepts (.star :: es) (s.drop c.si) := by
      rw [Wildcard.accepts_star, List.tail_drop]
      rfl
    rw [hnew, Cursor.answer, Cursor.retry]
    split
    · next sp ss hsaved =>
      obtain ⟨-, hlen⟩ := hf.saved sp ss hsaved
      -- Whatever the old star accepts the new one accepts from where it is met.
      have hlast : accepts (.star :: (us ++ .star :: es)) (s.drop (ss + 1)) = true →
          accepts (.star :: es) (s.drop c.si) = true := by
        intro hold
        rw [← List.drop_drop] at hold
        have hmet := Wildcard.star_last hf.ones hold
        rwa [List.drop_drop, ← hlen] at hmet
      cases hold : accepts (.star :: (us ++ .star :: es)) (s.drop (ss + 1)) with
      | false => rw [Bool.or_false]
      | true => rw [hlast hold, Bool.or_true]
    · rw [Bool.or_false]

/-- One byte for one element. -/
theorem Follows.advance (hf : Follows p c us ts) (h : c.pi < p.length) (hne : p[c.pi] ≠ STAR)
    {pi : ℕ} {hlt : c.pi < pi} {hsi : c.si < s.length} (ht : takeOne p c.pi h s[c.si] = some pi) :
    ∃ us' es, Follows p (c.advance pi hlt) us' es ∧
      (c.advance pi hlt).answer us' es s = c.answer us ts s := by
  obtain ⟨test, es, rfl, htakes⟩ := elements_one h hne hf.rest
  cases htest : test s[c.si] with
  | false =>
    rw [htakes.refuses _ htest] at ht
    exact absurd ht nofun
  | true =>
    obtain ⟨pi', hle, ht', hes⟩ := htakes.takes _ htest
    obtain rfl := Option.some.inj (ht.symm.trans ht')
    have hsplit : us ++ .one test :: es = us ++ [.one test] ++ es := by
      rw [List.append_assoc]
      rfl
    refine ⟨us ++ [.one test], es, ⟨hle, hes, ?_, ?_⟩, ?_⟩
    · intro u hu
      obtain hu | hu := List.mem_append.mp hu
      · exact hf.ones u hu
      · rw [List.mem_singleton.mp hu]
        rfl
    · intro sp ss hsaved
      obtain ⟨hsp, hlen⟩ := hf.saved sp ss hsaved
      rw [← hsplit, List.length_append]
      refine ⟨hsp, ?_⟩
      show c.si + 1 = ss + (us.length + 1)
      omega
    · have hnow : accepts (.one test :: es) (s.drop c.si) = accepts es (s.drop (c.si + 1)) := by
        rw [List.drop_eq_getElem_cons hsi, Wildcard.accepts_one_cons, htest, Bool.true_and]
      unfold Cursor.answer
      rw [hnow, ← hsplit]
      rfl

/-- Where the element refuses the byte, or the pattern is used up, nothing is accepted here. -/
theorem Follows.refused (hf : Follows p c us ts) (hsi : c.si < s.length)
    (h : ∀ h : c.pi < p.length, p[c.pi] ≠ STAR ∧ takeOne p c.pi h s[c.si] = none) :
    accepts ts (s.drop c.si) = false := by
  rw [List.drop_eq_getElem_cons hsi]
  by_cases hpi : c.pi < p.length
  · obtain ⟨hne, hnone⟩ := h hpi
    obtain ⟨test, es, rfl, htakes⟩ := elements_one hpi hne hf.rest
    cases htest : test s[c.si] with
    | false => rw [Wildcard.accepts_one_cons, htest, Bool.false_and]
    | true =>
      obtain ⟨pi', -, ht, -⟩ := htakes.takes _ htest
      rw [hnone] at ht
      exact absurd ht nofun
  · have hrest := hf.rest
    rw [List.drop_of_length_le (Nat.le_of_not_lt hpi), elements] at hrest
    obtain rfl := Option.some.inj hrest
    rfl

/-- Going back to the star is one more way it can take. -/
theorem Follows.back (hf : Follows p c us ts) (hrefused : accepts ts (s.drop c.si) = false) :
    (c.back = none ∧ c.answer us ts s = false) ∨
    ∃ c', c.back = some c' ∧ c'.si ≤ c.si + 1 ∧ Follows p c' [] (us ++ ts) ∧
      c'.answer [] (us ++ ts) s = c.answer us ts s := by
  unfold Cursor.answer
  rw [hrefused, Bool.false_or]
  obtain ⟨pi, si, star, hbehind⟩ := c
  cases star with
  | none => exact Or.inl ⟨rfl, rfl⟩
  | some saved =>
    obtain ⟨sp, ss⟩ := saved
    obtain ⟨hsp, hlen⟩ := hf.saved sp ss rfl
    have hlt := (hbehind sp ss rfl).1
    refine Or.inr ⟨_, rfl, ?_, ⟨?_, hsp, List.forall_mem_nil _, ?_⟩, ?_⟩
    · show ss + 1 ≤ si + 1
      have : si = ss + us.length := hlen
      omega
    · exact Nat.le_trans hlt hf.pi_le
    · intro sp' ss' hsaved
      obtain ⟨rfl, rfl⟩ := Prod.mk.inj (Option.some.inj hsaved)
      exact ⟨hsp, rfl⟩
    · show _ = accepts (.star :: (us ++ ts)) (s.drop (ss + 1))
      rw [Wildcard.accepts_star, List.tail_drop]
      rfl

theorem Follows.step (hf : Follows p c us ts) (hsi : c.si < s.length) :
    Turned p s (c.answer us ts s) (helperStep p s[c.si] c) := by
  obtain ⟨h, hstar, hr⟩ | ⟨h, pi, ht, hne, hr⟩ | ⟨h, hr⟩ :=
    helperStep_cases (Eq.refl (helperStep p s[c.si] c))
  · rw [hr]
    obtain ⟨es, hes⟩ := hf.remember h hstar
    exact ⟨hsi.le, [], es, hes⟩
  · rw [hr]
    exact ⟨hsi, hf.advance h hne ht⟩
  · rw [hr]
    obtain ⟨hback, hno⟩ | ⟨c', hback, hle, hf', hsame⟩ := hf.back (hf.refused hsi h)
    · rw [hback]
      exact hno
    · rw [hback]
      exact ⟨by omega, [], us ++ ts, hf', hsame⟩

/-- The last loop is at the end of the pattern when only stars were left of it. -/
theorem skipStars_end {pi : ℕ} (hpi : pi ≤ p.length) (hts : elements (p.drop pi) = some ts) :
    (skipStars p pi == p.length) = accepts ts [] := by
  fun_induction skipStars p pi generalizing ts with
  | case1 pi h hstar ih =>
    obtain ⟨es, rfl, hes⟩ := elements_star h hstar hts
    exact (ih h hes).trans Wildcard.accepts_star_nil.symm
  | case2 pi h hne =>
    obtain ⟨test, es, rfl, -⟩ := elements_one h hne hts
    rw [Wildcard.accepts_one_nil, beq_eq_false_iff_ne]
    omega
  | case3 pi h =>
    rw [List.drop_of_length_le (Nat.le_of_not_lt h), elements] at hts
    obtain rfl := Option.some.inj hts
    exact beq_iff_eq.mpr (by omega)

/-- At the end of the subject the star has nothing more to offer. -/
theorem Follows.answer_end (hf : Follows p c us ts) (hsi : c.si = s.length) :
    c.answer us ts s = accepts ts [] := by
  unfold Cursor.answer Cursor.retry
  rw [List.drop_of_length_le hsi.ge]
  split
  · next sp ss hsaved =>
    obtain ⟨-, hlen⟩ := hf.saved sp ss hsaved
    cases hold : accepts (.star :: (us ++ ts)) (s.drop (ss + 1)) with
    | false => rw [Bool.or_false]
    | true => rw [Wildcard.star_end hf.ones (by omega) hold, Bool.true_or]
  · rw [Bool.or_false]

/-- The loop gives the naive matcher's answer. -/
theorem helper_eq (hf : Follows p c us ts) (hsi : c.si ≤ s.length) :
    helper p s c = c.answer us ts s := by
  fun_induction helper p s c generalizing us ts with
  | case1 c h c' hc ih =>
    have hturn := hf.step h
    rw [hc] at hturn
    obtain ⟨hsi', us', ts', hf', hsame⟩ := hturn
    rw [ih hf' hsi', hsame]
  | case2 c h hc =>
    have hturn := hf.step h
    rw [hc] at hturn
    exact hturn.symm
  | case3 c h =>
    rw [hf.answer_end (by omega), skipStars_end hf.pi_le hf.rest]

end Loop

end Glob

/-- On patterns whose sets are closed the iterative matcher is the naive one. -/
theorem globMatch_eq_naive {pat : Bytes} (hclosed : Glob.SetsClosed pat) (s : Bytes) :
    globMatch pat s = Glob.naiveMatch pat s := by
  obtain ⟨es, hes⟩ := Option.isSome_iff_exists.mp hclosed
  have hstart : Glob.Follows pat Glob.Cursor.start [] es :=
    ⟨Nat.zero_le _, hes, List.forall_mem_nil _, nofun⟩
  have hanswer : Glob.Cursor.start.answer [] es s = accepts es s := Bool.or_false _
  rw [globMatch, Glob.helper_eq hstart (Nat.zero_le _), hanswer, Glob.naiveMatch, hes]

theorem globMatch_eq_naive_set :
    globMatch (ascii "*[^a-c]?") (ascii "abcd!") =
      Glob.naiveMatch (ascii "*[^a-c]?") (ascii "abcd!") :=
  globMatch_eq_naive (by
    show (Glob.elements [42, 91, 94, 97, 45, 99, 93, 63]).isSome
    simp [Glob.elements_cons, Glob.elements, Glob.setBody, Glob.behindSet, Glob.setBytes,
      Glob.negated, Glob.STAR, Glob.QUESTION, Glob.OPEN, Glob.CLOSE, Glob.CARET]) _

end Garnet
