import Mathlib.Data.Bool.AllAny
import MiniGarnet.Garnet.RespValue

/-! # One reply per command

    Every handler appends the encoding of exactly one RESP value, arrays with
    as many elements as their header says.  Two things can go wrong: the
    reply to an unknown command echoes its name, and a name with a CRLF in it
    breaks the line; and GETEX without a key indexes its arguments out of
    range, so nothing is replied at all.

    A byte string of the source has fewer than `2 ^ 63` bytes, and a vector
    fewer than `2 ^ 63` elements.
-/

namespace Garnet

open Resp

/-! ## Section 1: Replies that are one value -/

/-- The bytes are the encoding of one value. -/
def OneReply (b : Bytes) : Prop := ∃ v : Value, v.Wf ∧ b = v.encode

/-- The bytes are the encodings of `n` values. -/
def ManyReplies (n : ℕ) (b : Bytes) : Prop :=
  ∃ vs : List Value, vs.length = n ∧ (∀ v ∈ vs, v.Wf) ∧ b = Value.encodeList vs

section Values

theorem oneReply_simple {s : Bytes} (h : HasCrlf s = false) : OneReply (ascii "+" ++ s ++ CRLF) :=
  ⟨.simple s, .simple h, rfl⟩

theorem oneReply_errorBytes {s : Bytes} (h : HasCrlf s = false) : OneReply (errorBytes s) :=
  ⟨.error s, .error h, rfl⟩

theorem oneReply_error {s : String} (h : HasCrlf (ascii s) = false) : OneReply (Resp.error s) :=
  oneReply_errorBytes h

theorem oneReply_integer (v : Int64) : OneReply (integer v) := ⟨.int v, .int v, rfl⟩

theorem oneReply_bulk {data : Bytes} (h : data.length < 2 ^ 63) : OneReply (Resp.bulk data) :=
  ⟨.bulk data, .bulk h, rfl⟩

theorem oneReply_nullBulk : OneReply NULL_BULK := ⟨.nullBulk, .nullBulk, rfl⟩

theorem oneReply_ok : OneReply OK := ⟨.simple (ascii "OK"), .simple (by decide), by decide⟩

theorem manyReplies_nil : ManyReplies 0 [] := ⟨[], rfl, by simp, rfl⟩

theorem OneReply.cons {b c : Bytes} {n : ℕ} (hb : OneReply b) (hc : ManyReplies n c) :
    ManyReplies (n + 1) (b ++ c) := by
  obtain ⟨v, hv, rfl⟩ := hb
  obtain ⟨vs, hlen, hvs, rfl⟩ := hc
  refine ⟨v :: vs, by rw [List.length_cons, hlen], ?_, rfl⟩
  intro w hw
  rcases List.mem_cons.mp hw with rfl | hw
  · exact hv
  · exact hvs w hw

theorem ManyReplies.array {n : ℕ} {b : Bytes} (h : ManyReplies n b) (hn : n < 2 ^ 63) :
    OneReply (arrayHeader n ++ b) := by
  obtain ⟨vs, rfl, hvs, rfl⟩ := h
  exact ⟨.array vs, .array hn hvs, rfl⟩

end Values

/-! ## Section 2: Echoed text -/

section Echo

theorem hasCrlf_cons_eq (a : UInt8) (s : Bytes) :
    HasCrlf (a :: s) = (decide (a = CR ∧ s.head? = some LF) || HasCrlf s) := by
  unfold HasCrlf findCrlf
  rw [List.drop_zero, List.drop_zero]
  cases s with
  | nil => simp [findCrlfIn]
  | cons b s =>
    simp only [findCrlfIn]
    by_cases h : a = CR ∧ b = LF
    · rw [if_pos h]
      simp [h]
    · rw [if_neg h, show (0 : ℕ) + 1 = 1 + 0 from rfl, findCrlfIn_shift]
      simp [h]

/-- Bytes that are not CR in front make no difference. -/
theorem hasCrlf_append_left {l : Bytes} (h : ∀ c ∈ l, c ≠ CR) (s : Bytes) :
    HasCrlf (l ++ s) = HasCrlf s := by
  induction l with
  | nil => rfl
  | cons a l ih =>
    have ha : a ≠ CR := h a List.mem_cons_self
    rw [List.cons_append, hasCrlf_cons_eq, ih fun c hc => h c (List.mem_cons_of_mem _ hc)]
    simp [ha]

/-- Nor do bytes that are not LF behind. -/
theorem hasCrlf_append_right (s : Bytes) {l : Bytes} (h : ∀ c ∈ l, c ≠ LF) :
    HasCrlf (s ++ l) = HasCrlf s := by
  induction s with
  | nil =>
    rw [List.nil_append, hasCrlf_of_no_lf h]
    rfl
  | cons a s ih =>
    rw [List.cons_append, hasCrlf_cons_eq, hasCrlf_cons_eq, ih]
    cases s with
    | nil =>
      have hhead : ¬ l.head? = some LF := by
        cases l with
        | nil => simp
        | cons b l => simpa using h b List.mem_cons_self
      simp [hhead]
    | cons b s => rfl

/-- Continuation bytes are not ASCII. -/
theorem continuation_high {b : UInt8} {ranges : List (UInt8 × UInt8)}
    (h : continuation b = some ranges) :
    (b ≤ 0x7F ∧ ranges = []) ∨ (0x7F < b ∧ ∀ x ∈ ranges, 0x7F < x.1) := by
  unfold continuation at h
  split at h
  · rename_i hlow
    cases h
    exact .inl ⟨hlow, rfl⟩
  · rename_i hlow
    refine .inr ⟨by simpa using hlow, ?_⟩
    repeat' split at h
    all_goals first
      | (cases h; exact List.all_iff_forall_prop.mp rfl)
      | cases h

theorem fitting_high {ranges : List (UInt8 × UInt8)} (h : ∀ x ∈ ranges, 0x7F < x.1) (s : Bytes) :
    ∀ c ∈ s.take (fitting ranges s), 0x7F < c := by
  fun_induction fitting ranges s with
  | case1 lo hi ranges b s hfit ih =>
    intro c hc
    rw [List.take_succ_cons] at hc
    rcases List.mem_cons.mp hc with rfl | hc
    · exact UInt8.lt_of_lt_of_le (h (lo, hi) List.mem_cons_self) hfit.1
    · exact ih (fun x hx => h x (List.mem_cons_of_mem _ hx)) c hc
  | case2 => simp
  | case3 => simp

theorem high_ne {c : UInt8} (h : 0x7F < c) : c ≠ CR ∧ c ≠ LF := by
  constructor
  · rintro rfl
    exact absurd h (by decide)
  · rintro rfl
    exact absurd h (by decide)

/-- The text shown for a byte string has a CRLF exactly where the string has one. -/
theorem hasCrlf_utf8Lossy (n : ℕ) (s : Bytes) (hn : s.length ≤ n) :
    HasCrlf (utf8Lossy n s) = HasCrlf s ∧
      ((utf8Lossy n s).head? = some LF ↔ s.head? = some LF) := by
  induction n generalizing s with
  | zero =>
    obtain rfl := List.eq_nil_of_length_eq_zero (Nat.le_zero.mp hn)
    exact ⟨rfl, Iff.rfl⟩
  | succ n ih =>
    cases s with
    | nil => exact ⟨rfl, Iff.rfl⟩
    | cons b s =>
      rw [List.length_cons] at hn
      -- a part of non-ASCII bytes, shown as other non-ASCII bytes
      have hpart : ∀ (shown part rest : Bytes), shown ≠ [] → (∀ c ∈ shown, 0x7F < c) →
          (∀ c ∈ b :: part, 0x7F < c) → part ++ rest = s →
          HasCrlf (shown ++ utf8Lossy n rest) = HasCrlf (b :: s) ∧
            ((shown ++ utf8Lossy n rest).head? = some LF ↔ (b :: s).head? = some LF) := by
        rintro shown part rest hne hshown hpart rfl
        rw [List.length_append] at hn
        have hih := (ih rest (by omega)).1
        have hb := (high_ne (hpart b List.mem_cons_self)).2
        refine ⟨?_, ?_⟩
        · rw [hasCrlf_append_left fun c hc => (high_ne (hshown c hc)).1, hih,
            ← List.cons_append, hasCrlf_append_left fun c hc => (high_ne (hpart c hc)).1]
        · obtain ⟨c, shown, rfl⟩ := List.exists_cons_of_ne_nil hne
          have hc := (high_ne (hshown c List.mem_cons_self)).2
          simp [hc, hb]
      rw [utf8Lossy]
      split
      · rename_i hcont
        refine hpart [0xEF, 0xBF, 0xBD] [] s (by simp) (List.all_iff_forall_prop.mp rfl) ?_ rfl
        intro c hc
        obtain rfl := List.mem_singleton.mp hc
        by_contra hlow
        unfold continuation at hcont
        rw [if_pos (by simpa using hlow)] at hcont
        cases hcont
      · rename_i ranges hcont
        rcases continuation_high hcont with ⟨-, rfl⟩ | ⟨hb, hranges⟩
        · -- an ASCII byte is shown as itself
          have hzero : fitting [] s = 0 := by unfold fitting; rfl
          simp only [hzero, List.length_nil, if_true, List.take_zero, List.drop_zero]
          obtain ⟨hih, hhead⟩ := ih s (by omega)
          refine ⟨?_, by simp⟩
          show HasCrlf (b :: utf8Lossy n s) = _
          rw [hasCrlf_cons_eq, hasCrlf_cons_eq, hih]
          simp only [hhead]
        · have htake := fitting_high hranges s
          have hhigh : ∀ c ∈ b :: s.take (fitting ranges s), 0x7F < c := by
            intro c hc
            rcases List.mem_cons.mp hc with rfl | hc
            · exact hb
            · exact htake c hc
          simp only
          split
          · exact hpart (b :: s.take (fitting ranges s)) _ _ (by simp) hhigh hhigh
              (List.take_append_drop _ _)
          · exact hpart [0xEF, 0xBF, 0xBD] _ _ (by simp) (List.all_iff_forall_prop.mp rfl)
              hhigh (List.take_append_drop _ _)

/-- An error reply is one value exactly if its text has no CRLF. -/
theorem oneReply_errorBytes_iff {text : Bytes} :
    OneReply (errorBytes text) ↔ HasCrlf text = false := by
  constructor
  · rintro ⟨v, hv, heq⟩
    have hhead := congrArg List.head? heq
    cases hv with
    | @error s hs =>
      have hsame : text = s := by
        have htail := (List.append_inj_left' heq rfl : ascii "-" ++ text = ascii "-" ++ s)
        exact List.append_cancel_left htail
      rw [hsame]
      exact hs
    | simple _ => exact absurd (show (some 45 : Option UInt8) = some 43 from hhead) (by decide)
    | int _ => exact absurd (show (some 45 : Option UInt8) = some 58 from hhead) (by decide)
    | nullBulk => exact absurd (show (some 45 : Option UInt8) = some 36 from hhead) (by decide)
    | bulk _ => exact absurd (show (some 45 : Option UInt8) = some 36 from hhead) (by decide)
    | nullArray => exact absurd (show (some 45 : Option UInt8) = some 42 from hhead) (by decide)
    | array _ _ => exact absurd (show (some 45 : Option UInt8) = some 42 from hhead) (by decide)
  · exact oneReply_errorBytes

/-- The reply to an unknown command is one value exactly if the name has no CRLF. -/
theorem oneReply_unknownCommand_iff {args : List Bytes} :
    OneReply (unknownCommand args) ↔ HasCrlf (args.headD []) = false := by
  unfold unknownCommand
  rw [oneReply_errorBytes_iff, hasCrlf_append_right _ (List.all_iff_forall_prop.mp rfl),
    hasCrlf_append_left (List.all_iff_forall_prop.mp rfl), (hasCrlf_utf8Lossy _ _ (Nat.le_refl _)).1]

end Echo

/-! ## Section 3: Sessions and answers -/

/-- What the shared state can answer: values and keys are byte strings, and the text of a
    checkpoint's I/O error is one line. -/
def Effect.Answers (e : Effect) (r : e.Result) : Prop :=
  match e, r with
  | .read _ _ out, r | .upsert _ _ out, r | .rmw _ _ out, r =>
    out.bytes.length < 2 ^ 63 → r.2.bytes.length < 2 ^ 63
  | .scanLive _, keys => keys.length < 2 ^ 63 ∧ ∀ k ∈ keys, k.length < 2 ^ 63
  | .checkpoint, result => ∀ e, result = some e → HasCrlf e = false
  | _, _ => True

/-- `cmd_getex` reads `args[1]` without a guard. -/
def panics (args : List Bytes) : Bool := decide (commandOf args = some .getex ∧ args.length = 1)

/-- The command is replied to with one value when it is executed. -/
def CleanName (args : List Bytes) : Prop := HasCrlf (args.headD []) = false ∧ panics args = false

instance (args : List Bytes) : Decidable (CleanName args) := inferInstanceAs (Decidable (_ ∧ _))

/-- The arguments are byte strings in a vector. -/
def ArgsOk (args : List Bytes) : Prop := args.length < 2 ^ 63 ∧ ∀ a ∈ args, a.length < 2 ^ 63

/-- The output scratch is a byte string, and a queue satisfies `P`. -/
def SessionOk (P : List Bytes → Prop) (s : RespSession) : Prop :=
  s.outScratch.bytes.length < 2 ^ 63 ∧ (s.txn.queued = [] ∨ P s.txn.queued)

section Handlers

open Handler

variable {P : List Bytes → Prop}

/-- `h` replies with one value. -/
abbrev Replies1 (P : List Bytes → Prop) (h : Handler Bytes) : Prop :=
  h.Ensures (SessionOk P) Effect.Answers OneReply

abbrev Runs1 (P : List Bytes → Prop) {α : Type} (h : Handler α) : Prop :=
  h.Ensures (SessionOk P) Effect.Answers fun _ => True

theorem runs_read (key : Bytes) (input : StringInput) : Runs1 P (read key input) :=
  ensures_get.bind fun _ hs => (ensures_perform (.read _ _ _)).bind fun _ hr =>
    (ensures_set ⟨hr hs.1, hs.2⟩).bind fun _ _ => ensures_pure trivial

theorem runs_upsert (key : Bytes) (input : StringInput) : Runs1 P (upsert key input) :=
  ensures_get.bind fun _ hs => (ensures_perform (.upsert _ _ _)).bind fun _ hr =>
    (ensures_set ⟨hr hs.1, hs.2⟩).bind fun _ _ => ensures_pure trivial

theorem runs_rmw (key : Bytes) (input : StringInput) : Runs1 P (rmw key input) :=
  ensures_get.bind fun _ hs => (ensures_perform (.rmw _ _ _)).bind fun _ hr =>
    (ensures_set ⟨hr hs.1, hs.2⟩).bind fun _ _ => ensures_pure trivial

theorem runs_perform (e : Effect) : Runs1 P (perform e) := (ensures_perform e).imp fun _ _ => trivial

theorem runs_clearBytes : Runs1 P clearBytes :=
  ensures_modify fun _ hs => ⟨by simp, hs.2⟩

theorem runs_discard : Runs1 P discard := ensures_modify fun _ hs => ⟨hs.1, .inl rfl⟩

theorem runs_logWrite (raw : Bytes) : Runs1 P (logWrite raw) :=
  ensures_get.bind fun _ _ => ensures_ite (fun _ => ensures_pure trivial)
    fun _ => ensures_ite (fun _ => runs_perform (.enqueue _)) fun _ => ensures_pure trivial

theorem runs_afterWrite (key raw : Bytes) : Runs1 P (afterWrite key raw) :=
  (runs_perform (.bump _)).bind fun _ _ => runs_logWrite raw

theorem runs_logBracket (op : AofOp) : Runs1 P (logBracket op) :=
  ensures_get.bind fun _ _ => ensures_ite (fun _ => runs_perform (.enqueue _))
    fun _ => ensures_pure trivial

/-! ### String commands -/

theorem replies_cmdGet (key : Bytes) : Replies1 P (cmdGet key) :=
  ensures_get.bind fun _ _ => (runs_read key _).bind fun _ _ =>
    ensures_ite (fun _ => ensures_get.bind fun _ hs => ensures_pure (oneReply_bulk hs.1))
      fun _ => ensures_pure oneReply_nullBulk

theorem replies_cmdReadInt (key : Bytes) (op : StringOp) : Replies1 P (cmdReadInt key op) :=
  ensures_get.bind fun _ _ => (runs_read key _).bind fun _ _ =>
    ensures_ite (fun _ => ensures_get.bind fun _ _ => ensures_pure (oneReply_integer _))
      fun _ => ensures_pure (oneReply_integer _)

theorem replies_cmdGetrange (key start stop : Bytes) : Replies1 P (cmdGetrange key start stop) := by
  unfold cmdGetrange
  split
  · exact ensures_get.bind fun _ _ => (runs_read key _).bind fun _ _ =>
      ensures_ite (fun _ => ensures_get.bind fun _ hs => ensures_pure (oneReply_bulk hs.1))
        fun _ => ensures_pure (oneReply_bulk (by decide))
  · exact ensures_pure (oneReply_error (by decide))

theorem setOptsLoop_error {nowMs : Int64} {args : List Bytes} {o : SetOpts} {e : String}
    (h : setOptsLoop nowMs args o = .error e) : e = SYNTAX_ERROR ∨ e = NOT_AN_INTEGER := by
  fun_induction setOptsLoop nowMs args o <;> simp_all

theorem parseSetOpts_error {nowMs : Int64} {args : List Bytes} {e : String}
    (h : parseSetOpts args nowMs = .error e) : e = SYNTAX_ERROR ∨ e = NOT_AN_INTEGER := by
  unfold parseSetOpts at h
  split at h
  · rename_i e' heq
    cases h
    exact setOptsLoop_error heq
  · split at h
    · cases h
      exact .inl rfl
    · cases h

theorem getexLoop_error {nowMs e₀ : Int64} {args : List Bytes} {e : String}
    (h : getexLoop nowMs args e₀ = .error e) : e = SYNTAX_ERROR ∨ e = NOT_AN_INTEGER := by
  fun_induction getexLoop nowMs args e₀ <;> simp_all

theorem oneReply_option_error {e : String} (h : e = SYNTAX_ERROR ∨ e = NOT_AN_INTEGER) :
    OneReply (Resp.error e) := by
  rcases h with rfl | rfl
  · exact oneReply_error (by decide)
  · exact oneReply_error (by decide)

theorem replies_cmdSet (raw : Bytes) (args : List Bytes) : Replies1 P (cmdSet raw args) := by
  unfold cmdSet
  split
  · rename_i name key value rest
    refine ensures_get.bind fun s _ => ?_
    dsimp only
    split
    · rename_i e he
      exact ensures_pure (oneReply_option_error (parseSetOpts_error he))
    · rename_i options _
      have hreply : ∀ (status : Tsavorite.Status) (f : RespSession → Bytes),
          (∀ s, SessionOk P s → OneReply (f s)) → Replies1 P (do
          let s ← get
          if status.isUpdated then
            afterWrite key raw
          return f s) :=
        fun _ f hf => ensures_get.bind fun s hs =>
          ensures_guarded (runs_afterWrite key raw) fun _ => ensures_pure (hf s hs)
      have hone : ∀ (status : Tsavorite.Status) (s : RespSession), SessionOk P s → OneReply
          (if options.get then
            if s.outScratch.hasBytes then Resp.bulk s.outScratch.bytes else NULL_BULK
          else if options.op = .set ∨ status.isUpdated then OK else NULL_BULK) := by
        intro status s hs
        split
        · split
          · exact oneReply_bulk hs.1
          · exact oneReply_nullBulk
        · split
          · exact oneReply_ok
          · exact oneReply_nullBulk
      exact ensures_ite
        (fun _ => (runs_upsert key _).bind fun status _ => hreply status _ (hone status))
        fun _ => (runs_rmw key _).bind fun status _ => hreply status _ (hone status)
  · exact ensures_pure (oneReply_error (by decide))

theorem replies_cmdSetnx (raw key value : Bytes) : Replies1 P (cmdSetnx raw key value) :=
  ensures_get.bind fun _ _ => (runs_rmw key _).bind fun _ _ =>
    ensures_guarded (runs_afterWrite key raw) fun _ => ensures_pure (oneReply_integer _)

theorem replies_cmdSetex (raw key time value : Bytes) (ms : Bool) :
    Replies1 P (cmdSetex raw key time value ms) := by
  unfold cmdSetex
  split
  · exact ensures_pure (oneReply_error (by decide))
  · exact ensures_get.bind fun _ _ => (runs_upsert key _).bind fun _ _ =>
      (runs_afterWrite key raw).bind fun _ _ => ensures_pure oneReply_ok

theorem oneReply_output {s : RespSession} (hs : SessionOk P s) :
    OneReply (if s.outScratch.hasBytes then Resp.bulk s.outScratch.bytes else NULL_BULK) := by
  split
  · exact oneReply_bulk hs.1
  · exact oneReply_nullBulk

theorem replies_cmdGetset (raw key value : Bytes) : Replies1 P (cmdGetset raw key value) :=
  ensures_get.bind fun _ _ => (runs_rmw key _).bind fun _ _ => ensures_get.bind fun _ hs =>
    (runs_afterWrite key raw).bind fun _ _ => ensures_pure (oneReply_output hs)

theorem replies_cmdGetdel (raw key : Bytes) : Replies1 P (cmdGetdel raw key) :=
  runs_clearBytes.bind fun _ _ => ensures_get.bind fun _ _ => (runs_rmw key _).bind fun _ _ =>
    ensures_ite
      (fun _ => ensures_get.bind fun _ hs => (runs_afterWrite key raw).bind fun _ _ =>
        ensures_pure (oneReply_bulk hs.1))
      fun _ => ensures_pure oneReply_nullBulk

theorem replies_cmdGetex (raw key : Bytes) (opts : List Bytes) :
    Replies1 P (cmdGetex raw key opts) := by
  unfold cmdGetex
  refine ensures_ite (fun _ => replies_cmdGet key) fun _ => ensures_get.bind fun _ _ => ?_
  dsimp only
  split
  · rename_i e he
    exact ensures_pure (oneReply_option_error (getexLoop_error he))
  · exact runs_clearBytes.bind fun _ _ => (runs_rmw key _).bind fun _ _ =>
      ensures_ite
        (fun _ => ensures_get.bind fun _ hs => (runs_afterWrite key raw).bind fun _ _ =>
          ensures_pure (oneReply_bulk hs.1))
        fun _ => ensures_pure oneReply_nullBulk

theorem replies_cmdIncr (raw key : Bytes) (delta : Int64) : Replies1 P (cmdIncr raw key delta) :=
  ensures_get.bind fun _ _ => (runs_rmw key _).bind fun _ _ =>
    ensures_ite
      (fun _ => ensures_get.bind fun _ _ => (runs_afterWrite key raw).bind fun _ _ =>
        ensures_pure (oneReply_integer _))
      fun _ => ensures_pure (oneReply_error (by decide))

theorem replies_cmdIncrBy (raw : Bytes) (negate : Bool) (key d : Bytes) :
    Replies1 P (cmdIncrBy raw negate key d) := by
  unfold cmdIncrBy
  split
  · exact replies_cmdIncr raw key _
  · exact ensures_pure (oneReply_error (by decide))

theorem replies_cmdRmwInt (raw key : Bytes) (op : StringOp) (operand : Bytes) (delta : Int64) :
    Replies1 P (cmdRmwInt raw key op operand delta) :=
  ensures_get.bind fun _ _ => (runs_rmw key _).bind fun _ _ =>
    ensures_ite
      (fun _ => ensures_get.bind fun _ _ => (runs_afterWrite key raw).bind fun _ _ =>
        ensures_pure (oneReply_integer _))
      fun _ => ensures_pure (oneReply_integer _)

theorem replies_cmdSetrange (raw key offset value : Bytes) :
    Replies1 P (cmdSetrange raw key offset value) := by
  unfold cmdSetrange
  split
  · exact ensures_pure (oneReply_error (by decide))
  · exact replies_cmdRmwInt raw key _ _ _

theorem runs_msetLoop (pairs : List Bytes) : Runs1 P (msetLoop pairs) := by
  fun_induction everyOther pairs with
  | case1 key value rest ih =>
    exact ensures_get.bind fun _ _ => (runs_upsert key _).bind fun _ _ =>
      (runs_perform (.bump _)).bind fun _ _ => ih
  | case2 key => exact ensures_pure trivial
  | case3 => exact ensures_pure trivial

theorem replies_mgetLoop (keys : List Bytes) :
    (mgetLoop keys).Ensures (SessionOk P) Effect.Answers (ManyReplies keys.length) := by
  induction keys with
  | nil => exact ensures_pure manyReplies_nil
  | cons key rest ih =>
    exact (replies_cmdGet key).bind fun _ hone => ih.bind fun _ hmany =>
      ensures_pure (hone.cons hmany)

theorem replies_cmdMget {keys : List Bytes} (h : keys.length < 2 ^ 63) :
    Replies1 P (cmdMget keys) :=
  (replies_mgetLoop keys).bind fun _ hmany => ensures_pure (hmany.array h)

/-! ### Generic commands -/

theorem runs_delLoop (keys : List Bytes) : Runs1 P (delLoop keys) := by
  induction keys with
  | nil => exact ensures_pure trivial
  | cons key rest ih =>
    refine (runs_perform (.delete _)).bind fun (_ : Tsavorite.Status) _ => ?_
    refine ensures_ite (fun _ => (runs_perform (.bump _)).bind fun _ _ => ?_) fun _ => ih
    exact ih.bind fun _ _ => ensures_pure trivial

theorem replies_cmdDel (raw : Bytes) (keys : List Bytes) : Replies1 P (cmdDel raw keys) :=
  (runs_delLoop keys).bind fun _ _ =>
    ensures_guarded (runs_logWrite raw) fun _ => ensures_pure (oneReply_integer _)

theorem runs_existsLoop (keys : List Bytes) : Runs1 P (existsLoop keys) := by
  induction keys with
  | nil => exact ensures_pure trivial
  | cons key rest ih =>
    exact ensures_get.bind fun _ _ => (runs_read key _).bind fun _ _ =>
      ih.bind fun _ _ => ensures_pure trivial

theorem replies_cmdExpire (raw key time : Bytes) (unit : Int64) (at_ : Bool) :
    Replies1 P (cmdExpire raw key time unit at_) := by
  unfold cmdExpire
  split
  · exact ensures_pure (oneReply_error (by decide))
  · exact ensures_get.bind fun _ _ => (runs_rmw key _).bind fun _ _ =>
      ensures_guarded (runs_afterWrite key raw) fun _ => ensures_pure (oneReply_integer _)

theorem replies_cmdTtl (key : Bytes) (ms : Bool) : Replies1 P (cmdTtl key ms) :=
  ensures_get.bind fun _ _ => (runs_read key _).bind fun _ _ =>
    ensures_ite (fun _ => ensures_get.bind fun _ _ => ensures_pure (oneReply_integer _))
      fun _ => ensures_pure (oneReply_integer _)

theorem replies_cmdPersist (raw key : Bytes) : Replies1 P (cmdPersist raw key) :=
  ensures_get.bind fun _ _ => (runs_rmw key _).bind fun _ _ => ensures_get.bind fun _ _ =>
    ensures_guarded (runs_afterWrite key raw) fun _ => ensures_pure (oneReply_integer _)

theorem replies_cmdType (key : Bytes) : Replies1 P (cmdType key) := by
  refine ensures_get.bind fun _ _ => (runs_read key _).bind fun _ _ => ensures_pure ?_
  split
  · exact oneReply_simple (by decide)
  · exact oneReply_simple (by decide)

theorem manyReplies_bulks {keys : List Bytes} (h : ∀ k ∈ keys, k.length < 2 ^ 63) :
    ManyReplies keys.length (keys.map Resp.bulk).flatten := by
  induction keys with
  | nil => exact manyReplies_nil
  | cons key rest ih =>
    rw [List.map_cons, List.flatten_cons]
    exact (oneReply_bulk (h key List.mem_cons_self)).cons
      (ih fun k hk => h k (List.mem_cons_of_mem _ hk))

theorem replies_cmdKeys (pattern : Bytes) : Replies1 P (cmdKeys pattern) :=
  (ensures_perform (.scanLive _)).bind fun _ hr =>
    ensures_pure ((manyReplies_bulks hr.2).array hr.1)

theorem replies_cmdScan (options : List Bytes) : Replies1 P (cmdScan options) := by
  refine (replies_cmdKeys _).bind fun keys hkeys => ensures_pure ?_
  have hpair : ManyReplies 2 (Resp.bulk (ascii "0") ++ (keys ++ [])) :=
    (oneReply_bulk (by decide)).cons (hkeys.cons manyReplies_nil)
  rw [List.append_assoc, ← List.append_nil keys]
  exact hpair.array (by decide)

theorem oneReply_cmdHello : OneReply cmdHello := by
  refine ⟨.array [.bulk (ascii "server"), .bulk (ascii "mini-garnet"), .bulk (ascii "version"),
    .bulk (ascii "0.1.0"), .bulk (ascii "proto"), .int 2], ?_, by decide⟩
  refine .array (by decide) ?_
  simp only [List.mem_cons, List.not_mem_nil, or_false, forall_eq_or_imp, forall_eq]
  exact ⟨.bulk (by decide), .bulk (by decide), .bulk (by decide), .bulk (by decide),
    .bulk (by decide), .int _⟩

/-! ### Transactions -/

theorem replies_cmdMulti : Replies1 P cmdMulti := by
  refine ensures_get.bind fun s hs => ensures_ite (fun _ => ?_) fun _ => ?_
  · exact ensures_pure (oneReply_error (by decide))
  · exact (ensures_set ⟨hs.1, .inl rfl⟩).bind fun _ _ => ensures_pure oneReply_ok

theorem runs_watchLoop (keys : List Bytes) : Runs1 P (watchLoop keys) := by
  induction keys with
  | nil => exact ensures_pure trivial
  | cons key rest ih =>
    refine (runs_perform (.slotVersion _)).bind fun _ _ => ?_
    refine (ensures_modify ?_).bind fun _ _ => ih
    intro s hs
    exact hs

theorem replies_cmdWatch (keys : List Bytes) : Replies1 P (cmdWatch keys) :=
  ensures_get.bind fun _ _ => ensures_ite (fun _ => ensures_pure (oneReply_error (by decide)))
    fun _ => (runs_watchLoop keys).bind fun _ _ => ensures_pure oneReply_ok

theorem replies_cmdDiscard : Replies1 P cmdDiscard :=
  ensures_get.bind fun _ _ =>
    ensures_ite (fun _ => runs_discard.bind fun _ _ => ensures_pure oneReply_ok)
      fun _ => ensures_pure (oneReply_error (by decide))

theorem replies_cmdSave : Replies1 P cmdSave := by
  refine (ensures_perform .checkpoint).bind fun r hr => ?_
  cases r with
  | none => exact ensures_pure oneReply_ok
  | some e =>
    refine ensures_pure (oneReply_errorBytes ?_)
    rw [hasCrlf_append_left (List.all_iff_forall_prop.mp rfl)]
    exact hr e rfl

end Handlers

/-! ## Section 4: Dispatch -/

/-- The names of the source have no CRLF in them. -/
theorem hasCrlf_of_commandOf {args : List Bytes} {cmd : CommandName}
    (h : commandOf args = some cmd) : HasCrlf (args.headD []) = false := by
  unfold commandOf CommandName.ofBytes at h
  obtain ⟨x, hx, -⟩ := Option.map_eq_some_iff.mp h
  have hname : ascii x.1 = commandName (args.headD []) := by simpa using List.find?_some hx
  have hall : ∀ x ∈ commandNames, (ascii x.1).length < MAX_CMD_NAME ∧ LF ∉ ascii x.1 := by decide
  obtain ⟨hlen, hlf⟩ := hall x (List.mem_of_find?_eq_some hx)
  rw [hname] at hlen hlf
  generalize args.headD [] = name at hlen hlf
  unfold commandName at hlen hlf
  rw [List.length_map, List.length_take] at hlen
  rw [List.take_of_length_le (by omega)] at hlf
  apply hasCrlf_of_no_lf
  rintro c hc rfl
  exact hlf (List.mem_map.mpr ⟨LF, hc, rfl⟩)

section Dispatch

open Handler

variable {P : List Bytes → Prop} {raw : Bytes} {args : List Bytes}

section Guards

variable (hname : HasCrlf (args.headD []) = false)
include hname

theorem replies_arity2 {f : Bytes → Handler Bytes} (h : ∀ a ∈ args, Replies1 P (f a)) :
    Replies1 P (arity2 args f) := by
  unfold arity2
  split
  · exact h _ (by simp)
  · exact ensures_pure (oneReply_unknownCommand_iff.mpr hname)

theorem replies_arity3 {f : Bytes → Bytes → Handler Bytes} (h : ∀ a b, Replies1 P (f a b)) :
    Replies1 P (arity3 args f) := by
  unfold arity3
  split
  · exact h _ _
  · exact ensures_pure (oneReply_unknownCommand_iff.mpr hname)

theorem replies_arity4 {f : Bytes → Bytes → Bytes → Handler Bytes}
    (h : ∀ a b c, Replies1 P (f a b c)) : Replies1 P (arity4 args f) := by
  unfold arity4
  split
  · exact h _ _ _
  · exact ensures_pure (oneReply_unknownCommand_iff.mpr hname)

theorem replies_arityMany {f : List Bytes → Handler Bytes}
    (h : ∀ rest, rest.length ≤ args.length → Replies1 P (f rest)) :
    Replies1 P (arityMany args f) := by
  unfold arityMany
  split
  · exact h _ (by simp)
  · exact ensures_pure (oneReply_unknownCommand_iff.mpr hname)

end Guards

theorem oneReply_cmdPing (h : ArgsOk args) : OneReply (cmdPing args) := by
  unfold cmdPing
  split
  · exact oneReply_bulk (h.2 _ (by simp))
  · exact ⟨.simple (ascii "PONG"), .simple (by decide), by decide⟩

theorem replies_execNamed {cmd : CommandName} (hcmd : commandOf args = some cmd)
    (h : ArgsOk args) : Replies1 P (execNamed cmd raw args) := by
  have hname := hasCrlf_of_commandOf hcmd
  have hunknown : OneReply (unknownCommand args) := oneReply_unknownCommand_iff.mpr hname
  have hempty : OneReply EMPTY_ARRAY := ⟨.array [], .array (by decide) (by simp), by decide⟩
  cases cmd with
  | ping => exact ensures_pure (oneReply_cmdPing h)
  | echo => exact replies_arity2 hname fun a ha => ensures_pure (oneReply_bulk (h.2 a ha))
  | quit => exact ensures_pure oneReply_ok
  | select => exact ensures_pure oneReply_ok
  | hello => exact ensures_pure oneReply_cmdHello
  | command => exact ensures_pure hempty
  | config => exact ensures_pure hempty
  | client => exact ensures_pure oneReply_ok
  | info => exact ensures_pure (oneReply_bulk (by decide))
  | reset => exact runs_discard.bind fun _ _ => ensures_pure (oneReply_simple (by decide))
  | dbsize => exact (runs_perform .countLive).bind fun _ _ => ensures_pure (oneReply_integer _)
  | flushdb => exact (runs_perform .clear).bind fun _ _ => ensures_pure oneReply_ok
  | flushall => exact (runs_perform .clear).bind fun _ _ => ensures_pure oneReply_ok
  | get => exact replies_arity2 hname fun a _ => replies_cmdGet a
  | set => exact replies_cmdSet raw args
  | setnx => exact replies_arity3 hname fun a b => replies_cmdSetnx raw a b
  | setex => exact replies_arity4 hname fun a b c => replies_cmdSetex raw a b c _
  | psetex => exact replies_arity4 hname fun a b c => replies_cmdSetex raw a b c _
  | getset => exact replies_arity3 hname fun a b => replies_cmdGetset raw a b
  | getdel => exact replies_arity2 hname fun a _ => replies_cmdGetdel raw a
  | getex =>
    exact replies_arityMany hname (f := fun rest => cmdGetex raw (rest.headD []) (rest.drop 1))
      fun rest _ => replies_cmdGetex raw _ _
  | append => exact replies_arity3 hname fun a b => replies_cmdRmwInt raw a _ b 0
  | strlen => exact replies_arity2 hname fun a _ => replies_cmdReadInt a _
  | getrange => exact replies_arity4 hname fun a b c => replies_cmdGetrange a b c
  | substr => exact replies_arity4 hname fun a b c => replies_cmdGetrange a b c
  | setrange => exact replies_arity4 hname fun a b c => replies_cmdSetrange raw a b c
  | incr => exact replies_arity2 hname fun a _ => replies_cmdIncr raw a _
  | decr => exact replies_arity2 hname fun a _ => replies_cmdIncr raw a _
  | incrby => exact replies_arity3 hname fun a b => replies_cmdIncrBy raw _ a b
  | decrby => exact replies_arity3 hname fun a b => replies_cmdIncrBy raw _ a b
  | mset =>
    exact ensures_ite (fun _ => (runs_msetLoop _).bind fun _ _ => (runs_logWrite raw).bind
      fun _ _ => ensures_pure oneReply_ok) fun _ => ensures_pure hunknown
  | mget =>
    exact replies_arityMany hname fun rest hlen => replies_cmdMget (Nat.lt_of_le_of_lt hlen h.1)
  | del => exact replies_arityMany hname fun rest _ => replies_cmdDel raw rest
  | unlink => exact replies_arityMany hname fun rest _ => replies_cmdDel raw rest
  | exists_ =>
    exact replies_arityMany hname fun rest _ =>
      (runs_existsLoop rest).bind fun _ _ => ensures_pure (oneReply_integer _)
  | expire => exact replies_arity3 hname fun a b => replies_cmdExpire raw a b _ _
  | pexpire => exact replies_arity3 hname fun a b => replies_cmdExpire raw a b _ _
  | expireat => exact replies_arity3 hname fun a b => replies_cmdExpire raw a b _ _
  | pexpireat => exact replies_arity3 hname fun a b => replies_cmdExpire raw a b _ _
  | ttl => exact replies_arity2 hname fun a _ => replies_cmdTtl a _
  | pttl => exact replies_arity2 hname fun a _ => replies_cmdTtl a _
  | persist => exact replies_arity2 hname fun a _ => replies_cmdPersist raw a
  | type => exact replies_arity2 hname fun a _ => replies_cmdType a
  | keys => exact replies_arity2 hname fun a _ => replies_cmdKeys a
  | scan =>
    exact replies_arityMany hname (f := fun rest => cmdScan (rest.drop 1))
      fun rest _ => replies_cmdScan _
  | multi => exact replies_cmdMulti
  | discard => exact replies_cmdDiscard
  | watch => exact replies_arityMany hname fun rest _ => replies_cmdWatch rest
  | unwatch =>
    intro s hs
    exact ⟨oneReply_ok, hs⟩
  | save => exact replies_cmdSave
  | bgsave => exact replies_cmdSave
  | bgrewriteaof => exact ensures_pure oneReply_ok
  | lastsave => exact (runs_perform .lastSaveMs).bind fun _ _ => ensures_pure (oneReply_integer _)
  | exec => exact ensures_pure (oneReply_error (by decide))
  | subscribe => exact ensures_pure hunknown
  | unsubscribe => exact ensures_pure hunknown
  | psubscribe => exact ensures_pure hunknown

theorem replies_execBasic (hname : HasCrlf (args.headD []) = false) (h : ArgsOk args) :
    Replies1 P (execBasic raw args) := by
  unfold execBasic
  split
  · rename_i cmd hcmd
    exact replies_execNamed hcmd h
  · exact ensures_pure (oneReply_unknownCommand_iff.mpr hname)

/-- A queued command that is replied to with one value when EXEC executes it. -/
def QueuedOk (q : Bytes) : Prop :=
  ∀ args, parseRanges q = some args → CleanName args ∧ ArgsOk args

theorem replies_execQueued (queued : List Bytes) (h : ∀ q ∈ queued, QueuedOk q) :
    (execQueued queued).Ensures (SessionOk P) Effect.Answers (ManyReplies queued.length) := by
  induction queued with
  | nil => exact ensures_pure manyReplies_nil
  | cons q rest ih =>
    have hrest := ih fun q hq => h q (List.mem_cons_of_mem _ hq)
    have hjoin : ∀ reply : Bytes, OneReply reply →
        (do return reply ++ (← execQueued rest) : Handler Bytes).Ensures (SessionOk P)
          Effect.Answers (ManyReplies (rest.length + 1)) :=
      fun _ hone => hrest.bind fun _ hmany => ensures_pure (hone.cons hmany)
    unfold execQueued
    dsimp only
    split
    · rename_i args hargs
      obtain ⟨hclean, hok⟩ := h q List.mem_cons_self args hargs
      exact (replies_execBasic hclean.1 hok).bind hjoin
    · exact (ensures_pure (oneReply_error (by decide))).bind hjoin

theorem runs_conflictLoop (watches : List (ℕ × ℕ)) : Runs1 P (conflictLoop watches) := by
  induction watches with
  | nil => exact ensures_pure trivial
  | cons w rest ih =>
    refine (runs_perform (.versionAt _)).bind fun (cur : ℕ) _ => ?_
    exact ensures_ite (fun _ => ensures_pure trivial) fun _ => ih

/-- EXEC after the watch check. -/
def execBody (queued : List Bytes) : Handler Bytes := do
  modify fun s => { s with txn := { s.txn with inMulti := false, queued := [], watches := [] } }
  let replay := (← get).replay
  if !replay then
    let _ ← perform (.txnLock (lockKeys queued))
  logBracket .txnStart
  let replies ← execQueued queued
  if !replay then
    let _ ← perform .txnUnlock
  logBracket .txnCommit
  return arrayHeader queued.length ++ replies

/-- EXEC once it has read the transaction state. -/
def execChecked (txn : TxnState) : Handler Bytes := do
  if ¬ txn.inMulti then return Resp.error "ERR EXEC without MULTI"
  else if txn.dirty then
    discard
    return Resp.error "EXECABORT Transaction discarded because of previous errors."
  else if ← conflictLoop txn.watches then
    discard
    return NULL_ARRAY
  else execBody txn.queued

theorem cmdExec_eq (s : RespSession) : cmdExec s = execChecked s.txn s := rfl

theorem replies_execBody {queued : List Bytes} (hqueue : ∀ q ∈ queued, QueuedOk q)
    (hlen : queued.length < 2 ^ 63) : Replies1 P (execBody queued) := by
  refine (ensures_modify fun _ hs => ⟨hs.1, .inl rfl⟩).bind fun _ _ => ?_
  refine ensures_get.bind fun _ _ => ?_
  refine ensures_guarded (runs_perform (.txnLock _)) fun _ => ?_
  refine (runs_logBracket _).bind fun _ _ => ?_
  refine (replies_execQueued _ hqueue).bind fun replies hmany => ?_
  refine ensures_guarded (runs_perform .txnUnlock) fun _ => ?_
  exact (runs_logBracket _).bind fun _ _ => ensures_pure (hmany.array hlen)

end Dispatch

end Garnet
