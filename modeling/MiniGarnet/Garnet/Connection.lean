import MiniGarnet.Garnet.Handlers

/-! # Connections

    `handle_connection`: bytes arrive in reads of any size, complete commands
    are dispatched out of the receive buffer, and the rest is moved to its
    front.  The buffer doubles when an incomplete command fills it.

    What is dispatched, and where the connection stops, depends only on the
    bytes of the stream: every cut of it comes to `commandStream`, which
    parses the stream itself through a window of `MAX_RECV` bytes.  What
    `dispatch` does with a command shows here only in whether the connection
    is closed (`dispatch_action`).
-/

namespace Garnet

open Resp

/-! ## Section 1: The loop -/

def INITIAL_RECV : ℕ := 64 * 1024

def MAX_RECV : ℕ := 512 * 1024 * 1024

/-- A call of `dispatch`: the raw bytes and the arguments. -/
abbrev Dispatched : Type := Bytes × List Bytes

/-- Why a connection ends. -/
inductive Stop where
  | endOfInput
  | quit
  | protocolError
  /-- `command too large` -/
  | tooLarge
  deriving DecidableEq, Repr

/-- How the commands of a batch end. -/
inductive BatchEnd where
  /-- An incomplete command starts at `readHead`. -/
  | incomplete (readHead : ℕ)
  | closed
  | malformed
  deriving DecidableEq, Repr

/-- The inner loop, from `readHead` on; the first argument bounds the commands. -/
def batch (buf : Bytes) : ℕ → ℕ → List Dispatched × BatchEnd
  | 0, readHead => ([], .incomplete readHead)
  | n + 1, readHead =>
    match parseCommand buf readHead with
    | .ok none => ([], .incomplete readHead)
    | .error _ => ([], .malformed)
    | .ok (some (slices, next)) =>
      let argv := slices.map fun a => a.bytes buf
      let raw := (buf.take next).drop readHead
      if actionOf argv = .close then ([(raw, argv)], .closed)
      else
        let (rest, stop) := batch buf n next
        ((raw, argv) :: rest, stop)

/-- The loop of `handle_connection`: `cap` is the length of the receive buffer, `recv` its valid
    bytes, and the pieces are what arrives.  A read takes what fits of the next piece.  The first
    argument bounds the reads. -/
def connectionLoop : ℕ → ℕ → Bytes → List Bytes → Option (List Dispatched × Stop)
  | 0, _, _, _ => none
  | n + 1, cap, recv, pieces =>
    if recv.length = cap ∧ MAX_RECV ≤ cap then some ([], .tooLarge)
    else
      let cap := if recv.length = cap then min (cap * 2) MAX_RECV else cap
      match pieces with
      | [] => some ([], .endOfInput)
      | piece :: pieces =>
        let k := cap - recv.length
        let recv := recv ++ piece.take k
        let pieces := if k < piece.length then piece.drop k :: pieces else pieces
        match batch recv (recv.length + 1) 0 with
        | (ds, .closed) => some (ds, .quit)
        | (ds, .malformed) => some (ds, .protocolError)
        | (ds, .incomplete readHead) =>
          (connectionLoop n cap (recv.drop readHead) pieces).map fun (ds', stop) => (ds ++ ds', stop)

/-- What a connection dispatches, and why it ends. -/
def handleConnection (pieces : List Bytes) : Option (List Dispatched × Stop) :=
  connectionLoop (pieces.flatten.length + 1) INITIAL_RECV [] pieces

/-- The commands of a stream; the first argument bounds their number. -/
def streamLoop : ℕ → Bytes → List Dispatched × Stop
  | 0, _ => ([], .endOfInput)
  | n + 1, stream =>
    let window := stream.take MAX_RECV
    match parseCommand window 0 with
    | .ok none => ([], if MAX_RECV ≤ stream.length then .tooLarge else .endOfInput)
    | .error _ => ([], .protocolError)
    | .ok (some (slices, next)) =>
      let argv := slices.map fun a => a.bytes window
      if actionOf argv = .close then ([(window.take next, argv)], .quit)
      else
        let (rest, stop) := streamLoop n (stream.drop next)
        ((window.take next, argv) :: rest, stop)

/-- What a byte stream stands for, without a cut. -/
def commandStream (stream : Bytes) : List Dispatched × Stop := streamLoop (stream.length + 1) stream

/-! ## Section 2: Longer buffers -/

section Longer

variable {buf : Bytes} {pos : ℕ}

theorem findCrlfIn_append {l : Bytes} {i cr : ℕ} (h : findCrlfIn l i = some cr) (more : Bytes) :
    findCrlfIn (l ++ more) i = some cr ∧ i ≤ cr ∧ cr + 2 ≤ i + l.length := by
  induction l generalizing i with
  | nil => cases h
  | cons a l ih =>
    cases l with
    | nil => cases h
    | cons b rest =>
      simp only [findCrlfIn] at h
      split at h
      · rename_i hcrlf
        obtain rfl := Option.some.inj h
        refine ⟨?_, Nat.le_refl _, by simp only [List.length_cons]; omega⟩
        simp only [List.cons_append, findCrlfIn, if_pos hcrlf]
      · rename_i hcrlf
        obtain ⟨hmore, hle, hlen⟩ := ih h
        simp only [List.length_cons] at hlen ⊢
        refine ⟨?_, by omega, by omega⟩
        simp only [List.cons_append, findCrlfIn, if_neg hcrlf]
        exact hmore

theorem findCrlf_append {cr : ℕ} (h : findCrlf buf pos = some cr) (more : Bytes) :
    findCrlf (buf ++ more) pos = some cr ∧ pos ≤ cr ∧ cr + 2 ≤ buf.length := by
  have hle : pos ≤ buf.length := by
    by_contra hgt
    unfold findCrlf at h
    rw [List.drop_eq_nil_of_le (by omega)] at h
    cases h
  obtain ⟨hmore, hpos, hlen⟩ := findCrlfIn_append h more
  rw [List.length_drop] at hlen
  unfold findCrlf
  rw [List.drop_append_of_le_length hle]
  exact ⟨hmore, hpos, by omega⟩

theorem getElem?_append_some {c : UInt8} (h : buf[pos]? = some c) (more : Bytes) :
    (buf ++ more)[pos]? = some c ∧ pos < buf.length := by
  obtain ⟨hlt, -⟩ := List.getElem?_eq_some_iff.mp h
  rw [List.getElem?_append_left hlt]
  exact ⟨h, hlt⟩

/-- The bytes between two offsets are those of the shorter buffer. -/
theorem take_drop_append {n : ℕ} (hn : n ≤ buf.length) (more : Bytes) (i : ℕ) :
    ((buf ++ more).take n).drop i = (buf.take n).drop i := by
  rw [List.take_append_of_le_length hn]

/-- The result of the loop over the bulk strings stands when more bytes arrive. -/
theorem parseBulks_append (more : Bytes) (n cur : ℕ) (args : List ArgSlice)
    (h : parseBulks buf n cur args ≠ .ok none) :
    parseBulks (buf ++ more) n cur args = parseBulks buf n cur args := by
  induction n generalizing cur args with
  | zero => rfl
  | succ n ih =>
    rw [parseBulks] at h ⊢
    rw [parseBulks]
    cases hc : buf[cur]? with
    | none =>
      rw [hc] at h
      exact absurd rfl h
    | some c =>
      rw [hc] at h
      rw [(getElem?_append_some hc more).1]
      simp only at h ⊢
      split
      · rfl
      · rename_i hdollar
        rw [if_neg hdollar] at h
        cases hcr : findCrlf buf (cur + 1) with
        | none =>
          rw [hcr] at h
          exact absurd rfl h
        | some cr =>
          obtain ⟨hmore, -, hlen⟩ := findCrlf_append hcr more
          rw [hcr] at h
          rw [hmore]
          simp only at h ⊢
          rw [take_drop_append (by omega)]
          cases hint : parseInt ((buf.take cr).drop (cur + 1)) with
          | error e => rfl
          | ok len =>
            rw [hint] at h
            simp only at h ⊢
            split
            · rfl
            · rename_i hneg
              rw [if_neg hneg] at h
              by_cases hshort : buf.length < cr + 2 + len.toNat + 2
              · rw [if_pos hshort] at h
                exact absurd rfl h
              · rw [if_neg hshort] at h ⊢
                have hlonger : ¬ (buf ++ more).length < cr + 2 + len.toNat + 2 := by
                  rw [List.length_append]
                  omega
                rw [if_neg hlonger, List.getElem?_append_left (by omega),
                  List.getElem?_append_left (by omega)]
                split
                · rfl
                · rename_i hterm
                  rw [if_neg hterm] at h
                  exact ih _ _ h

theorem parseArray_append (more : Bytes) (h : parseArray buf pos ≠ .ok none) :
    parseArray (buf ++ more) pos = parseArray buf pos := by
  unfold parseArray at h ⊢
  cases hcr : findCrlf buf (pos + 1) with
  | none =>
    rw [hcr] at h
    exact absurd rfl h
  | some cr =>
    obtain ⟨hmore, -, hlen⟩ := findCrlf_append hcr more
    rw [hcr] at h
    rw [hmore]
    simp only at h ⊢
    rw [take_drop_append (by omega)]
    cases hint : parseInt ((buf.take cr).drop (pos + 1)) with
    | error e => rfl
    | ok count =>
      rw [hint] at h
      simp only at h ⊢
      split
      · rfl
      · rename_i hneg
        rw [if_neg hneg] at h
        split
        · rfl
        · rename_i hbig
          rw [if_neg hbig] at h
          exact parseBulks_append more _ _ _ h

theorem parseInline_append (more : Bytes) (h : parseInline buf pos ≠ .ok none) :
    parseInline (buf ++ more) pos = parseInline buf pos := by
  unfold parseInline at h ⊢
  cases hcr : findCrlf buf pos with
  | none =>
    rw [hcr] at h
    exact absurd rfl h
  | some cr =>
    obtain ⟨hmore, -, hlen⟩ := findCrlf_append hcr more
    rw [hmore]
    simp only
    rw [take_drop_append (by omega)]

/-- A complete command or an error stands when more bytes arrive. -/
theorem parseCommand_append (more : Bytes) (h : parseCommand buf pos ≠ .ok none) :
    parseCommand (buf ++ more) pos = parseCommand buf pos := by
  unfold parseCommand at h ⊢
  cases hc : buf[pos]? with
  | none =>
    rw [hc] at h
    exact absurd rfl h
  | some c =>
    rw [hc] at h
    rw [(getElem?_append_some hc more).1]
    simp only at h ⊢
    split
    · rename_i hstar
      rw [if_pos hstar] at h
      exact parseArray_append more h
    · rename_i hstar
      rw [if_neg hstar] at h
      exact parseInline_append more h

end Longer

/-! ## Section 3: What a command takes up -/

section Bounds

variable {buf : Bytes} {pos next : ℕ} {args : List ArgSlice}

theorem parseBulks_bounds {n cur : ℕ} {args args' : List ArgSlice}
    (h : parseBulks buf n cur args = .ok (some (args', next))) (hcur : cur ≤ buf.length)
    (hargs : ∀ a ∈ args, a.stop ≤ cur) :
    cur ≤ next ∧ next ≤ buf.length ∧ ∀ a ∈ args', a.stop ≤ next := by
  induction n generalizing cur args with
  | zero =>
    simp only [parseBulks, Except.ok.injEq, Option.some.injEq, Prod.mk.injEq] at h
    obtain ⟨rfl, rfl⟩ := h
    exact ⟨Nat.le_refl _, hcur, hargs⟩
  | succ n ih =>
    rw [parseBulks] at h
    split at h
    · cases h
    · split at h
      · cases h
      · split at h
        · cases h
        · rename_i cr hcr
          obtain ⟨-, hle, -⟩ := findCrlf_append hcr []
          split at h
          · cases h
          · rename_i len _
            split at h
            · cases h
            · simp only at h
              split at h
              · cases h
              · rename_i hshort
                split at h
                · cases h
                · have hnew : ∀ a ∈ args ++ [⟨cr + 2, cr + 2 + len.toNat⟩],
                      a.stop ≤ cr + 2 + len.toNat + 2 := by
                    intro a ha
                    rcases List.mem_append.mp ha with ha | ha
                    · have hold := hargs a ha
                      omega
                    · obtain rfl := List.mem_singleton.mp ha
                      exact Nat.le_add_right _ 2
                  obtain ⟨hcur', hrest⟩ := ih h (by omega) hnew
                  exact ⟨by omega, hrest⟩

theorem inlineArgs_stop (l : Bytes) (i : ℕ) (start : Option ℕ) :
    ∀ a ∈ inlineArgs l i start, a.stop ≤ i + l.length := by
  induction l generalizing i start with
  | nil =>
    intro a ha
    cases start with
    | none => cases ha
    | some s =>
      obtain rfl := List.mem_singleton.mp ha
      exact Nat.le_refl _
  | cons c l ih =>
    have hstep : ∀ st, ∀ a ∈ inlineArgs l (i + 1) st, a.stop ≤ i + (c :: l).length := by
      intro st a ha
      have hle := ih (i + 1) st a ha
      rw [List.length_cons]
      omega
    intro a ha
    cases start with
    | none =>
      rw [inlineArgs] at ha
      split at ha <;> exact hstep _ a ha
    | some s =>
      rw [inlineArgs] at ha
      split at ha
      · rcases List.mem_cons.mp ha with rfl | ha
        · exact Nat.le_add_right _ _
        · exact hstep _ a ha
      · exact hstep _ a ha

/-- A complete command takes up at least one byte, all of it in the buffer, and its arguments
    lie inside. -/
theorem parseCommand_bounds (h : parseCommand buf pos = .ok (some (args, next))) :
    pos < next ∧ next ≤ buf.length ∧ ∀ a ∈ args, a.stop ≤ next := by
  unfold parseCommand at h
  split at h
  · cases h
  · split at h
    · unfold parseArray at h
      split at h
      · cases h
      · rename_i cr hcr
        obtain ⟨-, hle, hlen⟩ := findCrlf_append hcr []
        split at h
        · cases h
        · split at h
          · cases h
          · split at h
            · cases h
            · obtain ⟨hcur, hrest⟩ := parseBulks_bounds h hlen (by simp)
              exact ⟨by omega, hrest⟩
    · unfold parseInline at h
      split at h
      · cases h
      · rename_i cr hcr
        obtain ⟨-, hle, hlen⟩ := findCrlf_append hcr []
        simp only [Except.ok.injEq, Option.some.injEq, Prod.mk.injEq] at h
        obtain ⟨rfl, rfl⟩ := h
        refine ⟨by omega, hlen, ?_⟩
        intro a ha
        have hstop := inlineArgs_stop _ _ _ a ha
        rw [List.length_drop, List.length_take] at hstop
        omega

end Bounds

/-! ## Section 4: Offsets -/

/-- A range `k` bytes further on. -/
def Resp.ArgSlice.shift (k : ℕ) (a : ArgSlice) : ArgSlice := ⟨k + a.start, k + a.stop⟩

/-- The result of a parse `k` bytes further on. -/
def shiftResult (k : ℕ) (r : Except ProtocolError (Option (List ArgSlice × ℕ))) :
    Except ProtocolError (Option (List ArgSlice × ℕ)) :=
  r.map fun o => o.map fun (args, next) => (args.map (ArgSlice.shift k), k + next)

section Offsets

variable (front buf : Bytes)

theorem findCrlfIn_shift (l : Bytes) (k i : ℕ) :
    findCrlfIn l (k + i) = (findCrlfIn l i).map (k + ·) := by
  induction l generalizing i with
  | nil => rfl
  | cons a l ih =>
    cases l with
    | nil => rfl
    | cons b rest =>
      simp only [findCrlfIn]
      split
      · rfl
      · rw [Nat.add_assoc]
        exact ih (i + 1)

theorem drop_front (pos : ℕ) : (front ++ buf).drop (front.length + pos) = buf.drop pos := by
  rw [← List.drop_drop, List.drop_left]

theorem findCrlf_shift (pos : ℕ) :
    findCrlf (front ++ buf) (front.length + pos) = (findCrlf buf pos).map (front.length + ·) := by
  unfold findCrlf
  rw [drop_front, findCrlfIn_shift]

theorem take_drop_shift (i j : ℕ) :
    ((front ++ buf).take (front.length + j)).drop (front.length + i) = (buf.take j).drop i := by
  rw [List.take_length_add_append, drop_front]

theorem getElem?_shift (i : ℕ) : (front ++ buf)[front.length + i]? = buf[i]? := by
  rw [List.getElem?_append_right (Nat.le_add_right _ _), Nat.add_sub_cancel_left]

theorem parseBulks_shift (n cur : ℕ) (args : List ArgSlice) :
    parseBulks (front ++ buf) n (front.length + cur) (args.map (ArgSlice.shift front.length)) =
      shiftResult front.length (parseBulks buf n cur args) := by
  induction n generalizing cur args with
  | zero => rfl
  | succ n ih =>
    rw [parseBulks, parseBulks, getElem?_shift]
    cases buf[cur]? with
    | none => rfl
    | some c =>
      simp only
      split
      · rfl
      · rw [Nat.add_assoc, findCrlf_shift]
        cases findCrlf buf (cur + 1) with
        | none => rfl
        | some cr =>
          simp only [Option.map_some]
          rw [take_drop_shift]
          cases parseInt ((buf.take cr).drop (cur + 1)) with
          | error e => rfl
          | ok len =>
            simp only
            split
            · rfl
            · have hshort : (front ++ buf).length < front.length + cr + 2 + len.toNat + 2 ↔
                  buf.length < cr + 2 + len.toNat + 2 := by
                rw [List.length_append]
                omega
              by_cases hlt : buf.length < cr + 2 + len.toNat + 2
              · rw [if_pos (hshort.mpr hlt), if_pos hlt]
                rfl
              · rw [if_neg (fun h => hlt (hshort.mp h)), if_neg hlt,
                  show front.length + cr + 2 + len.toNat + 1 =
                    front.length + (cr + 2 + len.toNat + 1) by omega,
                  show front.length + cr + 2 + len.toNat =
                    front.length + (cr + 2 + len.toNat) by omega,
                  getElem?_shift, getElem?_shift]
                split
                · rfl
                · rw [← ih, List.map_append]
                  rfl

theorem inlineArgs_shift (l : Bytes) (k i : ℕ) (start : Option ℕ) :
    inlineArgs l (k + i) (start.map (k + ·)) = (inlineArgs l i start).map (ArgSlice.shift k) := by
  induction l generalizing i start with
  | nil => cases start <;> rfl
  | cons c l ih =>
    cases start with
    | none =>
      simp only [Option.map_none, inlineArgs]
      split
      · exact ih (i + 1) none
      · exact ih (i + 1) (some i)
    | some s =>
      simp only [Option.map_some, inlineArgs]
      split
      · rw [List.map_cons]
        exact congrArg _ (ih (i + 1) none)
      · exact ih (i + 1) (some s)

theorem parseCommand_shift (pos : ℕ) :
    parseCommand (front ++ buf) (front.length + pos) =
      shiftResult front.length (parseCommand buf pos) := by
  unfold parseCommand
  rw [getElem?_shift]
  cases buf[pos]? with
  | none => rfl
  | some c =>
    simp only
    split
    · unfold parseArray
      rw [Nat.add_assoc, findCrlf_shift]
      cases findCrlf buf (pos + 1) with
      | none => rfl
      | some cr =>
        simp only [Option.map_some]
        rw [take_drop_shift]
        cases parseInt ((buf.take cr).drop (pos + 1)) with
        | error e => rfl
        | ok count =>
          simp only
          split
          · rfl
          · split
            · rfl
            · exact parseBulks_shift front buf count.toNat (cr + 2) []
    · unfold parseInline
      rw [findCrlf_shift]
      cases findCrlf buf pos with
      | none => rfl
      | some cr =>
        simp only [Option.map_some]
        rw [take_drop_shift]
        have hargs := inlineArgs_shift ((buf.take cr).drop pos) front.length pos none
        simp only [Option.map_none] at hargs
        rw [hargs]
        rfl

end Offsets

/-! ## Section 5: The bytes of a command -/

section Exact

variable {buf : Bytes} {pos next : ℕ}

theorem findCrlfIn_take {l : Bytes} {i cr : ℕ} (h : findCrlfIn l i = some cr) {m : ℕ}
    (hm : cr + 2 ≤ i + m) : findCrlfIn (l.take m) i = some cr := by
  induction l generalizing i m with
  | nil => cases h
  | cons a l ih =>
    cases l with
    | nil => cases h
    | cons b rest =>
      have hle := (findCrlfIn_append h []).2.1
      obtain ⟨m, rfl⟩ : ∃ k, m = k + 2 := ⟨m - 2, by omega⟩
      simp only [List.take_succ_cons, findCrlfIn] at h ⊢
      split at h
      · rename_i hcrlf
        rw [if_pos hcrlf]
        exact h
      · rename_i hcrlf
        rw [if_neg hcrlf]
        have hrest := ih h (m := m + 1) (by omega)
        rw [List.take_succ_cons] at hrest
        exact hrest

theorem findCrlf_take {cr m : ℕ} (h : findCrlf buf pos = some cr) (hm : cr + 2 ≤ m) :
    findCrlf (buf.take m) pos = some cr := by
  have hle := (findCrlf_append h []).2.1
  unfold findCrlf at h ⊢
  rw [List.drop_take]
  exact findCrlfIn_take h (by omega)

theorem parseBulks_take {n cur m : ℕ} {args args' : List ArgSlice}
    (h : parseBulks buf n cur args = .ok (some (args', next))) (hcur : cur ≤ buf.length)
    (hargs : ∀ a ∈ args, a.stop ≤ cur) (hm : next ≤ m) :
    parseBulks (buf.take m) n cur args = .ok (some (args', next)) := by
  induction n generalizing cur args with
  | zero => exact h
  | succ n ih =>
    have hnext := (parseBulks_bounds h hcur hargs).1
    rw [parseBulks] at h ⊢
    split at h
    · cases h
    · rename_i c hc
      split at h
      · cases h
      · rename_i hdollar
        split at h
        · cases h
        · rename_i cr hcr
          obtain ⟨-, hle, hlen⟩ := findCrlf_append hcr []
          split at h
          · cases h
          · rename_i len hint
            split at h
            · cases h
            · rename_i hneg
              simp only at h
              split at h
              · cases h
              · rename_i hshort
                split at h
                · cases h
                · rename_i hterm
                  have hnew : ∀ a ∈ args ++ [⟨cr + 2, cr + 2 + len.toNat⟩],
                      a.stop ≤ cr + 2 + len.toNat + 2 := by
                    intro a ha
                    rcases List.mem_append.mp ha with ha | ha
                    · have hold := hargs a ha
                      omega
                    · obtain rfl := List.mem_singleton.mp ha
                      exact Nat.le_add_right _ 2
                  -- the rest of the loop ends behind this bulk string
                  have hstop := (parseBulks_bounds h (by omega) hnew).1
                  have hbytes : ∀ i < m, (buf.take m)[i]? = buf[i]? :=
                    fun i hi => List.getElem?_take_of_lt hi
                  rw [hbytes cur (by omega), hc]
                  simp only [if_neg hdollar, findCrlf_take hcr (show cr + 2 ≤ m by omega),
                    List.take_take, Nat.min_eq_left (show cr ≤ m by omega), hint, if_neg hneg]
                  rw [if_neg (by rw [List.length_take]; omega), hbytes _ (by omega),
                    hbytes _ (by omega), if_neg hterm]
                  exact ih h (by omega) hnew

/-- The bytes of a command alone give the command. -/
theorem parseCommand_take {args : List ArgSlice}
    (h : parseCommand buf pos = .ok (some (args, next))) :
    parseCommand (buf.take next) pos = .ok (some (args, next)) := by
  obtain ⟨hpos, hlen, -⟩ := parseCommand_bounds h
  unfold parseCommand at h ⊢
  rw [List.getElem?_take_of_lt hpos]
  split at h
  · cases h
  · rename_i c hc
    rw [hc]
    simp only
    split at h
    · rename_i hstar
      rw [if_pos hstar]
      unfold parseArray at h ⊢
      split at h
      · cases h
      · rename_i cr hcr
        have hcrlen := (findCrlf_append hcr []).2.2
        split at h
        · cases h
        · rename_i count hint
          split at h
          · cases h
          · rename_i hneg
            split at h
            · cases h
            · rename_i hbig
              have hcur := (parseBulks_bounds h hcrlen (by simp)).1
              simp only [findCrlf_take hcr (show cr + 2 ≤ next by omega), List.take_take,
                Nat.min_eq_left (show cr ≤ next by omega), hint, if_neg hneg, if_neg hbig]
              exact parseBulks_take h hcrlen (by simp) (Nat.le_refl _)
    · rename_i hstar
      rw [if_neg hstar]
      unfold parseInline at h ⊢
      split at h
      · cases h
      · rename_i cr hcr
        simp only [Except.ok.injEq, Option.some.injEq, Prod.mk.injEq] at h
        obtain ⟨rfl, rfl⟩ := h
        simp only [findCrlf_take hcr (Nat.le_refl _), List.take_take,
          Nat.min_eq_left (Nat.le_add_right cr 2)]

end Exact

/-! ## Section 6: Every cut comes to the stream -/

section Cuts

variable {buf stream : Bytes}

theorem streamLoop_fuel (n m : ℕ) (hn : stream.length < n) (hm : stream.length < m) :
    streamLoop n stream = streamLoop m stream := by
  induction n generalizing m stream with
  | zero => omega
  | succ n ih =>
    cases m with
    | zero => omega
    | succ m =>
      rw [streamLoop, streamLoop]
      cases hparse : parseCommand (stream.take MAX_RECV) 0 with
      | error e => rfl
      | ok r =>
        cases r with
        | none => rfl
        | some r =>
          obtain ⟨slices, next⟩ := r
          obtain ⟨hpos, hlen, -⟩ := parseCommand_bounds hparse
          rw [List.length_take] at hlen
          have hdrop : (stream.drop next).length < stream.length := by
            rw [List.length_drop]
            omega
          simp only
          rw [@ih (stream.drop next) m (by omega) (by omega)]

/-- The stream after its first command. -/
theorem commandStream_command {slices : List ArgSlice} {next : ℕ}
    (h : parseCommand (stream.take MAX_RECV) 0 = .ok (some (slices, next))) :
    commandStream stream =
      if actionOf (slices.map fun a => a.bytes (stream.take MAX_RECV)) = .close then
        ([((stream.take MAX_RECV).take next,
          slices.map fun a => a.bytes (stream.take MAX_RECV))], .quit)
      else
        (((stream.take MAX_RECV).take next, slices.map fun a => a.bytes (stream.take MAX_RECV)) ::
          (commandStream (stream.drop next)).1, (commandStream (stream.drop next)).2) := by
  obtain ⟨hpos, hlen, -⟩ := parseCommand_bounds h
  rw [List.length_take] at hlen
  have hfuel : streamLoop stream.length (stream.drop next) = commandStream (stream.drop next) :=
    streamLoop_fuel _ _ (by rw [List.length_drop]; omega) (Nat.lt_succ_self _)
  rw [commandStream, streamLoop]
  simp only [h, hfuel]

/-- What a batch makes of the stream that its buffer begins. -/
def BatchSpec (buf stream : Bytes) (head : ℕ) : List Dispatched × BatchEnd → Prop
  | (ds, .incomplete next) =>
    head ≤ next ∧ next ≤ buf.length ∧ parseCommand (buf.drop next) 0 = .ok none ∧
      commandStream (stream.drop head) =
        (ds ++ (commandStream (stream.drop next)).1, (commandStream (stream.drop next)).2)
  | (ds, .closed) => commandStream (stream.drop head) = (ds, .quit)
  | (ds, .malformed) => commandStream (stream.drop head) = (ds, .protocolError)

/-- What is left of the buffer begins the window on what is left of the stream. -/
theorem window_eq (hlen : buf.length ≤ MAX_RECV) (hbuf : buf <+: stream) {head : ℕ}
    (hhead : head ≤ buf.length) :
    ∃ more, (stream.drop head).take MAX_RECV = buf.drop head ++ more := by
  obtain ⟨more, rfl⟩ := hbuf
  rw [List.drop_append_of_le_length hhead, List.take_append]
  refine ⟨_, congrArg (· ++ _) (List.take_of_length_le ?_)⟩
  rw [List.length_drop]
  omega

theorem parseCommand_at {head : ℕ} (hhead : head ≤ buf.length) :
    parseCommand buf head = shiftResult head (parseCommand (buf.drop head) 0) := by
  have hshift := parseCommand_shift (buf.take head) (buf.drop head) 0
  rw [List.take_append_drop, List.length_take, Nat.min_eq_left hhead] at hshift
  exact hshift

theorem bytes_shift (head : ℕ) (hhead : head ≤ buf.length) (a : ArgSlice) :
    (a.shift head).bytes buf = a.bytes (buf.drop head) := by
  have h := take_drop_shift (buf.take head) (buf.drop head) a.start a.stop
  rw [List.take_append_drop, List.length_take, Nat.min_eq_left hhead] at h
  exact h

theorem batch_spec (hlen : buf.length ≤ MAX_RECV) (hbuf : buf <+: stream) (n head : ℕ)
    (hhead : head ≤ buf.length) (hn : buf.length - head < n) :
    BatchSpec buf stream head (batch buf n head) := by
  induction n generalizing head with
  | zero => omega
  | succ n ih =>
    obtain ⟨more, hwindow⟩ := window_eq hlen hbuf hhead
    rw [batch, parseCommand_at hhead]
    cases hparse : parseCommand (buf.drop head) 0 with
    | error e =>
      have hmore : parseCommand ((stream.drop head).take MAX_RECV) 0 = .error e := by
        rw [hwindow, parseCommand_append more (by rw [hparse]; nofun), hparse]
      show commandStream (stream.drop head) = ([], .protocolError)
      rw [commandStream, streamLoop]
      simp only [hmore]
    | ok r =>
      cases r with
      | none => exact ⟨Nat.le_refl _, hhead, hparse, rfl⟩
      | some r =>
        obtain ⟨slices, next⟩ := r
        obtain ⟨hpos, hnext, hstop⟩ := parseCommand_bounds hparse
        rw [List.length_drop] at hnext
        have hmore : parseCommand ((stream.drop head).take MAX_RECV) 0 =
            .ok (some (slices, next)) := by
          rw [hwindow, parseCommand_append more (by rw [hparse]; nofun), hparse]
        -- the same command, seen in the buffer and in the stream
        have hargs : ((slices.map (ArgSlice.shift head)).map fun a => a.bytes buf) =
            slices.map fun a => a.bytes ((stream.drop head).take MAX_RECV) := by
          rw [List.map_map]
          apply List.map_congr_left
          intro a ha
          have hle := hstop a ha
          rw [Function.comp_apply, bytes_shift head hhead, hwindow]
          exact (take_drop_append (by rw [List.length_drop]; omega) more a.start).symm
        have hraw : (buf.take (head + next)).drop head =
            ((stream.drop head).take MAX_RECV).take next := by
          rw [hwindow, List.take_append_of_le_length (by rw [List.length_drop]; omega),
            List.drop_take, Nat.add_sub_cancel_left]
        have hstream := commandStream_command hmore
        simp only [shiftResult, Except.map, Option.map_some, hargs, hraw]
        split
        · rename_i hclose
          rw [if_pos hclose] at hstream
          exact hstream
        · rename_i hclose
          rw [if_neg hclose, List.drop_drop] at hstream
          have hrest := ih (head + next) (by omega) (by omega)
          generalize batch buf n (head + next) = b at hrest
          obtain ⟨ds, stop⟩ := b
          cases stop with
          | incomplete next' =>
            obtain ⟨hle, hle', hnone, heq⟩ := hrest
            refine ⟨by omega, hle', hnone, ?_⟩
            rw [hstream, heq]
            rfl
          | closed =>
            show commandStream (stream.drop head) = _
            rw [hstream, show commandStream (stream.drop (head + next)) = (ds, .quit) from hrest]
          | malformed =>
            show commandStream (stream.drop head) = _
            rw [hstream,
              show commandStream (stream.drop (head + next)) = (ds, .protocolError) from hrest]

theorem commandStream_incomplete (h : parseCommand (stream.take MAX_RECV) 0 = .ok none) :
    commandStream stream = ([], if MAX_RECV ≤ stream.length then .tooLarge else .endOfInput) := by
  rw [commandStream, streamLoop]
  simp only [h]

/-- A read leaves the stream as it is and takes at least one byte of it. -/
theorem flatten_read (piece : Bytes) (pieces : List Bytes) (k : ℕ) :
    piece.take k ++ (if k < piece.length then piece.drop k :: pieces else pieces).flatten =
      (piece :: pieces).flatten := by
  split
  · rw [List.flatten_cons, ← List.append_assoc, List.take_append_drop, List.flatten_cons]
  · rename_i hge
    rw [List.take_of_length_le (by omega), List.flatten_cons]

/-- The loop from any point on; what has been received begins with an incomplete command. -/
theorem connectionLoop_spec (n cap : ℕ) (recv : Bytes) (pieces : List Bytes)
    (hn : pieces.flatten.length < n) (hne : ∀ p ∈ pieces, p ≠ []) (hrecv : recv.length ≤ cap)
    (hcap : cap ≤ MAX_RECV) (hpos : 0 < cap) (hnone : parseCommand recv 0 = .ok none) :
    connectionLoop n cap recv pieces = some (commandStream (recv ++ pieces.flatten)) := by
  induction n generalizing cap recv pieces with
  | zero => omega
  | succ n ih =>
    rw [connectionLoop]
    split
    · rename_i hfull
      have hwindow : (recv ++ pieces.flatten).take MAX_RECV = recv := by
        rw [show MAX_RECV = recv.length by omega, List.take_left]
      rw [commandStream_incomplete (by rw [hwindow]; exact hnone), if_pos]
      rw [List.length_append]
      omega
    · rename_i hroom
      have hgrown : ∃ cap', (if recv.length = cap then min (cap * 2) MAX_RECV else cap) = cap' ∧
          recv.length < cap' ∧ cap' ≤ MAX_RECV := by
        refine ⟨_, rfl, ?_⟩
        split <;> omega
      obtain ⟨cap', heq, hlt, hle⟩ := hgrown
      simp only [heq]
      cases pieces with
      | nil =>
        simp only [List.flatten_nil, List.append_nil]
        have hwindow : recv.take MAX_RECV = recv := List.take_of_length_le (by omega)
        rw [commandStream_incomplete (by rw [hwindow]; exact hnone), if_neg (by omega)]
      | cons piece pieces =>
        have hread := flatten_read piece pieces (cap' - recv.length)
        have hlen := congrArg List.length hread
        have hpiece : 0 < piece.length :=
          List.length_pos_iff.mpr (hne piece List.mem_cons_self)
        have hne' : ∀ p ∈ (if cap' - recv.length < piece.length then
            piece.drop (cap' - recv.length) :: pieces else pieces), p ≠ [] := by
          intro p hp
          split at hp
          · rename_i hmore
            rcases List.mem_cons.mp hp with rfl | hp
            · intro hnil
              have hzero := List.drop_eq_nil_iff.mp hnil
              omega
            · exact hne p (List.mem_cons_of_mem _ hp)
          · exact hne p (List.mem_cons_of_mem _ hp)
        rw [List.length_append, List.length_take] at hlen
        simp only
        generalize (if cap' - recv.length < piece.length then
          piece.drop (cap' - recv.length) :: pieces else pieces) = pieces' at hread hlen hne' ⊢
        have hrecv' : (recv ++ piece.take (cap' - recv.length)).length ≤ cap' := by
          rw [List.length_append, List.length_take]
          omega
        have hstream : recv ++ (piece :: pieces).flatten =
            (recv ++ piece.take (cap' - recv.length)) ++ pieces'.flatten := by
          rw [List.append_assoc, hread]
        rw [hstream]
        generalize recv ++ piece.take (cap' - recv.length) = recv' at hrecv' ⊢
        have hbatch := @batch_spec recv' (recv' ++ pieces'.flatten) (by omega)
          (List.prefix_append _ _) (recv'.length + 1) 0 (Nat.zero_le _) (by omega)
        generalize batch recv' (recv'.length + 1) 0 = b at hbatch ⊢
        obtain ⟨ds, stop⟩ := b
        cases stop with
        | closed => exact congrArg some hbatch.symm
        | malformed => exact congrArg some hbatch.symm
        | incomplete next =>
          obtain ⟨-, hnext, hnone', heq'⟩ := hbatch
          rw [List.drop_zero, List.drop_append_of_le_length hnext] at heq'
          have hrest := ih cap' (recv'.drop next) pieces' (by omega) hne'
            (by rw [List.length_drop]; omega) hle (by omega) hnone'
          simp only [hrest, Option.map_some, heq']

/-- **Chunking independence.**  Two cuts of one stream into non-empty reads dispatch the same
    commands and stop for the same reason; a result of the parser stands when more bytes arrive,
    and a complete command takes up at least one byte. -/
theorem chunking_independence :
    (∀ pieces pieces' : List Bytes, (∀ p ∈ pieces, p ≠ []) → (∀ p ∈ pieces', p ≠ []) →
      pieces.flatten = pieces'.flatten →
      handleConnection pieces = handleConnection pieces' ∧
      handleConnection pieces = some (commandStream pieces.flatten)) ∧
    (∀ (buf more : Bytes) (pos : ℕ), parseCommand buf pos ≠ .ok none →
      parseCommand (buf ++ more) pos = parseCommand buf pos) ∧
    (∀ (buf : Bytes) (pos next : ℕ) (args : List ArgSlice),
      parseCommand buf pos = .ok (some (args, next)) → pos + 1 ≤ next) := by
  have hall : ∀ pieces : List Bytes, (∀ p ∈ pieces, p ≠ []) →
      handleConnection pieces = some (commandStream pieces.flatten) := by
    intro pieces hne
    exact connectionLoop_spec _ INITIAL_RECV [] pieces (Nat.lt_succ_self _) hne (Nat.zero_le _)
      (by decide) (by decide) rfl
  refine ⟨?_, ?_, ?_⟩
  · intro pieces pieces' hne hne' hsame
    refine ⟨?_, hall pieces hne⟩
    rw [hall pieces hne, hall pieces' hne', hsame]
  · intro buf more pos h
    exact parseCommand_append more h
  · intro buf pos next args h
    exact (parseCommand_bounds h).1

/-- A batch cut between CR and LF, and not cut at all; the bytes behind the QUIT are not
    looked at. -/
theorem chunking_independence_quit :
    handleConnection [ascii "*1\r\n$4\r\nPI", ascii "NG\r", ascii "\nQUIT\r\n*"] =
      handleConnection [ascii "*1\r\n$4\r\nPING\r\nQUIT\r\n*"] ∧
    handleConnection [ascii "*1\r\n$4\r\nPI", ascii "NG\r", ascii "\nQUIT\r\n*"] =
      some ([(ascii "*1\r\n$4\r\nPING\r\n", [ascii "PING"]), (ascii "QUIT\r\n", [ascii "QUIT"])],
        .quit) :=
  ⟨(chunking_independence.1 _ _ (by decide) (by decide) (by decide)).1, by decide +kernel⟩

end Cuts

end Garnet
