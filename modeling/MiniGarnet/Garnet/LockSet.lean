import MiniGarnet.Garnet.Commands

/-! # The lock set of a transaction

    EXEC locks the keys `command_keys` computes from the queued bytes, and the
    handlers then use the store without latching.  Every key a queued command
    passes to `upsert`, `rmw` or `delete` is in the lock set as exclusive, and
    every key it passes to `read` is in it: the second table agrees with the
    argument positions of the handlers.
-/

namespace Garnet

/-! ## Section 1: Rules for handlers -/

/-- From any session state that meets `I`, every operation of the handler meets
    `P`, and the session meets `I` afterwards. -/
def Handler.All (I : RespSession → Prop) (P : Effect → Prop) {α : Type} (h : Handler α) : Prop :=
  ∀ s, I s → (h s).Sat P fun x => I x.2

namespace Handler

variable {I : RespSession → Prop} {P : Effect → Prop} {α β : Type}

theorem all_pure (a : α) : Handler.All I P (pure a) := fun _ hs => hs

theorem All.bind {h : Handler α} {f : α → Handler β} (hh : h.All I P) (hf : ∀ a, (f a).All I P) :
    Handler.All I P (h >>= f) := fun s hs => (hh s hs).bind fun x hx => hf x.1 x.2 hx

theorem all_get : Handler.All I P (get : Handler RespSession) := fun _ hs => hs

theorem all_modify {f : RespSession → RespSession} (hf : ∀ s, I s → I (f s)) :
    Handler.All I P (modify f : Handler PUnit) := fun s hs => hf s hs

theorem all_perform {e : Effect} (h : P e) : Handler.All I P (perform e) :=
  fun _ hs => ⟨h, fun _ => hs⟩

theorem all_ite {c : Prop} [Decidable c] {h h' : Handler α} (hh : h.All I P) (hh' : h'.All I P) :
    Handler.All I P (if c then h else h') := by
  split
  · exact hh
  · exact hh'

/-- The two branches of a `do` block with one continuation. -/
theorem all_guarded {c : Prop} [Decidable c] {h : Handler Unit} {f : Unit → Handler β}
    (hh : h.All I P) (hf : ∀ u, (f u).All I P) :
    Handler.All I P (if c then h >>= f else f ()) :=
  all_ite (hh.bind hf) (hf ())

/-- The watch check performs version loads only. -/
theorem all_conflictLoop (hP : ∀ slot, P (.versionAt slot)) (watches : List (ℕ × ℕ)) :
    (conflictLoop watches).All I P := by
  induction watches with
  | nil => exact all_pure _
  | cons w rest ih =>
    refine (all_perform (e := .versionAt _) (hP _)).bind fun (cur : ℕ) => ?_
    exact all_ite (all_pure _) ih

theorem all_logBracket (hP : ∀ entry, P (.enqueue entry)) (op : AofOp) :
    (logBracket op).All I P :=
  all_get.bind fun _ => all_ite (all_perform (e := .enqueue _) (hP _)) (all_pure _)

end Handler

/-! ## Section 2: Covered operations -/

/-- The lock set covers the key the operation passes to the store; the operation
    does not lock or unlock itself. -/
def Effect.Covered (locks : List (Bytes × LockType)) : Effect → Prop
  | .read key _ _ => ∃ lock, (key, lock) ∈ locks
  | .upsert key _ _ | .rmw key _ _ | .delete key => (key, .exclusive) ∈ locks
  | .txnLock _ | .txnUnlock => False
  | _ => True

section Covered

open Handler

variable {locks : List (Bytes × LockType)} {raw key : Bytes}

/-- `h` uses covered keys only. -/
abbrev Safe (locks : List (Bytes × LockType)) {α : Type} (h : Handler α) : Prop :=
  Handler.All (fun _ => True) (Effect.Covered locks) h

theorem safe_read (h : ∃ lock, (key, lock) ∈ locks) (input : StringInput) :
    Safe locks (read key input) := fun _ hs => ⟨h, fun _ => hs⟩

theorem safe_upsert (h : (key, .exclusive) ∈ locks) (input : StringInput) :
    Safe locks (upsert key input) := fun _ hs => ⟨h, fun _ => hs⟩

theorem safe_rmw (h : (key, .exclusive) ∈ locks) (input : StringInput) :
    Safe locks (rmw key input) := fun _ hs => ⟨h, fun _ => hs⟩

theorem safe_clearBytes : Safe locks clearBytes := all_modify fun _ hs => hs

theorem safe_discard : Safe locks discard := all_modify fun _ _ => trivial

theorem safe_logWrite : Safe locks (logWrite raw) :=
  all_get.bind fun _ =>
    all_ite (all_pure _) (all_ite (all_perform (e := .enqueue _) trivial) (all_pure _))

theorem safe_afterWrite : Safe locks (afterWrite key raw) :=
  (all_perform (e := .bump _) trivial).bind fun _ => safe_logWrite

theorem safe_cmdGet (h : ∃ lock, (key, lock) ∈ locks) : Safe locks (cmdGet key) :=
  all_get.bind fun _ => (safe_read h _).bind fun _ =>
    all_ite (all_get.bind fun _ => all_pure _) (all_pure _)

theorem safe_cmdReadInt (h : ∃ lock, (key, lock) ∈ locks) (op : StringOp) :
    Safe locks (cmdReadInt key op) :=
  all_get.bind fun _ => (safe_read h _).bind fun _ =>
    all_ite (all_get.bind fun _ => all_pure _) (all_pure _)

theorem safe_cmdGetrange (h : ∃ lock, (key, lock) ∈ locks) (start stop : Bytes) :
    Safe locks (cmdGetrange key start stop) := by
  unfold cmdGetrange
  split
  · exact all_get.bind fun _ => (safe_read h _).bind fun _ =>
      all_ite (all_get.bind fun _ => all_pure _) (all_pure _)
  · exact all_pure _

theorem safe_cmdSet {args : List Bytes}
    (h : ∀ k, (args.drop 1).head? = some k → (k, .exclusive) ∈ locks) :
    Safe locks (cmdSet raw args) := by
  unfold cmdSet
  split
  · rename_i name key value rest
    have hkey : (key, .exclusive) ∈ locks := h key rfl
    refine all_get.bind fun s => ?_
    dsimp only
    split
    · exact all_pure _
    · have hreply : ∀ (status : Tsavorite.Status) (f : RespSession → Bytes), Safe locks (do
          let s ← get
          if status.isUpdated then
            afterWrite key raw
          return f s) :=
        fun _ _ => all_get.bind fun _ => all_guarded safe_afterWrite fun _ => all_pure _
      exact all_ite ((safe_upsert hkey _).bind fun _ => hreply _ _)
        ((safe_rmw hkey _).bind fun _ => hreply _ _)
  · exact all_pure _

theorem safe_cmdSetnx (h : (key, .exclusive) ∈ locks) (value : Bytes) :
    Safe locks (cmdSetnx raw key value) :=
  all_get.bind fun _ => (safe_rmw h _).bind fun _ =>
    all_guarded safe_afterWrite fun _ => all_pure _

theorem safe_cmdSetex (h : (key, .exclusive) ∈ locks) (time value : Bytes) (ms : Bool) :
    Safe locks (cmdSetex raw key time value ms) := by
  unfold cmdSetex
  split
  · exact all_pure _
  · exact all_get.bind fun _ => (safe_upsert h _).bind fun _ =>
      safe_afterWrite.bind fun _ => all_pure _

theorem safe_cmdGetset (h : (key, .exclusive) ∈ locks) (value : Bytes) :
    Safe locks (cmdGetset raw key value) :=
  all_get.bind fun _ => (safe_rmw h _).bind fun _ => all_get.bind fun _ =>
    safe_afterWrite.bind fun _ => all_pure _

theorem safe_cmdGetdel (h : (key, .exclusive) ∈ locks) : Safe locks (cmdGetdel raw key) :=
  safe_clearBytes.bind fun _ => all_get.bind fun _ => (safe_rmw h _).bind fun _ =>
    all_ite (all_get.bind fun _ => safe_afterWrite.bind fun _ => all_pure _) (all_pure _)

theorem safe_cmdGetex (h : (key, .exclusive) ∈ locks) (opts : List Bytes) :
    Safe locks (cmdGetex raw key opts) := by
  unfold cmdGetex
  refine all_ite (safe_cmdGet ⟨_, h⟩) (all_get.bind fun _ => ?_)
  dsimp only
  split
  · exact all_pure _
  · exact safe_clearBytes.bind fun _ => (safe_rmw h _).bind fun _ =>
      all_ite (all_get.bind fun _ => safe_afterWrite.bind fun _ => all_pure _) (all_pure _)

theorem safe_cmdIncr (h : (key, .exclusive) ∈ locks) (delta : Int64) :
    Safe locks (cmdIncr raw key delta) :=
  all_get.bind fun _ => (safe_rmw h _).bind fun _ =>
    all_ite (all_get.bind fun _ => safe_afterWrite.bind fun _ => all_pure _) (all_pure _)

theorem safe_cmdIncrBy (h : (key, .exclusive) ∈ locks) (negate : Bool) (d : Bytes) :
    Safe locks (cmdIncrBy raw negate key d) := by
  unfold cmdIncrBy
  split
  · exact safe_cmdIncr h _
  · exact all_pure _

theorem safe_cmdRmwInt (h : (key, .exclusive) ∈ locks) (op : StringOp) (operand : Bytes)
    (delta : Int64) : Safe locks (cmdRmwInt raw key op operand delta) :=
  all_get.bind fun _ => (safe_rmw h _).bind fun _ =>
    all_ite (all_get.bind fun _ => safe_afterWrite.bind fun _ => all_pure _) (all_pure _)

theorem safe_cmdSetrange (h : (key, .exclusive) ∈ locks) (offset value : Bytes) :
    Safe locks (cmdSetrange raw key offset value) := by
  unfold cmdSetrange
  split
  · exact all_pure _
  · exact safe_cmdRmwInt h _ _ _

theorem safe_msetLoop (pairs : List Bytes) (h : ∀ k ∈ everyOther pairs, (k, .exclusive) ∈ locks) :
    Safe locks (msetLoop pairs) := by
  fun_induction everyOther pairs with
  | case1 key value rest ih =>
    have hrest : Safe locks (msetLoop rest) := ih fun k hk => h k (List.mem_cons_of_mem _ hk)
    exact all_get.bind fun _ => (safe_upsert (h key List.mem_cons_self) _).bind fun _ =>
      (all_perform (e := .bump _) trivial).bind fun _ => hrest
  | case2 key => exact all_pure _
  | case3 => exact all_pure _

theorem safe_mgetLoop (keys : List Bytes) (h : ∀ k ∈ keys, ∃ lock, (k, lock) ∈ locks) :
    Safe locks (mgetLoop keys) := by
  induction keys with
  | nil => exact all_pure _
  | cons key rest ih =>
    have hrest : Safe locks (mgetLoop rest) := ih fun k hk => h k (List.mem_cons_of_mem _ hk)
    exact (safe_cmdGet (h key List.mem_cons_self)).bind fun _ => hrest.bind fun _ => all_pure _

theorem safe_delLoop (keys : List Bytes) (h : ∀ k ∈ keys, (k, .exclusive) ∈ locks) :
    Safe locks (delLoop keys) := by
  induction keys with
  | nil => exact all_pure _
  | cons key rest ih =>
    have hrest : Safe locks (delLoop rest) := ih fun k hk => h k (List.mem_cons_of_mem _ hk)
    refine (all_perform (e := .delete _) (h key List.mem_cons_self)).bind
      fun (_ : Tsavorite.Status) => ?_
    refine all_ite ((all_perform (e := .bump _) trivial).bind fun _ => ?_) hrest
    exact hrest.bind fun _ => all_pure _

theorem safe_cmdDel (keys : List Bytes) (h : ∀ k ∈ keys, (k, .exclusive) ∈ locks) :
    Safe locks (cmdDel raw keys) :=
  (safe_delLoop keys h).bind fun _ => all_guarded safe_logWrite fun _ => all_pure _

theorem safe_existsLoop (keys : List Bytes) (h : ∀ k ∈ keys, ∃ lock, (k, lock) ∈ locks) :
    Safe locks (existsLoop keys) := by
  induction keys with
  | nil => exact all_pure _
  | cons key rest ih =>
    have hrest : Safe locks (existsLoop rest) := ih fun k hk => h k (List.mem_cons_of_mem _ hk)
    exact all_get.bind fun _ => (safe_read (h key List.mem_cons_self) _).bind fun _ =>
      hrest.bind fun _ => all_pure _

theorem safe_cmdExpire (h : (key, .exclusive) ∈ locks) (time : Bytes) (unit : Int64) (at_ : Bool) :
    Safe locks (cmdExpire raw key time unit at_) := by
  unfold cmdExpire
  split
  · exact all_pure _
  · exact all_get.bind fun _ => (safe_rmw h _).bind fun _ =>
      all_guarded safe_afterWrite fun _ => all_pure _

theorem safe_cmdTtl (h : ∃ lock, (key, lock) ∈ locks) (ms : Bool) : Safe locks (cmdTtl key ms) :=
  all_get.bind fun _ => (safe_read h _).bind fun _ =>
    all_ite (all_get.bind fun _ => all_pure _) (all_pure _)

theorem safe_cmdPersist (h : (key, .exclusive) ∈ locks) : Safe locks (cmdPersist raw key) :=
  all_get.bind fun _ => (safe_rmw h _).bind fun _ => all_get.bind fun _ =>
    all_guarded safe_afterWrite fun _ => all_pure _

theorem safe_cmdType (h : ∃ lock, (key, lock) ∈ locks) : Safe locks (cmdType key) :=
  all_get.bind fun _ => (safe_read h _).bind fun _ => all_pure _

theorem safe_cmdKeys (pattern : Bytes) : Safe locks (cmdKeys pattern) :=
  (all_perform (e := .scanLive _) trivial).bind fun _ => all_pure _

theorem safe_watchLoop (keys : List Bytes) : Safe locks (watchLoop keys) := by
  induction keys with
  | nil => exact all_pure _
  | cons key rest ih =>
    refine (all_perform (e := .slotVersion _) trivial).bind fun ver => ?_
    refine (all_modify ?_).bind fun _ => ih
    intro s hs
    exact hs

theorem safe_cmdWatch (keys : List Bytes) : Safe locks (cmdWatch keys) :=
  all_get.bind fun _ => all_ite (all_pure _) ((safe_watchLoop keys).bind fun _ => all_pure _)

theorem safe_cmdMulti : Safe locks cmdMulti := by
  intro s hs
  show ((if s.txn.inMulti = true then _ else _ : Handler Bytes) s).Sat _ _
  split
  · exact hs
  · exact trivial

theorem safe_cmdDiscard : Safe locks cmdDiscard :=
  all_get.bind fun _ => all_ite (safe_discard.bind fun _ => all_pure _) (all_pure _)

theorem safe_cmdSave : Safe locks cmdSave := by
  refine (all_perform (e := .checkpoint) trivial).bind fun r => ?_
  split
  · exact all_pure _
  · exact all_pure _

/-! ## Section 3: The two tables agree -/

section Guards

variable {args : List Bytes}

theorem safe_arity2 {f : Bytes → Handler Bytes}
    (h : ∀ a, a ∈ (args.drop 1).take 1 → args.drop 1 = [a] → Safe locks (f a)) :
    Safe locks (arity2 args f) := by
  unfold arity2
  split
  · exact h _ List.mem_cons_self rfl
  · exact all_pure _

theorem safe_arity3 {f : Bytes → Bytes → Handler Bytes}
    (h : ∀ a b, a ∈ (args.drop 1).take 1 → Safe locks (f a b)) : Safe locks (arity3 args f) := by
  unfold arity3
  split
  · exact h _ _ List.mem_cons_self
  · exact all_pure _

theorem safe_arity4 {f : Bytes → Bytes → Bytes → Handler Bytes}
    (h : ∀ a b c, a ∈ (args.drop 1).take 1 → Safe locks (f a b c)) :
    Safe locks (arity4 args f) := by
  unfold arity4
  split
  · exact h _ _ _ List.mem_cons_self
  · exact all_pure _

theorem safe_arityMany {f : List Bytes → Handler Bytes}
    (h : ∀ a rest, args.drop 1 = a :: rest → Safe locks (f (a :: rest))) :
    Safe locks (arityMany args f) := by
  unfold arityMany
  split
  · exact h _ _ rfl
  · exact all_pure _

end Guards

/-- The lock set holds what `command_keys` lists for these arguments. -/
def Locks (locks : List (Bytes × LockType)) (args : List Bytes) : Prop :=
  ∀ x ∈ commandKeys args, x ∈ locks

/-- Commands that read: every argument is locked. -/
theorem Locks.readers {args : List Bytes} {cmd : CommandName} (h : Locks locks args)
    (hcmd : commandOf args = some cmd)
    (hread : cmd ∈ [.get, .strlen, .getrange, .substr, .ttl, .pttl, .exists_, .type, .mget]) :
    ∀ k ∈ args.drop 1, ∃ lock, (k, lock) ∈ locks := by
  intro k hk
  refine ⟨.shared, h _ ?_⟩
  have hkeys : commandKeys args = (args.drop 1).map fun k => (k, .shared) := by
    unfold commandKeys
    rw [hcmd]
    simp only [List.mem_cons, List.not_mem_nil, or_false] at hread
    rcases hread with rfl | rfl | rfl | rfl | rfl | rfl | rfl | rfl | rfl <;> rfl
  rw [hkeys]
  exact List.mem_map_of_mem hk

/-- Commands that delete: every argument is locked for writing. -/
theorem Locks.deleters {args : List Bytes} {cmd : CommandName} (h : Locks locks args)
    (hcmd : commandOf args = some cmd) (hdel : cmd ∈ [.del, .unlink]) :
    ∀ k ∈ args.drop 1, (k, .exclusive) ∈ locks := by
  intro k hk
  refine h _ ?_
  have hkeys : commandKeys args = (args.drop 1).map fun k => (k, .exclusive) := by
    unfold commandKeys
    rw [hcmd]
    simp only [List.mem_cons, List.not_mem_nil, or_false] at hdel
    rcases hdel with rfl | rfl <;> rfl
  rw [hkeys]
  exact List.mem_map_of_mem hk

/-- MSET: every other argument is locked for writing. -/
theorem Locks.mset {args : List Bytes} (h : Locks locks args) (hcmd : commandOf args = some .mset) :
    ∀ k ∈ everyOther (args.drop 1), (k, .exclusive) ∈ locks := by
  intro k hk
  refine h _ ?_
  have hkeys : commandKeys args = (everyOther (args.drop 1)).map fun k => (k, .exclusive) := by
    unfold commandKeys
    rw [hcmd]
  rw [hkeys]
  exact List.mem_map_of_mem hk

/-- Everything else: the first argument is locked for writing. -/
theorem Locks.writers {args : List Bytes} {cmd : CommandName} (h : Locks locks args)
    (hcmd : commandOf args = some cmd)
    (hwrite : cmd ∉ [.get, .strlen, .getrange, .substr, .ttl, .pttl, .exists_, .type, .mget,
      .del, .unlink, .mset]) :
    ∀ k ∈ (args.drop 1).take 1, (k, .exclusive) ∈ locks := by
  intro k hk
  refine h _ ?_
  have hkeys : commandKeys args = ((args.drop 1).take 1).map fun k => (k, .exclusive) := by
    unfold commandKeys
    rw [hcmd]
    cases cmd <;> first | rfl | exact absurd (by decide) hwrite
  rw [hkeys]
  exact List.mem_map_of_mem hk

theorem safe_execNamed {args : List Bytes} {cmd : CommandName} (h : Locks locks args)
    (hcmd : commandOf args = some cmd) : Safe locks (execNamed cmd raw args) := by
  have hmem : ∀ {a : Bytes}, a ∈ (args.drop 1).take 1 → a ∈ args.drop 1 :=
    fun ha => List.mem_of_mem_take ha
  cases cmd with
  | get => exact safe_arity2 fun a ha _ => safe_cmdGet (h.readers hcmd (by decide) a (hmem ha))
  | set =>
    refine safe_cmdSet fun k hk => h.writers hcmd (by decide) k ?_
    cases hd : args.drop 1 with
    | nil =>
      rw [hd] at hk
      cases hk
    | cons a rest =>
      rw [hd] at hk
      cases hk
      exact List.mem_cons_self
  | setnx => exact safe_arity3 fun a b ha => safe_cmdSetnx (h.writers hcmd (by decide) a ha) b
  | setex =>
    exact safe_arity4 fun a b c ha => safe_cmdSetex (h.writers hcmd (by decide) a ha) b c _
  | psetex =>
    exact safe_arity4 fun a b c ha => safe_cmdSetex (h.writers hcmd (by decide) a ha) b c _
  | getset => exact safe_arity3 fun a b ha => safe_cmdGetset (h.writers hcmd (by decide) a ha) b
  | getdel => exact safe_arity2 fun a ha _ => safe_cmdGetdel (h.writers hcmd (by decide) a ha)
  | getex =>
    have hkey : ∀ a rest, args.drop 1 = a :: rest → (a, .exclusive) ∈ locks := by
      intro a rest hd
      refine h.writers hcmd (by decide) a ?_
      rw [hd]
      exact List.mem_cons_self
    exact safe_arityMany (f := fun rest => cmdGetex raw (rest.headD []) (rest.drop 1))
      fun a rest hd => safe_cmdGetex (hkey a rest hd) rest
  | append =>
    exact safe_arity3 fun a b ha => safe_cmdRmwInt (h.writers hcmd (by decide) a ha) _ b 0
  | strlen =>
    exact safe_arity2 fun a ha _ => safe_cmdReadInt (h.readers hcmd (by decide) a (hmem ha)) _
  | getrange =>
    exact safe_arity4 fun a b c ha => safe_cmdGetrange (h.readers hcmd (by decide) a (hmem ha)) b c
  | substr =>
    exact safe_arity4 fun a b c ha => safe_cmdGetrange (h.readers hcmd (by decide) a (hmem ha)) b c
  | setrange =>
    exact safe_arity4 fun a b c ha => safe_cmdSetrange (h.writers hcmd (by decide) a ha) b c
  | incr => exact safe_arity2 fun a ha _ => safe_cmdIncr (h.writers hcmd (by decide) a ha) _
  | decr => exact safe_arity2 fun a ha _ => safe_cmdIncr (h.writers hcmd (by decide) a ha) _
  | incrby => exact safe_arity3 fun a b ha => safe_cmdIncrBy (h.writers hcmd (by decide) a ha) _ b
  | decrby => exact safe_arity3 fun a b ha => safe_cmdIncrBy (h.writers hcmd (by decide) a ha) _ b
  | mset =>
    exact all_ite ((safe_msetLoop _ (h.mset hcmd)).bind fun _ =>
      safe_logWrite.bind fun _ => all_pure _) (all_pure _)
  | mget =>
    refine safe_arityMany fun a rest hd => ?_
    have hkeys := h.readers hcmd (by decide)
    rw [hd] at hkeys
    exact (safe_mgetLoop _ hkeys).bind fun _ => all_pure _
  | del =>
    refine safe_arityMany fun a rest hd => ?_
    have hkeys := h.deleters hcmd (by decide)
    rw [hd] at hkeys
    exact safe_cmdDel _ hkeys
  | unlink =>
    refine safe_arityMany fun a rest hd => ?_
    have hkeys := h.deleters hcmd (by decide)
    rw [hd] at hkeys
    exact safe_cmdDel _ hkeys
  | exists_ =>
    refine safe_arityMany fun a rest hd => ?_
    have hkeys := h.readers hcmd (by decide)
    rw [hd] at hkeys
    exact (safe_existsLoop _ hkeys).bind fun _ => all_pure _
  | expire =>
    exact safe_arity3 fun a b ha => safe_cmdExpire (h.writers hcmd (by decide) a ha) b _ _
  | pexpire =>
    exact safe_arity3 fun a b ha => safe_cmdExpire (h.writers hcmd (by decide) a ha) b _ _
  | expireat =>
    exact safe_arity3 fun a b ha => safe_cmdExpire (h.writers hcmd (by decide) a ha) b _ _
  | pexpireat =>
    exact safe_arity3 fun a b ha => safe_cmdExpire (h.writers hcmd (by decide) a ha) b _ _
  | ttl => exact safe_arity2 fun a ha _ => safe_cmdTtl (h.readers hcmd (by decide) a (hmem ha)) _
  | pttl => exact safe_arity2 fun a ha _ => safe_cmdTtl (h.readers hcmd (by decide) a (hmem ha)) _
  | persist => exact safe_arity2 fun a ha _ => safe_cmdPersist (h.writers hcmd (by decide) a ha)
  | type => exact safe_arity2 fun a ha _ => safe_cmdType (h.readers hcmd (by decide) a (hmem ha))
  | keys => exact safe_arity2 fun a _ _ => safe_cmdKeys a
  | scan =>
    exact safe_arityMany (f := fun rest => cmdScan (rest.drop 1)) fun a rest _ =>
      (safe_cmdKeys _).bind fun _ => all_pure _
  | echo => exact safe_arity2 fun a _ _ => all_pure _
  | reset => exact safe_discard.bind fun _ => all_pure _
  | dbsize => exact (all_perform (e := .countLive) trivial).bind fun _ => all_pure _
  | flushdb => exact (all_perform (e := .clear) trivial).bind fun _ => all_pure _
  | flushall => exact (all_perform (e := .clear) trivial).bind fun _ => all_pure _
  | multi => exact safe_cmdMulti
  | discard => exact safe_cmdDiscard
  | watch => exact safe_arityMany fun a rest _ => safe_cmdWatch _
  | unwatch =>
    intro s hs
    exact hs
  | save => exact safe_cmdSave
  | bgsave => exact safe_cmdSave
  | lastsave => exact (all_perform (e := .lastSaveMs) trivial).bind fun _ => all_pure _
  | _ => exact all_pure _

theorem safe_execBasic {args : List Bytes} (h : Locks locks args) :
    Safe locks (execBasic raw args) := by
  unfold execBasic
  split
  · exact safe_execNamed h ‹_›
  · exact all_pure _

/-- The lock set of a queue covers every queued command. -/
theorem safe_execQueued (queued : List Bytes) (h : ∀ x ∈ lockKeys queued, x ∈ locks) :
    Safe locks (execQueued queued) := by
  induction queued with
  | nil => exact all_pure _
  | cons q rest ih =>
    have hrest : Safe locks (execQueued rest) := by
      refine ih fun x hx => h x ?_
      exact List.mem_append_right _ hx
    have hjoin : ∀ reply : Bytes, Safe locks (do return reply ++ (← execQueued rest)) :=
      fun _ => hrest.bind fun _ => all_pure _
    unfold execQueued
    dsimp only
    split
    · rename_i args hargs
      refine All.bind (safe_execBasic fun x hx => h x ?_) hjoin
      refine List.mem_append_left _ ?_
      simp only [hargs]
      exact hx
    · exact (all_pure _).bind hjoin

end Covered

end Garnet
