import MiniGarnet.Garnet.StoreCalls

/-! # Key-addressed commands

    Once its arguments are parsed, a command on one key makes one store call,
    does the bookkeeping of a write or not, and replies; which of these
    depends on the status and the output of the call.  `KeyCommand` is that
    table, and `execNamed_eq` says that the handlers do what it says.  MSET,
    MGET, DEL and EXISTS loop over their keys.
-/

namespace Garnet

open Tsavorite (Status)

/-! ## Section 1: Commands on one key -/

/-- A command on one key, with its parsed arguments. -/
inductive KeyCommand where
  | get
  | strlen
  | getrange (start stop : Int64)
  | ttl (ms : Bool)
  | type
  | set (value : Bytes) (options : SetOpts)
  | setnx (value : Bytes)
  | setex (value : Bytes) (expiration : Int64)
  | getset (value : Bytes)
  | getdel
  | getex (expiration : Int64)
  | incr (delta : Int64)
  | append (value : Bytes)
  | setrange (offset : ℕ) (value : Bytes)
  | expire (expiration : Int64)
  | persist
  deriving Repr

/-- The three calls that take an input. -/
inductive CallKind where
  | read
  | upsert
  | rmw
  deriving DecidableEq, Repr

namespace KeyCommand

def input (c : KeyCommand) (nowMs : Int64) : StringInput :=
  match c with
  | .get => .read .get nowMs
  | .strlen => .read .strlen nowMs
  | .getrange start stop => .read (.getRange start stop) nowMs
  | .ttl ms => .read (.ttl ms) nowMs
  | .type => .read .exists_ nowMs
  | .set value options => ⟨options.op, value, 0, options.expiration, nowMs⟩
  | .setnx value => .simple .setNx value nowMs
  | .setex value expiration => ⟨.set, value, 0, expiration, nowMs⟩
  | .getset value => .simple (.setGet false) value nowMs
  | .getdel => .read .getDel nowMs
  | .getex expiration => ⟨.getEx, [], 0, expiration, nowMs⟩
  | .incr delta => ⟨.incrBy, [], delta, 0, nowMs⟩
  | .append value => ⟨.append, value, 0, 0, nowMs⟩
  | .setrange offset value => ⟨.setRange offset, value, 0, 0, nowMs⟩
  | .expire expiration => ⟨.expire, [], 0, expiration, nowMs⟩
  | .persist => ⟨.persist, [], 0, 0, nowMs⟩

def kind : KeyCommand → CallKind
  | .get | .strlen | .getrange _ _ | .ttl _ | .type => .read
  | .set _ options => if options.op = .set then .upsert else .rmw
  | .setex _ _ => .upsert
  | _ => .rmw

/-- Are the bytes of the output cleared before the call? -/
def clears : KeyCommand → Bool
  | .getdel | .getex _ => true
  | _ => false

/-- Is the command taken for a write, and so announced and logged? -/
def writes (c : KeyCommand) (status : Status) (out : StringOutput) : Bool :=
  match c with
  | .get | .strlen | .getrange _ _ | .ttl _ | .type => false
  | .setnx _ => decide (status = .created)
  | .setex _ _ | .getset _ => true
  | .getdel => decide (status = .deleted)
  | .persist => status.isUpdated && out.hasInt && decide (out.int = 1)
  | _ => status.isUpdated

def reply (c : KeyCommand) (status : Status) (out : StringOutput) : Bytes :=
  match c with
  | .get => if status = .found then Resp.bulk out.bytes else Resp.NULL_BULK
  | .strlen => if status = .found then Resp.integer out.int else Resp.integer 0
  | .getrange _ _ => if status = .found then Resp.bulk out.bytes else Resp.bulk []
  | .ttl _ => if status = .found then Resp.integer out.int else Resp.integer (-2)
  | .type => if status = .found then Resp.simple "string" else Resp.simple "none"
  | .set _ options =>
    if options.get then
      if out.hasBytes then Resp.bulk out.bytes else Resp.NULL_BULK
    else if options.op = .set ∨ status.isUpdated then Resp.OK
    else Resp.NULL_BULK
  | .setnx _ => Resp.integer (if status = .created then 1 else 0)
  | .setex _ _ => Resp.OK
  | .getset _ => if out.hasBytes then Resp.bulk out.bytes else Resp.NULL_BULK
  | .getdel => if status = .deleted then Resp.bulk out.bytes else Resp.NULL_BULK
  | .getex _ => if status.isUpdated then Resp.bulk out.bytes else Resp.NULL_BULK
  | .incr _ => if status.isUpdated then Resp.integer out.int else Resp.error NOT_AN_INTEGER
  | .append _ | .setrange _ _ =>
    if status.isUpdated then Resp.integer out.int else Resp.integer 0
  | .expire _ => Resp.integer (if status.isUpdated then 1 else 0)
  | .persist =>
    Resp.integer (if status.isUpdated && out.hasInt && decide (out.int = 1) then 1 else 0)

/-- The store call. -/
def call (c : KeyCommand) (key : Bytes) : Handler Status := do
  let nowMs := (← getThe RespSession).nowMs
  match c.kind with
  | .read => read key (c.input nowMs)
  | .upsert => upsert key (c.input nowMs)
  | .rmw => rmw key (c.input nowMs)

def exec (c : KeyCommand) (raw key : Bytes) : Handler Bytes := do
  if c.clears then clearBytes
  let status ← c.call key
  let out := (← getThe RespSession).outScratch
  if c.writes status out then afterWrite key raw
  return c.reply status out

end KeyCommand

/-! ## Section 2: Parsed arguments -/

/-- What the arguments of a key-addressed command come to. -/
inductive Parsed where
  /-- Nothing but a reply: an error. -/
  | reply (b : Bytes)
  | one (key : Bytes) (c : KeyCommand)
  | mset (pairs : List Bytes)
  | mget (keys : List Bytes)
  | del (keys : List Bytes)
  | exists_ (keys : List Bytes)
  deriving Repr

def Parsed.exec (raw : Bytes) : Parsed → Handler Bytes
  | .reply b => pure b
  | .one key c => c.exec raw key
  | .mset pairs => cmdMset raw pairs
  | .mget keys => cmdMget keys
  | .del keys => cmdDel raw keys
  | .exists_ keys => cmdExists keys

section Parsing

variable (args : List Bytes) (nowMs : Int64)

/-- Behind the guard `args.len() == 2`. -/
def parsed2 (f : Bytes → Parsed) : Parsed :=
  match args with
  | [_, a] => f a
  | _ => .reply (unknownCommand args)

def parsed3 (f : Bytes → Bytes → Parsed) : Parsed :=
  match args with
  | [_, a, b] => f a b
  | _ => .reply (unknownCommand args)

def parsed4 (f : Bytes → Bytes → Bytes → Parsed) : Parsed :=
  match args with
  | [_, a, b, c] => f a b c
  | _ => .reply (unknownCommand args)

def parsedMany (f : List Bytes → Parsed) : Parsed :=
  match args with
  | _ :: a :: rest => f (a :: rest)
  | _ => .reply (unknownCommand args)

/-- An integer argument. -/
def withInt (arg : Bytes) (f : Int64 → Parsed) : Parsed :=
  match Resp.parseI64 arg with
  | some i => f i
  | none => .reply (Resp.error NOT_AN_INTEGER)

def parsedSet : Parsed :=
  match args with
  | _ :: key :: value :: rest =>
    match parseSetOpts rest nowMs with
    | .error e => .reply (Resp.error e)
    | .ok options => .one key (.set value options)
  | _ => .reply (Resp.error "ERR wrong number of arguments for 'set' command")

def parsedSetex (ms : Bool) (key time value : Bytes) : Parsed :=
  match (Resp.parseI64 time).filter fun t => 0 < t with
  | none => .reply (Resp.error "ERR invalid expire time in 'setex' command")
  | some t => .one key (.setex value (nowMs + if ms then t else t * 1000))

def parsedGetex (key : Bytes) (opts : List Bytes) : Parsed :=
  if opts = [] then .one key .get
  else
    match getexLoop nowMs opts 0 with
    | .error e => .reply (Resp.error e)
    | .ok expiration => .one key (.getex expiration)

def parsedSetrange (key offset value : Bytes) : Parsed :=
  match (Resp.parseI64 offset).filter fun o => 0 ≤ o with
  | none => .reply (Resp.error "ERR offset is out of range")
  | some off => .one key (.setrange off.toInt.toNat value)

def parsedGetrange (key start stop : Bytes) : Parsed :=
  match Resp.parseI64 start, Resp.parseI64 stop with
  | some s, some e => .one key (.getrange s e)
  | _, _ => .reply (Resp.error NOT_AN_INTEGER)

def parsedExpire (unit : Int64) (at_ : Bool) (key time : Bytes) : Parsed :=
  withInt time fun t => .one key (.expire (if at_ then t * unit else nowMs + t * unit))

/-- The key-addressed commands; `none` for the others. -/
def parseKeyed (cmd : CommandName) : Option Parsed :=
  match cmd with
  | .get => some (parsed2 args fun key => .one key .get)
  | .set => some (parsedSet args nowMs)
  | .setnx => some (parsed3 args fun key value => .one key (.setnx value))
  | .setex => some (parsed4 args (parsedSetex nowMs false))
  | .psetex => some (parsed4 args (parsedSetex nowMs true))
  | .getset => some (parsed3 args fun key value => .one key (.getset value))
  | .getdel => some (parsed2 args fun key => .one key .getdel)
  | .getex => some (parsedMany args fun rest => parsedGetex nowMs (rest.headD []) (rest.drop 1))
  | .append => some (parsed3 args fun key value => .one key (.append value))
  | .strlen => some (parsed2 args fun key => .one key .strlen)
  | .getrange | .substr => some (parsed4 args parsedGetrange)
  | .setrange => some (parsed4 args parsedSetrange)
  | .incr => some (parsed2 args fun key => .one key (.incr 1))
  | .decr => some (parsed2 args fun key => .one key (.incr (-1)))
  | .incrby => some (parsed3 args fun key d => withInt d fun d => .one key (.incr d))
  | .decrby => some (parsed3 args fun key d => withInt d fun d => .one key (.incr (-d)))
  | .mset =>
    some (if 3 ≤ args.length ∧ args.length % 2 = 1 then .mset (args.drop 1)
      else .reply (unknownCommand args))
  | .mget => some (parsedMany args .mget)
  | .del | .unlink => some (parsedMany args .del)
  | .exists_ => some (parsedMany args .exists_)
  | .expire => some (parsed3 args (parsedExpire nowMs 1000 false))
  | .pexpire => some (parsed3 args (parsedExpire nowMs 1 false))
  | .expireat => some (parsed3 args (parsedExpire nowMs 1000 true))
  | .pexpireat => some (parsed3 args (parsedExpire nowMs 1 true))
  | .ttl => some (parsed2 args fun key => .one key (.ttl false))
  | .pttl => some (parsed2 args fun key => .one key (.ttl true))
  | .persist => some (parsed2 args fun key => .one key .persist)
  | .type => some (parsed2 args fun key => .one key .type)
  | _ => none

end Parsing

/-! ## Section 3: The handlers do what the table says -/

section Handlers

variable (raw key : Bytes) (s : RespSession)

theorem cmdGet_eq : cmdGet key s = KeyCommand.get.exec raw key s := by
  show Program.op _ _ = Program.op _ _
  congr 1
  funext ⟨status, out⟩
  cases status <;> rfl

theorem cmdReadInt_eq : cmdReadInt key .strlen s = KeyCommand.strlen.exec raw key s := by
  show Program.op _ _ = Program.op _ _
  congr 1
  funext ⟨status, out⟩
  cases status <;> rfl

theorem cmdGetrange_eq (start stop : Bytes) :
    cmdGetrange key start stop s = (parsedGetrange key start stop).exec raw s := by
  unfold cmdGetrange parsedGetrange
  cases Resp.parseI64 start with
  | none => rfl
  | some i =>
    cases Resp.parseI64 stop with
    | none => rfl
    | some j =>
      show Program.op _ _ = Program.op _ _
      congr 1
      funext ⟨status, out⟩
      cases status <;> rfl

theorem cmdTtl_eq (ms : Bool) : cmdTtl key ms s = (KeyCommand.ttl ms).exec raw key s := by
  show Program.op _ _ = Program.op _ _
  congr 1
  funext ⟨status, out⟩
  cases status <;> rfl

theorem cmdType_eq : cmdType key s = KeyCommand.type.exec raw key s := by
  show Program.op _ _ = Program.op _ _
  congr 1

theorem cmdSetnx_eq (value : Bytes) :
    cmdSetnx raw key value s = (KeyCommand.setnx value).exec raw key s := by
  unfold cmdSetnx KeyCommand.exec KeyCommand.writes KeyCommand.reply
  simp only [decide_eq_true_eq]
  show Program.op _ _ = Program.op _ _
  congr 1

theorem cmdGetset_eq (value : Bytes) :
    cmdGetset raw key value s = (KeyCommand.getset value).exec raw key s := by
  show Program.op _ _ = Program.op _ _
  congr 1

theorem cmdGetdel_eq : cmdGetdel raw key s = KeyCommand.getdel.exec raw key s := by
  show Program.op _ _ = Program.op _ _
  congr 1
  funext ⟨status, out⟩
  cases status <;> rfl

theorem cmdIncr_eq (delta : Int64) :
    cmdIncr raw key delta s = (KeyCommand.incr delta).exec raw key s := by
  show Program.op _ _ = Program.op _ _
  congr 1
  funext ⟨status, out⟩
  cases status <;> rfl

theorem cmdAppend_eq (value : Bytes) :
    cmdRmwInt raw key .append value 0 s = (KeyCommand.append value).exec raw key s := by
  show Program.op _ _ = Program.op _ _
  congr 1
  funext ⟨status, out⟩
  cases status <;> rfl

theorem cmdSetrange_eq (offset : ℕ) (value : Bytes) :
    cmdRmwInt raw key (.setRange offset) value 0 s =
      (KeyCommand.setrange offset value).exec raw key s := by
  show Program.op _ _ = Program.op _ _
  congr 1
  funext ⟨status, out⟩
  cases status <;> rfl

theorem cmdPersist_eq : cmdPersist raw key s = KeyCommand.persist.exec raw key s := by
  show Program.op _ _ = Program.op _ _
  congr 1

theorem cmdSet_eq (args : List Bytes) :
    cmdSet raw args s = (parsedSet args s.nowMs).exec raw s := by
  rcases args with - | ⟨name, - | ⟨key, - | ⟨value, rest⟩⟩⟩
  · rfl
  · rfl
  · rfl
  · unfold cmdSet
    cases ho : parseSetOpts rest s.nowMs with
    | error e =>
      have hparsed : parsedSet (name :: key :: value :: rest) s.nowMs = .reply (Resp.error e) := by
        simp only [parsedSet, ho]
      rw [hparsed]
      show (match parseSetOpts rest s.nowMs with
        | .error e => pure (Resp.error e)
        | .ok _ => _ : Handler Bytes) s = _
      rw [ho]
      rfl
    | ok options =>
      have hparsed : parsedSet (name :: key :: value :: rest) s.nowMs =
          .one key (.set value options) := by
        simp only [parsedSet, ho]
      rw [hparsed]
      show (match parseSetOpts rest s.nowMs with
        | .error e => pure (Resp.error e)
        | .ok _ => _ : Handler Bytes) s = (KeyCommand.set value options).exec raw key s
      rw [ho]
      unfold KeyCommand.exec KeyCommand.call KeyCommand.kind
      by_cases hop : options.op = .set
      · simp only [if_pos hop]
        show Program.op _ _ = Program.op _ _
        congr 1
      · simp only [if_neg hop]
        show Program.op _ _ = Program.op _ _
        congr 1

theorem cmdSetex_eq (time value : Bytes) (ms : Bool) :
    cmdSetex raw key time value ms s = (parsedSetex s.nowMs ms key time value).exec raw s := by
  unfold cmdSetex parsedSetex
  cases (Resp.parseI64 time).filter fun t => 0 < t with
  | none => rfl
  | some t =>
    show Program.op _ _ = Program.op _ _
    congr 1

theorem cmdGetex_eq (opts : List Bytes) :
    cmdGetex raw key opts s = (parsedGetex s.nowMs key opts).exec raw s := by
  unfold cmdGetex parsedGetex
  by_cases hopts : opts = []
  · rw [if_pos hopts, if_pos hopts]
    exact cmdGet_eq raw key s
  · rw [if_neg hopts, if_neg hopts]
    show (match getexLoop s.nowMs opts 0 with
      | .error e => pure (Resp.error e)
      | .ok _ => _ : Handler Bytes) s = _
    cases getexLoop s.nowMs opts 0 with
    | error e => rfl
    | ok expiration =>
      show Program.op _ _ = Program.op _ _
      congr 1
      funext ⟨status, out⟩
      cases status <;> rfl

theorem cmdSetrange_parsed (offset value : Bytes) :
    cmdSetrange raw key offset value s = (parsedSetrange key offset value).exec raw s := by
  unfold cmdSetrange parsedSetrange
  cases (Resp.parseI64 offset).filter fun o => 0 ≤ o with
  | none => rfl
  | some off => exact cmdSetrange_eq raw key s off.toInt.toNat value

theorem cmdExpire_eq (time : Bytes) (unit : Int64) (at_ : Bool) :
    cmdExpire raw key time unit at_ s = (parsedExpire s.nowMs unit at_ key time).exec raw s := by
  unfold cmdExpire parsedExpire withInt
  cases Resp.parseI64 time with
  | none => rfl
  | some t =>
    show Program.op _ _ = Program.op _ _
    congr 1

theorem cmdIncrBy_eq (negate : Bool) (d : Bytes) :
    cmdIncrBy raw negate key d s =
      (withInt d fun d => .one key (.incr (if negate then -d else d))).exec raw s := by
  unfold cmdIncrBy withInt
  cases Resp.parseI64 d with
  | none => rfl
  | some d => exact cmdIncr_eq raw key s _

section Guards

variable {raw s} (args : List Bytes)

theorem arity2_eq {f : Bytes → Handler Bytes} {p : Bytes → Parsed}
    (h : ∀ a, f a s = (p a).exec raw s) : arity2 args f s = (parsed2 args p).exec raw s := by
  match args with
  | [_, a] => exact h a
  | [] | [_] | _ :: _ :: _ :: _ => rfl

theorem arity3_eq {f : Bytes → Bytes → Handler Bytes} {p : Bytes → Bytes → Parsed}
    (h : ∀ a b, f a b s = (p a b).exec raw s) : arity3 args f s = (parsed3 args p).exec raw s := by
  match args with
  | [_, a, b] => exact h a b
  | [] | [_] | [_, _] | _ :: _ :: _ :: _ :: _ => rfl

theorem arity4_eq {f : Bytes → Bytes → Bytes → Handler Bytes} {p : Bytes → Bytes → Bytes → Parsed}
    (h : ∀ a b c, f a b c s = (p a b c).exec raw s) :
    arity4 args f s = (parsed4 args p).exec raw s := by
  match args with
  | [_, a, b, c] => exact h a b c
  | [] | [_] | [_, _] | [_, _, _] | _ :: _ :: _ :: _ :: _ :: _ => rfl

theorem arityMany_eq {f : List Bytes → Handler Bytes} {p : List Bytes → Parsed}
    (h : ∀ rest, f rest s = (p rest).exec raw s) :
    arityMany args f s = (parsedMany args p).exec raw s := by
  match args with
  | _ :: a :: rest => exact h (a :: rest)
  | [] | [_] => rfl

end Guards

/-- The branches of `exec_command` for key-addressed commands do what their arguments come to. -/
theorem execNamed_eq {cmd : CommandName} {args : List Bytes} {p : Parsed}
    (h : parseKeyed args s.nowMs cmd = some p) : execNamed cmd raw args s = p.exec raw s := by
  cases cmd with
  | get => cases h; exact arity2_eq args fun key => cmdGet_eq raw key s
  | set => cases h; exact cmdSet_eq raw s args
  | setnx => cases h; exact arity3_eq args fun key value => cmdSetnx_eq raw key s value
  | setex => cases h; exact arity4_eq args fun key time value => cmdSetex_eq raw key s time value _
  | psetex => cases h; exact arity4_eq args fun key time value => cmdSetex_eq raw key s time value _
  | getset => cases h; exact arity3_eq args fun key value => cmdGetset_eq raw key s value
  | getdel => cases h; exact arity2_eq args fun key => cmdGetdel_eq raw key s
  | getex =>
    cases h
    exact arityMany_eq (f := fun rest => cmdGetex raw (rest.headD []) (rest.drop 1))
      (p := fun rest => parsedGetex s.nowMs (rest.headD []) (rest.drop 1)) args
      fun rest => cmdGetex_eq raw _ s _
  | append => cases h; exact arity3_eq args fun key value => cmdAppend_eq raw key s value
  | strlen => cases h; exact arity2_eq args fun key => cmdReadInt_eq raw key s
  | getrange | substr =>
    cases h; exact arity4_eq args fun key start stop => cmdGetrange_eq raw key s start stop
  | setrange =>
    cases h; exact arity4_eq args fun key offset value => cmdSetrange_parsed raw key s offset value
  | incr => cases h; exact arity2_eq args fun key => cmdIncr_eq raw key s 1
  | decr => cases h; exact arity2_eq args fun key => cmdIncr_eq raw key s (-1)
  | incrby => cases h; exact arity3_eq args fun key d => cmdIncrBy_eq raw key s false d
  | decrby => cases h; exact arity3_eq args fun key d => cmdIncrBy_eq raw key s true d
  | mset =>
    cases h
    unfold execNamed
    split <;> rfl
  | mget => cases h; exact arityMany_eq args fun rest => rfl
  | del => cases h; exact arityMany_eq args fun rest => rfl
  | unlink => cases h; exact arityMany_eq args fun rest => rfl
  | exists_ => cases h; exact arityMany_eq args fun rest => rfl
  | expire => cases h; exact arity3_eq args fun key time => cmdExpire_eq raw key s time _ _
  | pexpire => cases h; exact arity3_eq args fun key time => cmdExpire_eq raw key s time _ _
  | expireat => cases h; exact arity3_eq args fun key time => cmdExpire_eq raw key s time _ _
  | pexpireat => cases h; exact arity3_eq args fun key time => cmdExpire_eq raw key s time _ _
  | ttl => cases h; exact arity2_eq args fun key => cmdTtl_eq raw key s false
  | pttl => cases h; exact arity2_eq args fun key => cmdTtl_eq raw key s true
  | persist => cases h; exact arity2_eq args fun key => cmdPersist_eq raw key s
  | type => cases h; exact arity2_eq args fun key => cmdType_eq raw key s
  | _ => cases h

end Handlers

/-! ## Section 4: Runs -/

section Runs

variable {σ : Type} (handle : (e : Effect) → σ → e.Result × σ)

/-- The session the store call is made in. -/
def KeyCommand.prepared (c : KeyCommand) (s : RespSession) : RespSession :=
  if c.clears then { s with outScratch := { s.outScratch with bytes := [] } } else s

/-- What the store answers the call. -/
def KeyCommand.answer (c : KeyCommand) (key : Bytes) (s : RespSession) (st : σ) :
    (Status × StringOutput) × σ :=
  match c.kind with
  | .read => handle (.read key (c.input s.nowMs) s.outScratch) st
  | .upsert => handle (.upsert key (c.input s.nowMs) s.outScratch) st
  | .rmw => handle (.rmw key (c.input s.nowMs) s.outScratch) st

theorem KeyCommand.run_call (c : KeyCommand) (key : Bytes) (s : RespSession) (st : σ) :
    (c.call key s).run handle st =
      (((c.answer handle key s st).1.1, { s with outScratch := (c.answer handle key s st).1.2 }),
        (c.answer handle key s st).2) := by
  unfold KeyCommand.answer
  show ((match c.kind with
    | .read => read key (c.input s.nowMs)
    | .upsert => upsert key (c.input s.nowMs)
    | .rmw => rmw key (c.input s.nowMs)) s).run handle st = _
  cases c.kind <;> rfl

/-- A command on one key: the call, then the bookkeeping, then the reply. -/
theorem KeyCommand.run_exec (c : KeyCommand) (raw key : Bytes) (s : RespSession) (st : σ) :
    (c.exec raw key s).run handle st =
      let x := c.answer handle key (c.prepared s) st
      let s₁ := { c.prepared s with outScratch := x.1.2 }
      ((c.reply x.1.1 x.1.2, s₁),
        if c.writes x.1.1 x.1.2 then ((afterWrite key raw s₁).run handle x.2).2 else x.2) := by
  have hprepared : c.exec raw key s = (do
      let status ← c.call key
      let out := (← getThe RespSession).outScratch
      if c.writes status out then afterWrite key raw
      return c.reply status out : Handler Bytes) (c.prepared s) := by
    unfold KeyCommand.exec KeyCommand.prepared
    cases c.clears <;> rfl
  rw [hprepared, run_handler_bind, KeyCommand.run_call]
  generalize c.answer handle key (c.prepared s) st = x
  show ((if c.writes x.1.1 x.1.2 = true then afterWrite key raw >>= fun _ => pure _ else pure _ :
    Handler Bytes) _).run handle x.2 = _
  by_cases hwrites : c.writes x.1.1 x.1.2 = true
  · simp only [if_pos hwrites]
    rw [run_handler_bind]
    have hreturn := @run_afterWrite σ handle { c.prepared s with outScratch := x.1.2 } x.2 key raw
    rw [hreturn]
    rfl
  · simp only [if_neg hwrites]
    rfl

end Runs

end Garnet
