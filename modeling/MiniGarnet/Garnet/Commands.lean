import MiniGarnet.Garnet.Resp
import MiniGarnet.Lib.Program
import MiniGarnet.Tsavorite.Store

/-! # Command dispatch

    `commands.rs`.  A session is its transaction state, the clock of the
    command it executes and its output scratch; everything a handler does to
    the shared state is an operation of its program (`Effect`), performed one
    after another: calls of the store, bumps and loads of the watch table,
    log entries, the two transaction calls.  A handler returns the bytes it
    appends to the send buffer.

    `aof.wait_committed` only waits and is left out.
-/

namespace Garnet

open Tsavorite (Status hash64)

/-! ## Section 1: Inputs and outputs of store calls -/

inductive StringOp where
  | get
  | getRange (start stop : Int64)
  | strlen
  | ttl (ms : Bool)
  | set
  | setKeepTtl
  | setNx
  | setXx
  | setGet (keepTtl : Bool)
  | incrBy
  | append
  | setRange (offset : ℕ)
  | getDel
  | getEx
  | exists_
  | expire
  | persist
  deriving DecidableEq, Repr

structure StringInput where
  op : StringOp
  operand : Bytes
  delta : Int64
  expiration : Int64
  nowMs : Int64
  deriving DecidableEq, Repr

def StringInput.simple (op : StringOp) (operand : Bytes) (nowMs : Int64) : StringInput :=
  ⟨op, operand, 0, 0, nowMs⟩

/-- `StringInput::read` -/
def StringInput.read (op : StringOp) (nowMs : Int64) : StringInput := .simple op [] nowMs

structure StringOutput where
  bytes : Bytes
  hasBytes : Bool
  int : Int64
  hasInt : Bool
  deriving DecidableEq, Repr

/-- `StringOutput::default` -/
def StringOutput.default : StringOutput := ⟨[], false, 0, false⟩

inductive LockType where
  | shared
  | exclusive
  deriving DecidableEq, Repr

/-! ## Section 2: Operations on the shared state -/

inductive Effect where
  | read (key : Bytes) (input : StringInput) (out : StringOutput)
  | upsert (key : Bytes) (input : StringInput) (out : StringOutput)
  | rmw (key : Bytes) (input : StringInput) (out : StringOutput)
  | delete (key : Bytes)
  /-- `watch.bump` -/
  | bump (key : Bytes)
  /-- `watch.slot_version` -/
  | slotVersion (key : Bytes)
  /-- `watch.version_at` -/
  | versionAt (slot : ℕ)
  /-- `aof.enqueue` -/
  | enqueue (entry : AofEntry)
  | txnLock (keys : List (Bytes × LockType))
  | txnUnlock
  /-- `store.count_live` -/
  | countLive
  /-- `store.scan_live`, with the keys that match the pattern. -/
  | scanLive (pattern : Bytes)
  /-- `store.index.clear` -/
  | clear
  /-- `shared.checkpoint`, with the text of its error. -/
  | checkpoint
  /-- `shared.last_save_ms` -/
  | lastSaveMs
  deriving DecidableEq, Repr

@[reducible] def Effect.Result : Effect → Type
  | .read .. | .upsert .. | .rmw .. => Status × StringOutput
  | .delete _ => Status
  | .bump _ | .enqueue _ | .txnLock _ | .txnUnlock | .clear => Unit
  | .slotVersion _ => ℕ × ℕ
  | .versionAt _ => ℕ
  | .countLive => ℕ
  | .scanLive _ => List Bytes
  | .checkpoint => Option Bytes
  | .lastSaveMs => Int64

/-- The slot of a key in the watch table of `2 ^ 14` counters. -/
def watchSlot (key : Bytes) : ℕ := hash64 key &&& (2 ^ 14 - 1)

/-! ## Section 3: The session -/

structure TxnState where
  inMulti : Bool
  /-- A queued command failed to validate; EXEC will abort. -/
  dirty : Bool
  queued : List Bytes
  /-- Watched (slot, version at WATCH). -/
  watches : List (ℕ × ℕ)
  deriving DecidableEq, Repr

/-- `TxnState::default` -/
def TxnState.default : TxnState := ⟨false, false, [], []⟩

structure RespSession where
  txn : TxnState
  /-- Clock of the command currently executing. -/
  nowMs : Int64
  /-- True while replaying the log. -/
  replay : Bool
  outScratch : StringOutput
  /-- `shared.aof.is_some()` -/
  aof : Bool
  deriving DecidableEq, Repr

def RespSession.new (aof : Bool) : RespSession := ⟨.default, 0, false, .default, aof⟩

inductive Action where
  | continue_
  | close
  deriving DecidableEq, Repr

/-- A program with access to the session. -/
abbrev Handler : Type → Type := StateT RespSession (Program Effect Effect.Result)

/-- Perform one operation on the shared state. -/
def perform (e : Effect) : Handler e.Result := StateT.lift (Program.perform e)

def read (key : Bytes) (input : StringInput) : Handler Status := do
  let s ← get
  let (status, out) ← perform (.read key input s.outScratch)
  set { s with outScratch := out }
  return status

def upsert (key : Bytes) (input : StringInput) : Handler Status := do
  let s ← get
  let (status, out) ← perform (.upsert key input s.outScratch)
  set { s with outScratch := out }
  return status

def rmw (key : Bytes) (input : StringInput) : Handler Status := do
  let s ← get
  let (status, out) ← perform (.rmw key input s.outScratch)
  set { s with outScratch := out }
  return status

/-- `output.bytes.clear()` -/
def clearBytes : Handler Unit :=
  modify fun s => { s with outScratch := { s.outScratch with bytes := [] } }

def logWrite (raw : Bytes) : Handler Unit := do
  let s ← get
  if s.replay then return ()
  else if s.aof then perform (.enqueue ⟨.command, s.nowMs, raw⟩)
  else return ()

/-- Invalidate anyone watching the key, then append the command to the log. -/
def afterWrite (key raw : Bytes) : Handler Unit := do
  let _ ← perform (.bump key)
  logWrite raw

/-! ## Section 4: Options -/

def asciiUpper (b : UInt8) : UInt8 := if 97 ≤ b ∧ b ≤ 122 then b - 32 else b

/-- `opt.eq_ignore_ascii_case(b"…")`, for an upper-case literal. -/
def eqIgnoreCase (opt : Bytes) (literal : String) : Bool := opt.map asciiUpper = ascii literal

def NOT_AN_INTEGER : String := "ERR value is not an integer or out of range"

def SYNTAX_ERROR : String := "ERR syntax error"

/-- `EX | PX | EXAT | PXAT` -/
def isExpiryKeyword (opt : Bytes) : Bool :=
  eqIgnoreCase opt "EX" || eqIgnoreCase opt "PX" || eqIgnoreCase opt "EXAT" ||
    eqIgnoreCase opt "PXAT"

/-- The deadline an expiry argument stands for, in `i64` arithmetic. -/
def expireAtMs (keyword : Bytes) (t nowMs : Int64) : Int64 :=
  if eqIgnoreCase keyword "EX" then nowMs + t * 1000
  else if eqIgnoreCase keyword "PX" then nowMs + t
  else if eqIgnoreCase keyword "EXAT" then t * 1000
  else t

structure SetOpts where
  expiration : Int64
  nx : Bool
  xx : Bool
  get : Bool
  keepTtl : Bool
  deriving DecidableEq, Repr

/-- The loop of `parse_set_opts`. -/
def setOptsLoop (nowMs : Int64) : List Bytes → SetOpts → Except String SetOpts
  | [], o => .ok o
  | opt :: rest, o =>
    if eqIgnoreCase opt "NX" then setOptsLoop nowMs rest { o with nx := true }
    else if eqIgnoreCase opt "XX" then setOptsLoop nowMs rest { o with xx := true }
    else if eqIgnoreCase opt "GET" then setOptsLoop nowMs rest { o with get := true }
    else if eqIgnoreCase opt "KEEPTTL" then setOptsLoop nowMs rest { o with keepTtl := true }
    else if isExpiryKeyword opt then
      match rest with
      | [] => .error SYNTAX_ERROR
      | arg :: rest' =>
        match Resp.parseI64 arg with
        | none => .error NOT_AN_INTEGER
        | some t => setOptsLoop nowMs rest' { o with expiration := expireAtMs opt t nowMs }
    else .error SYNTAX_ERROR

def parseSetOpts (args : List Bytes) (nowMs : Int64) : Except String SetOpts :=
  match setOptsLoop nowMs args ⟨0, false, false, false, false⟩ with
  | .error e => .error e
  | .ok o => if o.nx && o.xx then .error SYNTAX_ERROR else .ok o

/-- The option loop of `cmd_getex`; the result is the new deadline. -/
def getexLoop (nowMs : Int64) : List Bytes → Int64 → Except String Int64
  | [], e => .ok e
  | opt :: rest, e =>
    if eqIgnoreCase opt "PERSIST" then getexLoop nowMs rest e
    else if isExpiryKeyword opt then
      match rest with
      | [] => .error SYNTAX_ERROR
      | arg :: rest' =>
        match Resp.parseI64 arg with
        | none => .error NOT_AN_INTEGER
        | some t => getexLoop nowMs rest' (expireAtMs opt t nowMs)
    else .error SYNTAX_ERROR

/-! ## Section 5: String commands -/

def cmdGet (key : Bytes) : Handler Bytes := do
  let status ← read key (.read .get (← get).nowMs)
  if status = .found then return Resp.bulk (← get).outScratch.bytes else return Resp.NULL_BULK

def cmdReadInt (key : Bytes) (op : StringOp) : Handler Bytes := do
  let status ← read key (.read op (← get).nowMs)
  if status = .found then return Resp.integer (← get).outScratch.int else return Resp.integer 0

def cmdGetrange (key start stop : Bytes) : Handler Bytes := do
  match Resp.parseI64 start, Resp.parseI64 stop with
  | some s, some e =>
    let status ← read key (.read (.getRange s e) (← get).nowMs)
    if status = .found then return Resp.bulk (← get).outScratch.bytes else return Resp.bulk []
  | _, _ => return Resp.error NOT_AN_INTEGER

/-- The operation of a SET with these options. -/
def SetOpts.op (o : SetOpts) : StringOp :=
  if o.get then .setGet o.keepTtl
  else if o.nx then .setNx
  else if o.xx then .setXx
  else if o.keepTtl then .setKeepTtl
  else .set

def cmdSet (raw : Bytes) (args : List Bytes) : Handler Bytes := do
  match args with
  | _ :: key :: value :: rest =>
    let nowMs := (← get).nowMs
    match parseSetOpts rest nowMs with
    | .error e => return Resp.error e
    | .ok options =>
      let op := options.op
      let input : StringInput := ⟨op, value, 0, options.expiration, nowMs⟩
      -- plain SET is a blind write; the other forms inspect the current record
      let status ← if op = .set then upsert key input else rmw key input
      let output := (← get).outScratch
      let reply :=
        if options.get then
          if output.hasBytes then Resp.bulk output.bytes else Resp.NULL_BULK
        else if op = .set ∨ status.isUpdated then Resp.OK
        else Resp.NULL_BULK
      if status.isUpdated then afterWrite key raw
      return reply
  | _ => return Resp.error "ERR wrong number of arguments for 'set' command"

def cmdSetnx (raw key value : Bytes) : Handler Bytes := do
  let status ← rmw key (.simple .setNx value (← get).nowMs)
  let isSet := decide (status = .created)
  if isSet then afterWrite key raw
  return Resp.integer (if isSet then 1 else 0)

def cmdSetex (raw key time value : Bytes) (ms : Bool) : Handler Bytes := do
  match (Resp.parseI64 time).filter fun t => 0 < t with
  | none => return Resp.error "ERR invalid expire time in 'setex' command"
  | some t =>
    let nowMs := (← get).nowMs
    let expiration := nowMs + if ms then t else t * 1000
    let _ ← upsert key ⟨.set, value, 0, expiration, nowMs⟩
    afterWrite key raw
    return Resp.OK

def cmdGetset (raw key value : Bytes) : Handler Bytes := do
  let _ ← rmw key (.simple (.setGet false) value (← get).nowMs)
  let output := (← get).outScratch
  afterWrite key raw
  return if output.hasBytes then Resp.bulk output.bytes else Resp.NULL_BULK

def cmdGetdel (raw key : Bytes) : Handler Bytes := do
  clearBytes
  let status ← rmw key (.read .getDel (← get).nowMs)
  if status = .deleted then
    let output := (← get).outScratch
    afterWrite key raw
    return Resp.bulk output.bytes
  else return Resp.NULL_BULK

def cmdGetex (raw key : Bytes) (opts : List Bytes) : Handler Bytes := do
  if opts = [] then cmdGet key
  else
    let nowMs := (← get).nowMs
    match getexLoop nowMs opts 0 with
    | .error e => return Resp.error e
    | .ok expiration =>
      clearBytes
      let status ← rmw key ⟨.getEx, [], 0, expiration, nowMs⟩
      if status.isUpdated then
        let output := (← get).outScratch
        afterWrite key raw
        return Resp.bulk output.bytes
      else return Resp.NULL_BULK

def cmdIncr (raw key : Bytes) (delta : Int64) : Handler Bytes := do
  let status ← rmw key ⟨.incrBy, [], delta, 0, (← get).nowMs⟩
  if status.isUpdated then
    let output := (← get).outScratch
    afterWrite key raw
    return Resp.integer output.int
  else return Resp.error NOT_AN_INTEGER

def cmdRmwInt (raw key : Bytes) (op : StringOp) (operand : Bytes) (delta : Int64) :
    Handler Bytes := do
  let status ← rmw key ⟨op, operand, delta, 0, (← get).nowMs⟩
  if status.isUpdated then
    let output := (← get).outScratch
    afterWrite key raw
    return Resp.integer output.int
  else return Resp.integer 0

def cmdSetrange (raw key offset value : Bytes) : Handler Bytes := do
  match (Resp.parseI64 offset).filter fun o => 0 ≤ o with
  | none => return Resp.error "ERR offset is out of range"
  | some off => cmdRmwInt raw key (.setRange off.toInt.toNat) value 0

/-- The loop of `cmd_mset` over the (key, value) pairs. -/
def msetLoop : List Bytes → Handler Unit
  | key :: value :: rest => do
    let _ ← upsert key (.simple .set value (← get).nowMs)
    let _ ← perform (.bump key)
    msetLoop rest
  | _ => return ()

def cmdMset (raw : Bytes) (pairs : List Bytes) : Handler Bytes := do
  msetLoop pairs
  logWrite raw
  return Resp.OK

def mgetLoop : List Bytes → Handler Bytes
  | [] => return []
  | key :: rest => do
    let reply ← cmdGet key
    return reply ++ (← mgetLoop rest)

def cmdMget (keys : List Bytes) : Handler Bytes := do
  return Resp.arrayHeader keys.length ++ (← mgetLoop keys)

/-! ## Section 6: Generic commands -/

/-- The loop of `cmd_del`; the result is the number of deleted keys. -/
def delLoop : List Bytes → Handler ℕ
  | [] => return 0
  | key :: rest => do
    let status : Status ← perform (.delete key)
    if status = .deleted then
      let _ ← perform (.bump key)
      return (← delLoop rest) + 1
    else delLoop rest

def cmdDel (raw : Bytes) (keys : List Bytes) : Handler Bytes := do
  let n ← delLoop keys
  if 0 < n then logWrite raw
  return Resp.integer (Int64.ofNat n)

def existsLoop : List Bytes → Handler ℕ
  | [] => return 0
  | key :: rest => do
    let status ← read key (.read .exists_ (← get).nowMs)
    let n ← existsLoop rest
    return if status = .found then n + 1 else n

def cmdExists (keys : List Bytes) : Handler Bytes := do
  return Resp.integer (Int64.ofNat (← existsLoop keys))

def cmdExpire (raw key time : Bytes) (unit : Int64) (at_ : Bool) : Handler Bytes := do
  match Resp.parseI64 time with
  | none => return Resp.error NOT_AN_INTEGER
  | some t =>
    let nowMs := (← get).nowMs
    let expiration := if at_ then t * unit else nowMs + t * unit
    let status ← rmw key ⟨.expire, [], 0, expiration, nowMs⟩
    if status.isUpdated then afterWrite key raw
    return Resp.integer (if status.isUpdated then 1 else 0)

def cmdTtl (key : Bytes) (ms : Bool) : Handler Bytes := do
  let status ← read key (.read (.ttl ms) (← get).nowMs)
  if status = .found then return Resp.integer (← get).outScratch.int else return Resp.integer (-2)

def cmdPersist (raw key : Bytes) : Handler Bytes := do
  let status ← rmw key ⟨.persist, [], 0, 0, (← get).nowMs⟩
  let output := (← get).outScratch
  let removed := status.isUpdated && output.hasInt && decide (output.int = 1)
  if removed then afterWrite key raw
  return Resp.integer (if removed then 1 else 0)

def cmdType (key : Bytes) : Handler Bytes := do
  let status ← read key (.read .exists_ (← get).nowMs)
  return if status = .found then Resp.simple "string" else Resp.simple "none"

def cmdKeys (pattern : Bytes) : Handler Bytes := do
  let keys : List Bytes ← perform (.scanLive pattern)
  return Resp.arrayHeader keys.length ++ (keys.map Resp.bulk).flatten

/-- The option loop of `cmd_scan`: the last MATCH wins. -/
def scanPattern : List Bytes → Bytes → Bytes
  | name :: value :: rest, pattern =>
    scanPattern rest (if eqIgnoreCase name "MATCH" then value else pattern)
  | _, pattern => pattern

def cmdScan (options : List Bytes) : Handler Bytes := do
  return Resp.arrayHeader 2 ++ Resp.bulk (ascii "0") ++
    (← cmdKeys (scanPattern options (ascii "*")))

def cmdHello : Bytes :=
  Resp.arrayHeader 6 ++ Resp.bulk (ascii "server") ++ Resp.bulk (ascii "mini-garnet") ++
    Resp.bulk (ascii "version") ++ Resp.bulk (ascii "0.1.0") ++ Resp.bulk (ascii "proto") ++
    Resp.integer 2

/-! ## Section 7: Command names -/

/-- Longest command name that is recognised. -/
def MAX_CMD_NAME : ℕ := 24

/-- The name in upper case. -/
def commandName (arg : Bytes) : Bytes := (arg.take MAX_CMD_NAME).map asciiUpper

inductive CommandName where
  | ping | echo | quit | select | hello | command | config | client | info | reset | dbsize
  | flushdb | flushall | get | set | setnx | setex | psetex | getset | getdel | getex | append
  | strlen | getrange | substr | setrange | incr | decr | incrby | decrby | mset | mget | del
  | unlink | exists_ | expire | pexpire | expireat | pexpireat | ttl | pttl | persist | type
  | keys | scan | multi | exec | discard | watch | unwatch | save | bgsave | bgrewriteaof
  | lastsave | subscribe | unsubscribe | psubscribe
  deriving DecidableEq, Repr

/-- The names that occur in the source. -/
def commandNames : List (String × CommandName) :=
  [("PING", .ping), ("ECHO", .echo), ("QUIT", .quit), ("SELECT", .select), ("HELLO", .hello),
   ("COMMAND", .command), ("CONFIG", .config), ("CLIENT", .client), ("INFO", .info),
   ("RESET", .reset), ("DBSIZE", .dbsize), ("FLUSHDB", .flushdb), ("FLUSHALL", .flushall),
   ("GET", .get), ("SET", .set), ("SETNX", .setnx), ("SETEX", .setex), ("PSETEX", .psetex),
   ("GETSET", .getset), ("GETDEL", .getdel), ("GETEX", .getex), ("APPEND", .append),
   ("STRLEN", .strlen), ("GETRANGE", .getrange), ("SUBSTR", .substr), ("SETRANGE", .setrange),
   ("INCR", .incr), ("DECR", .decr), ("INCRBY", .incrby), ("DECRBY", .decrby), ("MSET", .mset),
   ("MGET", .mget), ("DEL", .del), ("UNLINK", .unlink), ("EXISTS", .exists_),
   ("EXPIRE", .expire), ("PEXPIRE", .pexpire), ("EXPIREAT", .expireat),
   ("PEXPIREAT", .pexpireat), ("TTL", .ttl), ("PTTL", .pttl), ("PERSIST", .persist),
   ("TYPE", .type), ("KEYS", .keys), ("SCAN", .scan), ("MULTI", .multi), ("EXEC", .exec),
   ("DISCARD", .discard), ("WATCH", .watch), ("UNWATCH", .unwatch), ("SAVE", .save),
   ("BGSAVE", .bgsave), ("BGREWRITEAOF", .bgrewriteaof), ("LASTSAVE", .lastsave),
   ("SUBSCRIBE", .subscribe), ("UNSUBSCRIBE", .unsubscribe), ("PSUBSCRIBE", .psubscribe)]

def CommandName.ofBytes (name : Bytes) : Option CommandName :=
  (commandNames.find? fun x => ascii x.1 = name).map (·.2)

/-- The command an argument list starts with. -/
def commandOf (args : List Bytes) : Option CommandName :=
  CommandName.ofBytes (commandName (args.headD []))

def unknownCommand (args : List Bytes) : Bytes :=
  let name := args.headD []
  Resp.errorBytes (ascii "ERR unknown command '" ++ Resp.utf8Lossy name.length name ++
    ascii "' or wrong number of arguments")

/-! ## Section 8: Transactions -/

/-- The argument byte strings of a RESP command stored as raw bytes. -/
def parseRanges (raw : Bytes) : Option (List Bytes) :=
  match Resp.parseCommand raw 0 with
  | .ok (some (slices, _)) => some (slices.map fun a => a.bytes raw)
  | _ => none

/-- Every other element, from the first on. -/
def everyOther : List Bytes → List Bytes
  | a :: _ :: rest => a :: everyOther rest
  | [a] => [a]
  | [] => []

/-- Keys touched by a command and their lock type. -/
def commandKeys (args : List Bytes) : List (Bytes × LockType) :=
  let keys (l : List Bytes) (lock : LockType) : List (Bytes × LockType) := l.map fun k => (k, lock)
  match commandOf args with
  -- read-only, every argument is a key
  | some .get | some .strlen | some .getrange | some .substr | some .ttl | some .pttl
  | some .exists_ | some .type | some .mget => keys (args.drop 1) .shared
  -- writes, every argument is a key
  | some .del | some .unlink => keys (args.drop 1) .exclusive
  -- writes, every other argument is a key
  | some .mset => keys (everyOther (args.drop 1)) .exclusive
  -- everything else writes its first argument
  | _ => keys ((args.drop 1).take 1) .exclusive

/-- The lock set of a queue. -/
def lockKeys (queued : List Bytes) : List (Bytes × LockType) :=
  queued.flatMap fun q =>
    match parseRanges q with
    | some args => commandKeys args
    | none => []

def discard : Handler Unit := modify fun s => { s with txn := .default }

def cmdMulti : Handler Bytes := do
  let s ← get
  if s.txn.inMulti then return Resp.error "ERR MULTI calls can not be nested"
  else
    set { s with txn := { s.txn with inMulti := true, dirty := false, queued := [] } }
    return Resp.OK

def watchLoop : List Bytes → Handler Unit
  | [] => return ()
  | key :: rest => do
    let watched : ℕ × ℕ ← perform (.slotVersion key)
    modify fun s => { s with txn := { s.txn with watches := s.txn.watches ++ [watched] } }
    watchLoop rest

def cmdWatch (keys : List Bytes) : Handler Bytes := do
  if (← get).txn.inMulti then return Resp.error "ERR WATCH inside MULTI is not allowed"
  else
    watchLoop keys
    return Resp.OK

def cmdSave : Handler Bytes := do
  let result : Option Bytes ← perform .checkpoint
  match result with
  | none => return Resp.OK
  | some e => return Resp.errorBytes (ascii "ERR checkpoint failed: " ++ e)

section Guards

variable (args : List Bytes)

/-- A handler behind the guard `args.len() == 2`. -/
def arity2 (f : Bytes → Handler Bytes) : Handler Bytes :=
  match args with
  | [_, a] => f a
  | _ => return unknownCommand args

/-- A handler behind the guard `args.len() == 3`. -/
def arity3 (f : Bytes → Bytes → Handler Bytes) : Handler Bytes :=
  match args with
  | [_, a, b] => f a b
  | _ => return unknownCommand args

/-- A handler behind the guard `args.len() == 4`. -/
def arity4 (f : Bytes → Bytes → Bytes → Handler Bytes) : Handler Bytes :=
  match args with
  | [_, a, b, c] => f a b c
  | _ => return unknownCommand args

/-- A handler of `args[1..]` behind the guard `args.len() >= 2`. -/
def arityMany (f : List Bytes → Handler Bytes) : Handler Bytes :=
  match args with
  | _ :: a :: rest => f (a :: rest)
  | _ => return unknownCommand args

end Guards

def cmdPing (args : List Bytes) : Bytes :=
  match args with
  | _ :: msg :: _ => Resp.bulk msg
  | _ => Resp.PONG

/-- INCRBY, and DECRBY with the negated delta. -/
def cmdIncrBy (raw : Bytes) (negate : Bool) (key d : Bytes) : Handler Bytes :=
  match Resp.parseI64 d with
  | some d => cmdIncr raw key (if negate then -d else d)
  | none => return Resp.error NOT_AN_INTEGER

def cmdDiscard : Handler Bytes := do
  if (← get).txn.inMulti then
    discard
    return Resp.OK
  else return Resp.error "ERR DISCARD without MULTI"

/-- The branches of `exec_command`, apart from EXEC. -/
def execNamed (cmd : CommandName) (raw : Bytes) (args : List Bytes) : Handler Bytes :=
  match cmd with
  | .ping => return cmdPing args
  | .echo => arity2 args fun msg => return Resp.bulk msg
  | .quit => return Resp.OK
  | .select => return Resp.OK
  | .hello => return cmdHello
  | .command => return Resp.EMPTY_ARRAY
  | .config => return Resp.EMPTY_ARRAY
  | .client => return Resp.OK
  | .info => return Resp.bulk (ascii "# Server" ++ CRLF ++ ascii "mini_garnet:1" ++ CRLF)
  | .reset => do
    discard
    return Resp.simple "RESET"
  | .dbsize => do
    let n : ℕ ← perform .countLive
    return Resp.integer (Int64.ofNat n)
  | .flushdb | .flushall => do
    let _ ← perform .clear
    return Resp.OK
  | .get => arity2 args cmdGet
  | .set => cmdSet raw args
  | .setnx => arity3 args (cmdSetnx raw)
  | .setex => arity4 args fun key time value => cmdSetex raw key time value false
  | .psetex => arity4 args fun key time value => cmdSetex raw key time value true
  | .getset => arity3 args (cmdGetset raw)
  | .getdel => arity2 args (cmdGetdel raw)
  -- the only branch of its kind without a guard: the index of a missing key is out of range
  | .getex => arityMany args fun rest => cmdGetex raw (rest.headD []) (rest.drop 1)
  | .append => arity3 args fun key value => cmdRmwInt raw key .append value 0
  | .strlen => arity2 args fun key => cmdReadInt key .strlen
  | .getrange | .substr => arity4 args cmdGetrange
  | .setrange => arity4 args (cmdSetrange raw)
  | .incr => arity2 args fun key => cmdIncr raw key 1
  | .decr => arity2 args fun key => cmdIncr raw key (-1)
  | .incrby => arity3 args (cmdIncrBy raw false)
  | .decrby => arity3 args (cmdIncrBy raw true)
  | .mset =>
    if 3 ≤ args.length ∧ args.length % 2 = 1 then cmdMset raw (args.drop 1)
    else return unknownCommand args
  | .mget => arityMany args cmdMget
  | .del | .unlink => arityMany args (cmdDel raw)
  | .exists_ => arityMany args cmdExists
  | .expire => arity3 args fun key time => cmdExpire raw key time 1000 false
  | .pexpire => arity3 args fun key time => cmdExpire raw key time 1 false
  | .expireat => arity3 args fun key time => cmdExpire raw key time 1000 true
  | .pexpireat => arity3 args fun key time => cmdExpire raw key time 1 true
  | .ttl => arity2 args fun key => cmdTtl key false
  | .pttl => arity2 args fun key => cmdTtl key true
  | .persist => arity2 args (cmdPersist raw)
  | .type => arity2 args cmdType
  | .keys => arity2 args cmdKeys
  | .scan => arityMany args fun rest => cmdScan (rest.drop 1)
  | .multi => cmdMulti
  | .discard => cmdDiscard
  | .watch => arityMany args cmdWatch
  | .unwatch => do
    modify fun s => { s with txn := { s.txn with watches := [] } }
    return Resp.OK
  | .save | .bgsave => cmdSave
  | .bgrewriteaof => return Resp.OK
  | .lastsave => do
    let ms : Int64 ← perform .lastSaveMs
    return Resp.integer (ms / 1000)
  -- reached for a queued EXEC only, when `in_multi` has been reset
  | .exec => return Resp.error "ERR EXEC without MULTI"
  | .subscribe | .unsubscribe | .psubscribe => return unknownCommand args

/-- `exec_command`, apart from EXEC. -/
def execBasic (raw : Bytes) (args : List Bytes) : Handler Bytes :=
  match commandOf args with
  | some cmd => execNamed cmd raw args
  | none => return unknownCommand args

/-- The watch check of EXEC: is some watched version no longer the current one? -/
def conflictLoop : List (ℕ × ℕ) → Handler Bool
  | [] => return false
  | (slot, ver) :: rest => do
    let cur : ℕ ← perform (.versionAt slot)
    if cur ≠ ver then return true else conflictLoop rest

/-- The loop of EXEC over the queue. -/
def execQueued : List Bytes → Handler Bytes
  | [] => return []
  | q :: rest => do
    let reply ←
      match parseRanges q with
      | some args => execBasic q args
      | none => pure (Resp.error "ERR bad queued command")
    return reply ++ (← execQueued rest)

/-- A bracket entry of the log. -/
def logBracket (op : AofOp) : Handler Unit := do
  let s ← get
  if s.aof && !s.replay then perform (.enqueue ⟨op, s.nowMs, []⟩) else return ()

def cmdExec : Handler Bytes := do
  let txn := (← get).txn
  if ¬ txn.inMulti then return Resp.error "ERR EXEC without MULTI"
  else if txn.dirty then
    discard
    return Resp.error "EXECABORT Transaction discarded because of previous errors."
  else if ← conflictLoop txn.watches then
    discard
    return Resp.NULL_ARRAY
  else
    modify fun s => { s with txn := { s.txn with inMulti := false, queued := [], watches := [] } }
    let replay := (← get).replay
    if !replay then
      let _ ← perform (.txnLock (lockKeys txn.queued))
    logBracket .txnStart
    let replies ← execQueued txn.queued
    if !replay then
      let _ ← perform .txnUnlock
    logBracket .txnCommit
    return Resp.arrayHeader txn.queued.length ++ replies

/-- Only QUIT closes the connection. -/
def actionOf (args : List Bytes) : Action :=
  if commandOf args = some .quit then .close else .continue_

def execCommand (raw : Bytes) (args : List Bytes) : Handler (Bytes × Action) := do
  let reply ← if commandOf args = some .exec then cmdExec else execBasic raw args
  return (reply, actionOf args)

/-- Commands that may not be queued in a MULTI. -/
def validateQueueable : Option CommandName → Option String
  | some .subscribe | some .unsubscribe | some .psubscribe =>
    some "ERR command not allowed in transaction"
  | _ => none

/-- The commands that are executed inside MULTI. -/
def isControl : Option CommandName → Bool
  | some .exec | some .discard | some .multi | some .watch | some .reset | some .quit => true
  | _ => false

/-- Dispatch one command; `clock` is what `shared.now_ms()` returns. -/
def dispatch (clock : Int64) (raw : Bytes) (args : List Bytes) : Handler (Bytes × Action) := do
  if args = [] then return ([], .continue_)
  else
    modify fun s => if s.replay then s else { s with nowMs := clock }
    let cmd := commandOf args
    let s ← get
    if s.txn.inMulti && !isControl cmd then
      match validateQueueable cmd with
      | some err =>
        set { s with txn := { s.txn with dirty := true } }
        return (Resp.error err, .continue_)
      | none =>
        set { s with txn := { s.txn with queued := s.txn.queued ++ [raw] } }
        return (Resp.QUEUED, .continue_)
    else execCommand raw args

/-! ## Section 9: Replay -/

/-- Dispatch a command during replay with the logged timestamp. -/
def dispatchReplay (raw : Bytes) (args : List Bytes) (ts : Int64) : Handler Bytes := do
  modify fun s => { s with nowMs := ts }
  return (← execCommand raw args).1

def replayMultiBegin (ts : Int64) : Handler Unit :=
  modify fun s => { s with
    nowMs := ts
    txn := { s.txn with inMulti := true, dirty := false, queued := [] } }

def replayMultiExec : Handler Bytes := cmdExec

end Garnet
