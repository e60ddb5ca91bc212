import SqlOptimizer.Cache.Resp.Codec
import SqlOptimizer.Cache.Storage.Store
import SqlOptimizer.Library.Binary64

/-! `cache/internal/command`: the handlers of the commands, and the dispatcher. -/

namespace SqlOptimizer.Cache

/-- What a handler reads besides its arguments and the store. -/
structure Context where
  /-- The clock readings of the command: its `k`th key takes the readings `2 k` and `2 k + 1`. -/
  clock : Nat → Time
  snapshotPath : Bytes
  /-- The error of `SaveSnapshot`, if writing the file fails. -/
  saveError : Option Bytes
  /-- The uptime in seconds and the hit rate for the counts of hits and misses, as texts. -/
  uptimeText : Bytes
  hitRateText : UInt64 → UInt64 → Bytes

/-- `strings.ToUpper`, where it matters for a comparison with an ASCII name: the letters outside
ASCII stay outside, but for the dotless `ı` and the long `ſ`, which become `I` and `S`. -/
def toUpper : Bytes → Bytes
  | 0xC4 :: 0xB1 :: r => 73 :: toUpper r
  | 0xC5 :: 0xBF :: r => 83 :: toUpper r
  | b :: r => (if 97 ≤ b ∧ b ≤ 122 then b - 32 else b) :: toUpper r
  | [] => []

def errorReply (msg : String) : RespValue := .error (ascii msg)

def wrongArgs (cmd : String) : RespValue :=
  errorReply ("ERR wrong number of arguments for '" ++ cmd ++ "' command")

def okReply : RespValue := .simpleString (ascii "OK")

def millisecond : Duration := 1000000

def second : Duration := 1000000000

/-! ### `strings.go` -/

def handlePing : List Bytes → RespValue
  | [] => .simpleString (ascii "PONG")
  | [message] => .bulk message
  | _ => wrongArgs "PING"

def handleEcho : List Bytes → RespValue
  | [message] => .bulk message
  | _ => wrongArgs "ECHO"

def invalidExpireTime : String := "invalid expire time in 'SET' command"

/-- The time to live after `EX` or `PX`, in the unit; the product wraps around. -/
def parseTTL (unit : Duration) (arg : Bytes) : Except String Duration :=
  match readInt64 arg with
  | none => .error invalidExpireTime
  | some count => if count < 0 then .error invalidExpireTime else .ok (wrap64 (count * unit))

/-- The loop of `parseSetOptions`, with the options so far. -/
def parseSetOptionsFrom (opts : SetOptions) : List Bytes → Except String SetOptions
  | [] => if opts.nx && opts.xx then .error "syntax error" else .ok opts
  | [arg] =>
    if toUpper arg = ascii "NX" then parseSetOptionsFrom { opts with nx := true } []
    else if toUpper arg = ascii "XX" then parseSetOptionsFrom { opts with xx := true } []
    else .error "syntax error"
  | arg :: arg' :: rest =>
    if toUpper arg = ascii "EX" then
      (parseTTL second arg').bind fun ttl =>
        parseSetOptionsFrom { opts with hasTTL := true, ttl := ttl } rest
    else if toUpper arg = ascii "PX" then
      (parseTTL millisecond arg').bind fun ttl =>
        parseSetOptionsFrom { opts with hasTTL := true, ttl := ttl } rest
    else if toUpper arg = ascii "NX" then parseSetOptionsFrom { opts with nx := true } (arg' :: rest)
    else if toUpper arg = ascii "XX" then parseSetOptionsFrom { opts with xx := true } (arg' :: rest)
    else .error "syntax error"

def parseSetOptions (args : List Bytes) : Except String SetOptions := parseSetOptionsFrom {} args

variable {n : Nat} [NeZero n]

def handleSet (ctx : Context) (s : ShardedStore n) : List Bytes → RespValue × ShardedStore n
  | key :: value :: rest =>
    match parseSetOptions rest with
    | .error e => (errorReply ("ERR " ++ e), s)
    | .ok opts =>
      let (applied, s) := s.set key value opts (ctx.clock 0) (ctx.clock 1)
      (if applied then okReply else .null, s)
  | _ => (wrongArgs "SET", s)

def handleGet (ctx : Context) (s : ShardedStore n) : List Bytes → RespValue × ShardedStore n
  | [key] =>
    let (v, s) := s.get key (ctx.clock 0)
    (match v with | some v => .bulk v | none => .null, s)
  | _ => (wrongArgs "GET", s)

/-- `ShardedStore.Delete` -/
def deleteAll (s : ShardedStore n) : List Bytes → Nat × ShardedStore n
  | [] => (0, s)
  | key :: keys =>
    let (present, s) := s.delete key
    let (count, s) := deleteAll s keys
    (if present then count + 1 else count, s)

def handleDel (s : ShardedStore n) : List Bytes → RespValue × ShardedStore n
  | [] => (wrongArgs "DEL", s)
  | args =>
    let (count, s) := deleteAll s args
    (.integer (wrap64 count), s)

/-- The loop of `handleExists`, from key `i` on. -/
def existsAll (ctx : Context) (s : ShardedStore n) (i : Nat) : List Bytes → Nat × ShardedStore n
  | [] => (0, s)
  | key :: keys =>
    let (present, s) := s.exists key (ctx.clock (2 * i))
    let (count, s) := existsAll ctx s (i + 1) keys
    (if present then count + 1 else count, s)

def handleExists (ctx : Context) (s : ShardedStore n) : List Bytes → RespValue × ShardedStore n
  | [] => (wrongArgs "EXISTS", s)
  | args =>
    let (count, s) := existsAll ctx s 0 args
    (.integer (wrap64 count), s)

/-- `handleIncr` and `handleDecr` -/
def handleIncrBy (cmd : String) (delta : Int) (ctx : Context) (s : ShardedStore n) :
    List Bytes → RespValue × ShardedStore n
  | [key] =>
    let (v, s) := s.incrBy key delta (ctx.clock 0)
    (match v with | .error e => errorReply ("ERR " ++ e) | .ok v => .integer v, s)
  | _ => (wrongArgs cmd, s)

def handleIncr (ctx : Context) (s : ShardedStore n) : List Bytes → RespValue × ShardedStore n :=
  handleIncrBy "INCR" 1 ctx s

def handleDecr (ctx : Context) (s : ShardedStore n) : List Bytes → RespValue × ShardedStore n :=
  handleIncrBy "DECR" (-1) ctx s

/-- The loop of `handleMSet`, from pair `i` on. -/
def setAll (ctx : Context) (s : ShardedStore n) (i : Nat) : List Bytes → ShardedStore n
  | key :: value :: rest =>
    setAll ctx (s.set key value {} (ctx.clock (2 * i)) (ctx.clock (2 * i + 1))).2 (i + 1) rest
  | _ => s

def handleMSet (ctx : Context) (s : ShardedStore n) (args : List Bytes) :
    RespValue × ShardedStore n :=
  if args.length = 0 ∨ args.length % 2 ≠ 0 then (wrongArgs "MSET", s)
  else (okReply, setAll ctx s 0 args)

/-- The loop of `handleMGet`, from key `i` on. -/
def getAll (ctx : Context) (s : ShardedStore n) (i : Nat) :
    List Bytes → List RespValue × ShardedStore n
  | [] => ([], s)
  | key :: keys =>
    let (v, s) := s.get key (ctx.clock (2 * i))
    let (items, s) := getAll ctx s (i + 1) keys
    ((match v with | some v => .bulk v | none => .null) :: items, s)

def handleMGet (ctx : Context) (s : ShardedStore n) : List Bytes → RespValue × ShardedStore n
  | [] => (wrongArgs "MGET", s)
  | args =>
    let (items, s) := getAll ctx s 0 args
    (.array items, s)

def handleType (ctx : Context) (s : ShardedStore n) : List Bytes → RespValue × ShardedStore n
  | [key] =>
    let (present, s) := s.exists key (ctx.clock 0)
    (.simpleString (ascii (if present then "string" else "none")), s)
  | _ => (wrongArgs "TYPE", s)

/-! ### `expiry.go` -/

def handleExpire (ctx : Context) (s : ShardedStore n) : List Bytes → RespValue × ShardedStore n
  | [key, seconds] =>
    match readInt64 seconds with
    | none => (errorReply "ERR value is not an integer or out of range", s)
    | some secs =>
      let (done, s) := s.expire key (wrap64 (secs * second)) (ctx.clock 0) (ctx.clock 1)
      (.integer (if done then 1 else 0), s)
  | _ => (wrongArgs "EXPIRE", s)

def handlePersist (ctx : Context) (s : ShardedStore n) : List Bytes → RespValue × ShardedStore n
  | [key] =>
    let (done, s) := s.persist key (ctx.clock 0)
    (.integer (if done then 1 else 0), s)
  | _ => (wrongArgs "PERSIST", s)

section Seconds

variable [Rounding]

/-- `Duration.Seconds`: whole seconds and nanoseconds, as doubles. -/
def seconds (d : Duration) : Binary64 :=
  Binary64.add (.ofInt (d.tdiv second)) (Binary64.div (.ofInt (d.tmod second)) (.ofInt second))

/-- The conversion of a double to an `int64`. -/
def truncate : Binary64 → Int
  | .fin neg mag => wrap64 (if neg then -(⌊mag⌋₊ : Int) else ⌊mag⌋₊)
  | _ => -2 ^ 63

def ttlReply : Option Duration → RespValue
  | none => .integer (-2)
  | some ttl =>
    if ttl = 0 then .integer (-1)
    else
      let secs := truncate (seconds ttl)
      .integer (if secs = 0 then 1 else secs)

def handleTTL (ctx : Context) (s : ShardedStore n) : List Bytes → RespValue × ShardedStore n
  | [key] =>
    let (ttl, s) := s.ttl key (ctx.clock 0) (ctx.clock 1)
    (ttlReply ttl, s)
  | _ => (wrongArgs "TTL", s)

end Seconds

/-! ### `admin.go` -/

def handleDBSize (s : ShardedStore n) : List Bytes → RespValue
  | [] => .integer (wrap64 s.dbSize)
  | _ => wrongArgs "DBSIZE"

def handleFlushAll (s : ShardedStore n) : List Bytes → RespValue × ShardedStore n
  | [] => (okReply, s.flushAll)
  | _ => (wrongArgs "FLUSHALL", s)

def handleSave (ctx : Context) : List Bytes → RespValue
  | [] =>
    if ctx.snapshotPath = [] then
      errorReply "ERR persistence is disabled (no snapshot path configured)"
    else
      match ctx.saveError with
      | some e => .error (ascii "ERR SAVE failed: " ++ e)
      | none => okReply
  | _ => wrongArgs "SAVE"

/-- A line `name:value` of the `INFO` text. -/
def infoLine (name : String) (value : Bytes) : Bytes := ascii name ++ 58 :: value ++ crlf

def infoText (ctx : Context) (s : ShardedStore n) : Bytes :=
  let m := s.metrics
  ascii "# Server" ++ crlf ++ infoLine "uptime_seconds" ctx.uptimeText ++ crlf ++
  ascii "# Clients" ++ crlf ++ infoLine "connected_clients" (natText m.connections.toNat) ++
  infoLine "total_connections_received" (natText m.totalConnections.toNat) ++ crlf ++
  ascii "# Stats" ++ crlf ++
  infoLine "total_commands_processed" (natText m.commandsProcessed.toNat) ++
  infoLine "keyspace_hits" (natText m.cacheHits.toNat) ++
  infoLine "keyspace_misses" (natText m.cacheMisses.toNat) ++
  infoLine "hit_rate" (ctx.hitRateText m.cacheHits m.cacheMisses) ++
  infoLine "expired_keys" (natText m.expiredKeys.toNat) ++
  infoLine "evicted_keys" (natText m.evictedKeys.toNat) ++ crlf ++
  ascii "# Keyspace" ++ crlf ++ ascii "db0:keys=" ++ intText (wrap64 s.dbSize) ++ crlf ++ crlf ++
  ascii "# Memory" ++ crlf ++ infoLine "used_memory_bytes" (intText (wrap64 m.memoryBytes))

def handleInfo (ctx : Context) (s : ShardedStore n) : List Bytes → RespValue
  | [] => .bulk (infoText ctx s)
  | _ => wrongArgs "INFO"

/-! ### `dispatcher.go` -/

/-- The registered commands. -/
inductive Command where
  | ping | echo | set | get | del | exists | incr | decr | mset | mget | type
  | expire | persist | ttl
  | dbsize | flushall | info | save
  deriving DecidableEq

/-- The names that the commands are registered under. -/
def commandNames : List (String × Command) :=
  [("PING", .ping), ("ECHO", .echo), ("SET", .set), ("GET", .get), ("DEL", .del),
    ("EXISTS", .exists), ("INCR", .incr), ("DECR", .decr), ("MSET", .mset), ("MGET", .mget),
    ("TYPE", .type), ("EXPIRE", .expire), ("PERSIST", .persist), ("TTL", .ttl),
    ("DBSIZE", .dbsize), ("FLUSHALL", .flushall), ("INFO", .info), ("SAVE", .save)]

def handlerFor (name : Bytes) : Option Command :=
  (commandNames.find? fun e => ascii e.1 == name).map (·.2)

variable [Rounding]

def handle (cmd : Command) (args : List Bytes) (ctx : Context) (s : ShardedStore n) :
    RespValue × ShardedStore n :=
  match cmd with
  | .ping => (handlePing args, s)
  | .echo => (handleEcho args, s)
  | .set => handleSet ctx s args
  | .get => handleGet ctx s args
  | .del => handleDel s args
  | .exists => handleExists ctx s args
  | .incr => handleIncr ctx s args
  | .decr => handleDecr ctx s args
  | .mset => handleMSet ctx s args
  | .mget => handleMGet ctx s args
  | .type => handleType ctx s args
  | .expire => handleExpire ctx s args
  | .persist => handlePersist ctx s args
  | .ttl => handleTTL ctx s args
  | .dbsize => (handleDBSize s args, s)
  | .flushall => handleFlushAll s args
  | .info => (handleInfo ctx s args, s)
  | .save => (handleSave ctx args, s)

def countCommand (s : ShardedStore n) : ShardedStore n :=
  { s with metrics := { s.metrics with commandsProcessed := s.metrics.commandsProcessed + 1 } }

def dispatch (args : List Bytes) (ctx : Context) (s : ShardedStore n) :
    RespValue × ShardedStore n :=
  match args with
  | [] => (errorReply "ERR empty command", s)
  | name :: rest =>
    match handlerFor (toUpper name) with
    | none => (.error (ascii "ERR unknown command '" ++ name ++ ascii "'"), countCommand s)
    | some cmd => handle cmd rest ctx (countCommand s)

end SqlOptimizer.Cache
