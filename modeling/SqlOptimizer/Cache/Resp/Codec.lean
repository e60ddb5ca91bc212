import SqlOptimizer.Library.Decimal

/-! `cache/internal/resp`: the RESP values, their encoder and their parser. -/

namespace SqlOptimizer.Cache

/-- `resp.RespValue`: only the field that belongs to the type is kept. -/
inductive RespValue where
  | simpleString (s : Bytes)
  | error (msg : Bytes)
  | integer (n : Int)
  | bulk (b : Bytes)
  | array (items : List RespValue)
  | null

def crlf : Bytes := [13, 10]

/-! ### `encoder.go` -/

/-- A header: type byte, number, CR LF. -/
def header (kind : UInt8) (n : Nat) : Bytes := kind :: natText n ++ crlf

mutual

/-- `WriteRESP` -/
def writeRESP : RespValue → Bytes
  | .simpleString s => 43 :: s ++ crlf
  | .error msg => 45 :: msg ++ crlf
  | .integer n => 58 :: intText n ++ crlf
  | .bulk b => header 36 b.length ++ b ++ crlf
  | .array items => header 42 items.length ++ writeItems items
  | .null => ascii "$-1" ++ crlf

/-- The loop over the items of an array. -/
def writeItems : List RespValue → Bytes
  | [] => []
  | v :: vs => writeRESP v ++ writeItems vs

end

/-- `EncodeCommand` -/
def respCommand (args : List Bytes) : RespValue := .array (args.map .bulk)

/-! ### `parser.go` -/

def maxBulkLength : Int := 512 * 1024 * 1024

def maxArrayLength : Int := 1024 * 1024

/-- The errors of the parser, with the data of their messages. -/
inductive RespError where
  | eof
  | emptyLine
  | invalidInteger (rest : Bytes)
  | invalidBulkLength (rest : Bytes)
  | negativeBulkLength (n : Int)
  | bulkLengthExceedsMax (n : Int)
  | invalidArrayLength (rest : Bytes)
  | negativeArrayLength (n : Int)
  | arrayLengthExceedsMax (n : Int)
  | unknownTypeByte (b : UInt8)
  | expectedArray (v : RespValue)
  | expectedBulkString

/-- `strings.TrimRight(line, "\r\n")` -/
def trimRight (line : Bytes) : Bytes := (line.reverse.dropWhile fun b => b == 13 || b == 10).reverse

/-- `readLine`, on the bytes of the stream. -/
def readLine (r : Bytes) : Except RespError (Bytes × Bytes) :=
  match r.dropWhile (· != 10) with
  | [] => .error .eof
  | nl :: rest => .ok (trimRight (r.takeWhile (· != 10) ++ [nl]), rest)

/-- The payload of a bulk string, with the two bytes after it, which are not looked at. -/
def readPayload (n : Nat) (r : Bytes) : Except RespError (Bytes × Bytes) :=
  if n + 2 ≤ r.length then .ok (r.take n, r.drop (n + 2)) else .error .eof

/-- The loop over the `n` items of an array. -/
def parseItems (parse : Bytes → Except RespError (RespValue × Bytes)) :
    Nat → Bytes → Except RespError (List RespValue × Bytes)
  | 0, r => .ok ([], r)
  | n + 1, r => do
    let (v, r) ← parse r
    let (vs, r) ← parseItems parse n r
    return (v :: vs, r)

/-- A value whose arrays are nested less than `depth` deep. -/
def parseValue : Nat → Bytes → Except RespError (RespValue × Bytes)
  | 0, _ => .error .eof
  | depth + 1, r => do
    let (line, r) ← readLine r
    match line with
    | [] => .error .emptyLine
    | kind :: rest =>
      if kind = 43 then return (.simpleString rest, r)
      else if kind = 45 then return (.error rest, r)
      else if kind = 58 then
        match readInt64 rest with
        | none => .error (.invalidInteger rest)
        | some n => return (.integer n, r)
      else if kind = 36 then
        match readInt64 rest with
        | none => .error (.invalidBulkLength rest)
        | some n =>
          if n < -1 then .error (.negativeBulkLength n)
          else if n = -1 then return (.null, r)
          else if maxBulkLength < n then .error (.bulkLengthExceedsMax n)
          else do
            let (b, r) ← readPayload n.toNat r
            return (.bulk b, r)
      else if kind = 42 then
        match readInt64 rest with
        | none => .error (.invalidArrayLength rest)
        | some n =>
          if n < -1 then .error (.negativeArrayLength n)
          else if n = -1 then return (.null, r)
          else if maxArrayLength < n then .error (.arrayLengthExceedsMax n)
          else do
            let (items, r) ← parseItems (parseValue depth) n.toNat r
            return (.array items, r)
      else .error (.unknownTypeByte kind)

/-- `ParseRESP`: every array takes at least its own line, so the bytes bound the nesting. -/
def parseRESP (r : Bytes) : Except RespError (RespValue × Bytes) := parseValue (r.length + 1) r

/-- The bytes of an argument of a command. -/
def commandArg : RespValue → Except RespError Bytes
  | .bulk b => .ok b
  | _ => .error .expectedBulkString

def parseCommand (r : Bytes) : Except RespError (List Bytes × Bytes) := do
  let (v, r) ← parseRESP r
  match v with
  | .array items => return (← items.mapM commandArg, r)
  | v => .error (.expectedArray v)

end SqlOptimizer.Cache
