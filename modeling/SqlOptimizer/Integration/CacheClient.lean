import SqlOptimizer.Library.Decimal

/-! `integration/cache_client.cpp`: the RESP codec of the client. -/

namespace SqlOptimizer.Integration

def maxBulkLength : Int := 512 * 1024 * 1024

def encodeCommand (args : List Bytes) : Bytes :=
  42 :: natText args.length ++ [13, 10] ++
    args.flatMap fun a => 36 :: natText a.length ++ [13, 10] ++ a ++ [13, 10]

/-- Where the bytes of a reply come from: the bytes that are left, before and after. -/
structure ByteReader where
  readLine : Bytes → Except String (Bytes × Bytes)
  readExact : Nat → Bytes → Except String (Bytes × Bytes)

namespace StringByteReader

/-- A CR before the LF is dropped. -/
def readLine (r : Bytes) : Except String (Bytes × Bytes) :=
  match r.dropWhile (· != 10) with
  | [] => .error "resp: unexpected EOF reading line"
  | _ :: rest =>
    let line := r.takeWhile (· != 10)
    .ok (if line.getLast? = some 13 then line.dropLast else line, rest)

def readExact (n : Nat) (r : Bytes) : Except String (Bytes × Bytes) :=
  if n ≤ r.length then .ok (r.take n, r.drop n)
  else .error "resp: unexpected EOF reading exact bytes"

end StringByteReader

def stringByteReader : ByteReader := ⟨StringByteReader.readLine, StringByteReader.readExact⟩

namespace SocketByteReader

/-- The error of `recv` once the connection has no more bytes. -/
def closed : String := "cache_client: connection closed or recv failed"

/-- The line so far, and the bytes that the socket still gives; a line ends at CR LF. -/
def readLineFrom (line : Bytes) : Bytes → Except String (Bytes × Bytes)
  | [] => .error closed
  | c :: r =>
    if c = 10 ∧ line.getLast? = some 13 then .ok (line.dropLast, r)
    else readLineFrom (line ++ [c]) r

def readExact (n : Nat) (r : Bytes) : Except String (Bytes × Bytes) :=
  if n ≤ r.length then .ok (r.take n, r.drop n) else .error closed

end SocketByteReader

def socketByteReader : ByteReader := ⟨SocketByteReader.readLineFrom [], SocketByteReader.readExact⟩

inductive Reply where
  | ok (stringVal : Bytes)
  | error (stringVal : Bytes)
  | integer (integerVal : Int)
  | bulk (bulkVal : Bytes)
  | null
  deriving DecidableEq

/-- `std::isspace` -/
def isSpace (b : UInt8) : Bool := b == 32 || (decide (9 ≤ b) && decide (b ≤ 13))

/-- `strtol` in base 10: blanks, a sign, and the digits up to the first byte that is none. -/
def leadingInt (s : Bytes) : Option Int :=
  match s.dropWhile isSpace with
  | 45 :: r => (readNat (r.takeWhile isDigitByte)).map fun n : Nat => -(n : Int)
  | 43 :: r => (readNat (r.takeWhile isDigitByte)).map Int.ofNat
  | r => (readNat (r.takeWhile isDigitByte)).map Int.ofNat

/-- `std::stoi` and `std::stoll` for numbers of `bits` bits, with the text of their exceptions. -/
def stoInt (name : String) (bits : Nat) (s : Bytes) : Except String Int :=
  match leadingInt s with
  | none => .error name
  | some n => if -2 ^ (bits - 1) ≤ n ∧ n < 2 ^ (bits - 1) then .ok n else .error name

def parseReply (reader : ByteReader) (r : Bytes) : Except String (Reply × Bytes) := do
  let (line, r) ← reader.readLine r
  match line with
  | [] => .error "resp: empty reply line"
  | kind :: rest =>
    if kind = 43 then return (.ok rest, r)
    else if kind = 45 then return (.error rest, r)
    else if kind = 58 then do
      let n ← stoInt "stoll" 64 rest
      return (.integer n, r)
    else if kind = 36 then do
      let n ← stoInt "stoi" 32 rest
      if n = -1 then return (.null, r)
      else if n < 0 then .error "resp: negative bulk length"
      else if maxBulkLength < n then .error "resp: bulk length exceeds max"
      else do
        let (payload, r) ← reader.readExact (n.toNat + 2) r
        return (.bulk (payload.take n.toNat), r)
    else .error ("resp: unknown reply type byte '" ++ String.ofList [Char.ofNat kind.toNat] ++ "'")

/-- The connection: what the socket gives after a command was sent, nothing when there is no
connection or the command could not be sent. -/
structure CacheClient where
  receive : List Bytes → Option Bytes

namespace CacheClient

/-- A reply that does not parse closes the connection and is no reply. -/
def sendCommand (cache : CacheClient) (args : List Bytes) : Option Reply := do
  let received ← cache.receive args
  let (reply, _) ← (parseReply socketByteReader received).toOption
  return reply

def get (cache : CacheClient) (key : Bytes) : Option Bytes :=
  match cache.sendCommand [ascii "GET", key] with
  | some (.bulk v) => some v
  | _ => none

/-- The command that `set` sends; what it makes of the reply is not used. -/
def setArgs (key value : Bytes) (ttlSeconds : Int) : List Bytes :=
  [ascii "SET", key, value] ++ if 0 < ttlSeconds then [ascii "EX", intText ttlSeconds] else []

end CacheClient

end SqlOptimizer.Integration
