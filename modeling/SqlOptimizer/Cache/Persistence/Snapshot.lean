import SqlOptimizer.Cache.Storage.Store
import SqlOptimizer.Library.BigEndian

/-! `cache/internal/persistence/snapshot.go`: saving and loading the contents of a store. -/

namespace SqlOptimizer.Cache

def magic : Bytes := ascii "GOCACHE1"

def formatVersion : Nat := 1

def maxFieldLength : Nat := 512 * 1024 * 1024

/-- `Time.UnixNano` -/
def unixNano (t : Time) : Int := wrap64 t

/-- One step of the reflected CRC-32 for each bit of a byte. -/
def crc32Byte (crc : UInt32) : UInt32 :=
  (List.range 8).foldl (fun crc _ =>
    if crc &&& 1 = 1 then (crc >>> 1) ^^^ 0xEDB88320 else crc >>> 1) crc

/-- `crc32.ChecksumIEEE` -/
def crc32ChecksumIEEE (data : Bytes) : UInt32 :=
  data.foldl (fun crc b => crc32Byte (crc ^^^ b.toUInt32)) 0xFFFFFFFF ^^^ 0xFFFFFFFF

/-! ### Saving -/

/-- The length is cut to 32 bits. -/
def writeBytesField (b : Bytes) : Bytes := bigEndian 4 b.length ++ b

/-- A signed 64-bit number, in two's complement. -/
def writeInt64 (n : Int) : Bytes := bigEndian 8 (n % 2 ^ 64).toNat

def writeExpiry (ent : CacheEntry) : Bytes :=
  if ent.hasExpiry then 1 :: writeInt64 (unixNano ent.expiresAt) else 0 :: writeInt64 0

def writeEntry (e : Bytes × CacheEntry) : Bytes :=
  writeBytesField e.1 ++ writeBytesField e.2.value ++ writeExpiry e.2

def writePayload (entries : List (Bytes × CacheEntry)) : Bytes :=
  magic ++ bigEndian 4 formatVersion ++ bigEndian 8 entries.length ++ entries.flatMap writeEntry

section

variable (checksum : Bytes → UInt32)

/-- The file that `SaveSnapshot` writes for the entries that it collected. -/
def snapshotFile (entries : List (Bytes × CacheEntry)) : Bytes :=
  writePayload entries ++ bigEndian 4 (checksum (writePayload entries)).toNat

end

/-- The entries that `ForEach` visits, up to the order inside each shard; `clock i` is the reading
at shard `i`. -/
def ShardedStore.live {n : Nat} (s : ShardedStore n) (clock : Fin n → Time) :
    List (Bytes × CacheEntry) :=
  (List.finRange n).flatMap fun i => (s.shards i).live (clock i)

/-! ### Loading -/

/-- `io.ReadFull` of `n` bytes. -/
def readFull (n : Nat) (r : Bytes) : Except String (Bytes × Bytes) :=
  if n ≤ r.length then .ok (r.take n, r.drop n)
  else if r.isEmpty then .error "EOF"
  else .error "unexpected EOF"

/-- `binary.Read` of an unsigned number of `width` bytes. -/
def readUint (width : Nat) (r : Bytes) : Except String (Nat × Bytes) := do
  let (b, r) ← readFull width r
  return (ofBigEndian b, r)

/-- `binary.Read` of an `int64`. -/
def readInt64Field (r : Bytes) : Except String (Int × Bytes) := do
  let (n, r) ← readUint 8 r
  return (wrap64 n, r)

def readBytesField (r : Bytes) : Except String (Bytes × Bytes) := do
  let (length, r) ← readUint 4 r
  if maxFieldLength < length then
    .error ("field length " ++ toString length ++ " exceeds max of " ++ toString maxFieldLength ++
      " -- snapshot is likely corrupt")
  else readFull length r

/-- The error of a step under the text of the step. -/
def wrapError {α : Type} (context : String) (x : Except String α) : Except String α :=
  x.mapError fun e => "persistence: " ++ context ++ ": " ++ e

/-- The entry that is restored: it carries no size. -/
def restoredEntry (value : Bytes) (flag : UInt8) (expiresAtNano : Int) : CacheEntry :=
  if flag = 1 then { value, hasExpiry := true, expiresAt := expiresAtNano, sizeBytes := 0 }
  else { value, sizeBytes := 0 }

/-- Entry `i` of the file. -/
def readEntry (i : Nat) (r : Bytes) : Except String ((Bytes × CacheEntry) × Bytes) := do
  let (key, r) ← wrapError ("read key " ++ toString i) (readBytesField r)
  let (value, r) ← wrapError ("read value " ++ toString i) (readBytesField r)
  let (flag, r) ← wrapError ("read expiry flag " ++ toString i) (readFull 1 r)
  let (expiresAtNano, r) ← wrapError ("read expiry timestamp " ++ toString i) (readInt64Field r)
  return ((key, restoredEntry value (flag.headD 0) expiresAtNano), r)

/-- The count of entries, after the checks on the whole file. -/
def readHeader (checksum : Bytes → UInt32) (data : Bytes) : Except String (Nat × Bytes) := do
  if data.length < magic.length + 4 + 8 + 4 then
    .error "persistence: snapshot file too short to be valid"
  let payload := data.take (data.length - 4)
  if (checksum payload).toNat ≠ ofBigEndian (data.drop (data.length - 4)) then
    .error "persistence: checksum mismatch -- snapshot file is corrupt"
  let badMagic := "persistence: bad magic bytes -- not a valid snapshot"
  let (magicBuf, r) ← (readFull magic.length data).mapError fun _ => badMagic
  if magicBuf ≠ magic then .error badMagic
  let (version, r) ← wrapError "read version" (readUint 4 r)
  if version ≠ formatVersion then
    .error ("persistence: unsupported snapshot format version " ++ toString version)
  wrapError "read entry count" (readUint 8 r)

variable {n : Nat} [NeZero n]

/-- The loop of `LoadSnapshot` over the `count` entries from entry `i` on, with what is left of the
file. An entry that was restored stays when a later one cannot be read. -/
def loadEntries (clock : Nat → Time) (s : ShardedStore n) (i : Nat) :
    Nat → Bytes → Option String × ShardedStore n
  | 0, _ => (none, s)
  | count + 1, r =>
    match readEntry i r with
    | .error e => (some e, s)
    | .ok ((key, ent), r) =>
      loadEntries clock (s.restoreEntry key ent (clock i)) (i + 1) count r

/-- What the file system gives for the path of the snapshot. -/
inductive FileRead where
  | missing
  | failed (message : String)
  | contents (data : Bytes)

/-- `LoadSnapshot`, with its error; `clock i` is the reading at the restoring of entry `i`. -/
def loadSnapshot (checksum : Bytes → UInt32) (clock : Nat → Time) (s : ShardedStore n) :
    FileRead → Option String × ShardedStore n
  | .missing => (none, s)
  | .failed message => (some ("persistence: read snapshot: " ++ message), s)
  | .contents data =>
    match readHeader checksum data with
    | .error e => (some e, s)
    | .ok (count, r) => loadEntries clock s 0 count r

end SqlOptimizer.Cache
