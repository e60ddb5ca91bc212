import SqlOptimizer.Library.Decimal
import SqlOptimizer.Library.LinkedList
import SqlOptimizer.Library.Weights

/-! `cache/internal/storage/{entry,lru,shard}.go`: one shard of the cache. -/

namespace SqlOptimizer.Cache

/-- `time.Time`, in nanoseconds since the Unix epoch. -/
abbrev Time := Int

/-- `time.Duration`, in nanoseconds: a signed 64-bit number. -/
abbrev Duration := Int

/-- Signed 64-bit arithmetic. -/
def wrap64 (n : Int) : Int := n.bmod (2 ^ 64)

/-- The zero `time.Time`: January 1 of year 1. -/
def zeroTime : Time := -62135596800 * 10 ^ 9

structure CacheEntry where
  value : Bytes
  expiresAt : Time := zeroTime
  hasExpiry : Bool := false
  sizeBytes : Int
  deriving DecidableEq

def entryOverheadBytes : Int := 64

def approxSize (key value : Bytes) : Int := key.length + value.length + entryOverheadBytes

/-! ### `lru.go` -/

structure Lru where
  list : LinkedList Bytes
  items : AList fun _ : Bytes => Nat

namespace Lru

/-- `newLRU` -/
def empty : Lru := ⟨.empty, ∅⟩

/-- The keys, most recently used first. -/
def keys (l : Lru) : List Bytes := l.list.values

def touch (l : Lru) (key : Bytes) : Lru :=
  match l.items.lookup key with
  | some el => { l with list := l.list.moveToFront el }
  | none =>
    let (el, list) := l.list.pushFront key
    ⟨list, l.items.insert key el⟩

def remove (l : Lru) (key : Bytes) : Lru :=
  match l.items.lookup key with
  | some el => ⟨l.list.remove el, l.items.erase key⟩
  | none => l

def evictCandidate (l : Lru) : Option Bytes := l.list.back

def len (l : Lru) : Nat := l.keys.length

end Lru

/-! ### `shard.go` -/

structure Metrics where
  commandsProcessed : UInt64 := 0
  cacheHits : UInt64 := 0
  cacheMisses : UInt64 := 0
  expiredKeys : UInt64 := 0
  evictedKeys : UInt64 := 0
  connections : UInt64 := 0
  totalConnections : UInt64 := 0
  currentEntries : Int := 0
  memoryBytes : Int := 0
  deriving DecidableEq

structure Shard where
  entries : AList fun _ : Bytes => CacheEntry
  lru : Lru
  usedBytes : Int
  maxBytes : Int

def newShard (maxBytes : Int) : Shard := ⟨∅, .empty, 0, maxBytes⟩

def isExpired (ent : CacheEntry) (now : Time) : Bool := ent.hasExpiry && decide (ent.expiresAt < now)

/-- A shard whose lock is held, with the counters that all shards share. -/
structure Held where
  shard : Shard
  metrics : Metrics

structure SetOptions where
  ttl : Duration := 0
  hasTTL : Bool := false
  nx : Bool := false
  xx : Bool := false
  deriving DecidableEq

namespace Held

def lookup (h : Held) (key : Bytes) : Option CacheEntry := h.shard.entries.lookup key

def removeLocked (h : Held) (key : Bytes) : Held :=
  match h.lookup key with
  | none => h
  | some ent =>
    { shard := { h.shard with
        entries := h.shard.entries.erase key
        lru := h.shard.lru.remove key
        usedBytes := h.shard.usedBytes - ent.sizeBytes }
      metrics := { h.metrics with
        currentEntries := h.metrics.currentEntries - 1
        memoryBytes := h.metrics.memoryBytes - ent.sizeBytes } }

def touch (h : Held) (key : Bytes) : Held :=
  { h with shard := { h.shard with lru := h.shard.lru.touch key } }

def countHit (h : Held) : Held :=
  { h with metrics := { h.metrics with cacheHits := h.metrics.cacheHits + 1 } }

def countMiss (h : Held) : Held :=
  { h with metrics := { h.metrics with cacheMisses := h.metrics.cacheMisses + 1 } }

def countExpired (h : Held) : Held :=
  { h with metrics := { h.metrics with expiredKeys := h.metrics.expiredKeys + 1 } }

def countEvicted (h : Held) : Held :=
  { h with metrics := { h.metrics with evictedKeys := h.metrics.evictedKeys + 1 } }

def get (h : Held) (key : Bytes) (now : Time) : Option Bytes × Held :=
  match h.lookup key with
  | none => (none, h.countMiss)
  | some ent =>
    if isExpired ent now then (none, (h.removeLocked key).countExpired.countMiss)
    else (some ent.value, (h.touch key).countHit)

def «exists» (h : Held) (key : Bytes) (now : Time) : Bool × Held :=
  match h.lookup key with
  | none => (false, h)
  | some ent =>
    if isExpired ent now then (false, (h.removeLocked key).countExpired)
    else (true, h)

/-- One round of the loop of `evictIfOverBudget`; `none` when the loop is left. -/
def evictOnce (h : Held) : Option Held :=
  if h.shard.maxBytes < h.shard.usedBytes then
    h.shard.lru.evictCandidate.map fun key => (h.removeLocked key).countEvicted
  else none

/-- The loop, for at most `rounds` rounds; `none` when it would go on. -/
def evictLoop : Nat → Held → Option Held
  | 0, _ => none
  | rounds + 1, h =>
    match h.evictOnce with
    | none => some h
    | some h' => evictLoop rounds h'

/-- As many rounds as there are keys end the loop: `evictLoop_isSome`. -/
def evictIfOverBudget (h : Held) : Held := (evictLoop (h.shard.lru.len + 1) h).getD h

/-- The accounting of a write, with the entry in its place and its key in front. -/
def putEntry (h : Held) (key : Bytes) (ent : CacheEntry) : Held :=
  match h.lookup key with
  | some existing =>
    { shard := { h.shard with
        entries := h.shard.entries.insert key ent
        lru := h.shard.lru.touch key
        usedBytes := h.shard.usedBytes + (ent.sizeBytes - existing.sizeBytes) }
      metrics := { h.metrics with
        memoryBytes := h.metrics.memoryBytes + (ent.sizeBytes - existing.sizeBytes) } }
  | none =>
    { shard := { h.shard with
        entries := h.shard.entries.insert key ent
        lru := h.shard.lru.touch key
        usedBytes := h.shard.usedBytes + ent.sizeBytes }
      metrics := { h.metrics with
        currentEntries := h.metrics.currentEntries + 1
        memoryBytes := h.metrics.memoryBytes + ent.sizeBytes } }

/-- The entry that `set` writes, at the clock reading `now`. -/
def newEntry (key value : Bytes) (opts : SetOptions) (now : Time) : CacheEntry :=
  if opts.hasTTL && decide (0 < opts.ttl) then
    { value, sizeBytes := approxSize key value, hasExpiry := true, expiresAt := now + opts.ttl }
  else { value, sizeBytes := approxSize key value }

/-- An expired entry is removed before the write, without being counted as expired. -/
def dropExpired (h : Held) (key : Bytes) (now : Time) : Held :=
  match h.lookup key with
  | none => h
  | some ent => if isExpired ent now then h.removeLocked key else h

/-- `now` is the reading of the expiry check and `now'` that of the new expiry. -/
def set (h : Held) (key value : Bytes) (opts : SetOptions) (now now' : Time) : Bool × Held :=
  let h := h.dropExpired key now
  let «exists» := (h.lookup key).isSome
  if opts.nx && «exists» then (false, h)
  else if opts.xx && !«exists» then (false, h)
  else (true, (h.putEntry key (newEntry key value opts now')).evictIfOverBudget)

def delete (h : Held) (key : Bytes) : Bool × Held :=
  match h.lookup key with
  | none => (false, h)
  | some _ => (true, h.removeLocked key)

/-- An entry updated in place. -/
def update (h : Held) (key : Bytes) (ent : CacheEntry) : Held :=
  { h with shard := { h.shard with entries := h.shard.entries.insert key ent } }

def expire (h : Held) (key : Bytes) (ttl : Duration) (now now' : Time) : Bool × Held :=
  match h.lookup key with
  | none => (false, h)
  | some ent =>
    if isExpired ent now then (false, h)
    else (true, h.update key { ent with hasExpiry := true, expiresAt := now' + ttl })

def persist (h : Held) (key : Bytes) (now : Time) : Bool × Held :=
  match h.lookup key with
  | none => (false, h)
  | some ent =>
    if isExpired ent now || !ent.hasExpiry then (false, h)
    else (true, h.update key { ent with hasExpiry := false })

/-- `time.Until`: a difference beyond the range of a duration is cut off there. -/
def untilTime (t now : Time) : Duration := max (-2 ^ 63) (min (2 ^ 63 - 1) (t - now))

def ttl (h : Held) (key : Bytes) (now now' : Time) : Option Duration × Held :=
  match h.lookup key with
  | none => (none, h)
  | some ent =>
    if isExpired ent now then (none, (h.removeLocked key).countExpired)
    else if !ent.hasExpiry then (some 0, h)
    else (some (untilTime ent.expiresAt now'), h)

/-- The number a live value stands for; an expired entry counts as 0. -/
def currentValue (h : Held) (key : Bytes) (now : Time) : Option Int :=
  match h.lookup key with
  | none => some 0
  | some ent => if isExpired ent now then some 0 else readInt64 ent.value

/-- An entry that is there keeps its expiry, also when it is expired. -/
def incrBy (h : Held) (key : Bytes) (delta : Int) (now : Time) : Except String Int × Held :=
  match h.currentValue key now with
  | none => (.error "value is not an integer or out of range", h)
  | some current =>
    let next := wrap64 (current + delta)
    let value := intText next
    let size := approxSize key value
    let ent : CacheEntry := match h.lookup key with
      | some ent => { ent with value, sizeBytes := size }
      | none => { value, sizeBytes := size }
    (.ok next, (h.putEntry key ent).evictIfOverBudget)

def restoreEntry (h : Held) (key : Bytes) (ent : CacheEntry) (now : Time) : Held :=
  if isExpired ent now then h
  else
    { shard := { h.shard with
        entries := h.shard.entries.insert key ent
        lru := h.shard.lru.touch key
        usedBytes := h.shard.usedBytes + ent.sizeBytes }
      metrics := { h.metrics with
        currentEntries := h.metrics.currentEntries + 1
        memoryBytes := h.metrics.memoryBytes + ent.sizeBytes } }

def flushAll (h : Held) : Held :=
  { shard := { h.shard with entries := ∅, lru := .empty, usedBytes := 0 }
    metrics := { h.metrics with
      currentEntries := h.metrics.currentEntries - h.shard.entries.entries.length
      memoryBytes := h.metrics.memoryBytes - h.shard.usedBytes } }

/-- The keys that `sweepExpired` removes. -/
def expiredKeys (s : Shard) (now : Time) : List Bytes :=
  (s.entries.entries.filter fun e => isExpired e.2 now).map (·.1)

def sweepExpired (h : Held) (now : Time) : Held :=
  (expiredKeys h.shard now).foldl (fun h key => (h.removeLocked key).countExpired) h

end Held

/-- The live entries that `forEach` visits, up to the order of Go's map iteration. -/
def Shard.live (s : Shard) (now : Time) : List (Bytes × CacheEntry) :=
  (s.entries.entries.filter fun e => !isExpired e.2 now).map fun e => (e.1, e.2)

def Shard.dbSize (s : Shard) : Nat := s.entries.entries.length

end SqlOptimizer.Cache
