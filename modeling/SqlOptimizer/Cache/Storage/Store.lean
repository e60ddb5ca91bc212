import Mathlib.Algebra.BigOperators.Fin
import SqlOptimizer.Cache.Storage.Shard
import SqlOptimizer.Util.Hash

/-! `cache/internal/storage/store.go`: the sharded store. -/

namespace SqlOptimizer.Cache

structure ShardedStore (n : Nat) where
  shards : Fin n → Shard
  metrics : Metrics

/-- The number of shards that `New` makes. -/
def shardCount (numShards : Int) : Nat := if numShards < 1 then 1 else numShards.toNat

instance (numShards : Int) : NeZero (shardCount numShards) where
  out := by
    unfold shardCount
    split <;> omega

instance : NeZero (shardCount 1) := ⟨by decide⟩

/-- The budget of a shard; Go's division rounds towards zero. -/
def perShardBytes (numShards maxMemoryBytes : Int) : Int :=
  max 1 (maxMemoryBytes.tdiv (shardCount numShards))

/-- `New` -/
def newStore (numShards maxMemoryBytes : Int) : ShardedStore (shardCount numShards) :=
  ⟨fun _ => newShard (perShardBytes numShards maxMemoryBytes), {}⟩

/-- The hash modulo the length of the slice as a `uint32`. -/
def shardFor (n : Nat) [NeZero n] (key : Bytes) : Fin n :=
  ⟨(fnv1a32 key).toNat % (n % 2 ^ 32), by
    have hn : 0 < n := Nat.pos_of_ne_zero (NeZero.ne n)
    have hhash : (fnv1a32 key).toNat < 2 ^ 32 := (fnv1a32 key).toNat_lt
    rcases Nat.eq_zero_or_pos (n % 2 ^ 32) with h | h
    · rw [h, Nat.mod_zero]
      have : 2 ^ 32 ≤ n := Nat.le_of_dvd hn (Nat.dvd_of_mod_eq_zero h)
      omega
    · have := Nat.mod_lt (fnv1a32 key).toNat h
      have := Nat.mod_le n (2 ^ 32)
      omega⟩

namespace ShardedStore

variable {n : Nat}

/-- A shard with its lock held. -/
def held (s : ShardedStore n) (i : Fin n) : Held := ⟨s.shards i, s.metrics⟩

/-- The store after the lock of shard `i` is released. -/
def release (s : ShardedStore n) (i : Fin n) (h : Held) : ShardedStore n :=
  ⟨Function.update s.shards i h.shard, h.metrics⟩

variable [NeZero n]

/-- One locked operation on the shard of `key`. -/
def onShard {α : Type} (s : ShardedStore n) (key : Bytes) (op : Held → α × Held) :
    α × ShardedStore n :=
  let i := shardFor n key
  let (a, h) := op (s.held i)
  (a, s.release i h)

def get (s : ShardedStore n) (key : Bytes) (now : Time) : Option Bytes × ShardedStore n :=
  s.onShard key (·.get key now)

def «exists» (s : ShardedStore n) (key : Bytes) (now : Time) : Bool × ShardedStore n :=
  s.onShard key (·.exists key now)

def set (s : ShardedStore n) (key value : Bytes) (opts : SetOptions) (now now' : Time) :
    Bool × ShardedStore n :=
  s.onShard key (·.set key value opts now now')

/-- One round of the loop of `Delete`. -/
def delete (s : ShardedStore n) (key : Bytes) : Bool × ShardedStore n := s.onShard key (·.delete key)

def expire (s : ShardedStore n) (key : Bytes) (ttl : Duration) (now now' : Time) :
    Bool × ShardedStore n :=
  s.onShard key (·.expire key ttl now now')

def persist (s : ShardedStore n) (key : Bytes) (now : Time) : Bool × ShardedStore n :=
  s.onShard key (·.persist key now)

def ttl (s : ShardedStore n) (key : Bytes) (now now' : Time) : Option Duration × ShardedStore n :=
  s.onShard key (·.ttl key now now')

def incrBy (s : ShardedStore n) (key : Bytes) (delta : Int) (now : Time) :
    Except String Int × ShardedStore n :=
  s.onShard key (·.incrBy key delta now)

def restoreEntry (s : ShardedStore n) (key : Bytes) (ent : CacheEntry) (now : Time) :
    ShardedStore n :=
  (s.onShard key fun h => ((), h.restoreEntry key ent now)).2

def flushShard (s : ShardedStore n) (i : Fin n) : ShardedStore n :=
  s.release i (s.held i).flushAll

def sweepShard (s : ShardedStore n) (i : Fin n) (now : Time) : ShardedStore n :=
  s.release i ((s.held i).sweepExpired now)

def flushAll (s : ShardedStore n) : ShardedStore n := (List.finRange n).foldl flushShard s

def dbSize (s : ShardedStore n) : Nat := ∑ i, (s.shards i).dbSize

end ShardedStore

/-- The operations of a store, each on one shard with its lock held, with the clock readings that
it takes. -/
inductive StoreOp (n : Nat) where
  | get (key : Bytes) (now : Time)
  | exists (key : Bytes) (now : Time)
  | set (key value : Bytes) (opts : SetOptions) (now now' : Time)
  | delete (key : Bytes)
  | expire (key : Bytes) (ttl : Duration) (now now' : Time)
  | persist (key : Bytes) (now : Time)
  | ttl (key : Bytes) (now now' : Time)
  | incrBy (key : Bytes) (delta : Int) (now : Time)
  | flushAll (shard : Fin n)
  | sweepExpired (shard : Fin n) (now : Time)

variable {n : Nat}

namespace StoreOp

/-- The shard whose lock the operation takes. -/
def shard [NeZero n] : StoreOp n → Fin n
  | .get key _ | .exists key _ | .set key _ _ _ _ | .delete key | .expire key _ _ _
  | .persist key _ | .ttl key _ _ | .incrBy key _ _ => shardFor n key
  | .flushAll i | .sweepExpired i _ => i

/-- What the operation does to the shard and the counters. -/
def onHeld : StoreOp n → Held → Held
  | .get key now, h => (h.get key now).2
  | .exists key now, h => (h.exists key now).2
  | .set key value opts now now', h => (h.set key value opts now now').2
  | .delete key, h => (h.delete key).2
  | .expire key duration now now', h => (h.expire key duration now now').2
  | .persist key now, h => (h.persist key now).2
  | .ttl key now now', h => (h.ttl key now now').2
  | .incrBy key delta now, h => (h.incrBy key delta now).2
  | .flushAll _, h => h.flushAll
  | .sweepExpired _ now, h => h.sweepExpired now

end StoreOp

def ShardedStore.step [NeZero n] (s : ShardedStore n) (op : StoreOp n) : ShardedStore n :=
  s.release op.shard (op.onHeld (s.held op.shard))

/-- The store after a sequence of operations. -/
def ShardedStore.run [NeZero n] (s : ShardedStore n) (ops : List (StoreOp n)) : ShardedStore n :=
  ops.foldl ShardedStore.step s

end SqlOptimizer.Cache
