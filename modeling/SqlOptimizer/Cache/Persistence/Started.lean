import SqlOptimizer.Cache.Persistence.AllOrNothing
import SqlOptimizer.Cache.Storage.Expiry

/-! The stores of a server: one that loaded a snapshot file at its start, whatever the file held, and
has run operations since. -/

namespace SqlOptimizer.Cache

/-- The accounts of a shard are in order, and no entry has a negative size. -/
structure Shard.Weighed (s : Shard) : Prop where
  tracked : s.Tracked
  sizes : ∀ key, 0 ≤ entryBytes (s.entries.lookup key)

/-- A store after the load of a file. -/
def startedStore (checksum : Bytes → UInt32) (clock : Nat → Time) (numShards maxMemoryBytes : Int)
    (file : FileRead) : ShardedStore (shardCount numShards) :=
  (loadSnapshot checksum clock (newStore numShards maxMemoryBytes) file).2

theorem weighed_onHeld {n : Nat} (op : StoreOp n) {h : Held} (hw : h.shard.Weighed) :
    (op.onHeld h).shard.Weighed := by
  refine ⟨(op.keeps h).tracked hw.tracked, fun key => ?_⟩
  show 0 ≤ entryBytes ((op.onHeld h).lookup key)
  cases hent : (op.onHeld h).lookup key with
  | none => exact le_rfl
  | some ent =>
    cases hk : op.key with
    | some k =>
      rw [← StoreOp.lookup_onHeld hk hent]
      split
      · exact op.entryBytes_onEntry (hw.sizes k)
      · exact hw.sizes key
    | none =>
      cases op with
      | flushAll i => cases hent
      | sweepExpired i now =>
        rw [← hent]
        show 0 ≤ entryBytes ((h.sweepExpired now).lookup key)
        rw [lookup_sweepExpired]
        exact StoreOp.entryBytes_liveAt (hw.sizes key)
      | _ => cases hk

/-- An entry that is restored has no size, and neither has any that it replaces. -/
structure Shard.Unweighed (s : Shard) : Prop where
  tracked : s.Tracked
  sizes : ∀ key, entryBytes (s.entries.lookup key) = 0

theorem Shard.Unweighed.weighed {s : Shard} (h : s.Unweighed) : s.Weighed :=
  ⟨h.tracked, fun key => (h.sizes key).ge⟩

theorem unweighed_restoreEntry {h : Held} (hu : h.shard.Unweighed) (key : Bytes)
    {ent : CacheEntry} (hsize : ent.sizeBytes = 0) (now : Time) :
    (h.restoreEntry key ent now).shard.Unweighed := by
  unfold Held.restoreEntry
  split
  · exact hu
  · have ht := hu.tracked
    refine ⟨⟨ht.lru.touch, ?_, ?_⟩, fun k => ?_⟩
    · show (h.shard.lru.touch key).keys.Perm (h.shard.entries.insert key ent).keys
      rw [ht.lru.touch_keys, keys_insert]
      exact (ht.keys.erase key).cons key
    · show h.shard.usedBytes + ent.sizeBytes = totalWeight _ (h.shard.entries.insert key ent)
      have hold := hu.sizes key
      rw [totalWeight_insert]
      cases hent : h.shard.entries.lookup key with
      | none =>
        rw [erase_of_lookup_none hent, ht.used]
        exact add_comm _ _
      | some old =>
        rw [hent] at hold
        rw [totalWeight_erase hent, ht.used]
        dsimp only [entryBytes] at hold ⊢
        omega
    · show entryBytes ((h.shard.entries.insert key ent).lookup k) = 0
      rw [Held.lookup_insert]
      split
      · exact hsize
      · exact hu.sizes k

theorem readEntry_sizeBytes {i : Nat} {r r' : Bytes} {e : Bytes × CacheEntry}
    (h : readEntry i r = .ok (e, r')) : e.2.sizeBytes = 0 := by
  obtain ⟨⟨key, r1⟩, -, h⟩ := Except.bind_eq_ok.mp h
  obtain ⟨⟨value, r2⟩, -, h⟩ := Except.bind_eq_ok.mp h
  obtain ⟨⟨flag, r3⟩, -, h⟩ := Except.bind_eq_ok.mp h
  obtain ⟨⟨nano, r4⟩, -, h⟩ := Except.bind_eq_ok.mp h
  cases h
  show (restoredEntry value (flag.headD 0) nano).sizeBytes = 0
  unfold restoredEntry
  split <;> rfl

section

variable {n : Nat} [NeZero n] {s : ShardedStore n}

theorem unweighed_loadEntries (clock : Nat → Time) (hs : ∀ i, (s.shards i).Unweighed)
    (i count : Nat) (r : Bytes) : ∀ j, ((loadEntries clock s i count r).2.shards j).Unweighed := by
  induction count generalizing s i r with
  | zero => exact hs
  | succ count ih =>
    rw [loadEntries]
    split
    case h_1 => exact hs
    case h_2 key ent r' hentry =>
      refine ih (ShardedStore.release_forall hs ?_) _ _
      exact unweighed_restoreEntry (hs _) key (readEntry_sizeBytes hentry) _

theorem maxBytes_loadEntries (clock : Nat → Time) (i count : Nat) (r : Bytes) (j : Fin n) :
    ((loadEntries clock s i count r).2.shards j).maxBytes = (s.shards j).maxBytes := by
  rw [loadEntries_eq]
  generalize (decodeEntries i count r).1 = es
  induction es generalizing s i with
  | nil => rfl
  | cons e es ih =>
    rw [restoreRead, ih]
    show (Function.update s.shards (shardFor n e.1)
      ((s.held (shardFor n e.1)).restoreEntry e.1 e.2 (clock i)).shard j).maxBytes = _
    rw [Function.update_apply]
    split
    case isTrue hj =>
      rw [hj, Held.restoreEntry]
      split <;> rfl
    case isFalse => rfl

theorem ShardedStore.run_weighed (hs : ∀ i, (s.shards i).Weighed) (ops : List (StoreOp n)) :
    ∀ i, ((s.run ops).shards i).Weighed := by
  induction ops generalizing s with
  | nil => exact hs
  | cons op ops ih => exact ih (release_forall hs (weighed_onHeld op (hs _)))

end

theorem newShard_unweighed (maxBytes : Int) : (newShard maxBytes).Unweighed :=
  ⟨newShard_tracked maxBytes, fun _ => rfl⟩

/-- What holds of the shards of a server at any time. -/
theorem startedStore_run (checksum : Bytes → UInt32) (clock : Nat → Time)
    (numShards maxMemoryBytes : Int) (file : FileRead)
    (ops : List (StoreOp (shardCount numShards))) (i : Fin (shardCount numShards)) :
    let s := (startedStore checksum clock numShards maxMemoryBytes file).run ops
    (s.shards i).Weighed ∧ (s.shards i).maxBytes = perShardBytes numShards maxMemoryBytes := by
  have hnew : ∀ i, ((newStore numShards maxMemoryBytes).shards i).Unweighed :=
    fun _ => newShard_unweighed _
  have hstarted : ∀ i, ((startedStore checksum clock numShards maxMemoryBytes file).shards i).Weighed ∧
      ((startedStore checksum clock numShards maxMemoryBytes file).shards i).maxBytes =
        perShardBytes numShards maxMemoryBytes := by
    intro i
    unfold startedStore loadSnapshot
    split
    · exact ⟨(hnew i).weighed, rfl⟩
    · exact ⟨(hnew i).weighed, rfl⟩
    · split
      · exact ⟨(hnew i).weighed, rfl⟩
      · exact ⟨(unweighed_loadEntries clock hnew 0 _ _ i).weighed, maxBytes_loadEntries clock 0 _ _ i⟩
  refine ⟨ShardedStore.run_weighed (fun i => (hstarted i).1) ops i, ?_⟩
  rw [ShardedStore.run_maxBytes]
  exact (hstarted i).2

end SqlOptimizer.Cache
