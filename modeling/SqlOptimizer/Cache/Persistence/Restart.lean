import SqlOptimizer.Cache.Persistence.RoundTrip

/-! The memory budget after a restart. -/

namespace SqlOptimizer.Cache

/-- The bytes of every shard are the sizes of its keys and values, and within its budget. -/
def ShardedStore.Accounted {n : Nat} (s : ShardedStore n) : Prop :=
  ∀ i, (s.shards i).usedBytes =
      ((s.shards i).entries.entries.map fun e => approxSize e.1 e.2.value).sum ∧
    (s.shards i).usedBytes ≤ (s.shards i).maxBytes

theorem ShardedStore.Consistent.accounted {n : Nat} {s : ShardedStore n} (h : s.Consistent) :
    s.Accounted := by
  intro i
  refine ⟨?_, (h.within i).used⟩
  rw [(h.tracked i).used]
  exact congrArg List.sum (List.map_congr_left (h.sized i))

section

variable {n : Nat} [NeZero n] {s : ShardedStore n}

theorem usedBytes_restoreEntry (key : Bytes) (ent : CacheEntry) (now : Time) (i : Fin n) :
    ((s.restoreEntry key (restoredFrom ent) now).shards i).usedBytes = (s.shards i).usedBytes := by
  have hsize : (restoredFrom ent).sizeBytes = 0 := by
    unfold restoredFrom
    split <;> rfl
  show (Function.update s.shards (shardFor n key)
    ((s.held (shardFor n key)).restoreEntry key (restoredFrom ent) now).shard i).usedBytes = _
  rw [Function.update_apply]
  split
  case isTrue hi =>
    rw [hi]
    unfold Held.restoreEntry
    split
    · rfl
    · show (s.shards (shardFor n key)).usedBytes + (restoredFrom ent).sizeBytes = _
      rw [hsize, add_zero]
  case isFalse => rfl

/-- The restored entries are not counted. -/
theorem usedBytes_restoreAll (clock : Nat → Time) (i : Nat) (es : List (Bytes × CacheEntry))
    (j : Fin n) : ((restoreAll clock s i es).shards j).usedBytes = (s.shards j).usedBytes := by
  induction es generalizing s i with
  | nil => rfl
  | cons e es ih =>
    rw [restoreAll, ih]
    exact usedBytes_restoreEntry e.1 e.2 (clock i) j

theorem restoreAll_of_expired (clock : Nat → Time) {es : List (Bytes × CacheEntry)} {i : Nat}
    (h : ∀ k e, es[k]? = some e → isExpired (restoredFrom e.2) (clock (i + k)) = true) :
    restoreAll clock s i es = s := by
  induction es generalizing i with
  | nil => rfl
  | cons e es ih =>
    have hexp : isExpired (restoredFrom e.2) (clock i) = true := h 0 e rfl
    rw [restoreAll, restoreEntry_of_expired hexp]
    refine ih fun k e' he => ?_
    rw [show i + 1 + k = i + (k + 1) by omega]
    exact h (k + 1) e' he

end

theorem restored_eq_nil {clock : Nat → Time} {es : List (Bytes × CacheEntry)} {i : Nat}
    (h : restored clock i es = []) :
    ∀ k e, es[k]? = some e → isExpired (restoredFrom e.2) (clock (i + k)) = true := by
  induction es generalizing i with
  | nil => exact fun k e he => by simp at he
  | cons x es ih =>
    rw [restored] at h
    split at h
    case isTrue hexp =>
      intro k e he
      cases k with
      | zero =>
        cases he
        exact hexp
      | succ k =>
        rw [show i + (k + 1) = i + 1 + k by omega]
        exact ih h k e he
    case isFalse => cases h

/-- Over an accounted store without used bytes there are no entries. -/
theorem listed_eq_zero {n : Nat} {s : ShardedStore n} (h : s.Accounted)
    (hused : ∀ i, (s.shards i).usedBytes = 0) : s.listed = 0 := by
  apply Finset.sum_eq_zero
  intro i _
  have hsum := (h i).1
  rw [hused i] at hsum
  cases hentries : (s.shards i).entries.entries with
  | nil =>
    rw [Shard.listed, hentries]
    rfl
  | cons e es =>
    have hpos : ∀ l : List (Sigma fun _ : Bytes => CacheEntry),
        0 ≤ (l.map fun e => approxSize e.1 e.2.value).sum := by
      intro l
      apply List.sum_nonneg
      intro x hx
      obtain ⟨e, -, rfl⟩ := List.mem_map.mp hx
      exact (approxSize_pos _ _).le
    rw [hentries, List.map_cons, List.sum_cons] at hsum
    have := hpos es
    have := approxSize_pos e.1 e.2.value
    omega

/-- Loading a snapshot into a new store keeps the accounts, through all later operations, exactly
when nothing is restored: every entry of the file has expired when its turn comes. -/
theorem loadSnapshot_accounted_iff (checksum : Bytes → UInt32) (clock : Nat → Time) (l : Listing)
    (numShards maxMemoryBytes : Int) :
    (∀ ops, ((loadSnapshot checksum clock (newStore numShards maxMemoryBytes)
      (.contents (snapshotFile checksum l.entries))).2.run ops).Accounted) ↔
    ∀ k e, l.entries[k]? = some e → isExpired (restoredFrom e.2) (clock k) = true := by
  rw [loadSnapshot_write]
  constructor
  · intro h
    have haccounted : (restoreAll clock (newStore numShards maxMemoryBytes) 0
      l.entries).Accounted := h []
    have hlisted := listed_restoreAll (s := newStore numShards maxMemoryBytes) clock l.nodup
      (fun e _ => newStore_lacks _ _ e.1) 0
    have hused := usedBytes_restoreAll (s := newStore numShards maxMemoryBytes) clock 0 l.entries
    rw [newStore_listed, add_zero, listed_eq_zero haccounted hused] at hlisted
    have hnil := restored_eq_nil (Multiset.coe_eq_zero _ |>.mp hlisted.symm)
    simpa using hnil
  · intro h ops
    rw [restoreAll_of_expired clock (by simpa using h)]
    exact ((newStore_consistent numShards maxMemoryBytes).run ops).accounted

/-- One live key of a snapshot is in the store after the load, and the bytes it takes are neither
counted nor bounded by the budget of 10 bytes. -/
theorem loadSnapshot_uncounted :
    let loaded := loadSnapshot crc32ChecksumIEEE (fun _ => sampleNow) (newStore 1 10)
      (.contents (snapshotFile crc32ChecksumIEEE ((sampleStore 10).live fun _ => sampleNow)))
    loaded.1 = none ∧ (loaded.2.shards 0).usedBytes = 0 ∧ (loaded.2.shards 0).maxBytes = 10 ∧
      ((loaded.2.shards 0).entries.entries.map fun e => approxSize e.1 e.2.value).sum = 66 := by
  decide +kernel

end SqlOptimizer.Cache
