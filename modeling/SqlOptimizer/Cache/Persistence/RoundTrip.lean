import Mathlib.Algebra.Order.BigOperators.Group.List
import SqlOptimizer.Cache.Persistence.Snapshot
import SqlOptimizer.Cache.Storage.Bookkeeping
import SqlOptimizer.Library.Failure

/-! What loading a snapshot file gives back. -/

namespace SqlOptimizer.Cache

/-! ### Fields -/

theorem readFull_append (b rest : Bytes) : readFull b.length (b ++ rest) = .ok (b, rest) := by
  rw [readFull, if_pos (by simp), List.take_left, List.drop_left]

theorem readFull_of_length {n : Nat} {b : Bytes} (h : b.length = n) (rest : Bytes) :
    readFull n (b ++ rest) = .ok (b, rest) := h ▸ readFull_append b rest

@[simp] theorem wrapError_ok {α : Type} (context : String) (a : α) :
    wrapError context (.ok a) = .ok a := rfl

theorem readUint_bigEndian {width n : Nat} (h : n < 256 ^ width) (rest : Bytes) :
    readUint width (bigEndian width n ++ rest) = .ok (n, rest) := by
  rw [readUint, readFull_of_length (length_bigEndian width n)]
  exact congrArg (fun n => Except.ok (n, rest)) (ofBigEndian_bigEndian_of_lt h)

theorem wrap64_emod (n : Int) : wrap64 (n % 2 ^ 64) = wrap64 n := Int.emod_bmod n (2 ^ 64)

@[simp] theorem wrap64_wrap64 (n : Int) : wrap64 (wrap64 n) = wrap64 n := Int.bmod_bmod

theorem wrap64_mem_range (n : Int) : -2 ^ 63 ≤ wrap64 n ∧ wrap64 n < 2 ^ 63 := by
  have hlow := Int.le_bmod (x := n) (m := 2 ^ 64) (by omega)
  have hhigh := Int.bmod_lt (x := n) (m := 2 ^ 64) (by omega)
  unfold wrap64
  omega

theorem wrap64_eq_self_iff {n : Int} : wrap64 n = n ↔ -2 ^ 63 ≤ n ∧ n < 2 ^ 63 := by
  constructor
  · intro h
    have := wrap64_mem_range n
    rwa [h] at this
  · intro h
    unfold wrap64
    rw [Int.bmod_def]
    split <;> omega

theorem readInt64Field_write (n : Int) (rest : Bytes) :
    readInt64Field (writeInt64 n ++ rest) = .ok (wrap64 n, rest) := by
  have hpos : 0 ≤ n % 2 ^ 64 := Int.emod_nonneg n (by omega)
  have hlt : n % 2 ^ 64 < 2 ^ 64 := Int.emod_lt_of_pos n (by omega)
  rw [readInt64Field, writeInt64, readUint_bigEndian (by omega), Except.ok_bind]
  dsimp only
  rw [Int.toNat_of_nonneg hpos, wrap64_emod, Except.pure_eq_ok]

theorem readBytesField_write {b : Bytes} (h : b.length ≤ maxFieldLength) (rest : Bytes) :
    readBytesField (writeBytesField b ++ rest) = .ok (b, rest) := by
  have hmax : maxFieldLength = 536870912 := rfl
  rw [readBytesField, writeBytesField, List.append_assoc, readUint_bigEndian (by omega), Except.ok_bind]
  dsimp only
  rw [if_neg (Nat.not_lt.mpr h), readFull_append]

/-! ### Entries -/

/-- The entry that a saved entry is restored as. -/
def restoredFrom (ent : CacheEntry) : CacheEntry :=
  if ent.hasExpiry then
    { value := ent.value, hasExpiry := true, expiresAt := unixNano ent.expiresAt, sizeBytes := 0 }
  else { value := ent.value, sizeBytes := 0 }

theorem readEntry_write {e : Bytes × CacheEntry} (hkey : e.1.length ≤ maxFieldLength)
    (hvalue : e.2.value.length ≤ maxFieldLength) (i : Nat) (rest : Bytes) :
    readEntry i (writeEntry e ++ rest) = .ok ((e.1, restoredFrom e.2), rest) := by
  have hexpiry : ∃ flag nano, writeExpiry e.2 = [flag] ++ writeInt64 nano ∧
      restoredEntry e.2.value flag (wrap64 nano) = restoredFrom e.2 := by
    unfold writeExpiry restoredFrom
    split
    · exact ⟨1, unixNano e.2.expiresAt, rfl, by simp [restoredEntry, unixNano]⟩
    · exact ⟨0, 0, rfl, rfl⟩
  obtain ⟨flag, nano, hwrite, hrestored⟩ := hexpiry
  have hflag : readFull 1 ([flag] ++ (writeInt64 nano ++ rest)) =
      .ok ([flag], writeInt64 nano ++ rest) := readFull_append [flag] _
  simp only [readEntry, writeEntry, List.append_assoc, readBytesField_write hkey, wrapError_ok,
    Except.ok_bind, readBytesField_write hvalue, hwrite, hflag, readInt64Field_write, List.headD_cons,
    hrestored, Except.pure_eq_ok]

/-- What a snapshot lists: each key once, and all fields and the count within the limits of the
format. -/
structure Listing where
  entries : List (Bytes × CacheEntry)
  nodup : (entries.map (·.1)).Nodup
  keys : ∀ e ∈ entries, e.1.length ≤ maxFieldLength
  values : ∀ e ∈ entries, e.2.value.length ≤ maxFieldLength
  count : entries.length < 2 ^ 64

section Load

variable {n : Nat} [NeZero n] (clock : Nat → Time)

/-- The restoring of entries from entry `i` on. -/
def restoreAll (s : ShardedStore n) (i : Nat) : List (Bytes × CacheEntry) → ShardedStore n
  | [] => s
  | e :: es => restoreAll (s.restoreEntry e.1 (restoredFrom e.2) (clock i)) (i + 1) es

theorem loadEntries_write {es : List (Bytes × CacheEntry)}
    (hkeys : ∀ e ∈ es, e.1.length ≤ maxFieldLength)
    (hvalues : ∀ e ∈ es, e.2.value.length ≤ maxFieldLength) (s : ShardedStore n) (i : Nat)
    (rest : Bytes) :
    loadEntries clock s i es.length (es.flatMap writeEntry ++ rest) =
      (none, restoreAll clock s i es) := by
  induction es generalizing s i with
  | nil => rfl
  | cons e es ih =>
    rw [List.length_cons, List.flatMap_cons, List.append_assoc, loadEntries,
      readEntry_write (hkeys e List.mem_cons_self) (hvalues e List.mem_cons_self)]
    exact ih (fun e' he => hkeys e' (List.mem_cons_of_mem _ he))
      (fun e' he => hvalues e' (List.mem_cons_of_mem _ he)) _ _

theorem readHeader_write (checksum : Bytes → UInt32) {es : List (Bytes × CacheEntry)}
    (hcount : es.length < 2 ^ 64) :
    readHeader checksum (snapshotFile checksum es) = .ok (es.length, es.flatMap writeEntry ++
      bigEndian 4 (checksum (writePayload es)).toNat) := by
  have hmagic : magic.length = 8 := rfl
  have hlen : (snapshotFile checksum es).length = (writePayload es).length + 4 := by
    simp [snapshotFile]
  have hpayload : 20 ≤ (writePayload es).length := by
    simp only [writePayload, List.length_append, length_bigEndian, hmagic]
    omega
  have hsum : (checksum (writePayload es)).toNat < 256 ^ 4 := UInt32.toNat_lt _
  have htake : (snapshotFile checksum es).take ((snapshotFile checksum es).length - 4) =
      writePayload es := by
    rw [hlen, Nat.add_sub_cancel, snapshotFile, List.take_left]
  have hdrop : (snapshotFile checksum es).drop ((snapshotFile checksum es).length - 4) =
      bigEndian 4 (checksum (writePayload es)).toNat := by
    rw [hlen, Nat.add_sub_cancel, snapshotFile, List.drop_left]
  unfold readHeader
  rw [htake, hdrop, ofBigEndian_bigEndian_of_lt hsum, if_neg (by omega), if_neg (by simp)]
  have hfile : snapshotFile checksum es = magic ++ (bigEndian 4 formatVersion ++
      (bigEndian 8 es.length ++ (es.flatMap writeEntry ++
        bigEndian 4 (checksum (writePayload es)).toNat))) := by
    simp [snapshotFile, writePayload]
  rw [hfile, readFull_append]
  have hversion : formatVersion < 256 ^ 4 := by decide
  simp only [Except.mapError, Except.ok_bind, readUint_bigEndian hversion,
    readUint_bigEndian (show es.length < 256 ^ 8 by omega), wrapError_ok, ne_eq, not_true_eq_false,
    if_false]

theorem loadSnapshot_write (checksum : Bytes → UInt32) (l : Listing) (s : ShardedStore n) :
    loadSnapshot checksum clock s (.contents (snapshotFile checksum l.entries)) =
      (none, restoreAll clock s 0 l.entries) := by
  rw [loadSnapshot, readHeader_write checksum l.count]
  exact loadEntries_write clock l.keys l.values s 0 _

/-- The entries that are restored from entry `i` on: those that have not expired. -/
def restored (i : Nat) : List (Bytes × CacheEntry) → List (Bytes × CacheEntry)
  | [] => []
  | e :: es =>
    if isExpired (restoredFrom e.2) (clock i) then restored (i + 1) es
    else (e.1, restoredFrom e.2) :: restored (i + 1) es

end Load

/-! ### The entries of a store -/

/-- The entries of a shard. -/
def Shard.listed (s : Shard) : Multiset (Bytes × CacheEntry) :=
  (s.entries.entries.map fun e => (e.1, e.2) : List (Bytes × CacheEntry))

/-- The entries of all shards. -/
def ShardedStore.listed {n : Nat} (s : ShardedStore n) : Multiset (Bytes × CacheEntry) :=
  ∑ i, (s.shards i).listed

section Restore

variable {n : Nat} [NeZero n] {s : ShardedStore n} {key : Bytes} {ent : CacheEntry} {now : Time}

theorem restoreEntry_of_expired (h : isExpired ent now = true) : s.restoreEntry key ent now = s := by
  have hheld : (s.held (shardFor n key)).restoreEntry key ent now = s.held (shardFor n key) := by
    rw [Held.restoreEntry, if_pos h]
  show s.release _ ((s.held (shardFor n key)).restoreEntry key ent now) = s
  rw [hheld]
  show (⟨Function.update s.shards _ (s.shards _), s.metrics⟩ : ShardedStore n) = s
  rw [Function.update_eq_self]

/-- The store has no entry for the key. -/
def ShardedStore.Lacks (s : ShardedStore n) (key : Bytes) : Prop :=
  key ∉ (s.shards (shardFor n key)).entries

theorem listed_restoreEntry (hkey : s.Lacks key) (h : isExpired ent now = false) :
    (s.restoreEntry key ent now).listed = (key, ent) ::ₘ s.listed := by
  have hheld : ((s.held (shardFor n key)).restoreEntry key ent now).shard.listed =
      (key, ent) ::ₘ (s.shards (shardFor n key)).listed := by
    rw [Held.restoreEntry, if_neg (by simp [h])]
    show ((((s.shards (shardFor n key)).entries.insert key ent).entries.map fun e => (e.1, e.2) :
      List (Bytes × CacheEntry)) : Multiset (Bytes × CacheEntry)) = _
    rw [AList.entries_insert_of_notMem hkey]
    rfl
  have hsum := sum_update_add s.shards Shard.listed (shardFor n key)
    ((s.held (shardFor n key)).restoreEntry key ent now).shard
  rw [hheld, Multiset.cons_add, add_comm (Shard.listed _), ← Multiset.cons_add] at hsum
  exact add_right_cancel hsum

theorem lacks_restoreEntry {key' : Bytes} (hne : key' ≠ key) (h : s.Lacks key') :
    (s.restoreEntry key ent now).Lacks key' := by
  show key' ∉ (Function.update s.shards (shardFor n key)
    ((s.held (shardFor n key)).restoreEntry key ent now).shard (shardFor n key')).entries
  rw [Function.update_apply]
  split
  case isTrue hshard =>
    have h' : key' ∉ (s.shards (shardFor n key)).entries := hshard ▸ h
    unfold Held.restoreEntry
    split
    · exact h'
    · show key' ∉ (s.shards (shardFor n key)).entries.insert key ent
      rw [AList.mem_insert]
      exact fun hor => hor.elim hne h'
  case isFalse => exact h

/-- Loading adds what it restores, and nothing else. -/
theorem listed_restoreAll (clock : Nat → Time) {es : List (Bytes × CacheEntry)}
    (hnodup : (es.map (·.1)).Nodup) (hlacks : ∀ e ∈ es, s.Lacks e.1) (i : Nat) :
    (restoreAll clock s i es).listed = (restored clock i es : Multiset (Bytes × CacheEntry)) +
      s.listed := by
  induction es generalizing s i with
  | nil => simp [restoreAll, restored]
  | cons e es ih =>
    rw [List.map_cons, List.nodup_cons] at hnodup
    have hrest : ∀ e' ∈ es, s.Lacks e'.1 := fun e' he => hlacks e' (List.mem_cons_of_mem _ he)
    rw [restoreAll, restored]
    split
    case isTrue hexp =>
      rw [restoreEntry_of_expired hexp]
      exact ih hnodup.2 hrest (i + 1)
    case isFalse hlive =>
      have hlacks' : ∀ e' ∈ es,
          (s.restoreEntry e.1 (restoredFrom e.2) (clock i)).Lacks e'.1 := by
        intro e' he
        refine lacks_restoreEntry ?_ (hrest e' he)
        rintro heq
        exact hnodup.1 (heq ▸ List.mem_map_of_mem (f := (·.1)) he)
      rw [ih hnodup.2 hlacks' (i + 1), listed_restoreEntry (hlacks e List.mem_cons_self)
        (by simpa using hlive), ← Multiset.cons_coe, Multiset.cons_add, Multiset.add_cons]

end Restore

/-! ### The entries that a save collects -/

/-- The operation writes nothing longer than an argument of a command can be. -/
def StoreOp.Sendable {n : Nat} : StoreOp n → Prop
  | .set key value _ _ _ => key.length ≤ maxFieldLength ∧ value.length ≤ maxFieldLength
  | .incrBy key _ _ => key.length ≤ maxFieldLength
  | _ => True

theorem length_intText_wrap64 (n : Int) : (intText (wrap64 n)).length ≤ 20 := by
  have hrange := wrap64_mem_range n
  have hlen : (natText (wrap64 n).natAbs).length ≤ 19 := length_natText_le (by omega) (by omega)
  unfold intText
  split
  · rw [List.length_cons]
    omega
  · omega

/-- What holds of every entry of shard `i`: its key belongs there, and both fields can be sent. -/
def Storable {n : Nat} [NeZero n] (i : Fin n) (key value : Bytes) : Prop :=
  shardFor n key = i ∧ key.length ≤ maxFieldLength ∧ value.length ≤ maxFieldLength

theorem StoreOp.Sendable.storable {n : Nat} [NeZero n] {op : StoreOp n} (h : op.Sendable)
    {key : Bytes} {ent : CacheEntry} (hw : op.Writes key ent) :
    Storable op.shard key ent.value := by
  cases op with
  | set k value opts now now' =>
    obtain ⟨rfl, rfl⟩ := hw
    refine ⟨rfl, h.1, ?_⟩
    have hvalue : (Held.newEntry key value opts now').value = value := by
      unfold Held.newEntry
      split <;> rfl
    rw [hvalue]
    exact h.2
  | incrBy k delta now =>
    obtain ⟨rfl, ⟨m, hm⟩, -⟩ := hw
    refine ⟨rfl, h, ?_⟩
    have := length_intText_wrap64 m
    have hmax : maxFieldLength = 536870912 := rfl
    rw [hm]
    omega
  | _ => exact hw.elim

section Reachable

variable {numShards maxMemoryBytes : Int} {ops : List (StoreOp (shardCount numShards))}

theorem run_storable (hops : ∀ op ∈ ops, op.Sendable) (i : Fin (shardCount numShards)) :
    ∀ e ∈ (((newStore numShards maxMemoryBytes).run ops).shards i).entries.entries,
      Storable i e.1 e.2.value :=
  ShardedStore.run_entries_forall (fun op hop _ _ hw => (hops op hop).storable hw)
    (fun _ _ he => absurd he List.not_mem_nil) i

theorem mem_live {n : Nat} {s : ShardedStore n} {clock : Fin n → Time} {e : Bytes × CacheEntry} :
    e ∈ s.live clock ↔ ∃ i, (⟨e.1, e.2⟩ : Sigma fun _ : Bytes => CacheEntry) ∈
      (s.shards i).entries.entries ∧ isExpired e.2 (clock i) = false := by
  simp only [ShardedStore.live, Shard.live, List.mem_flatMap, List.mem_finRange, true_and,
    List.mem_map, List.mem_filter, Bool.not_eq_true']
  constructor
  · rintro ⟨i, ⟨k, ent⟩, ⟨he, hexp⟩, rfl⟩
    exact ⟨i, he, hexp⟩
  · rintro ⟨i, he, hexp⟩
    exact ⟨i, ⟨e.1, e.2⟩, ⟨he, hexp⟩, rfl⟩

theorem nodup_live {n : Nat} [NeZero n] {s : ShardedStore n}
    (hs : ∀ i, ∀ e ∈ (s.shards i).entries.entries, shardFor n e.1 = i) (clock : Fin n → Time) :
    ((s.live clock).map (·.1)).Nodup := by
  rw [ShardedStore.live, List.map_flatMap, List.nodup_flatMap]
  constructor
  · intro i _
    have hsub : List.Sublist (((s.shards i).live (clock i)).map (·.1)) (s.shards i).entries.keys := by
      rw [Shard.live, List.map_map]
      exact List.Sublist.map _ List.filter_sublist
    exact hsub.nodup (s.shards i).entries.keys_nodup
  · refine (List.nodup_finRange n).imp_of_mem ?_
    intro i j _ _ hij
    rw [Function.onFun, List.disjoint_left]
    intro key hi hj
    simp only [Shard.live, List.map_map, List.mem_map, List.mem_filter, Function.comp_apply] at hi hj
    obtain ⟨e, ⟨he, -⟩, rfl⟩ := hi
    obtain ⟨e', ⟨he', -⟩, heq⟩ := hj
    have hei := hs i e he
    have hej := hs j e' he'
    rw [heq] at hej
    exact hij (hei.symm.trans hej)

/-- An entry takes at least its overhead, so the budget bounds how many there are. -/
theorem length_entries_le {s : Shard} (ht : s.Tracked) (hs : s.Sized) :
    (s.entries.entries.length : Int) * entryOverheadBytes ≤ s.usedBytes := by
  have hsum : ∀ l : List (Sigma fun _ : Bytes => CacheEntry),
      (∀ e ∈ l, e.2.sizeBytes = approxSize e.1 e.2.value) →
        (l.length : Int) * entryOverheadBytes ≤ (l.map fun e => e.2.sizeBytes).sum := by
    intro l
    induction l with
    | nil => simp
    | cons e l ih =>
      intro hl
      have hsize := hl e List.mem_cons_self
      have ih := ih fun e he => hl e (List.mem_cons_of_mem _ he)
      rw [List.map_cons, List.sum_cons, List.length_cons]
      unfold approxSize entryOverheadBytes at *
      push_cast
      omega
  rw [ht.used]
  exact hsum _ hs

theorem run_length_live (hmax : maxMemoryBytes < 2 ^ 63)
    (clock : Fin (shardCount numShards) → Time) :
    (((newStore numShards maxMemoryBytes).run ops).live clock).length < 2 ^ 63 := by
  have hcons : ((newStore numShards maxMemoryBytes).run ops).Consistent :=
    (newStore_consistent numShards maxMemoryBytes).run ops
  have hbudget := (newStore numShards maxMemoryBytes).run_maxBytes ops
  generalize (newStore numShards maxMemoryBytes).run ops = s at *
  obtain ⟨k, hk⟩ : ∃ k, k = shardCount numShards := ⟨_, rfl⟩
  have hpos : 0 < k := hk ▸ Nat.pos_of_ne_zero (NeZero.ne _)
  -- the shares of the shards add up to at most the whole
  have hshare : (k : Int) * max 0 (maxMemoryBytes.tdiv k) < 2 ^ 63 := by
    rcases Int.le_total 0 maxMemoryBytes with hm | hm
    · rw [Int.tdiv_eq_ediv_of_nonneg hm, max_eq_right (Int.ediv_nonneg hm (by omega))]
      have := Int.mul_ediv_self_le (x := maxMemoryBytes) (k := k) (by omega)
      omega
    · have hneg : 0 ≤ (-maxMemoryBytes).tdiv k := Int.tdiv_nonneg (by omega) (by omega)
      rw [Int.neg_tdiv] at hneg
      rw [max_eq_left (by omega)]
      omega
  have hshard : ∀ i, ((s.shards i).live (clock i)).length ≤
      (max 0 (maxMemoryBytes.tdiv k)).toNat := by
    intro i
    have hlen := length_entries_le (hcons.tracked i) (hcons.sized i)
    have hused := (hcons.within i).used
    have hle : ((s.shards i).live (clock i)).length ≤ (s.shards i).entries.entries.length := by
      rw [Shard.live, List.length_map]
      exact List.length_filter_le _ _
    rw [hbudget i] at hused
    simp only [newStore, newShard, perShardBytes, ← hk] at hused
    unfold entryOverheadBytes at hlen
    omega
  have hsum : (s.live clock).length ≤ k * (max 0 (maxMemoryBytes.tdiv k)).toNat := by
    rw [ShardedStore.live, List.length_flatMap]
    refine (List.sum_le_card_nsmul _ (max 0 (maxMemoryBytes.tdiv k)).toNat fun x hx => ?_).trans_eq
      ?_
    · obtain ⟨i, -, rfl⟩ := List.mem_map.mp hx
      exact hshard i
    · rw [List.length_map, List.length_finRange, smul_eq_mul, hk]
  zify at hsum ⊢
  rw [Int.toNat_of_nonneg (le_max_left _ _)] at hsum
  exact hsum.trans_lt hshare

/-- The entries that a save of a reachable store collects, in any order. -/
def listingOf (hops : ∀ op ∈ ops, op.Sendable) (hmax : maxMemoryBytes < 2 ^ 63)
    {clock : Fin (shardCount numShards) → Time} {entries : List (Bytes × CacheEntry)}
    (hentries : entries.Perm (((newStore numShards maxMemoryBytes).run ops).live clock)) :
    Listing where
  entries := entries
  nodup := ((hentries.map (·.1)).nodup_iff).mpr
    (nodup_live (fun i e he => (run_storable hops i e he).1) clock)
  keys e he := by
    obtain ⟨i, hi, -⟩ := mem_live.mp (hentries.mem_iff.mp he)
    exact (run_storable hops i _ hi).2.1
  values e he := by
    obtain ⟨i, hi, -⟩ := mem_live.mp (hentries.mem_iff.mp he)
    exact (run_storable hops i _ hi).2.2
  count := by
    have hlive := @run_length_live numShards maxMemoryBytes ops hmax clock
    have := hentries.length_eq
    omega

end Reachable

/-! ### The round trip -/

/-- The expiry of an entry, if it has one. -/
def CacheEntry.expiry (ent : CacheEntry) : Option Time :=
  if ent.hasExpiry then some ent.expiresAt else none

/-- What a client can see of an entry: key, value and expiry. -/
def content (e : Bytes × CacheEntry) : Bytes × Bytes × Option Time := (e.1, e.2.value, e.2.expiry)

theorem expiry_restoredFrom (ent : CacheEntry) :
    (restoredFrom ent).expiry = ent.expiry.map unixNano := by
  unfold restoredFrom CacheEntry.expiry
  split
  · simp
  · simp

theorem value_restoredFrom (ent : CacheEntry) : (restoredFrom ent).value = ent.value := by
  unfold restoredFrom
  split <;> rfl

theorem isExpired_eq (ent : CacheEntry) (now : Time) :
    isExpired ent now = ent.expiry.any fun t => decide (t < now) := by
  unfold isExpired CacheEntry.expiry
  cases ent.hasExpiry <;> simp

/-- The expiry fits the 64 bits of the file. -/
def CacheEntry.Fits (ent : CacheEntry) : Prop :=
  ∀ t, ent.expiry = some t → -2 ^ 63 ≤ t ∧ t < 2 ^ 63

theorem CacheEntry.Fits.content {e : Bytes × CacheEntry} (h : e.2.Fits) :
    content (e.1, restoredFrom e.2) = content e := by
  have hexpiry : (restoredFrom e.2).expiry = e.2.expiry := by
    rw [expiry_restoredFrom]
    cases ht : e.2.expiry with
    | none => rfl
    | some t => exact congrArg some (wrap64_eq_self_iff.mpr (h t ht))
  simp only [Cache.content, value_restoredFrom, hexpiry]

theorem mem_restored {clock : Nat → Time} {es : List (Bytes × CacheEntry)} {i : Nat}
    {e : Bytes × CacheEntry} (h : e ∈ restored clock i es) :
    ∃ ent, (e.1, ent) ∈ es ∧ e.2 = restoredFrom ent := by
  induction es generalizing i with
  | nil => cases h
  | cons x es ih =>
    have hrest : e ∈ restored clock (i + 1) es → ∃ ent, (e.1, ent) ∈ x :: es ∧
        e.2 = restoredFrom ent := by
      intro h
      obtain ⟨ent, hmem, heq⟩ := ih h
      exact ⟨ent, List.mem_cons_of_mem _ hmem, heq⟩
    rw [restored] at h
    split at h
    · exact hrest h
    · rcases List.mem_cons.mp h with rfl | h
      · exact ⟨x.2, List.mem_cons_self, rfl⟩
      · exact hrest h

/-- Entries that fit and are live are restored with the content that they had. -/
theorem map_content_restored {now : Time} {es : List (Bytes × CacheEntry)}
    (hfits : ∀ e ∈ es, e.2.Fits) (hlive : ∀ e ∈ es, isExpired e.2 now = false) (i : Nat) :
    (restored (fun _ => now) i es).map content = es.map content := by
  induction es generalizing i with
  | nil => rfl
  | cons e es ih =>
    have hcontent := (hfits e List.mem_cons_self).content
    have hexp : isExpired (restoredFrom e.2) now = false := by
      have hexpiry : (restoredFrom e.2).expiry = e.2.expiry :=
        (Prod.ext_iff.mp (Prod.ext_iff.mp hcontent).2).2
      rw [isExpired_eq, hexpiry, ← isExpired_eq]
      exact hlive e List.mem_cons_self
    rw [restored, if_neg (by simp [hexp]), List.map_cons, List.map_cons, hcontent,
      ih (fun e' he => hfits e' (List.mem_cons_of_mem _ he))
        (fun e' he => hlive e' (List.mem_cons_of_mem _ he))]

theorem newStore_lacks (numShards maxMemoryBytes : Int) (key : Bytes) :
    (newStore numShards maxMemoryBytes).Lacks key := AList.notMem_empty key

@[simp] theorem newStore_listed (numShards maxMemoryBytes : Int) :
    (newStore numShards maxMemoryBytes).listed = 0 := by
  simp [ShardedStore.listed, newStore, newShard, Shard.listed]

/-- Loading what was saved of a reachable store, at the same instant, into a new store with any
number of shards gives back the live entries exactly when their expiries fit 64 bits. -/
theorem loadSnapshot_saved_iff (checksum : Bytes → UInt32) {numShards maxMemoryBytes : Int}
    {ops : List (StoreOp (shardCount numShards))} (hops : ∀ op ∈ ops, op.Sendable)
    (hmax : maxMemoryBytes < 2 ^ 63) {now : Time} {entries : List (Bytes × CacheEntry)}
    (hentries : entries.Perm
      (((newStore numShards maxMemoryBytes).run ops).live fun _ => now))
    (numShards' maxMemoryBytes' : Int) :
    let loaded := loadSnapshot checksum (fun _ => now) (newStore numShards' maxMemoryBytes')
      (.contents (snapshotFile checksum entries))
    (loaded.1 = none ∧ loaded.2.listed.map content =
      (((newStore numShards maxMemoryBytes).run ops).live fun _ => now).map content) ↔
    ∀ e ∈ ((newStore numShards maxMemoryBytes).run ops).live fun _ => now, e.2.Fits := by
  have hload := loadSnapshot_write (fun _ => now) checksum (listingOf hops hmax hentries)
    (newStore numShards' maxMemoryBytes')
  have hlisted := listed_restoreAll (s := newStore numShards' maxMemoryBytes') (fun _ => now)
    (listingOf hops hmax hentries).nodup (fun e _ => newStore_lacks _ _ e.1) 0
  rw [newStore_listed, add_zero] at hlisted
  simp only [listingOf] at hload hlisted
  have hcontents : (((((newStore numShards maxMemoryBytes).run ops).live fun _ => now).map content :
      List _) : Multiset (Bytes × Bytes × Option Time)) = (entries.map content : List _) :=
    Multiset.coe_eq_coe.mpr (hentries.map content).symm
  rw [hload]
  simp only [true_and, hlisted, Multiset.map_coe, hcontents]
  constructor
  · intro h e he t ht
    have hmem : content e ∈ (((restored (fun _ => now) 0 entries).map content : List _) :
        Multiset (Bytes × Bytes × Option Time)) := by
      rw [h]
      exact List.mem_map_of_mem (hentries.mem_iff.mpr he)
    obtain ⟨e', he', heq⟩ := List.mem_map.mp (Multiset.mem_coe.mp hmem)
    obtain ⟨ent, -, hent⟩ := mem_restored he'
    have hexpiry : e'.2.expiry = e.2.expiry := (Prod.ext_iff.mp (Prod.ext_iff.mp heq).2).2
    rw [ht, hent, expiry_restoredFrom] at hexpiry
    obtain ⟨t', -, rfl⟩ := Option.map_eq_some_iff.mp hexpiry
    exact wrap64_mem_range t'
  · intro h
    rw [map_content_restored (fun e he => h e (hentries.mem_iff.mp he)) fun e he => ?_]
    obtain ⟨i, -, hlive⟩ := mem_live.mp (hentries.mem_iff.mp he)
    exact hlive

/-! A store with one key, written with a time to live. -/

/-- An instant in the year 2023. -/
def sampleNow : Time := 1700000000 * 10 ^ 9

/-- `SET k v EX seconds` -/
def sampleSet (seconds : Int) : List (StoreOp (shardCount 1)) :=
  [.set (ascii "k") (ascii "v") { ttl := seconds * 10 ^ 9, hasTTL := true } sampleNow sampleNow]

def sampleStore (seconds : Int) : ShardedStore (shardCount 1) :=
  (newStore 1 1000).run (sampleSet seconds)

/-- The load of its snapshot, into a new store. -/
def sampleLoad (seconds : Int) : Option String × ShardedStore (shardCount 1) :=
  loadSnapshot crc32ChecksumIEEE (fun _ => sampleNow) (newStore 1 1000)
    (.contents (snapshotFile crc32ChecksumIEEE ((sampleStore seconds).live fun _ => sampleNow)))

theorem loadSnapshot_saved_ten_seconds :
    (sampleLoad 10).1 = none ∧ (sampleLoad 10).2.listed.map content =
      ((sampleStore 10).live fun _ => sampleNow).map content := by
  refine (@loadSnapshot_saved_iff crc32ChecksumIEEE 1 1000 (sampleSet 10) ?_ (by decide) sampleNow _
    (.refl _) 1 1000).mpr ?_
  · intro op hop
    cases List.mem_singleton.mp hop
    exact ⟨by decide, by decide⟩
  · have hlive : ((sampleStore 10).live fun _ => sampleNow) =
        [(ascii "k", ⟨ascii "v", sampleNow + 10 * 10 ^ 9, true, 66⟩)] := by decide
    intro e he t ht
    rw [show e ∈ _ ↔ e ∈ [_] by rw [← hlive]; rfl, List.mem_singleton] at he
    subst he
    cases ht
    decide

/-- 285 years from now do not fit: the live key is not restored. -/
theorem loadSnapshot_loses_long_ttl :
    ((sampleStore 9000000000).live fun _ => sampleNow).length = 1 ∧
      (sampleLoad 9000000000).1 = none ∧ (sampleLoad 9000000000).2.dbSize = 0 := by
  decide +kernel

end SqlOptimizer.Cache
