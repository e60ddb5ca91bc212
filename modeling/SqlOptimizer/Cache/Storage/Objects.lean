import SqlOptimizer.Cache.Storage.Expiry

/-! `cache/internal/storage/shard.go`: the entries of a store as the objects that its maps point to.
`set`, and `incrBy` for a missing key, put a new object into the map; `expire`, `persist` and `incrBy`
assign to the fields of the object that is there. -/

namespace SqlOptimizer.Cache

variable {n : Nat}

/-- Whether the operation puts a new object into the map, over the entry of its key. -/
def StoreOp.allocates : StoreOp n → Option CacheEntry → Bool
  | .set _ _ opts now _, e =>
    !(opts.nx && (liveAt now e).isSome) && !(opts.xx && !(liveAt now e).isSome)
  | .incrBy _ _ _, e => e.isNone
  | _, _ => false

/-- A store with the address of the entry of each key, and the object at each address. -/
structure Memory (n : Nat) where
  store : ShardedStore n
  object : Bytes → Nat
  heap : Nat → CacheEntry
  /-- No object has been made at this address or a later one. -/
  next : Nat

variable [NeZero n]

namespace Memory

def entry (x : Memory n) (k : Bytes) : Option CacheEntry :=
  (x.store.held (shardFor n k)).lookup k

/-- The address that the map of its shard holds for a key. -/
def bound (x : Memory n) (k : Bytes) : Option Nat := (x.entry k).map fun _ => x.object k

/-- The object of a key after its entry is `e`. -/
def assign (x : Memory n) (k : Bytes) (allocates : Bool) (e : Option CacheEntry) : Memory n :=
  match e with
  | none => x
  | some ent =>
    if allocates then
      { x with
        object := Function.update x.object k x.next
        heap := Function.update x.heap x.next ent
        next := x.next + 1 }
    else { x with heap := Function.update x.heap (x.object k) ent }

def step (x : Memory n) (op : StoreOp n) : Memory n :=
  { (match op.key with
      | some k => x.assign k (op.allocates (x.entry k)) (op.onEntry (x.entry k)).2
      | none => x) with
    store := x.store.step op }

def run (x : Memory n) (ops : List (StoreOp n)) : Memory n := ops.foldl step x

theorem store_run (x : Memory n) (ops : List (StoreOp n)) : (x.run ops).store = x.store.run ops := by
  induction ops generalizing x with
  | nil => rfl
  | cons op ops ih => exact ih (x.step op)

/-- Each key is in its shard, the object of each entry is the entry, and no two keys share one. -/
structure Sound (x : Memory n) : Prop where
  placed : ∀ i k, k ∈ (x.store.shards i).entries → shardFor n k = i
  heap : ∀ k ent, x.entry k = some ent → x.heap (x.object k) = ent ∧ x.object k < x.next
  inj : ∀ k k', (x.entry k).isSome → (x.entry k').isSome → x.object k = x.object k' → k = k'

variable {x : Memory n} {op : StoreOp n} {k k' : Bytes} {ent : CacheEntry}

theorem entry_step_of_ne (hshard : shardFor n k ≠ op.shard) : (x.step op).entry k = x.entry k := by
  show ((x.store.step op).shards (shardFor n k)).entries.lookup k = _
  rw [ShardedStore.step_shards, if_neg hshard]
  rfl

/-- What is there after an operation is what it says of its key, and what was there of the others. -/
theorem entry_step (hk : op.key = some k) (hent : (x.step op).entry k' = some ent) :
    (if k' = k then (op.onEntry (x.entry k)).2 else x.entry k') = some ent := by
  have hshard := StoreOp.shard_eq hk
  by_cases hsame : shardFor n k' = op.shard
  · have hlookup : (op.onHeld (x.store.held op.shard)).lookup k' = some ent := by
      rw [← hent]
      show _ = ((x.store.step op).shards (shardFor n k')).entries.lookup k'
      rw [ShardedStore.step_shards, if_pos hsame]
      rfl
    have h := StoreOp.lookup_onHeld hk hlookup
    rw [entry, entry, hsame, ← hshard]
    exact h
  · have hne : k' ≠ k := by
      rintro rfl
      exact hsame hshard.symm
    rw [if_neg hne, ← entry_step_of_ne hsame]
    exact hent

/-- An operation on a whole shard only takes entries away. -/
theorem entry_step_none (hk : op.key = none) (hent : (x.step op).entry k = some ent) :
    x.entry k = some ent := by
  by_cases hsame : shardFor n k = op.shard
  · have hlookup : (op.onHeld (x.store.held op.shard)).lookup k = some ent := by
      rw [← hent]
      show _ = ((x.store.step op).shards (shardFor n k)).entries.lookup k
      rw [ShardedStore.step_shards, if_pos hsame]
      rfl
    rw [entry, hsame]
    cases op with
    | flushAll i => cases hlookup
    | sweepExpired i now =>
      have hlive : liveAt now ((x.store.held i).lookup k) = some ent :=
        (lookup_sweepExpired _ now k).symm.trans hlookup
      exact (Option.filter_eq_some_iff.mp hlive).1
    | _ => cases hk
  · rw [← entry_step_of_ne hsame]
    exact hent

/-- What is not put there as a new object was there before. -/
theorem entry_isSome_of_not_allocates (hk : op.key = some k)
    (halloc : op.allocates (x.entry k) = false) (he : (op.onEntry (x.entry k)).2 = some ent) :
    (x.entry k).isSome := by
  cases hentry : x.entry k with
  | some ent => rfl
  | none =>
    rw [hentry] at halloc he
    cases op with
    | set key value opts now now' =>
      simp only [StoreOp.allocates, liveAt, Option.filter_none, Option.isSome_none, Bool.and_false,
        Bool.not_false, Bool.true_and, Bool.and_true, Bool.not_eq_false'] at halloc
      simp [StoreOp.onEntry, liveAt, halloc] at he
    | incrBy key delta now => cases halloc
    | _ => cases he

/-- A new store points to nothing. -/
theorem sound_of_empty (h : ∀ i, (x.store.shards i).entries = ∅) : x.Sound := by
  have hentry : ∀ k, x.entry k = none := by
    intro k
    show (x.store.shards (shardFor n k)).entries.lookup k = none
    rw [h]
    exact AList.lookup_empty k
  refine ⟨fun i k hk => ?_, fun k ent hent => ?_, fun k k' hsome => ?_⟩
  · rw [h] at hk
    exact absurd hk (AList.notMem_empty k)
  · rw [hentry] at hent
    cases hent
  · rw [hentry] at hsome
    cases hsome

/-- Operations write to the shard of their key. -/
theorem placed_step (h : ∀ i k, k ∈ (x.store.shards i).entries → shardFor n k = i)
    (op : StoreOp n) (i : Fin n) (k : Bytes) (hk : k ∈ ((x.step op).store.shards i).entries) :
    shardFor n k = i := by
  have hwrites : ∀ op' ∈ [op], ∀ key ent, op'.Writes key ent → shardFor n key = op'.shard := by
    intro op' hop key ent hw
    cases List.mem_singleton.mp hop
    cases op with
    | set => rw [hw.1]; rfl
    | incrBy => rw [hw.1]; rfl
    | _ => cases hw
  have hbefore : ∀ i, ∀ e ∈ (x.store.shards i).entries.entries, shardFor n e.1 = i :=
    fun i e he => h i e.1 (AList.mem_keys.mpr (List.mem_keys_of_mem he))
  obtain ⟨ent, hent⟩ := AList.lookup_isSome.mpr hk |> Option.isSome_iff_exists.mp
  exact ShardedStore.run_entries_forall (P := fun i key _ => shardFor n key = i) hwrites hbefore i
    ⟨k, ent⟩ (AList.mem_lookup_iff.mp hent)

/-- The rest of a memory after entries are taken away is sound. -/
theorem Sound.of_entries (h : x.Sound) {y : Memory n}
    (hplaced : ∀ i k, k ∈ (y.store.shards i).entries → shardFor n k = i)
    (hobject : y.object = x.object) (hheap : y.heap = x.heap) (hnext : y.next = x.next)
    (hentry : ∀ k ent, y.entry k = some ent → x.entry k = some ent) : y.Sound := by
  have hisSome : ∀ k, (y.entry k).isSome → (x.entry k).isSome := by
    intro k hsome
    obtain ⟨ent, hent⟩ := Option.isSome_iff_exists.mp hsome
    rw [hentry k ent hent]
    rfl
  refine ⟨hplaced, fun k ent hent => ?_, fun k k' hsome hsome' heq => ?_⟩
  · rw [hobject, hheap, hnext]
    exact h.heap k ent (hentry k ent hent)
  · rw [hobject] at heq
    exact h.inj k k' (hisSome k hsome) (hisSome k' hsome') heq

/-- A new object is at an address above those of the others. -/
theorem Sound.of_allocate (h : x.Sound) {y : Memory n} {new : CacheEntry}
    (hplaced : ∀ i k, k ∈ (y.store.shards i).entries → shardFor n k = i)
    (hobject : y.object = Function.update x.object k x.next)
    (hheap : y.heap = Function.update x.heap x.next new) (hnext : y.next = x.next + 1)
    (hself : ∀ ent, y.entry k = some ent → new = ent)
    (hother : ∀ k' ent, k' ≠ k → y.entry k' = some ent → x.entry k' = some ent) : y.Sound := by
  have hat : y.object k = x.next := by
    rw [hobject]
    exact Function.update_self ..
  have hbelow : ∀ {k' ent}, k' ≠ k → y.entry k' = some ent →
      y.object k' = x.object k' ∧ x.object k' < x.next := by
    intro k' ent hne hent
    rw [hobject]
    exact ⟨Function.update_of_ne hne .., (h.heap k' ent (hother k' ent hne hent)).2⟩
  refine ⟨hplaced, fun k' ent hent => ?_, fun k' k'' hsome hsome' heq => ?_⟩
  · by_cases hne : k' = k
    · subst hne
      rw [hat, hheap, hnext, ← hself ent hent]
      exact ⟨Function.update_self .., Nat.lt_succ_self _⟩
    · obtain ⟨hsame, hlt⟩ := hbelow hne hent
      rw [hsame, hheap, hnext, Function.update_of_ne hlt.ne]
      exact ⟨(h.heap k' ent (hother k' ent hne hent)).1, hlt.trans (Nat.lt_succ_self _)⟩
  · obtain ⟨ent, hent⟩ := Option.isSome_iff_exists.mp hsome
    obtain ⟨ent', hent'⟩ := Option.isSome_iff_exists.mp hsome'
    by_cases hne : k' = k <;> by_cases hne' : k'' = k
    · rw [hne, hne']
    · obtain ⟨hsame, hlt⟩ := hbelow hne' hent'
      rw [hne, hat, hsame] at heq
      omega
    · obtain ⟨hsame, hlt⟩ := hbelow hne hent
      rw [hne', hat, hsame] at heq
      omega
    · rw [(hbelow hne hent).1, (hbelow hne' hent').1] at heq
      refine h.inj k' k'' ?_ ?_ heq
      · rw [hother k' ent hne hent]
        rfl
      · rw [hother k'' ent' hne' hent']
        rfl

/-- Assigning to the object of a key changes no other entry. -/
theorem Sound.of_overwrite (h : x.Sound) {y : Memory n} {new : CacheEntry}
    (hplaced : ∀ i k, k ∈ (y.store.shards i).entries → shardFor n k = i)
    (hthere : (x.entry k).isSome) (hobject : y.object = x.object)
    (hheap : y.heap = Function.update x.heap (x.object k) new) (hnext : y.next = x.next)
    (hself : ∀ ent, y.entry k = some ent → new = ent)
    (hother : ∀ k' ent, k' ≠ k → y.entry k' = some ent → x.entry k' = some ent) : y.Sound := by
  obtain ⟨old, hold⟩ := Option.isSome_iff_exists.mp hthere
  have hisSome : ∀ k', (y.entry k').isSome → (x.entry k').isSome := by
    intro k' hsome
    obtain ⟨ent, hent⟩ := Option.isSome_iff_exists.mp hsome
    by_cases hne : k' = k
    · rwa [hne]
    · rw [hother k' ent hne hent]
      rfl
  refine ⟨hplaced, fun k' ent hent => ?_, fun k' k'' hsome hsome' heq => ?_⟩
  · rw [hobject, hheap, hnext]
    by_cases hne : k' = k
    · subst hne
      rw [← hself ent hent]
      exact ⟨Function.update_self .., (h.heap k' old hold).2⟩
    · have hapart : x.object k' ≠ x.object k := fun heq => hne (h.inj k' k (hisSome k' (by
        rw [hent]
        rfl)) hthere heq)
      rw [Function.update_of_ne hapart]
      exact h.heap k' ent (hother k' ent hne hent)
  · rw [hobject] at heq
    exact h.inj k' k'' (hisSome k' hsome) (hisSome k'' hsome') heq

theorem Sound.step (h : x.Sound) (op : StoreOp n) : (x.step op).Sound := by
  have hplaced := placed_step h.placed op
  cases hk : op.key with
  | none =>
    have hassign : (x.step op).object = x.object ∧ (x.step op).heap = x.heap ∧
        (x.step op).next = x.next := by
      simp [Memory.step, hk]
    exact h.of_entries hplaced hassign.1 hassign.2.1 hassign.2.2 fun _ _ => entry_step_none hk
  | some k =>
    have hentry : ∀ {k' ent}, (x.step op).entry k' = some ent →
        (if k' = k then (op.onEntry (x.entry k)).2 else x.entry k') = some ent := entry_step hk
    have hother : ∀ k' ent, k' ≠ k → (x.step op).entry k' = some ent → x.entry k' = some ent := by
      intro k' ent hne hent
      have h' := hentry hent
      rwa [if_neg hne] at h'
    cases he : (op.onEntry (x.entry k)).2 with
    | none =>
      have hassign : (x.step op).object = x.object ∧ (x.step op).heap = x.heap ∧
          (x.step op).next = x.next := by
        simp [Memory.step, hk, he, assign]
      refine h.of_entries hplaced hassign.1 hassign.2.1 hassign.2.2 fun k' ent hent => ?_
      by_cases hne : k' = k
      · have h' := hentry hent
        rw [if_pos hne, he] at h'
        cases h'
      · exact hother k' ent hne hent
    | some new =>
      have hself : ∀ ent, (x.step op).entry k = some ent → new = ent := by
        intro ent hent
        have h' := hentry hent
        rw [if_pos rfl, he] at h'
        exact Option.some.inj h'
      cases halloc : op.allocates (x.entry k) with
      | true =>
        refine h.of_allocate hplaced ?_ ?_ ?_ hself hother
        all_goals simp [Memory.step, hk, he, halloc, assign]
      | false =>
        have hthere := entry_isSome_of_not_allocates hk halloc he
        refine h.of_overwrite hplaced hthere ?_ ?_ ?_ hself hother
        all_goals simp [Memory.step, hk, he, halloc, assign]

theorem Sound.run (h : x.Sound) (ops : List (StoreOp n)) : (x.run ops).Sound := by
  induction ops generalizing x with
  | nil => exact h
  | cons op ops ih => exact ih (h.step op)

end Memory

/-- The memory of a new store, with any contents of the addresses that nothing points to. -/
def newMemory (numShards maxMemoryBytes : Int) : Memory (shardCount numShards) where
  store := newStore numShards maxMemoryBytes
  object _ := 0
  heap _ := { value := [], sizeBytes := 0 }
  next := 0

theorem newMemory_sound (numShards maxMemoryBytes : Int) :
    (newMemory numShards maxMemoryBytes).Sound :=
  Memory.sound_of_empty fun _ => rfl

end SqlOptimizer.Cache
