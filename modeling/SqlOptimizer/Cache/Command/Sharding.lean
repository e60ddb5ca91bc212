import SqlOptimizer.Cache.Command.Sweeps
import Mathlib.Data.Set.Card

/-! A sharded store is one map from keys to entries, whatever the number of its shards: as long as no
shard is over its budget, stores with different numbers of shards reply alike. -/

namespace SqlOptimizer.Cache

variable {n m : Nat}

namespace ShardedStore

/-- A tick of the expiration worker: every shard is swept. -/
def sweepAll (s : ShardedStore n) (now : Time) : ShardedStore n :=
  (List.finRange n).foldl (fun s i => s.sweepShard i now) s

/-- A step on each shard of a list changes the entries of these shards, key by key. -/
theorem lookup_foldl_release {f : Held → Held} {g : Option CacheEntry → Option CacheEntry}
    {is : List (Fin n)} (s : ShardedStore n) (hf : ∀ h k, (f h).lookup k = g (h.lookup k))
    (hnodup : is.Nodup) (i : Fin n) (k : Bytes) :
    (((is.foldl (fun s i => s.release i (f (s.held i))) s).shards i).entries.lookup k) =
      if i ∈ is then g ((s.shards i).entries.lookup k) else (s.shards i).entries.lookup k := by
  induction is generalizing s with
  | nil => rfl
  | cons j is ih =>
    rw [List.nodup_cons] at hnodup
    rw [List.foldl_cons, ih _ hnodup.2]
    by_cases hij : i = j
    · subst hij
      have hself : ((s.release i (f (s.held i))).shards i).entries.lookup k =
          g ((s.shards i).entries.lookup k) := by
        show (Function.update s.shards i (f (s.held i)).shard i).entries.lookup k = _
        rw [Function.update_self]
        exact hf _ k
      rw [if_neg hnodup.1, hself, if_pos List.mem_cons_self]
    · have hother : (s.release j (f (s.held j))).shards i = s.shards i := Function.update_of_ne hij ..
      have hmem : i ∈ j :: is ↔ i ∈ is := by simp [hij]
      rw [hother]
      simp only [hmem]

/-! ### The map of a store -/

variable [NeZero n] [NeZero m]

/-- The entries of the store are those of `entries`, each in the shard of its key. -/
def Holds (s : ShardedStore n) (entries : Bytes → Option CacheEntry) : Prop :=
  ∀ i k, (s.shards i).entries.lookup k = if shardFor n k = i then entries k else none

variable {s : ShardedStore n} {u : ShardedStore m} {entries : Bytes → Option CacheEntry}

theorem newStore_holds (numShards maxMemoryBytes : Int) :
    (newStore numShards maxMemoryBytes).Holds fun _ => none := by
  intro i k
  rw [ite_self]
  rfl

theorem Holds.lookup (h : s.Holds entries) (k : Bytes) :
    (s.held (shardFor n k)).lookup k = entries k := by
  rw [← if_pos (c := shardFor n k = shardFor n k) rfl (t := entries k) (e := none)]
  exact h _ k

theorem flushAll_holds (s : ShardedStore n) : s.flushAll.Holds fun _ => none := by
  intro i k
  have hflush := lookup_foldl_release s (f := Held.flushAll) (g := fun _ => none)
    (fun _ _ => rfl) (List.nodup_finRange n) i k
  rw [if_pos (List.mem_finRange i)] at hflush
  rw [ite_self]
  exact hflush

theorem Holds.sweepAll (h : s.Holds entries) (now : Time) :
    (s.sweepAll now).Holds fun k => liveAt now (entries k) := by
  intro i k
  have hsweep := lookup_foldl_release s (f := (·.sweepExpired now)) (g := liveAt now)
    (fun h k => lookup_sweepExpired h now k) (List.nodup_finRange n) i k
  rw [if_pos (List.mem_finRange i), h i k] at hsweep
  refine hsweep.trans ?_
  split <;> rfl

/-- The size of the store is the number of keys of its map. -/
theorem Holds.dbSize (h : s.Holds entries) :
    s.dbSize = Set.ncard {k | (entries k).isSome} := by
  have hkeys : ∀ i k, k ∈ ((s.shards i).entries.keys.toFinset) ↔
      shardFor n k = i ∧ (entries k).isSome := by
    intro i k
    rw [List.mem_toFinset, ← AList.mem_keys, ← AList.lookup_isSome, h i k]
    split <;> simp_all
  have hunion : {k | (entries k).isSome} =
      ((Finset.univ.biUnion fun i => (s.shards i).entries.keys.toFinset : Finset Bytes) : Set Bytes) := by
    ext k
    simp only [Set.mem_ofPred_eq, Finset.mem_coe, Finset.mem_biUnion, Finset.mem_univ, true_and, hkeys,
      exists_eq_left']
  rw [hunion, Set.ncard_coe_finset, Finset.card_biUnion]
  · refine Finset.sum_congr rfl fun i _ => ?_
    rw [List.toFinset_card_of_nodup (s.shards i).entries.keys_nodup, Shard.dbSize, AList.keys,
      List.keys, List.length_map]
  · intro i _ j _ hij
    show Disjoint _ _
    rw [Finset.disjoint_left]
    intro k hi hj
    exact hij (((hkeys i k).mp hi).1.symm.trans ((hkeys j k).mp hj).1)

/-- An operation changes the map at its key. -/
theorem Holds.step (h : s.Holds entries) {op : StoreOp n} {k : Bytes} (hk : op.key = some k)
    (hfits : op.Fits (s.held op.shard)) :
    op.result (s.held op.shard) = (op.onEntry (entries k)).1 ∧
      (s.step op).Holds (Function.update entries k (op.onEntry (entries k)).2) := by
  obtain ⟨hresult, hsets⟩ := StoreOp.onHeld_entry hk hfits
  have hshard := StoreOp.shard_eq hk
  have hentry : (s.held op.shard).lookup k = entries k := by
    rw [hshard]
    exact h.lookup k
  rw [hentry] at hresult hsets
  refine ⟨hresult, fun i k' => ?_⟩
  rw [step_shards, Function.update_apply]
  split
  case isTrue hi =>
    have hlookup : (s.held op.shard).lookup k' = if shardFor n k' = op.shard then entries k' else none :=
      h op.shard k'
    have hset : ((op.onHeld (s.held op.shard)).shard.entries.lookup k') = _ := hsets.lookup k'
    rw [hset, hlookup, hi]
    by_cases heq : k' = k
    · rw [if_pos heq, if_pos heq, if_pos (heq ▸ hshard.symm)]
    · rw [if_neg heq, if_neg heq]
  case isFalse hi =>
    rw [h i k']
    by_cases heq : k' = k
    · have hother : shardFor n k' ≠ i := by
        rw [heq, ← hshard]
        exact Ne.symm hi
      rw [if_neg hother, if_neg hother]
    · rw [if_neg heq]

end ShardedStore

/-! ### The same operations on two stores -/

section

variable [NeZero n] [NeZero m]

/-- Operations of two stores on the same key. -/
def StoreOp.Alike (op : StoreOp n) (op' : StoreOp m) : Prop :=
  ∃ k, op.key = some k ∧ op'.key = some k ∧ op.onEntry = op'.onEntry

/-- The operations of two lists are the same, one by one. -/
def OpsAlike (ops : List (Time × StoreOp n)) (ops' : List (Time × StoreOp m)) : Prop :=
  List.Forall₂ (fun p p' => p.2.Alike p'.2) ops ops'

variable {ctx : Context}

omit [NeZero n] [NeZero m] in
theorem perKey_alike {op : Time → Bytes → StoreOp n} {op' : Time → Bytes → StoreOp m}
    (h : ∀ now key, (op now key).Alike (op' now key)) (i : Nat) (keys : List Bytes) :
    OpsAlike (perKey ctx op i keys) (perKey ctx op' i keys) := by
  induction keys generalizing i with
  | nil => exact .nil
  | cons key keys ih => exact .cons (h _ key) (ih (i + 1))

omit [NeZero n] [NeZero m] in
theorem perPair_alike (i : Nat) (args : List Bytes) :
    OpsAlike (perPair (n := n) ctx i args) (perPair (n := m) ctx i args) := by
  induction args using List.twoStepInduction generalizing i with
  | nil => exact .nil
  | singleton => exact .nil
  | cons_cons key value rest ih _ => exact .cons ⟨key, rfl, rfl, rfl⟩ (ih (i + 1))

omit [NeZero n] [NeZero m] in
theorem oneKey_alike {op : Bytes → StoreOp n} {op' : Bytes → StoreOp m}
    (h : ∀ key, (op key).Alike (op' key)) (args : List Bytes) :
    OpsAlike (oneKey ctx op args) (oneKey ctx op' args) := by
  match args with
  | [] | _ :: _ :: _ => exact .nil
  | [key] => exact .cons (h key) .nil

omit [NeZero n] [NeZero m] in
/-- A command on keys runs the same operations whatever the number of shards. -/
theorem operations_alike (cmd : Command) (args : List Bytes) :
    OpsAlike (operations (n := n) ctx cmd args) (operations (n := m) ctx cmd args) := by
  cases cmd with
  | ping | echo | dbsize | flushall | info | save => exact .nil
  | get | incr | decr | type | persist | ttl =>
    apply oneKey_alike
    intro key
    exact ⟨key, rfl, rfl, rfl⟩
  | del | «exists» | mget =>
    apply perKey_alike
    intro _ key
    exact ⟨key, rfl, rfl, rfl⟩
  | mset =>
    show OpsAlike (msetOperations ctx args) (msetOperations ctx args)
    unfold msetOperations
    split
    · exact .nil
    · exact perPair_alike 0 args
  | set =>
    show OpsAlike (setOperations ctx args) (setOperations ctx args)
    match args with
    | [] | [_] => exact .nil
    | key :: value :: rest =>
      unfold setOperations
      dsimp only
      cases parseSetOptions rest with
      | error e => exact .nil
      | ok opts => exact .cons ⟨key, rfl, rfl, rfl⟩ .nil
  | expire =>
    show OpsAlike (expireOperations ctx args) (expireOperations ctx args)
    match args with
    | [] | [_] | _ :: _ :: _ :: _ => exact .nil
    | [key, seconds] =>
      unfold expireOperations
      dsimp only
      cases readInt64 seconds with
      | none => exact .nil
      | some secs => exact .cons ⟨key, rfl, rfl, rfl⟩ .nil

variable {s : ShardedStore n} {u : ShardedStore m} {entries : Bytes → Option CacheEntry}

/-- Stores with the same map return the same from the same operations, and again have the same map. -/
theorem OpsAlike.run {ops : List (Time × StoreOp n)} {ops' : List (Time × StoreOp m)}
    (h : OpsAlike ops ops') (hs : s.Holds entries) (hu : u.Holds entries)
    (hfits : s.Along (fun _ op h => op.Fits h) ops)
    (hfits' : u.Along (fun _ op h => op.Fits h) ops') :
    s.results ops = u.results ops' ∧
      ∃ entries', (s.runTimed ops).Holds entries' ∧ (u.runTimed ops').Holds entries' := by
  induction h generalizing s u entries with
  | nil => exact ⟨rfl, entries, hs, hu⟩
  | @cons p p' ops ops' hp _ ih =>
    obtain ⟨k, hk, hk', hentry⟩ := hp
    obtain ⟨hresult, hnext⟩ := hs.step hk hfits.1
    obtain ⟨hresult', hnext'⟩ := hu.step hk' hfits'.1
    rw [← hentry] at hresult' hnext'
    obtain ⟨hresults, hmap⟩ := ih hnext hnext' hfits.2 hfits'.2
    exact ⟨congrArg₂ List.cons (hresult.trans hresult'.symm) hresults, hmap⟩

end

/-! ### Sequences of commands and sweeps of all shards -/

/-- A command, or a tick of the expiration worker. -/
inductive StoreEvent where
  | command (args : List Bytes) (ctx : Context)
  | sweep (now : Time)

/-- `INFO` tells the counters and the memory, which is none of the map's business. -/
def StoreEvent.AsksMap : StoreEvent → Prop
  | .command (name :: _) _ => handlerFor (toUpper name) ≠ some .info
  | .command [] _ => True
  | .sweep _ => True

namespace ShardedStore

section

variable [NeZero n] [NeZero m] [Rounding]

/-- The replies of the commands. -/
def eventReplies (s : ShardedStore n) : List StoreEvent → List RespValue
  | [] => []
  | .command args ctx :: rest => (dispatch args ctx s).1 :: (dispatch args ctx s).2.eventReplies rest
  | .sweep now :: rest => (s.sweepAll now).eventReplies rest

/-- No shard exceeds its budget. -/
def Roomy (s : ShardedStore n) : List StoreEvent → Prop
  | [] => True
  | .command args ctx :: rest =>
    (countCommand s).Along (fun _ op h => op.Fits h) (argsOperations ctx args) ∧
      (dispatch args ctx s).2.Roomy rest
  | .sweep now :: rest => (s.sweepAll now).Roomy rest

variable {s : ShardedStore n} {u : ShardedStore m} {entries : Bytes → Option CacheEntry}

/-- A command replies the same on stores with the same map, and leaves them with the same map. -/
theorem Holds.dispatch {args : List Bytes} {ctx : Context} (hs : s.Holds entries)
    (hu : u.Holds entries) (hasks : (StoreEvent.command args ctx).AsksMap)
    (hfits : (countCommand s).Along (fun _ op h => op.Fits h) (argsOperations ctx args))
    (hfits' : (countCommand u).Along (fun _ op h => op.Fits h) (argsOperations ctx args)) :
    (dispatch args ctx s).1 = (dispatch args ctx u).1 ∧
      ∃ entries', (dispatch args ctx s).2.Holds entries' ∧ (dispatch args ctx u).2.Holds entries' := by
  have hs' : (countCommand s).Holds entries := hs
  have hu' : (countCommand u).Holds entries := hu
  cases args with
  | nil => exact ⟨rfl, entries, hs, hu⟩
  | cons name rest =>
    cases hname : handlerFor (toUpper name) with
    | none =>
      simp only [Cache.dispatch, hname]
      exact ⟨trivial, entries, hs', hu'⟩
    | some cmd =>
      simp only [argsOperations, hname] at hfits hfits'
      simp only [Cache.dispatch, hname]
      cases hkeyed : cmd.keyed with
      | true =>
        obtain ⟨hresults, hmap⟩ := (operations_alike cmd rest).run hs' hu' hfits hfits'
        rw [handle_eq_run hkeyed, handle_eq_run hkeyed]
        exact ⟨handle_congr hkeyed hresults, hmap⟩
      | false =>
        cases cmd with
        | info => exact absurd hname hasks
        | ping | echo | save => exact ⟨rfl, entries, hs', hu'⟩
        | dbsize =>
          refine ⟨?_, entries, hs', hu'⟩
          cases rest with
          | cons => rfl
          | nil =>
            show RespValue.integer (wrap64 (countCommand s).dbSize) = .integer (wrap64 (countCommand u).dbSize)
            rw [hs'.dbSize, hu'.dbSize]
        | flushall =>
          cases rest with
          | cons => exact ⟨rfl, entries, hs', hu'⟩
          | nil => exact ⟨rfl, _, flushAll_holds _, flushAll_holds _⟩
        | set | get | del | «exists» | incr | decr | mset | mget | type | expire | persist | ttl =>
          cases hkeyed

/-- Stores with the same map reply the same, as long as no shard of either is over its budget. -/
theorem Holds.eventReplies {events : List StoreEvent} (hs : s.Holds entries) (hu : u.Holds entries)
    (hasks : ∀ e ∈ events, e.AsksMap) (hfits : s.Roomy events) (hfits' : u.Roomy events) :
    s.eventReplies events = u.eventReplies events := by
  induction events generalizing s u entries with
  | nil => rfl
  | cons e events ih =>
    have hrest : ∀ e ∈ events, e.AsksMap := fun e he => hasks e (List.mem_cons_of_mem _ he)
    cases e with
    | command args ctx =>
      obtain ⟨hreply, _, hnext, hnext'⟩ :=
        hs.dispatch hu (hasks _ List.mem_cons_self) hfits.1 hfits'.1
      have hreplies := ih hnext hnext' hrest hfits.2 hfits'.2
      exact congrArg₂ List.cons hreply hreplies
    | sweep now => exact ih (hs.sweepAll now) (hu.sweepAll now) hrest hfits hfits'

/-- A new store replies the same as one with a single shard. -/
theorem sharding_transparent (numShards maxMemoryBytes maxMemoryBytes' : Int) {events : List StoreEvent}
    (hasks : ∀ e ∈ events, e.AsksMap) (hfits : (newStore numShards maxMemoryBytes).Roomy events)
    (hfits' : (newStore 1 maxMemoryBytes').Roomy events) :
    (newStore numShards maxMemoryBytes).eventReplies events =
      (newStore 1 maxMemoryBytes').eventReplies events :=
  (newStore_holds numShards maxMemoryBytes).eventReplies (newStore_holds 1 maxMemoryBytes') hasks hfits
    hfits'

end

end ShardedStore

/-- Two keys, of which the first expires and is swept. -/
def countedKeys : List StoreEvent :=
  [.command [ascii "SET", ascii "k", ascii "v", ascii "PX", ascii "1"] (contextAt 0),
    .command [ascii "SET", ascii "l", ascii "w"] (contextAt 0),
    .sweep (2 * millisecond),
    .command [ascii "DBSIZE"] (contextAt (3 * millisecond))]

section

attribute [local instance] Rounding.exact

theorem sharding_transparent_dbsize : (newStore 3 3000).eventReplies countedKeys =
    (newStore 1 1000).eventReplies countedKeys := by
  apply ShardedStore.sharding_transparent
  · simp only [countedKeys, List.forall_mem_cons]
    have hset : handlerFor (toUpper (ascii "SET")) ≠ some .info := by decide
    have hdbsize : handlerFor (toUpper (ascii "DBSIZE")) ≠ some .info := by decide
    exact ⟨hset, hset, trivial, hdbsize, fun _ h => nomatch h⟩
  · refine ⟨⟨?_, trivial⟩, ⟨?_, trivial⟩, trivial, trivial⟩
    · rintro _ ⟨⟩
      decide
    · rintro _ ⟨⟩
      decide
  · refine ⟨⟨?_, trivial⟩, ⟨?_, trivial⟩, trivial, trivial⟩
    · rintro _ ⟨⟩
      decide
    · rintro _ ⟨⟩
      decide

end

end SqlOptimizer.Cache
