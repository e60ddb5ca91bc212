import SqlOptimizer.Cache.Command.Sweeps
import SqlOptimizer.Cache.Persistence.Started
import SqlOptimizer.Cache.Storage.Eviction

/-! `INCR` and `DECR`: when they reply the exact sum. -/

namespace SqlOptimizer.Cache

/-- The integer that a live entry denotes in base 10; 0 when there is none. -/
def denotedAt (now : Time) (e : Option CacheEntry) : Option Int :=
  match liveAt now e with
  | none => some 0
  | some ent => readInt ent.value

/-- `ent` has the expiry of the live entry, and none when there is no live entry. -/
def SameExpiry (now : Time) (e : Option CacheEntry) (ent : CacheEntry) : Prop :=
  match liveAt now e with
  | none => ent.hasExpiry = false
  | some old => ent.hasExpiry = old.hasExpiry ∧ ent.expiresAt = old.expiresAt

section

variable {n : Nat} [NeZero n] {s : ShardedStore n} {key : Bytes} {delta : Int} {now : Time}

/-- The entry of a key, in its shard. -/
def ShardedStore.entryOf (s : ShardedStore n) (key : Bytes) : Option CacheEntry :=
  (s.held (shardFor n key)).lookup key

/-- A reply and the store that comes with it: the exact sum, which the key then holds with its
expiry unchanged if it fits the budget, or an error and nothing changed. -/
def ExactOrRefused (delta : Int) (now : Time) (s : ShardedStore n) (key : Bytes)
    (done : RespValue × ShardedStore n) : Prop :=
  (∃ old, denotedAt now (s.entryOf key) = some old ∧ done.1 = .integer (old + delta) ∧
    (approxSize key (intText (old + delta)) ≤ (s.shards (shardFor n key)).maxBytes →
      ∃ ent, liveAt now (done.2.entryOf key) = some ent ∧ ent.value = intText (old + delta) ∧
        SameExpiry now (s.entryOf key) ent)) ∨
  (∃ msg, done.1 = .error msg) ∧ done.2 = s

/-- When the value is a number at all, the sum is within 64 bits, and no expired entry is in the
way unless the sum would not fit the budget. -/
def AddsExactly (delta : Int) (now : Time) (s : ShardedStore n) (key : Bytes) : Prop :=
  ∀ current, (s.held (shardFor n key)).currentValue key now = some current →
    (-2 ^ 63 ≤ current + delta ∧ current + delta < 2 ^ 63) ∧
      ((∀ ent, s.entryOf key = some ent → isExpired ent now = false) ∨
        (s.shards (shardFor n key)).maxBytes < approxSize key (intText (current + delta)))

omit [NeZero n] in
theorem ShardedStore.release_self (s : ShardedStore n) (i : Fin n) : s.release i (s.held i) = s := by
  show (⟨Function.update s.shards i (s.shards i), s.metrics⟩ : ShardedStore n) = s
  rw [Function.update_eq_self]

theorem ShardedStore.incrBy_refused (h : (s.held (shardFor n key)).currentValue key now = none) :
    s.incrBy key delta now = (.error "value is not an integer or out of range", s) := by
  have hheld : (s.held (shardFor n key)).incrBy key delta now =
      (.error "value is not an integer or out of range", s.held (shardFor n key)) := by
    unfold Held.incrBy
    rw [h]
  unfold ShardedStore.incrBy ShardedStore.onShard
  simp only [hheld, s.release_self]

/-- An operation on the shard of a key does to the entry what it does in the shard. -/
theorem ShardedStore.entryOf_onShard {α : Type} (s : ShardedStore n) (key : Bytes)
    (op : Held → α × Held) :
    (s.onShard key op).2.entryOf key = (op (s.held (shardFor n key))).2.lookup key := by
  show (Function.update s.shards (shardFor n key) _ (shardFor n key)).entries.lookup key = _
  rw [Function.update_self]
  rfl

theorem ShardedStore.incrBy_reply {current : Int}
    (h : (s.held (shardFor n key)).currentValue key now = some current) :
    (s.incrBy key delta now).1 = .ok (wrap64 (current + delta)) := by
  show ((s.held (shardFor n key)).incrBy key delta now).1 = _
  unfold Held.incrBy
  rw [h]

theorem ShardedStore.entryOf_incrBy (ht : (s.shards (shardFor n key)).Tracked) {current : Int}
    (h : (s.held (shardFor n key)).currentValue key now = some current)
    (hfits : approxSize key (intText (wrap64 (current + delta))) ≤
      (s.shards (shardFor n key)).maxBytes) :
    (s.incrBy key delta now).2.entryOf key =
      some ((s.held (shardFor n key)).incremented key (wrap64 (current + delta))) := by
  have hlookup := StoreOp.lookup_incrBy_of_fits (n := n) ht h hfits
  rw [← hlookup]
  exact s.entryOf_onShard key _

theorem denotedAt_of_currentValue {h : Held} {current : Int}
    (hcurrent : h.currentValue key now = some current) :
    denotedAt now (h.lookup key) = some current := by
  rw [Held.currentValue_eq] at hcurrent
  cases hlive : liveAt now (h.lookup key) with
  | none =>
    rw [hlive] at hcurrent
    rw [denotedAt, hlive]
    exact hcurrent
  | some ent =>
    rw [hlive] at hcurrent
    rw [denotedAt, hlive]
    exact (Option.filter_eq_some_iff.mp hcurrent).1

/-- The entry of an increment is live, with the same expiry, exactly when there was no expired one
before. -/
theorem incremented_live_iff (h : Held) (key : Bytes) (now : Time) (next : Int) :
    (∃ ent, liveAt now (some (h.incremented key next)) = some ent ∧ ent.value = intText next ∧
      SameExpiry now (h.lookup key) ent) ↔
    ∀ ent, h.lookup key = some ent → isExpired ent now = false := by
  cases hent : h.lookup key with
  | none =>
    have hnew : h.incremented key next =
        { value := intText next, sizeBytes := approxSize key (intText next) } := by
      rw [Held.incremented, hent]
    rw [hnew]
    exact iff_of_true ⟨_, rfl, rfl, rfl⟩ fun _ h => nomatch h
  | some old =>
    have hnew : h.incremented key next =
        { old with value := intText next, sizeBytes := approxSize key (intText next) } := by
      rw [Held.incremented, hent]
    have hsame : isExpired (h.incremented key next) now = isExpired old now := by
      rw [hnew]
      rfl
    cases hexp : isExpired old now with
    | true =>
      rw [Held.liveAt_expired (hsame.trans hexp)]
      refine iff_of_false (fun ⟨_, hnone, _⟩ => nomatch hnone) fun hall => ?_
      rw [hall old rfl] at hexp
      cases hexp
    | false =>
      rw [Held.liveAt_some (hsame.trans hexp)]
      refine iff_of_true ⟨_, rfl, by rw [hnew], ?_⟩ fun ent hent => ?_
      · rw [SameExpiry, Held.liveAt_some hexp, hnew]
        exact ⟨rfl, rfl⟩
      · cases hent
        exact hexp

theorem handleIncrBy_eq (cmd : String) (ctx : Context) {current : Int}
    (h : (s.held (shardFor n key)).currentValue key (ctx.clock 0) = some current) :
    handleIncrBy cmd delta ctx s [key] =
      (.integer (wrap64 (current + delta)), (s.incrBy key delta (ctx.clock 0)).2) := by
  simp only [handleIncrBy, ShardedStore.incrBy_reply h]

theorem exactOrRefused_iff (cmd : String) (ctx : Context)
    (ht : (s.shards (shardFor n key)).Tracked) :
    ExactOrRefused delta (ctx.clock 0) s key (handleIncrBy cmd delta ctx s [key]) ↔
      AddsExactly delta (ctx.clock 0) s key := by
  unfold AddsExactly
  cases hcurrent : (s.held (shardFor n key)).currentValue key (ctx.clock 0) with
  | none =>
    refine iff_of_true (.inr ?_) fun _ h => nomatch h
    simp only [handleIncrBy, ShardedStore.incrBy_refused hcurrent]
    exact ⟨⟨_, rfl⟩, trivial⟩
  | some current =>
    have hdenoted : denotedAt (ctx.clock 0) (s.entryOf key) = some current :=
      denotedAt_of_currentValue hcurrent
    have hlive := incremented_live_iff (s.held (shardFor n key)) key (ctx.clock 0)
      (wrap64 (current + delta))
    rw [handleIncrBy_eq cmd ctx hcurrent]
    constructor
    · rintro (⟨old, hold, hreply, hkept⟩ | ⟨⟨_, hreply⟩, -⟩)
      · rw [hdenoted] at hold
        cases hold
        have hexact : wrap64 (current + delta) = current + delta := RespValue.integer.inj hreply
        rintro _ ⟨⟩
        refine ⟨wrap64_eq_self_iff.mp hexact, ?_⟩
        rw [or_iff_not_imp_right, not_lt]
        intro hfits
        have hent := hkept hfits
        rw [ShardedStore.entryOf_incrBy ht hcurrent (by rw [hexact]; exact hfits)] at hent
        rw [hexact] at hlive hent
        exact hlive.mp hent
      · cases hreply
    · intro h
      obtain ⟨hrange, hstay⟩ := h current rfl
      have hexact := wrap64_eq_self_iff.mpr hrange
      refine .inl ⟨current, hdenoted, by rw [hexact], fun hfits => ?_⟩
      rw [ShardedStore.entryOf_incrBy ht hcurrent (by rw [hexact]; exact hfits)]
      rw [hexact] at hlive ⊢
      exact hlive.mpr (hstay.resolve_right (not_lt.mpr hfits))

end

/-- At any time of a server, `INCR` and `DECR` reply the exact sum or refuse, as they should,
exactly when the value is no number, or the sum is within 64 bits and no expired entry is left at
the key. -/
theorem incr_decr_exact_iff (checksum : Bytes → UInt32) (clock : Nat → Time)
    (numShards maxMemoryBytes : Int) (file : FileRead)
    (ops : List (StoreOp (shardCount numShards))) (ctx : Context) (key : Bytes) :
    let s := (startedStore checksum clock numShards maxMemoryBytes file).run ops
    (ExactOrRefused 1 (ctx.clock 0) s key (handleIncr ctx s [key]) ↔
      AddsExactly 1 (ctx.clock 0) s key) ∧
    (ExactOrRefused (-1) (ctx.clock 0) s key (handleDecr ctx s [key]) ↔
      AddsExactly (-1) (ctx.clock 0) s key) := by
  intro s
  have ht := (startedStore_run checksum clock numShards maxMemoryBytes file ops
    (shardFor _ key)).1.tracked
  exact ⟨exactOrRefused_iff "INCR" ctx ht, exactOrRefused_iff "DECR" ctx ht⟩

/-- A store with one key. -/
def counterStore (value : Bytes) (opts : SetOptions) : ShardedStore (shardCount 1) :=
  (newStore 1 1000).run [.set (ascii "k") value opts 0 0]

theorem counterStore_tracked (value : Bytes) (opts : SetOptions) (i : Fin (shardCount 1)) :
    ((counterStore value opts).shards i).Tracked :=
  ((newStore_consistent 1 1000).run _).tracked i

/-- The largest integer wraps around; an expired value is counted from 0, but the sum expires with
it. -/
theorem handleIncr_wraps :
    let s := counterStore (ascii "9223372036854775807") {};
    let s' := counterStore (ascii "5") { ttl := millisecond, hasTTL := true };
    let done := handleIncr (contextAt (2 * millisecond)) s' [ascii "k"];
    ((handleIncr (contextAt 0) s [ascii "k"]).1 = .integer (-9223372036854775808) ∧
      ¬ ExactOrRefused 1 0 s (ascii "k") (handleIncr (contextAt 0) s [ascii "k"])) ∧
    done.1 = .integer 1 ∧ (done.2.get (ascii "k") (2 * millisecond)).1 = none ∧
      ¬ ExactOrRefused 1 (2 * millisecond) s' (ascii "k") done := by
  intro s s' done
  constructor
  · have hcurrent : (s.held (shardFor _ (ascii "k"))).currentValue (ascii "k") 0 =
        some 9223372036854775807 := by decide
    refine ⟨?_, fun h => ?_⟩
    · exact congrArg Prod.fst (handleIncrBy_eq "INCR" (contextAt 0) hcurrent)
    · have hadds := (exactOrRefused_iff "INCR" (contextAt 0) (counterStore_tracked _ _ _)).mp h _ hcurrent
      exact absurd hadds.1.2 (by decide)
  · have hcurrent : (s'.held (shardFor _ (ascii "k"))).currentValue (ascii "k")
        (2 * millisecond) = some 0 := by decide
    refine ⟨?_, by decide, fun h => ?_⟩
    · exact congrArg Prod.fst (handleIncrBy_eq "INCR" (contextAt (2 * millisecond)) hcurrent)
    · have hadds := (exactOrRefused_iff "INCR" (contextAt (2 * millisecond))
        (counterStore_tracked _ _ _)).mp h _ hcurrent
      rcases hadds.2 with hlive | hlarge
      · obtain ⟨ent, hent⟩ : ∃ ent, s'.entryOf (ascii "k") = some ent :=
          Option.isSome_iff_exists.mp (by decide)
        have hexpired : ∀ ent, s'.entryOf (ascii "k") = some ent →
            isExpired ent (2 * millisecond) = true := by
          intro ent hent
          have hall : (s'.entryOf (ascii "k")).all fun ent => isExpired ent (2 * millisecond) := by
            decide
          rw [hent] at hall
          exact hall
        have hfalse : isExpired ent (2 * millisecond) = false := hlive ent hent
        rw [hexpired ent hent] at hfalse
        cases hfalse
      · exact absurd hlarge (by decide)

end SqlOptimizer.Cache
