import SqlOptimizer.Cache.Command.Sharding
import SqlOptimizer.Library.Machine

/-! Clients whose locked operations interleave in any order see one map that may forget.  Whatever
the shards, the budget and the clock readings, an operation acts on the entry of its key or finds
none; what a client reads is the last value written. -/

namespace SqlOptimizer.Cache

variable {n : Nat}

theorem liveAt_eq_some {now : Time} {e : Option CacheEntry} {ent : CacheEntry}
    (h : liveAt now e = some ent) : e = some ent :=
  (Option.filter_eq_some_iff.mp h).1

/-- `m'` is `m` without some of its entries. -/
def Forgets (m m' : Bytes → Option CacheEntry) : Prop := ∀ k ent, m' k = some ent → m k = some ent

/-- The operations on a map that may forget entries after each of them. -/
inductive ForgetfulMap [NeZero n] :
    Choices (Bytes → Option CacheEntry) (StoreOp n) OpResult
  | onKey {m m' : Bytes → Option CacheEntry} {op : StoreOp n} {k : Bytes} (hk : op.key = some k)
      (hforget : Forgets (Function.update m k (op.onEntry (m k)).2) m') :
      ForgetfulMap m op (op.onEntry (m k)).1 m'
  | flush {m m' : Bytes → Option CacheEntry} (i : Fin n)
      (hforget : Forgets (fun k => if shardFor n k = i then none else m k) m') :
      ForgetfulMap m (.flushAll i) .done m'
  | sweep {m m' : Bytes → Option CacheEntry} (i : Fin n) (now : Time) (hforget : Forgets m m') :
      ForgetfulMap m (.sweepExpired i now) .done m'

variable [NeZero n]

namespace ShardedStore

/-- The store as a machine that answers one locked operation at a time. -/
def machine : Machine (ShardedStore n) (StoreOp n) OpResult := fun s op =>
  (op.result (s.held op.shard), s.step op)

/-- The map that a store holds has its entries in their shards. -/
theorem holds_self {s : ShardedStore n}
    (h : ∀ i k ent, (s.shards i).entries.lookup k = some ent → shardFor n k = i) :
    s.Holds fun k => (s.shards (shardFor n k)).entries.lookup k := by
  intro i k
  by_cases hi : shardFor n k = i
  · rw [if_pos hi]
    dsimp only
    rw [hi]
  · rw [if_neg hi]
    rcases hent : (s.shards i).entries.lookup k with _ | ent
    · rfl
    · exact absurd (h i k ent hent) hi

variable {s : ShardedStore n} {m : Bytes → Option CacheEntry}

theorem Holds.shard_of_lookup (h : s.Holds m) {i : Fin n} {k : Bytes} {ent : CacheEntry}
    (hent : (s.shards i).entries.lookup k = some ent) : shardFor n k = i ∧ m k = some ent := by
  rw [h i k] at hent
  split at hent
  case isTrue hi => exact ⟨hi, hent⟩
  case isFalse => cases hent

/-- A store whose entries are among those of a map holds a map that forgot the others. -/
theorem holds_forgets (h : ∀ i k ent, (s.shards i).entries.lookup k = some ent →
    shardFor n k = i ∧ m k = some ent) : ∃ m', Forgets m m' ∧ s.Holds m' :=
  ⟨_, fun k ent hent => (h _ k ent hent).2, holds_self fun i k ent hent => (h i k ent hent).1⟩

/-- What an operation on a key leaves. -/
theorem Holds.lookup_step (h : s.Holds m) {op : StoreOp n} {k : Bytes} (hk : op.key = some k)
    {i : Fin n} {k' : Bytes} {ent : CacheEntry}
    (hent : ((s.step op).shards i).entries.lookup k' = some ent) :
    shardFor n k' = i ∧ Function.update m k (op.onEntry (m k)).2 k' = some ent := by
  have hshard := StoreOp.shard_eq hk
  have hentry : (s.held op.shard).lookup k = m k := by
    rw [hshard]
    exact h.lookup k
  rw [step_shards] at hent
  rw [Function.update_apply]
  split at hent
  case isTrue hi =>
    have hleft := StoreOp.lookup_onHeld hk hent
    rw [hentry] at hleft
    by_cases heq : k' = k
    · rw [if_pos heq] at hleft ⊢
      exact ⟨by rw [heq, hi, hshard], hleft⟩
    · rw [if_neg heq] at hleft ⊢
      rw [hi]
      exact h.shard_of_lookup hleft
  case isFalse hi =>
    obtain ⟨hi', hent⟩ := h.shard_of_lookup hent
    have hne : k' ≠ k := by
      rintro rfl
      exact hi (hi'.symm.trans hshard.symm)
    rw [if_neg hne]
    exact ⟨hi', hent⟩

/-- A locked operation is a choice of the forgetful map. -/
theorem refines_forgetfulMap :
    (ForgetfulMap (n := n)).RefinedBy Holds (machine (n := n)) := by
  intro s m op h
  rcases hkey : op.key with _ | k
  · cases op with
    | get | «exists» | set | delete | expire | persist | ttl | incrBy => cases hkey
    | flushAll i =>
      obtain ⟨m', hforget, hholds⟩ := holds_forgets (s := s.step (.flushAll i))
        (m := fun k => if shardFor n k = i then none else m k) fun j k ent hent => by
          rw [step_shards] at hent
          split at hent
          case isTrue => cases hent
          case isFalse hj =>
            obtain ⟨hj', hent'⟩ := h.shard_of_lookup hent
            exact ⟨hj', (if_neg (hj' ▸ hj)).trans hent'⟩
      exact ⟨m', .flush i hforget, hholds⟩
    | sweepExpired i now =>
      obtain ⟨m', hforget, hholds⟩ := holds_forgets (s := s.step (.sweepExpired i now))
        (m := m) fun j k ent hent => by
          rw [step_shards] at hent
          split at hent
          case isTrue hj =>
            have hlive : liveAt now ((s.held i).lookup k) = some ent :=
              (lookup_sweepExpired _ _ _).symm.trans hent
            rw [hj]
            exact h.shard_of_lookup (liveAt_eq_some hlive)
          case isFalse => exact h.shard_of_lookup hent
      exact ⟨m', .sweep i now hforget, hholds⟩
  · have hresult : op.result (s.held op.shard) = (op.onEntry (m k)).1 := by
      have hentry : (s.held op.shard).lookup k = m k := by
        rw [StoreOp.shard_eq hkey]
        exact h.lookup k
      rw [← hentry]
      exact (StoreOp.onHeld_evicts hkey).1
    obtain ⟨m', hforget, hholds⟩ := holds_forgets fun i k' ent hent => h.lookup_step hkey hent
    refine ⟨m', ?_, hholds⟩
    show ForgetfulMap m op (op.result (s.held op.shard)) m'
    rw [hresult]
    exact .onKey hkey hforget

/-- Every run of locked operations on a new store, of any clients in any order, is one of a map that
may forget, and the store holds exactly what the map has left. -/
theorem run_forgetfulMap (numShards maxMemoryBytes : Int)
    (ops : List (StoreOp (shardCount numShards))) :
    ∃ m, ForgetfulMap.Allows (fun _ => none)
        (machine.trace (newStore numShards maxMemoryBytes) ops) m ∧
      ((newStore numShards maxMemoryBytes).run ops).Holds m :=
  refines_forgetfulMap.run (newStore_holds numShards maxMemoryBytes) ops

end ShardedStore

/-! ### What a client that sees every answer knows -/

/-- The last value written under each key, as far as the operations and their answers tell. -/
def remember (memory : Bytes → Option Bytes) : StoreOp n × OpResult → Bytes → Option Bytes
  | (.set key value _ _ _, .flag true) => Function.update memory key (some value)
  | (.incrBy key _ _, .number (.ok next)) => Function.update memory key (some (intText next))
  | (.delete key, _) => Function.update memory key none
  | (.flushAll i, _) => fun k => if shardFor n k = i then none else memory k
  | _ => memory

/-- The answers that an operation may get when `last` is the value last written under its key: it
finds that value, or none. -/
def Expected (last : Option Bytes) : StoreOp n → OpResult → Prop
  | .get _ _, .value v => v = none ∨ v = last
  | .exists _ _, .flag b | .expire _ _ _ _, .flag b | .persist _ _, .flag b | .delete _, .flag b =>
    b = true → last.isSome
  | .set _ _ opts _ _, .flag b =>
    if b then opts.xx = true → last.isSome
    else opts.nx = true ∧ last.isSome ∨ opts.xx = true
  | .ttl _ _ _, .ttl d => d.isSome → last.isSome
  | .incrBy _ delta _, .number (.ok next) => next = wrap64 delta ∨
    ∃ value current, last = some value ∧ readInt64 value = some current ∧
      next = wrap64 (current + delta)
  | .incrBy _ _ _, .number (.error _) => ∃ value, last = some value ∧ readInt64 value = none
  | .flushAll _, .done | .sweepExpired _ _, .done => True
  | _, _ => False

/-- Every entry of the map has the value that was last written. -/
def Remembered (memory : Bytes → Option Bytes) (m : Bytes → Option CacheEntry) : Prop :=
  ∀ k ent, m k = some ent → memory k = some ent.value

section

variable {memory : Bytes → Option Bytes} {m m' : Bytes → Option CacheEntry} {op : StoreOp n}
  {a : OpResult}

theorem Remembered.forgets (h : Remembered memory m) (hforget : Forgets m m') :
    Remembered memory m' :=
  fun k ent hent => h k ent (hforget k ent hent)

theorem Remembered.isSome (h : Remembered memory m) {k : Bytes} {ent : CacheEntry}
    (hent : m k = some ent) : (memory k).isSome := by
  rw [h k ent hent]
  rfl

omit [NeZero n] in
/-- An operation on the entry of a key, if it still is in the map, answers as its value allows. -/
theorem Remembered.expected (h : Remembered memory m) {k : Bytes} (hk : op.key = some k) :
    Expected (memory k) op (op.onEntry (m k)).1 := by
  have hlive : ∀ now, (liveAt now (m k)).isSome → (memory k).isSome := by
    intro now hsome
    obtain ⟨ent, hent⟩ := Option.isSome_iff_exists.mp hsome
    exact h.isSome (liveAt_eq_some hent)
  cases op with
  | flushAll | sweepExpired => cases hk
  | get key now =>
    cases hk
    show _ ∨ _
    rcases hent : liveAt now (m k) with _ | ent
    · exact .inl rfl
    · exact .inr (h k ent (liveAt_eq_some hent)).symm
  | «exists» key now =>
    cases hk
    exact hlive now
  | ttl key now now' =>
    cases hk
    show Option.isSome _ → _
    rw [Option.isSome_map]
    exact hlive now
  | delete key =>
    cases hk
    intro hsome
    obtain ⟨ent, hent⟩ := Option.isSome_iff_exists.mp hsome
    exact h.isSome hent
  | expire key d now now' =>
    cases hk
    simp only [StoreOp.onEntry]
    split
    case h_1 => exact fun hb => absurd hb (by decide)
    case h_2 ent hent => exact fun _ => h.isSome (liveAt_eq_some hent)
  | persist key now =>
    cases hk
    simp only [StoreOp.onEntry]
    split
    case h_1 => exact fun hb => absurd hb (by decide)
    case h_2 ent hent =>
      split
      · exact fun _ => h.isSome (liveAt_eq_some hent)
      · exact fun hb => absurd hb (by decide)
  | set key value opts now now' =>
    cases hk
    have hsome := hlive now
    simp only [StoreOp.onEntry]
    split
    case isTrue hnx =>
      rw [Bool.and_eq_true] at hnx
      exact .inl ⟨hnx.1, hsome hnx.2⟩
    split
    case isTrue hxx =>
      rw [Bool.and_eq_true] at hxx
      exact .inr hxx.1
    case isFalse hxx =>
      intro hopt
      rw [hopt, Bool.true_and, Bool.not_eq_true', Bool.not_eq_false] at hxx
      exact hsome hxx
  | incrBy key delta now =>
    cases hk
    simp only [StoreOp.onEntry]
    rcases hent : liveAt now (m k) with _ | ent
    · exact .inl (by rw [zero_add])
    · have hvalue := h k ent (liveAt_eq_some hent)
      dsimp only
      rcases hread : readInt64 ent.value with _ | current
      · exact ⟨ent.value, hvalue, hread⟩
      · exact .inr ⟨ent.value, current, hvalue, hread, rfl⟩

theorem Remembered.update (h : Remembered memory m) {k : Bytes} {e : Option CacheEntry}
    {v : Option Bytes} (hv : ∀ ent, e = some ent → v = some ent.value) :
    Remembered (Function.update memory k v) (Function.update m k e) := by
  intro k' ent hent
  rw [Function.update_apply] at hent ⊢
  split at hent
  case isTrue heq =>
    rw [if_pos heq]
    exact hv ent hent
  case isFalse hne =>
    rw [if_neg hne]
    exact h k' ent hent

/-- An entry whose value stays. -/
theorem Remembered.keep (h : Remembered memory m) {k : Bytes} {e : Option CacheEntry}
    (he : ∀ ent, e = some ent → ∃ ent', m k = some ent' ∧ ent.value = ent'.value) :
    Remembered memory (Function.update m k e) := by
  have hkeep := h.update (k := k) (e := e) (v := memory k) fun ent hent => by
    obtain ⟨ent', hent', hvalue⟩ := he ent hent
    rw [hvalue]
    exact h k ent' hent'
  rwa [Function.update_eq_self] at hkeep

omit [NeZero n] in
theorem newEntry_value (key value : Bytes) (opts : SetOptions) (now : Time) :
    (Held.newEntry key value opts now).value = value := by
  unfold Held.newEntry
  split <;> rfl

/-- An operation on a key writes what a client takes from its answer. -/
theorem Remembered.onEntry (h : Remembered memory m) {k : Bytes} (hk : op.key = some k) :
    Remembered (remember memory (op, (op.onEntry (m k)).1))
      (Function.update m k (op.onEntry (m k)).2) := by
  have hlive : ∀ now, Remembered memory (Function.update m k (liveAt now (m k))) := fun now =>
    h.keep fun ent hent => ⟨ent, liveAt_eq_some hent, rfl⟩
  have hsame : Remembered memory (Function.update m k (m k)) :=
    h.keep fun ent hent => ⟨ent, hent, rfl⟩
  cases op with
  | flushAll | sweepExpired => cases hk
  | get key now => cases hk; exact hlive now
  | «exists» key now => cases hk; exact hlive now
  | ttl key now now' => cases hk; exact hlive now
  | delete key => cases hk; exact h.update fun ent hent => nomatch hent
  | set key value opts now now' =>
    cases hk
    simp only [StoreOp.onEntry]
    split
    · exact hlive now
    split
    · exact hlive now
    · refine h.update fun ent hent => ?_
      cases hent
      rw [newEntry_value]
  | expire key d now now' =>
    cases hk
    simp only [StoreOp.onEntry]
    split
    · exact hsame
    case h_2 ent hent =>
      refine h.keep fun ent' hent' => ?_
      cases hent'
      exact ⟨ent, liveAt_eq_some hent, rfl⟩
  | persist key now =>
    cases hk
    simp only [StoreOp.onEntry]
    split
    · exact hsame
    case h_2 ent hent =>
      split
      · refine h.keep fun ent' hent' => ?_
        cases hent'
        exact ⟨ent, liveAt_eq_some hent, rfl⟩
      · exact hsame
  | incrBy key delta now =>
    cases hk
    simp only [StoreOp.onEntry]
    split
    · exact hsame
    case h_2 current _ =>
      refine h.update fun ent hent => ?_
      rcases hold : m k with _ | old <;> rw [hold] at hent <;> cases hent <;> rfl

/-- A choice of the forgetful map answers as expected, and the client's memory still covers it. -/
theorem Remembered.choice (h : Remembered memory m) (hchoice : ForgetfulMap m op a m') :
    (∀ k, op.key = some k → Expected (memory k) op a) ∧ Remembered (remember memory (op, a)) m' := by
  cases hchoice with
  | onKey hk hforget =>
    refine ⟨fun k' hk' => ?_, (h.onEntry hk).forgets hforget⟩
    rw [hk] at hk'
    cases hk'
    exact h.expected hk
  | flush i hforget =>
    refine ⟨fun k hk => (by cases hk), ?_⟩
    refine Remembered.forgets (fun k ent hent => ?_) hforget
    simp only [remember]
    split at hent
    case isTrue => cases hent
    case isFalse hne =>
      rw [if_neg hne]
      exact h k ent hent
  | sweep i now hforget => exact ⟨fun k hk => (by cases hk), h.forgets hforget⟩

end

open ShardedStore in
/-- On a new store shared by any clients, whatever operations came before and in whichever order, an
operation on a key finds the value last written under it, or finds nothing: evictions, expiries
and the sharing of shards never show it an older value or that of another key. -/
theorem answers_last_written (numShards maxMemoryBytes : Int)
    (before : List (StoreOp (shardCount numShards))) (op : StoreOp (shardCount numShards))
    {k : Bytes} (hk : op.key = some k) :
    Expected ((machine.trace (newStore numShards maxMemoryBytes) before).foldl remember
      (fun _ => none) k) op (machine ((newStore numShards maxMemoryBytes).run before) op).1 := by
  have hrefines := refines_forgetfulMap (n := shardCount numShards)
  obtain ⟨m, hallows, hholds⟩ := hrefines.run (newStore_holds numShards maxMemoryBytes) before
  have hmemory := hallows.keeps (f := remember) (P := Remembered)
    (fun _ _ _ _ _ h hchoice => (h.choice hchoice).2) (b := fun _ => none)
    fun k ent hent => by cases hent
  obtain ⟨m', hchoice, -⟩ := hrefines _ m op hholds
  exact (hmemory.choice hchoice).1 k hk

open ShardedStore in
/-- A read after a write. -/
theorem answers_last_written_get :
    let before : List (StoreOp (shardCount 1)) := [.set [107] [118] {} 0 0]
    let op : StoreOp (shardCount 1) := .get [107] 1
    Expected ((machine.trace (newStore 1 1000) before).foldl remember (fun _ => none) [107]) op
      (machine ((newStore 1 1000).run before) op).1 :=
  answers_last_written 1 1000 _ _ rfl

end SqlOptimizer.Cache
