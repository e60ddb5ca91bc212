import SqlOptimizer.Cache.Command.Counters

/-! `EX`, `PX` and `EXPIRE`: when a key lives for as long as it was asked to. -/

namespace SqlOptimizer.Cache

/-- The unit and the number of the last `EX` or `PX` among the options. -/
def asked : List Bytes → Option (Duration × Int)
  | arg :: arg' :: rest =>
    if toUpper arg = ascii "EX" then (asked rest).or ((readInt64 arg').map (second, ·))
    else if toUpper arg = ascii "PX" then (asked rest).or ((readInt64 arg').map (millisecond, ·))
    else asked (arg' :: rest)
  | _ => none

theorem asked_unit_pos {rest : List Bytes} {unit : Duration} {count : Int}
    (h : asked rest = some (unit, count)) : 0 < unit := by
  have hor : ∀ {time : Option (Duration × Int)} {unit' : Duration} {arg : Bytes},
      (time = some (unit, count) → 0 < unit) → 0 < unit' →
      time.or ((readInt64 arg).map (unit', ·)) = some (unit, count) → 0 < unit := by
    intro time unit' arg htime hunit' hsome
    rcases Option.or_eq_some_iff.mp hsome with hsome | ⟨-, hsome⟩
    · exact htime hsome
    · obtain ⟨_, -, ⟨⟩⟩ := Option.map_eq_some_iff.mp hsome
      exact hunit'
  induction rest using asked.induct with
  | case1 arg arg' rest hEX ih =>
    rw [asked, if_pos hEX] at h
    exact hor ih (by decide) h
  | case2 arg arg' rest hEX hPX ih =>
    rw [asked, if_neg hEX, if_pos hPX] at h
    exact hor ih (by decide) h
  | case3 arg arg' rest hEX hPX ih =>
    rw [asked, if_neg hEX, if_neg hPX] at h
    exact ih h
  | case4 rest hrest =>
    unfold asked at h
    split at h
    · exact absurd rfl (hrest _ _ _)
    · cases h

theorem parseTTL_eq_ok {unit ttl : Duration} {arg : Bytes} (h : parseTTL unit arg = .ok ttl) :
    ∃ count, readInt64 arg = some count ∧ 0 ≤ count ∧ ttl = wrap64 (count * unit) := by
  unfold parseTTL at h
  split at h
  case h_1 => cases h
  case h_2 count hcount =>
    split at h
    case isTrue => cases h
    case isFalse hneg => exact ⟨count, hcount, not_lt.mp hneg, (Except.ok.inj h).symm⟩

/-- `opts'` has the time that was asked for, as far as 64 bits hold it, and otherwise that of
`opts`. -/
def Timed (time : Option (Duration × Int)) (opts opts' : SetOptions) : Prop :=
  match time with
  | none => opts'.hasTTL = opts.hasTTL ∧ opts'.ttl = opts.ttl
  | some (unit, count) => opts'.hasTTL = true ∧ 0 ≤ count ∧ opts'.ttl = wrap64 (count * unit)

/-- A later time replaces an earlier one. -/
theorem Timed.or {time : Option (Duration × Int)} {opts opts' : SetOptions} {unit ttl : Duration}
    {arg : Bytes} (hparse : parseTTL unit arg = .ok ttl)
    (h : Timed time { opts with hasTTL := true, ttl := ttl } opts') :
    Timed (time.or ((readInt64 arg).map (unit, ·))) opts opts' := by
  obtain ⟨count, hcount, hpos, rfl⟩ := parseTTL_eq_ok hparse
  rw [hcount]
  cases time with
  | none => exact ⟨h.1, hpos, h.2⟩
  | some time => exact h

theorem parseSetOptionsFrom_timed {opts opts' : SetOptions} {rest : List Bytes}
    (h : parseSetOptionsFrom opts rest = .ok opts') : Timed (asked rest) opts opts' := by
  induction opts, rest using parseSetOptionsFrom.induct with
  | case1 opts hboth =>
    rw [parseSetOptionsFrom, if_pos hboth] at h
    cases h
  | case2 opts hboth =>
    rw [parseSetOptionsFrom, if_neg hboth] at h
    cases h
    exact ⟨rfl, rfl⟩
  | case3 opts arg hNX ih =>
    rw [parseSetOptionsFrom, if_pos hNX] at h
    exact ih h
  | case4 opts arg hNX hXX ih =>
    rw [parseSetOptionsFrom, if_neg hNX, if_pos hXX] at h
    exact ih h
  | case5 opts arg hNX hXX =>
    rw [parseSetOptionsFrom, if_neg hNX, if_neg hXX] at h
    cases h
  | case6 opts arg arg' rest hEX ih =>
    rw [parseSetOptionsFrom, if_pos hEX] at h
    obtain ⟨ttl, hparse, h⟩ := Except.bind_eq_ok.mp h
    rw [asked, if_pos hEX]
    exact Timed.or hparse (ih ttl h)
  | case7 opts arg arg' rest hEX hPX ih =>
    rw [parseSetOptionsFrom, if_neg hEX, if_pos hPX] at h
    obtain ⟨ttl, hparse, h⟩ := Except.bind_eq_ok.mp h
    rw [asked, if_neg hEX, if_pos hPX]
    exact Timed.or hparse (ih ttl h)
  | case8 opts arg arg' rest hEX hPX hNX ih =>
    rw [parseSetOptionsFrom, if_neg hEX, if_neg hPX, if_pos hNX] at h
    rw [asked, if_neg hEX, if_neg hPX]
    exact ih h
  | case9 opts arg arg' rest hEX hPX hNX hXX ih =>
    rw [parseSetOptionsFrom, if_neg hEX, if_neg hPX, if_neg hNX, if_pos hXX] at h
    rw [asked, if_neg hEX, if_neg hPX]
    exact ih h
  | case10 opts arg arg' rest hEX hPX hNX hXX =>
    rw [parseSetOptionsFrom, if_neg hEX, if_neg hPX, if_neg hNX, if_neg hXX] at h
    cases h

/-! ### Untouched keys -/

section

variable {n : Nat} [NeZero n] {s : ShardedStore n} {key : Bytes} {t c : Int}

/-- No operation writes, removes or evicts the entry of `key`, unless to drop it as expired, and
none reads the clock past `c`. -/
def Untouched (key : Bytes) (c : Int) : ShardedStore n → List (StoreOp n) → Prop
  | _, [] => True
  | s, op :: ops => op.instant c ≤ c ∧
      Swept (op.instant c) (s.entryOf key) ((s.step op).entryOf key) ∧
      Untouched key c (s.step op) ops

/-- From the time `t` on, `key` is live before `d` has passed and absent after, as long as nothing
disturbs it. -/
def LastsFor (key : Bytes) (t d : Int) (s : ShardedStore n) : Prop :=
  ∀ c : Int, t ≤ c → ∀ ops, Untouched key c s ops →
    (c < t + d → liveAt c ((s.run ops).entryOf key) ≠ none) ∧
    (t + d < c → liveAt c ((s.run ops).entryOf key) = none)

omit [NeZero n] in
theorem liveAt_swept {e e' : Option CacheEntry} (h : Swept c e e') : liveAt c e' = liveAt c e := by
  rcases h with rfl | ⟨rfl, ent, rfl, hexp⟩
  · rfl
  · rw [Held.liveAt_expired hexp]
    rfl

theorem liveAt_run {ops : List (StoreOp n)} (h : Untouched key c s ops) :
    liveAt c ((s.run ops).entryOf key) = liveAt c (s.entryOf key) := by
  induction ops generalizing s with
  | nil => rfl
  | cons op ops ih => exact (ih h.2.2).trans (liveAt_swept (h.2.1.mono h.1))

/-- The operation does not write or remove the entry of `key`. -/
def Quiet (key : Bytes) : StoreOp n → Prop
  | .get _ _ | .exists _ _ | .ttl _ _ _ | .sweepExpired _ _ => True
  | .set k _ _ _ _ | .delete k | .expire k _ _ _ | .persist k _ | .incrBy k _ _ => k ≠ key
  | .flushAll i => i ≠ shardFor n key

theorem ShardedStore.entryOf_step (op : StoreOp n) : (s.step op).entryOf key =
    if shardFor n key = op.shard then (op.onHeld (s.held op.shard)).lookup key
    else s.entryOf key := by
  show (Function.update s.shards op.shard (op.onHeld (s.held op.shard)).shard
    (shardFor n key)).entries.lookup key = _
  rw [Function.update_apply]
  split <;> rfl

/-- What does not write the key and evicts nothing leaves it undisturbed. -/
theorem swept_step {op : StoreOp n} (hquiet : Quiet key op) (hfits : op.Fits (s.held op.shard)) :
    Swept (op.instant c) (s.entryOf key) ((s.step op).entryOf key) := by
  have hlive : ∀ (now : Time) (e : Option CacheEntry), Swept now e (liveAt now e) := by
    intro now e
    cases e with
    | none => exact .inl rfl
    | some ent =>
      cases hexp : isExpired ent now with
      | true => exact .inr ⟨Held.liveAt_expired hexp, ent, rfl, hexp⟩
      | false => exact .inl (Held.liveAt_some hexp)
  rw [ShardedStore.entryOf_step]
  split
  case isFalse => exact .inl rfl
  case isTrue hshard =>
    have hself : s.entryOf key = (s.held op.shard).lookup key := by rw [← hshard]; rfl
    rw [hself]
    cases hk : op.key with
    | some k =>
      rw [(StoreOp.onHeld_entry hk hfits).2.lookup key]
      split
      case isFalse => exact .inl rfl
      case isTrue heq =>
        subst heq
        cases op <;> cases hk
        case get | «exists» | ttl => exact hlive _ _
        case set | delete | expire | persist | incrBy => exact absurd rfl hquiet
    | none =>
      cases op with
      | flushAll i => exact absurd hshard.symm hquiet
      | sweepExpired i now =>
        show Swept now _ (((s.held i).sweepExpired now).lookup key)
        rw [lookup_sweepExpired]
        exact hlive _ _
      | _ => cases hk

theorem lastsFor_iff {d : Int} : LastsFor key t d s ↔ ∀ c : Int, t ≤ c →
    (c < t + d → liveAt c (s.entryOf key) ≠ none) ∧
    (t + d < c → liveAt c (s.entryOf key) = none) := by
  constructor
  · exact fun h c hc => h c hc [] trivial
  · intro h c hc ops hops
    rw [liveAt_run hops]
    exact h c hc

/-! ### What the commands leave -/

theorem lastsFor_none {d : Int} (h : s.entryOf key = none) : LastsFor key t d s ↔ d ≤ 0 := by
  rw [lastsFor_iff, h]
  constructor
  · intro hlasts
    by_contra hpos
    exact (hlasts t le_rfl).1 (by omega) rfl
  · exact fun hd c hc => ⟨fun hlt => by omega, fun _ => rfl⟩

theorem lastsFor_permanent {d : Int} {ent : CacheEntry} (h : s.entryOf key = some ent)
    (hexp : ent.hasExpiry = false) (hd : 0 ≤ d) : ¬ LastsFor key t d s := by
  rw [lastsFor_iff, h]
  intro hlasts
  have hlive : liveAt (t + d + 1) (some ent) = some ent :=
    Held.liveAt_some (by rw [isExpired, hexp]; rfl)
  have hgone := (hlasts (t + d + 1) (by omega)).2 (by omega)
  rw [hlive] at hgone
  cases hgone

/-- An expiry `w` after the time is right when it is what was asked for; an earlier one by more than
a nanosecond is not. -/
theorem lastsFor_expiring {d w : Int} {ent : CacheEntry} (h : s.entryOf key = some ent)
    (hexp : ent.hasExpiry = true) (hat : ent.expiresAt = t + w) (hd : 0 ≤ d)
    (hw : w = d ∨ w + 1 < d ∧ 0 < d) : LastsFor key t d s ↔ w = d := by
  have hexpired : ∀ c : Int, isExpired ent c = decide (t + w < c) := fun c => by
    rw [isExpired, hexp, hat, Bool.true_and]
  have hlive : ∀ c : Int, c ≤ t + w → liveAt c (some ent) = some ent := fun c hc =>
    Held.liveAt_some (by rw [hexpired, decide_eq_false (by omega)])
  have hgone : ∀ c : Int, t + w < c → liveAt c (some ent) = none := fun c hc =>
    Held.liveAt_expired (by rw [hexpired, decide_eq_true hc])
  rw [lastsFor_iff, h]
  constructor
  · intro hlasts
    by_contra hne
    by_cases hneg : w < 0
    · exact (hlasts t le_rfl).1 (by omega) (hgone t (by omega))
    · exact (hlasts (t + w + 1) (by omega)).1 (by omega) (hgone _ (by omega))
  · rintro rfl c hc
    refine ⟨fun hlt => ?_, fun hlt => hgone c hlt⟩
    rw [hlive c (by omega)]
    exact Option.some_ne_none _

/-- A product that wraps around is far below what was asked for. -/
theorem wrap64_of_nonneg {d : Int} (hd : 0 ≤ d) :
    (wrap64 d = d ↔ d < 2 ^ 63) ∧ (wrap64 d = d ∨ wrap64 d + 1 < d ∧ 0 < d) := by
  have hself := @wrap64_eq_self_iff d
  have hrange := wrap64_mem_range d
  constructor
  · rw [hself]
    omega
  · by_cases hlt : d < 2 ^ 63
    · exact .inl (hself.mpr ⟨by omega, hlt⟩)
    · refine .inr ?_
      have hparts : 2 ^ 64 * Int.bdiv d (2 ^ 64) + wrap64 d = d := Int.bdiv_add_bmod d (2 ^ 64)
      omega

theorem entryOf_set (ht : ∀ i, (s.shards i).Weighed) {value : Bytes} {opts : SetOptions}
    {now now' : Time} (hset : (s.set key value opts now now').1 = true) :
    (s.set key value opts now now').2.entryOf key =
      if approxSize key value ≤ (s.shards (shardFor n key)).maxBytes then
        some (Held.newEntry key value opts now')
      else none := by
  have hw : (StoreOp.set key value opts now now' : StoreOp n).written (s.held (shardFor n key)) =
      some (((s.held (shardFor n key)).dropExpired key now).putEntry key
        (Held.newEntry key value opts now')) := if_pos hset
  have hentry : (s.set key value opts now now').2.entryOf key =
      ((StoreOp.set key value opts now now' : StoreOp n).onHeld
        (s.held (shardFor n key))).lookup key := s.entryOf_onShard key _
  rw [hentry]
  split
  case isTrue hfits => exact StoreOp.lookup_set_of_fits (ht _).tracked hw hfits
  case isFalse hlarge =>
    have hsizes : ∀ k, 0 ≤ entryBytes ((s.held (shardFor n key)).lookup k) := (ht _).sizes
    have hempty := StoreOp.entries_set_of_large (ht _).tracked hsizes hw (not_le.mp hlarge)
    show ((StoreOp.set key value opts now now' : StoreOp n).onHeld
      (s.held (shardFor n key))).shard.entries.lookup key = none
    rw [hempty]
    rfl

/-- `SET` with a time. -/
theorem set_lasts_iff (ctx : Context) (ht : ∀ i, (s.shards i).Weighed) {value : Bytes}
    {rest : List Bytes} {unit : Duration} {count : Int} (hunit : 0 < unit)
    (hasked : asked rest = some (unit, count))
    (haccepted : (handleSet ctx s (key :: value :: rest)).1 = okReply) :
    LastsFor key (ctx.clock 1) (count * unit) (handleSet ctx s (key :: value :: rest)).2 ↔
      if approxSize key value ≤ (s.shards (shardFor n key)).maxBytes then
        0 < count ∧ count * unit < 2 ^ 63
      else count = 0 := by
  unfold handleSet at haccepted ⊢
  dsimp only at haccepted ⊢
  cases hparse : parseSetOptions rest with
  | error e =>
    rw [hparse] at haccepted
    cases haccepted
  | ok opts =>
    have htimed := parseSetOptionsFrom_timed hparse
    rw [hasked] at htimed
    obtain ⟨hhas, hcount, httl⟩ := htimed
    simp only [hparse] at haccepted ⊢
    have hset : (s.set key value opts (ctx.clock 0) (ctx.clock 1)).1 = true := by
      by_contra hne
      rw [if_neg hne] at haccepted
      cases haccepted
    have hentry := entryOf_set ht hset
    have hprod : 0 ≤ count * unit := mul_nonneg hcount hunit.le
    split at hentry
    case isFalse hlarge =>
      rw [lastsFor_none hentry, if_neg hlarge]
      constructor
      · intro hle
        by_contra hne
        have hpos : 0 < count * unit := mul_pos (by omega) hunit
        omega
      · rintro rfl
        exact (zero_mul unit).le
    case isTrue hfits =>
      obtain ⟨hwrap, hfar⟩ := wrap64_of_nonneg hprod
      rw [if_pos hfits]
      by_cases hpos : 0 < wrap64 (count * unit)
      · have hnew : Held.newEntry key value opts (ctx.clock 1) =
            { value, sizeBytes := approxSize key value, hasExpiry := true,
              expiresAt := ctx.clock 1 + wrap64 (count * unit) } := by
          rw [Held.newEntry, hhas, httl, decide_eq_true hpos]
          rfl
        rw [hnew] at hentry
        rw [lastsFor_expiring hentry rfl rfl hprod hfar, hwrap]
        refine ⟨fun hlt => ⟨?_, hlt⟩, And.right⟩
        by_contra hzero
        have hcount' : count = 0 := by omega
        subst hcount'
        rw [zero_mul] at hpos
        exact absurd hpos (by decide)
      · have hexp : (Held.newEntry key value opts (ctx.clock 1)).hasExpiry = false := by
          rw [Held.newEntry, httl, decide_eq_false hpos, Bool.and_false]
          rfl
        refine iff_of_false (lastsFor_permanent hentry hexp hprod) fun hlasts => hpos ?_
        obtain ⟨hc, hlt⟩ := hlasts
        rw [hwrap.mpr hlt]
        exact mul_pos hc hunit

/-- `EXPIRE` -/
theorem expire_lasts_iff (ctx : Context) {arg : Bytes} {count : Int}
    (hcount : readInt64 arg = some count) (hpos : 0 ≤ count)
    (haccepted : (handleExpire ctx s [key, arg]).1 = .integer 1) :
    LastsFor key (ctx.clock 1) (count * second) (handleExpire ctx s [key, arg]).2 ↔
      count * second < 2 ^ 63 := by
  have hprod : 0 ≤ count * second := mul_nonneg hpos (by decide)
  obtain ⟨hwrap, hfar⟩ := wrap64_of_nonneg hprod
  have hheld : (handleExpire ctx s [key, arg]).2.entryOf key =
      ((s.held (shardFor n key)).expire key (wrap64 (count * second)) (ctx.clock 0)
        (ctx.clock 1)).2.lookup key := by
    simp only [handleExpire, hcount]
    exact s.entryOf_onShard key _
  have hreply : (handleExpire ctx s [key, arg]).1 =
      .integer (if ((s.held (shardFor n key)).expire key (wrap64 (count * second)) (ctx.clock 0)
        (ctx.clock 1)).1 then 1 else 0) := by
    simp only [handleExpire, hcount]
    rfl
  rw [hreply] at haccepted
  unfold Held.expire at hheld haccepted
  cases hent : (s.held (shardFor n key)).lookup key with
  | none =>
    rw [hent] at haccepted
    cases haccepted
  | some ent =>
    simp only [hent] at hheld haccepted
    cases hexp : isExpired ent (ctx.clock 0) with
    | true =>
      rw [hexp] at haccepted
      cases haccepted
    | false =>
      rw [hexp] at hheld
      have hentry : (handleExpire ctx s [key, arg]).2.entryOf key = some { ent with
          hasExpiry := true, expiresAt := ctx.clock 1 + wrap64 (count * second) } := by
        rw [hheld]
        exact AList.lookup_insert _
      rw [lastsFor_expiring hentry rfl rfl hprod hfar, hwrap]

end

/-- Whatever state a server is in: an accepted `SET` with a time that fits the budget lasts as long
as asked exactly when the time is positive and within 63 bits of nanoseconds, and an accepted
`EXPIRE` when it is within them. -/
theorem ttls_last_iff (checksum : Bytes → UInt32) (clock : Nat → Time)
    (numShards maxMemoryBytes : Int) (file : FileRead)
    (ops : List (StoreOp (shardCount numShards))) (ctx : Context) (key : Bytes) :
    let s := (startedStore checksum clock numShards maxMemoryBytes file).run ops
    (∀ value rest unit count, asked rest = some (unit, count) →
      (handleSet ctx s (key :: value :: rest)).1 = okReply →
      (LastsFor key (ctx.clock 1) (count * unit) (handleSet ctx s (key :: value :: rest)).2 ↔
        if approxSize key value ≤ perShardBytes numShards maxMemoryBytes then
          0 < count ∧ count * unit < 2 ^ 63
        else count = 0)) ∧
    (∀ arg count, readInt64 arg = some count → 0 ≤ count →
      (handleExpire ctx s [key, arg]).1 = .integer 1 →
      (LastsFor key (ctx.clock 1) (count * second) (handleExpire ctx s [key, arg]).2 ↔
        count * second < 2 ^ 63)) := by
  intro s
  have hs := fun i => startedStore_run checksum clock numShards maxMemoryBytes file ops i
  refine ⟨fun value rest unit count hasked haccepted => ?_, fun arg count hcount hpos haccepted =>
    expire_lasts_iff ctx hcount hpos haccepted⟩
  rw [set_lasts_iff ctx (fun i => (hs i).1) (asked_unit_pos hasked) hasked haccepted]
  rw [(hs (shardFor _ key)).2]

/-- A second, by either command. -/
theorem ttls_last_iff_second :
    let s := (startedStore (fun _ => 0) (fun _ => 0) 1 1000 .missing).run
      [.set (ascii "k") (ascii "v") {} 0 0];
    LastsFor (ascii "k") 0 (1 * second)
      (handleSet (contextAt 0) s [ascii "k", ascii "v", ascii "EX", ascii "1"]).2 ∧
    LastsFor (ascii "k") 0 (1 * second)
      (handleExpire (contextAt 0) s [ascii "k", ascii "1"]).2 := by
  intro s
  have hlast := ttls_last_iff (fun _ => 0) (fun _ => 0) 1 1000 .missing
    [.set (ascii "k") (ascii "v") {} 0 0] (contextAt 0) (ascii "k")
  constructor
  · refine (hlast.1 (ascii "v") [ascii "EX", ascii "1"] second 1 (by decide) rfl).mpr ?_
    decide
  · have hdone : (s.expire (ascii "k") (wrap64 (1 * second)) 0 0).1 = true := by decide
    exact (hlast.2 (ascii "1") 1 (by decide) (by decide)
      (congrArg (fun done : Bool => RespValue.integer (if done then 1 else 0)) hdone)).mpr
      (by decide)

/-- The product of `EXPIRE` wraps around, and the key is gone at once; a time of zero in `SET` is
none. -/
theorem ttls_wrap :
    let s := counterStore (ascii "v") {};
    let expired := handleExpire (contextAt 0) s [ascii "k", ascii "9223372037"];
    let kept := handleSet (contextAt 0) s [ascii "k", ascii "v", ascii "EX", ascii "0"];
    (expired.1 = .integer 1 ∧ (expired.2.get (ascii "k") 1).1 = none ∧
      ¬ LastsFor (ascii "k") 0 (9223372037 * second) expired.2) ∧
    kept.1 = okReply ∧ (kept.2.get (ascii "k") (3600 * second)).1 = some (ascii "v") ∧
      ¬ LastsFor (ascii "k") 0 (0 * second) kept.2 := by
  intro s expired kept
  refine ⟨⟨?_, by decide, fun h => ?_⟩, rfl, by decide, fun h => ?_⟩
  · have hdone : (s.expire (ascii "k") (wrap64 (9223372037 * second)) 0 0).1 = true := by
      decide
    exact congrArg (fun done : Bool => RespValue.integer (if done then 1 else 0)) hdone
  · have hgone : liveAt 1 (expired.2.entryOf (ascii "k")) = none := by decide
    exact (h 1 (by decide) [] trivial).1 (by decide) hgone
  · have hlive : liveAt 1 (kept.2.entryOf (ascii "k")) ≠ none := by decide
    exact hlive ((h 1 (by decide) [] trivial).2 (by decide))

end SqlOptimizer.Cache
