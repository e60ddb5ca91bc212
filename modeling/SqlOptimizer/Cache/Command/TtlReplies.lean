import SqlOptimizer.Cache.Command.Counters
import SqlOptimizer.Library.RoundingBounds
import Mathlib.Tactic.NormNum

/-! `TTL`: when the reply tells a missing key, a permanent one and a remaining time apart. -/

namespace SqlOptimizer.Cache

/-- A double just below one, and above every fraction of a second in nanoseconds. -/
def belowOne : ℚ≥0 := ((2 ^ 30 - 1 : Nat) : ℚ≥0) * ((2 : Nat) : ℚ≥0) ^ (-30 : Int)

theorem belowOne_lt : belowOne < 1 := by norm_num [belowOne]

theorem natAbs_untilTime (t now : Int) : (Held.untilTime t now).natAbs ≤ 2 ^ 63 := by
  unfold Held.untilTime
  omega

theorem untilTime_ne_zero {t now : Int} : Held.untilTime t now ≠ 0 ↔ t ≠ now := by
  show (max (-2 ^ 63) (min (2 ^ 63 - 1) (t - now)) : Int) ≠ 0 ↔ t ≠ now
  omega

theorem lt_untilTime {t now : Int} : -second < Held.untilTime t now ↔ now < t + second := by
  show -1000000000 < (max (-2 ^ 63) (min (2 ^ 63 - 1) (t - now)) : Int) ↔ now < t + 1000000000
  omega

section Seconds

variable [Rounding]

/-- The nanoseconds of a duration, as a fraction of a second, are less than one after rounding. -/
theorem fraction_seconds (h : FaithfulRounding) {r : Int} (hr : r.natAbs < 1000000000) :
    ∃ q, Binary64.div (.ofInt r) (.ofInt second) = .fin (decide (r < 0)) q ∧ q ≤ belowOne ∧
      (r = 0 → q = 0) := by
  have hdiv : Binary64.div (.ofInt r) (.ofInt second) =
      Binary64.rounded (decide (r < 0)) ((r.natAbs : ℚ≥0) / 1000000000) := by
    rw [Binary64.ofInt_of_lt (by omega), Binary64.ofInt_of_lt (i := second) (by decide)]
    have hsecond : ((second.natAbs : ℕ) : ℚ≥0) = 1000000000 := by norm_num [second]
    simp only [Binary64.div, hsecond]
    rw [if_neg (by norm_num)]
    simp [second]
  have hle : (r.natAbs : ℚ≥0) / 1000000000 ≤ belowOne := by
    have hcast : (r.natAbs : ℚ≥0) ≤ 999999999 := by exact_mod_cast (by omega : r.natAbs ≤ 999999999)
    have hbound : (999999999 : ℚ≥0) / 1000000000 ≤ 1073741823 / 1073741824 := by
      rw [div_le_div_iff₀ (by norm_num) (by norm_num)]
      norm_num
    calc (r.natAbs : ℚ≥0) / 1000000000 ≤ 999999999 / 1000000000 := by gcongr
      _ ≤ 1073741823 / 1073741824 := hbound
      _ = belowOne := by norm_num [belowOne]
  obtain ⟨q, hq, hqle⟩ := h.le_of_le (by decide) (by decide) (by decide) hle
  refine ⟨q, ?_, hqle, fun hzero => ?_⟩
  · rw [hdiv, Binary64.rounded, hq]
  · have hround := h.natCast (m := 0) (by decide)
    rw [hzero] at hq
    simp only [Int.natAbs_zero, Nat.cast_zero, zero_div] at hq hround
    rw [hround] at hq
    cases hq
    rfl

/-- Whole seconds keep their number and sign; what is under a second stays under it. -/
theorem seconds_eq (h : FaithfulRounding) {d : Int} (hd : d.natAbs ≤ 2 ^ 63) :
    ∃ neg mag, seconds d = .fin neg mag ∧ (d.natAbs < 1000000000 → mag < 1) ∧
      (1000000000 ≤ d.natAbs → neg = decide (d < 0) ∧ 1 ≤ mag ∧ mag ≤ 2 ^ 34) := by
  have hdiv : (d.tdiv second).natAbs = d.natAbs / 1000000000 := Int.natAbs_tdiv d second
  have hmod : (d.tmod second).natAbs = d.natAbs % 1000000000 := Int.natAbs_tmod d second
  have hparts : second * d.tdiv second + d.tmod second = d := Int.mul_tdiv_add_tmod d second
  obtain ⟨q, hq, hle, hzero⟩ := fraction_seconds h (r := d.tmod second) (by omega)
  rw [seconds, hq, Binary64.ofInt_of_lt (by omega)]
  by_cases hsmall : d.natAbs < 1000000000
  · have hwhole : d.tdiv second = 0 := by omega
    have hadd := Binary64.add_zero_left (decide (d.tmod second < 0)) q
    simp only [hwhole, Int.natAbs_zero, Nat.cast_zero, lt_irrefl, decide_false, hadd]
    split
    · exact ⟨_, 0, rfl, fun _ => one_pos, by omega⟩
    · obtain ⟨mag, hmag, hmle⟩ := h.le_of_le (by decide) (by decide) (by decide) hle
      rw [Binary64.rounded, hmag]
      exact ⟨_, mag, rfl, fun _ => hmle.trans_lt belowOne_lt, by omega⟩
  · have hsum : Binary64.signed (decide (d.tdiv second < 0)) (d.tdiv second).natAbs +
        Binary64.signed (decide (d.tmod second < 0)) q =
        Binary64.signed (decide (d < 0)) ((d.tdiv second).natAbs + q) := by
      have hparts' : 1000000000 * d.tdiv second + d.tmod second = d := hparts
      have hsign : decide (d.tdiv second < 0) = decide (d < 0) := decide_eq_decide.mpr (by omega)
      rw [hsign]
      by_cases hrest : d.tmod second = 0
      · rw [hzero hrest]
        simp [Binary64.signed]
      · have hsign' : decide (d.tmod second < 0) = decide (d < 0) := decide_eq_decide.mpr (by omega)
        rw [hsign']
        unfold Binary64.signed
        split
        · push_cast
          ring
        · push_cast
          rfl
    have hone : (1 : ℚ≥0) ≤ (d.tdiv second).natAbs := by
      exact_mod_cast (by omega : 1 ≤ (d.tdiv second).natAbs)
    have hmany : ((d.tdiv second).natAbs : ℚ≥0) ≤ (2 ^ 34 - 1 : Nat) := by
      exact_mod_cast (by omega : (d.tdiv second).natAbs ≤ 2 ^ 34 - 1)
    have hle' : ((d.tdiv second).natAbs : ℚ≥0) + q ≤ (2 ^ 34 : Nat) := by
      calc ((d.tdiv second).natAbs : ℚ≥0) + q ≤ (2 ^ 34 - 1 : Nat) + 1 :=
            add_le_add hmany (hle.trans belowOne_lt.le)
        _ = (2 ^ 34 : Nat) := by norm_num
    obtain ⟨mag, hmag, hmle⟩ := h.le_natCast (by decide) hle'
    have hge : ((1 : Nat) : ℚ≥0) ≤ mag := by
      refine h.natCast_le (by decide) ?_ hmag
      rw [Nat.cast_one]
      exact hone.trans le_self_add
    have hne : ((d.tdiv second).natAbs : ℚ≥0) + q ≠ 0 :=
      (lt_of_lt_of_le one_pos (hone.trans le_self_add)).ne'
    rw [Binary64.add_of_sum hsum fun h0 => absurd h0 hne, if_neg hne, Binary64.rounded, hmag]
    refine ⟨_, mag, rfl, fun hlt => absurd hlt hsmall, fun _ => ⟨rfl, ?_, ?_⟩⟩
    · exact_mod_cast hge
    · exact_mod_cast hmle

omit [Rounding] in
theorem truncate_of_lt {neg : Bool} {mag : ℚ≥0} (h : mag < 1) : truncate (.fin neg mag) = 0 := by
  have hfloor : ⌊mag⌋₊ = 0 := Nat.floor_eq_zero.mpr h
  have hzero : wrap64 0 = 0 := by decide
  cases neg <;> simp [truncate, hfloor, hzero]

omit [Rounding] in
theorem truncate_of_le (neg : Bool) {mag : ℚ≥0} (h1 : 1 ≤ mag) (h2 : mag ≤ 2 ^ 34) :
    ∃ k : Nat, 0 < k ∧ truncate (.fin neg mag) = if neg then -(k : Int) else k := by
  have hpos : 0 < ⌊mag⌋₊ := Nat.floor_pos.mpr h1
  have hle : ⌊mag⌋₊ ≤ 2 ^ 34 := Nat.floor_le_of_le (by exact_mod_cast h2)
  refine ⟨⌊mag⌋₊, hpos, ?_⟩
  rw [truncate, wrap64_eq_self_iff]
  split <;> omega

theorem ttlReply_of_ne {left : Int} (h : left ≠ 0) : ttlReply (some left) =
    .integer (if truncate (seconds left) = 0 then 1 else truncate (seconds left)) := by
  rw [ttlReply, if_neg h]

/-- The reply to a remaining time is positive when the time is, and when less than a second is
overdue; it is `-1` at the instant itself. -/
theorem ttlReply_some (h : FaithfulRounding) {left : Int} (hleft : left.natAbs ≤ 2 ^ 63) :
    ∃ secs, ttlReply (some left) = .integer secs ∧ (0 < secs ↔ left ≠ 0 ∧ -second < left) := by
  by_cases hzero : left = 0
  · refine ⟨-1, ?_, by omega⟩
    rw [ttlReply, if_pos hzero]
  · obtain ⟨neg, mag, hsecs, hsmall, hlarge⟩ := seconds_eq h hleft
    refine ⟨_, ttlReply_of_ne hzero, ?_⟩
    show _ ↔ _ ∧ -1000000000 < left
    rw [hsecs]
    by_cases hlt : left.natAbs < 1000000000
    · rw [truncate_of_lt (hsmall hlt), if_pos rfl]
      exact iff_of_true one_pos ⟨hzero, by omega⟩
    · obtain ⟨rfl, h1, h2⟩ := hlarge (by omega)
      obtain ⟨k, hk, htrunc⟩ := truncate_of_le (decide (left < 0)) h1 h2
      by_cases hlate : left < 0
      · rw [if_pos (decide_eq_true hlate)] at htrunc
        rw [htrunc, if_neg (by omega)]
        omega
      · rw [if_neg (by simpa using hlate)] at htrunc
        rw [htrunc, if_neg (by omega)]
        omega

end Seconds

section

variable {n : Nat} [NeZero n] [Rounding]

/-- `TTL` tells apart a key that is not live, one without an expiry, and a remaining time. -/
def TtlFaithful (ctx : Context) (s : ShardedStore n) (key : Bytes) : Prop :=
  ∃ secs, (handleTTL ctx s [key]).1 = .integer secs ∧
    (secs = -2 ↔ liveAt (ctx.clock 0) (s.entryOf key) = none) ∧
    (secs = -1 ↔ ∃ ent, liveAt (ctx.clock 0) (s.entryOf key) = some ent ∧ ent.hasExpiry = false) ∧
    ∀ ent, liveAt (ctx.clock 0) (s.entryOf key) = some ent → ent.hasExpiry = true → 0 < secs

omit [Rounding] in
/-- The second reading is not the instant of expiry, and is less than a second past it. -/
def ReadInTime (ctx : Context) (s : ShardedStore n) (key : Bytes) : Prop :=
  ∀ ent, liveAt (ctx.clock 0) (s.entryOf key) = some ent → ent.hasExpiry = true →
    ent.expiresAt ≠ ctx.clock 1 ∧ ctx.clock 1 < ent.expiresAt + second

omit [Rounding] in
theorem ttl_reply_eq (s : ShardedStore n) (key : Bytes) (now now' : Time) :
    (s.ttl key now now').1 = (liveAt now (s.entryOf key)).map fun ent =>
      if ent.hasExpiry then Held.untilTime ent.expiresAt now' else 0 :=
  Held.ttl_entry.1

/-- `TTL` replies as it should exactly when an expiry that has not passed at the first reading is
not the second one, nor a second or more before it. -/
theorem ttl_faithful_iff (hround : FaithfulRounding) (ctx : Context) (s : ShardedStore n)
    (key : Bytes) : TtlFaithful ctx s key ↔ ReadInTime ctx s key := by
  have hreply : (handleTTL ctx s [key]).1 =
      ttlReply (s.ttl key (ctx.clock 0) (ctx.clock 1)).1 := rfl
  unfold TtlFaithful ReadInTime
  rw [hreply, ttl_reply_eq]
  cases hlive : liveAt (ctx.clock 0) (s.entryOf key) with
  | none =>
    refine iff_of_true ⟨-2, rfl, iff_of_true rfl rfl, ?_, ?_⟩ ?_
    · exact iff_of_false (by decide) fun ⟨_, h, _⟩ => nomatch h
    · exact fun _ h => nomatch h
    · exact fun _ h => nomatch h
  | some ent =>
    rw [Option.map_some]
    cases hexp : ent.hasExpiry with
    | false =>
      refine iff_of_true ⟨-1, rfl, ?_, ?_, ?_⟩ ?_
      · exact iff_of_false (by decide) nofun
      · exact iff_of_true rfl ⟨ent, rfl, hexp⟩
      · rintro _ ⟨⟩ htrue
        rw [hexp] at htrue
        cases htrue
      · rintro _ ⟨⟩ htrue
        rw [hexp] at htrue
        cases htrue
    | true =>
      obtain ⟨secs, hsecs, hpos⟩ :=
        ttlReply_some hround (natAbs_untilTime ent.expiresAt (ctx.clock 1))
      rw [untilTime_ne_zero, lt_untilTime] at hpos
      rw [if_pos rfl, hsecs]
      constructor
      · rintro ⟨_, ⟨⟩, -, -, hlive⟩ _ ⟨⟩ -
        exact hpos.mp (hlive ent rfl hexp)
      · intro h
        have hpos' := hpos.mpr (h ent rfl hexp)
        refine ⟨secs, rfl, ?_, ?_, fun _ _ _ => hpos'⟩
        · exact iff_of_false (by omega) nofun
        · refine iff_of_false (by omega) ?_
          rintro ⟨_, ⟨⟩, hfalse⟩
          rw [hexp] at hfalse
          cases hfalse

end

/-- Half a second before its expiry a key is reported with a positive time. -/
theorem ttl_faithful_iff_half :
    let s := counterStore (ascii "v") { ttl := second, hasTTL := true };
    @ReadInTime _ _ (contextAt (500 * millisecond)) s (ascii "k") ∧
      @TtlFaithful _ _ Rounding.exact (contextAt (500 * millisecond)) s (ascii "k") := by
  intro s
  have hread : ReadInTime (contextAt (500 * millisecond)) s (ascii "k") := by
    intro ent hlive _
    have hall : (liveAt (500 * millisecond) (s.entryOf (ascii "k"))).all fun ent =>
        decide (ent.expiresAt ≠ 500 * millisecond ∧
          500 * millisecond < ent.expiresAt + second) := by
      decide
    have hlive' : liveAt (500 * millisecond) (s.entryOf (ascii "k")) = some ent := hlive
    rw [hlive'] at hall
    exact of_decide_eq_true hall
  exact ⟨hread, (@ttl_faithful_iff _ _ Rounding.exact faithfulRounding_exact _ s _).mpr hread⟩

theorem not_ttlFaithful {n : Nat} [NeZero n] [Rounding] {ctx : Context} {s : ShardedStore n}
    {key : Bytes} {secs : Int} (hreply : (handleTTL ctx s [key]).1 = .integer secs)
    (hsecs : secs ≤ 0) (hlive : (liveAt (ctx.clock 0) (s.entryOf key)).any (·.hasExpiry) = true) :
    ¬ TtlFaithful ctx s key := by
  rintro ⟨secs', hsecs', -, -, hpos⟩
  cases hent : liveAt (ctx.clock 0) (s.entryOf key) with
  | none =>
    rw [hent] at hlive
    cases hlive
  | some ent =>
    rw [hent] at hlive
    rw [hreply] at hsecs'
    cases hsecs'
    have := hpos ent hent hlive
    omega

/-- At the instant of its expiry a key is live, and reported as permanent; when the clock moves on
by two seconds before the second reading, as missing. -/
theorem handleTTL_expiring :
    let s := counterStore (ascii "v") { ttl := second, hasTTL := true };
    let late : Context :=
      { contextAt second with clock := fun k => if k = 0 then second else 3 * second };
    (liveAt second (s.entryOf (ascii "k"))).isSome ∧
      (@handleTTL _ _ Rounding.exact (contextAt second) s [ascii "k"]).1 = .integer (-1) ∧
      ¬ @TtlFaithful _ _ Rounding.exact (contextAt second) s (ascii "k") ∧
      (@handleTTL _ _ Rounding.exact late s [ascii "k"]).1 = .integer (-2) ∧
      ¬ @TtlFaithful _ _ Rounding.exact late s (ascii "k") := by
  intro s late
  have hlive : (liveAt second (s.entryOf (ascii "k"))).any (·.hasExpiry) = true := by decide
  have hnow : (@handleTTL _ _ Rounding.exact (contextAt second) s [ascii "k"]).1 =
      .integer (-1) := by
    have httl : (s.ttl (ascii "k") second second).1 = some 0 := by decide
    exact congrArg (@ttlReply Rounding.exact) httl
  have hlate : (@handleTTL _ _ Rounding.exact late s [ascii "k"]).1 = .integer (-2) := by
    have httl : (s.ttl (ascii "k") second (3 * second)).1 = some (-2 * second) := by decide
    have hsecs : @ttlReply Rounding.exact (some (-2 * second)) = .integer (-2) := by
      have htrunc : truncate (@seconds Rounding.exact (-2 * second)) = -2 := by decide +kernel
      rw [@ttlReply_of_ne Rounding.exact _ (by decide), htrunc]
      rfl
    exact (congrArg (@ttlReply Rounding.exact) httl).trans hsecs
  exact ⟨by decide, hnow,
    @not_ttlFaithful _ _ Rounding.exact _ _ _ _ hnow (by decide) hlive, hlate,
    @not_ttlFaithful _ _ Rounding.exact _ _ _ _ hlate (by decide) hlive⟩

end SqlOptimizer.Cache
