import SqlOptimizer.Integration.CacheClient
import SqlOptimizer.Integration.CacheKey
import SqlOptimizer.Integration.PlanDecoding
import SqlOptimizer.Logical.Optimizer
import SqlOptimizer.Logical.Planner
import SqlOptimizer.Parser.Parser
import SqlOptimizer.Physical.Planner

/-! `integration/cached_planner.cpp`: planning with a cache, and what a cached document can do to
it. -/

namespace SqlOptimizer.Integration

open PlanSerializer

/-- The bytes of a cached value as the characters of a text, and back. -/
def bytesText (bytes : Bytes) : List Char := bytes.map fun b => Char.ofNat b.toNat

def textBytes (text : List Char) : Bytes := text.map fun c => UInt8.ofNat c.toNat

/-- The bytes of a text of characters that are bytes are its characters. -/
theorem bytesText_textBytes {text : List Char} (h : ∀ c ∈ text, c.toNat < 256) :
    bytesText (textBytes text) = text := by
  rw [bytesText, textBytes, List.map_map]
  refine (List.map_congr_left fun c hc => ?_).trans (List.map_id text)
  show Char.ofNat (UInt8.ofNat c.toNat).toNat = c
  rw [UInt8.toNat_ofNat', Nat.mod_eq_of_lt (h c hc), Char.ofNat_toNat]

/-- The plan is missing when the cached object stands for none. -/
structure CachedPlanResult where
  plan : Option (PhysicalPlan Binary64)
  cacheHit : Bool
  /-- the commands that went to the cache -/
  sent : List (List Bytes)

section

variable [NumberText] [CostNum Binary64]

def parseSql (sql : List Char) : Except String Statement := do
  Parser.parse (← Lexer.tokenize sql)

/-- `LogicalPlanner::plan`, `optimize` and `generate_physical_plan`. -/
def planParsed (stmt : Statement) (schemaCatalog : Catalog)
    (statsCatalog : StatisticsCatalog Binary64) : Except String (PhysicalPlan Binary64) :=
  generatePhysicalPlan (optimize schemaCatalog (planStatement stmt.select)) schemaCatalog
    statsCatalog

/-- Planning without a cache. -/
def planSql (sql : List Char) (schemaCatalog : Catalog)
    (statsCatalog : StatisticsCatalog Binary64) : Except String (PhysicalPlan Binary64) := do
  planParsed (← parseSql sql) schemaCatalog statsCatalog

def planWithCache (sql : List Char) (schemaCatalog : Catalog)
    (statsCatalog : StatisticsCatalog Binary64) (cache : CacheClient) (versions : CacheVersions)
    (ttlSeconds : Int) : Except String CachedPlanResult := do
  let stmt ← parseSql sql
  let key := ascii (buildCacheKey stmt versions)
  match cache.get key with
  | some cached =>
    return ⟨← decodeCachedPlan (bytesText cached), true, [[ascii "GET", key]]⟩
  | none =>
    let plan ← planParsed stmt schemaCatalog statsCatalog
    return ⟨some plan, false, [[ascii "GET", key],
      CacheClient.setArgs key (textBytes (serializePlan plan)) ttlSeconds]⟩

/-! ### A cache in trouble -/

section Trouble

variable {sql : List Char} {schemaCatalog : Catalog} {statsCatalog : StatisticsCatalog Binary64}
  {cache : CacheClient} {versions : CacheVersions} {ttlSeconds : Int}

/-- A request fails only if planning without a cache does, and a document that describes no plan is
as good as none. -/
structure TroubleHidden (sql : List Char) (schemaCatalog : Catalog)
    (statsCatalog : StatisticsCatalog Binary64) (cache : CacheClient) (versions : CacheVersions)
    (ttlSeconds : Int) : Prop where
  throws : ∀ e, planWithCache sql schemaCatalog statsCatalog cache versions ttlSeconds = .error e →
    ∃ e', planSql sql schemaCatalog statsCatalog = .error e'
  replans : ∀ stmt cached e, parseSql sql = .ok stmt →
    cache.get (ascii (buildCacheKey stmt versions)) = some cached →
    decodeCachedPlan (bytesText cached) = .error e →
    ∀ plan, planSql sql schemaCatalog statsCatalog = .ok plan →
      ∃ r, planWithCache sql schemaCatalog statsCatalog cache versions ttlSeconds = .ok r ∧
        r.plan = some plan

/-- Whatever the lookup finds decodes, or planning fails without a cache too. -/
def HitsDecode (sql : List Char) (schemaCatalog : Catalog)
    (statsCatalog : StatisticsCatalog Binary64) (cache : CacheClient) (versions : CacheVersions) :
    Prop :=
  ∀ stmt cached e, parseSql sql = .ok stmt →
    cache.get (ascii (buildCacheKey stmt versions)) = some cached →
    decodeCachedPlan (bytesText cached) = .error e →
      ∃ e', planSql sql schemaCatalog statsCatalog = .error e'

theorem planSql_eq_ok {plan : PhysicalPlan Binary64} :
    planSql sql schemaCatalog statsCatalog = .ok plan ↔
      ∃ stmt, parseSql sql = .ok stmt ∧ planParsed stmt schemaCatalog statsCatalog = .ok plan :=
  Except.bind_eq_ok

/-- A miss plans as without a cache. -/
theorem planWithCache_miss {stmt : Statement} (hparse : parseSql sql = .ok stmt)
    (hget : cache.get (ascii (buildCacheKey stmt versions)) = none) :
    planWithCache sql schemaCatalog statsCatalog cache versions ttlSeconds = (do
      let plan ← planSql sql schemaCatalog statsCatalog
      let key := ascii (buildCacheKey stmt versions)
      return ⟨some plan, false, [[ascii "GET", key],
        CacheClient.setArgs key (textBytes (serializePlan plan)) ttlSeconds]⟩) := by
  rw [planWithCache, planSql, hparse, Except.ok_bind, Except.ok_bind]
  dsimp only
  rw [hget]

theorem planWithCache_hit {stmt : Statement} {cached : Bytes} (hparse : parseSql sql = .ok stmt)
    (hget : cache.get (ascii (buildCacheKey stmt versions)) = some cached) :
    planWithCache sql schemaCatalog statsCatalog cache versions ttlSeconds = (do
      return ⟨← decodeCachedPlan (bytesText cached), true,
        [[ascii "GET", ascii (buildCacheKey stmt versions)]]⟩) := by
  rw [planWithCache, hparse, Except.ok_bind]
  dsimp only
  rw [hget]

/-- A hit on the document of an exact plan returns that plan. -/
theorem planWithCache_hit_exact {stmt : Statement} {cached : Bytes} {plan : PhysicalPlan Binary64}
    (hparse : parseSql sql = .ok stmt)
    (hget : cache.get (ascii (buildCacheKey stmt versions)) = some cached)
    (hjson : parseJson (bytesText cached) = .ok (planToJson plan)) (hexact : plan.Exact) :
    planWithCache sql schemaCatalog statsCatalog cache versions ttlSeconds =
      .ok ⟨some plan, true, [[ascii "GET", ascii (buildCacheKey stmt versions)]]⟩ := by
  have hdecode : decodeCachedPlan (bytesText cached) = .ok (some plan) := by
    rw [decodeCachedPlan, hjson, Except.mapError, Except.ok_bind]
    exact decodePlan_some ((planFrom_planToJson le_rfl).mpr hexact)
  rw [planWithCache_hit hparse hget, hdecode]
  rfl

/-- Nothing catches what `deserialize_plan` throws. -/
theorem planWithCache_error {stmt : Statement} {cached : Bytes} {e : String}
    (hparse : parseSql sql = .ok stmt)
    (hget : cache.get (ascii (buildCacheKey stmt versions)) = some cached)
    (hdecode : decodeCachedPlan (bytesText cached) = .error e) :
    planWithCache sql schemaCatalog statsCatalog cache versions ttlSeconds = .error e := by
  rw [planWithCache_hit hparse hget, hdecode, Except.error_bind]

/-- Trouble stays hidden exactly when no lookup finds a document that describes no plan. -/
theorem troubleHidden_iff (sql : List Char) (schemaCatalog : Catalog)
    (statsCatalog : StatisticsCatalog Binary64) (cache : CacheClient) (versions : CacheVersions)
    (ttlSeconds : Int) :
    TroubleHidden sql schemaCatalog statsCatalog cache versions ttlSeconds ↔
      HitsDecode sql schemaCatalog statsCatalog cache versions := by
  constructor
  · intro h stmt cached e hparse hget hdecode
    exact h.throws e (planWithCache_error hparse hget hdecode)
  · intro h
    refine ⟨fun e herror => ?_, fun stmt cached e hparse hget hdecode plan hplan => ?_⟩
    · cases hparse : parseSql sql with
      | error e' => exact ⟨e', by rw [planSql, hparse, Except.error_bind]⟩
      | ok stmt =>
        cases hget : cache.get (ascii (buildCacheKey stmt versions)) with
        | none =>
          rw [planWithCache_miss hparse hget] at herror
          cases hplan : planSql sql schemaCatalog statsCatalog with
          | error e' => exact ⟨e', rfl⟩
          | ok plan =>
            rw [hplan, Except.ok_bind] at herror
            cases herror
        | some cached =>
          rw [planWithCache_hit hparse hget] at herror
          cases hdecode : decodeCachedPlan (bytesText cached) with
          | error e' => exact h stmt cached e' hparse hget hdecode
          | ok plan =>
            rw [hdecode, Except.ok_bind] at herror
            cases herror
    · obtain ⟨e', he'⟩ := h stmt cached e hparse hget hdecode
      rw [he'] at hplan
      cases hplan

end Trouble

end

/-! ### A truncated document -/

/-- A cache that answers every command with a value. -/
def cacheHolding (value : String) : CacheClient :=
  ⟨fun _ => some (36 :: natText value.length ++ [13, 10] ++ ascii value ++ [13, 10])⟩

def emptyCatalog : Catalog := ∅

section

/-- No number is read below. -/
local instance noNumbers : NumberText := ⟨fun _ _ => [], fun _ => .ok Binary64.zero⟩

attribute [local instance] Rounding.exact

local instance doubleCosts : CostNum Binary64 where
  add := Binary64.add
  sub := Binary64.sub
  mul := Binary64.mul
  div := Binary64.div
  ofRat q := .fin (decide (q < 0)) q.nnabs
  ofSize n := Binary64.ofInt n
  ofDouble x := x
  lt := Binary64.lt
  le x y := !Binary64.lt y x
  -- `std::round` takes halves away from zero
  round
    | .fin n m => .fin n ⌊m + 1 / 2⌋₊
    | x => x
  ceil
    | .fin n m => .fin n (if n then ⌊m⌋₊ else ⌈m⌉₊)
    | x => x
  -- exact on the powers of two
  log2
    | .fin false m => .ofInt (Binary64.exponent2 m)
    | _ => .nan
  toSize x := (castSize x).toOption.getD 0
  toText x := String.ofList (Binary64.generalText x)

/-- A document that breaks off makes the request fail, though the statement has a plan. -/
theorem planWithCache_truncated :
    (planSql "SELECT a FROM t".toList emptyCatalog ∅).isOk = true ∧
    (∀ key, (cacheHolding "[").get key = some (ascii "[")) ∧
    (∃ e, planWithCache "SELECT a FROM t".toList emptyCatalog ∅ (cacheHolding "[") ⟨0, 0⟩ 300 =
      .error e) ∧
    ¬ TroubleHidden "SELECT a FROM t".toList emptyCatalog ∅ (cacheHolding "[") ⟨0, 0⟩ 300 := by
  have hplans : (planSql "SELECT a FROM t".toList emptyCatalog ∅).isOk = true := by decide +kernel
  have hget : ∀ key, (cacheHolding "[").get key = some (ascii "[") := by
    have hone : (cacheHolding "[").get [] = some (ascii "[") := by decide
    exact fun _ => hone
  have hdecode : ∃ e, decodeCachedPlan (bytesText (ascii "[")) = .error e := ⟨_, rfl⟩
  obtain ⟨plan, hplan⟩ : ∃ plan, planSql "SELECT a FROM t".toList emptyCatalog ∅ = .ok plan := by
    cases h : planSql "SELECT a FROM t".toList emptyCatalog ∅ with
    | ok plan => exact ⟨plan, rfl⟩
    | error e =>
      rw [h] at hplans
      cases hplans
  obtain ⟨stmt, hparse, -⟩ := planSql_eq_ok.mp hplan
  obtain ⟨e, he⟩ := hdecode
  have hfails : planWithCache "SELECT a FROM t".toList emptyCatalog ∅ (cacheHolding "[") ⟨0, 0⟩ 300 =
      .error e := planWithCache_error hparse (hget _) he
  refine ⟨hplans, hget, ⟨e, hfails⟩, fun hhidden => ?_⟩
  obtain ⟨e', he'⟩ := hhidden.throws e hfails
  rw [hplan] at he'
  cases he'

end

end SqlOptimizer.Integration
