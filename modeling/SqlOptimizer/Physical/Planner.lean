import SqlOptimizer.Optimizer.SearchInvariant

/-! `physical/physical_planner.cpp`: the physical plan of a logical plan. -/

namespace SqlOptimizer

variable {R : Type} [CostNum R]

open CostNum

def planScan (stats : StatisticsCatalog R) (tableName : String) (aliasName : Option String)
    (projectedColumns : List String) : PhysicalPlan R :=
  let est := estimateScan stats tableName
  let rowCount := rowsToSize est.rows
  .seqScan ⟨Cost.seqScan rowCount (pageCountOf stats tableName rowCount), rowCount, est.reasoning,
    est.confidence⟩ tableName aliasName projectedColumns

/-- `Filter(Column = Literal)` over the scan of an indexed column as an index scan, when that is
cheaper. -/
def tryIndexScan (catalog : Catalog) (stats : StatisticsCatalog R) (pred : Expression)
    (tableName : String) (aliasName : Option String) (projectedColumns : List String) :
    Option (PhysicalPlan R) := do
  let (t, column, lit) ← columnLiteral pred
  if !qualifierMatches t (aliasName.getD tableName) then none
  let schema ← catalog.get tableName
  if !schema.hasIndexOn column then none
  let scanEst := estimateScan stats tableName
  let rowCount := rowsToSize scanEst.rows
  let est := estimateFilter stats scanEst.rows pred (.scan tableName aliasName projectedColumns)
  let matched := rowsToSize est.rows
  let indexCost : Cost R := Cost.indexScan matched
  let seqPlusFilter := Cost.seqScan rowCount (pageCountOf stats tableName rowCount) +
    Cost.filter rowCount
  if le seqPlusFilter.total indexCost.total then none
  else
    return .indexScan ⟨indexCost, matched, est.reasoning, est.confidence⟩ tableName aliasName
      projectedColumns column (.literal lit)

def chooseJoinStrategy (stats : StatisticsCatalog R) (joinType : JoinType) (condition : Expression)
    (left right : PhysicalPlan R) (leftScope rightScope : LogicalPlan) : PhysicalPlan R :=
  let est := estimateJoin stats (ofSize left.estimatedRows) (ofSize right.estimatedRows) condition
    leftScope rightScope
  let outRows := rowsToSize est.rows
  let nlCost := nestedLoopCost left right
  let looped : PhysicalPlan R := .join ⟨nlCost, outRows, est.reasoning, est.confidence⟩
    .nestedLoopJoin joinType condition left right
  if isEquality condition then
    let hjCost := left.estimatedCost + right.estimatedCost +
      Cost.hashJoin left.estimatedRows right.estimatedRows
    if lt hjCost.total nlCost.total then
      .join ⟨hjCost, outRows, est.reasoning, est.confidence⟩ .hashJoin joinType condition left right
    else looped
  else looped

/-- One residual predicate on top of the plan of a join search. -/
def addResidual (best : PhysicalPlan R) (pred : Expression) : PhysicalPlan R :=
  .filter ⟨best.estimatedCost + Cost.filter best.estimatedRows, max (best.estimatedRows / 10) 1,
    "residual predicate spanning more than two relations or an unresolvable column -- default 10% heuristic",
    ofRat (2 / 10)⟩ pred best

def planJoinSearch (catalog : Catalog) (stats : StatisticsCatalog R) (node : LogicalPlan) :
    Except String (PhysicalPlan R) := do
  let extraction ← buildJoinGraph node
  let best ← findBestPlan catalog stats extraction.graph
  return extraction.residualFilters.foldl addResidual best

/-- The plan of a filter over a scan that becomes an index scan. -/
def indexScanOf (catalog : Catalog) (stats : StatisticsCatalog R) (predicate : Expression) :
    LogicalPlan → Option (PhysicalPlan R)
  | .scan tableName aliasName projectedColumns =>
    tryIndexScan catalog stats predicate tableName aliasName projectedColumns
  | _ => none

def planNode (catalog : Catalog) (stats : StatisticsCatalog R) (node : LogicalPlan) :
    Except String (PhysicalPlan R) :=
  if isJoinSearchCandidate node then planJoinSearch catalog stats node
  else match node with
    | .scan tableName aliasName projectedColumns =>
      .ok (planScan stats tableName aliasName projectedColumns)
    | .filter predicate input =>
      match indexScanOf catalog stats predicate input with
      | some plan => .ok plan
      | none => do
        let plan ← planNode catalog stats input
        let est := estimateFilter stats (ofSize plan.estimatedRows) predicate input
        return .filter ⟨plan.estimatedCost + Cost.filter plan.estimatedRows, rowsToSize est.rows,
          est.reasoning, est.confidence⟩ predicate plan
    | .join joinType condition left right => do
      let l ← planNode catalog stats left
      let r ← planNode catalog stats right
      return chooseJoinStrategy stats joinType condition l r left right
    | .aggregate groupBy aggregates input => do
      let plan ← planNode catalog stats input
      let est := estimateAggregate stats (ofSize plan.estimatedRows) groupBy input
      let rows := rowsToSize est.rows
      return .hashAggregate ⟨plan.estimatedCost + Cost.hashAggregate plan.estimatedRows rows, rows,
        est.reasoning, est.confidence⟩ groupBy aggregates plan
    | .project expressions input => do
      let plan ← planNode catalog stats input
      let est := estimateProject (ofSize plan.estimatedRows : R)
      return .project ⟨plan.estimatedCost + Cost.project plan.estimatedRows, rowsToSize est.rows,
        est.reasoning, est.confidence⟩ expressions plan
    | .sort orderBy input => do
      let plan ← planNode catalog stats input
      let est := estimateSort (ofSize plan.estimatedRows : R)
      return .sort ⟨plan.estimatedCost + Cost.sort plan.estimatedRows, rowsToSize est.rows,
        est.reasoning, est.confidence⟩ orderBy plan
    | .limit count input => do
      let plan ← planNode catalog stats input
      let est := estimateLimit (ofSize plan.estimatedRows : R) count
      return .limit ⟨plan.estimatedCost + Cost.limit plan.estimatedRows, rowsToSize est.rows,
        est.reasoning, est.confidence⟩ count plan

/-- `generate_physical_plan` -/
def generatePhysicalPlan (logical : LogicalPlan) (catalog : Catalog)
    (stats : StatisticsCatalog R) : Except String (PhysicalPlan R) :=
  planNode catalog stats logical

section

variable {catalog : Catalog} {stats : StatisticsCatalog R}

/-- The index scan that the planner puts for a filter over a scan probes the column of the filter for
its literal. -/
theorem tryIndexScan_eq_some {pred : Expression} {tableName : String} {aliasName : Option String}
    {cols : List String} {plan : PhysicalPlan R}
    (h : tryIndexScan catalog stats pred tableName aliasName cols = some plan) :
    ∃ (rows : R) (reasoning : String) (confidence : R) (t : Option String) (column : String)
      (lit : Literal), columnLiteral pred = some (t, column, lit) ∧
      plan = .indexScan ⟨Cost.indexScan (rowsToSize rows), rowsToSize rows, reasoning, confidence⟩
        tableName aliasName cols column (.literal lit) := by
  unfold tryIndexScan at h
  obtain ⟨⟨t, column, lit⟩, hpred, h⟩ := Option.bind_eq_some_iff.mp h
  dsimp only at h
  split at h
  · cases h
  · obtain ⟨schema, -, h⟩ := Option.bind_eq_some_iff.mp h
    split at h
    · cases h
    · split at h
      · cases h
      · cases h
        exact ⟨_, _, _, t, column, lit, hpred, rfl⟩

/-- Whichever operator is cheaper, the planner joins the left plan with the right one. -/
theorem chooseJoinStrategy_eq (stats : StatisticsCatalog R) (joinType : JoinType)
    (condition : Expression) (left right : PhysicalPlan R) (leftScope rightScope : LogicalPlan) :
    ∃ ann kind, chooseJoinStrategy stats joinType condition left right leftScope rightScope =
        .join ann kind joinType condition left right ∧
      JoinAnnotated kind condition left right ann := by
  unfold chooseJoinStrategy
  dsimp only
  split
  case isTrue hequality =>
    split
    · exact ⟨_, _, rfl, ⟨_, rfl⟩, rfl, fun _ => hequality⟩
    · exact ⟨_, _, rfl, ⟨_, rfl⟩, rfl, nofun⟩
  case isFalse => exact ⟨_, _, rfl, ⟨_, rfl⟩, rfl, nofun⟩

end

end SqlOptimizer
