import SqlOptimizer.Optimizer.AccessPath

/-! `optimizer/join_enumerator.cpp`: the search for the cheapest join order, subset by subset. -/

namespace SqlOptimizer

/-- A set of relations, bit `i` for relation `i`: a 64-bit word. -/
abbrev RelationMask := Nat

/-- `RelationMask(1) << i`.  A shift by 64 or more is undefined in C++; it is taken modulo 64 here,
as the hardware does. -/
def relationBit (i : Nat) : RelationMask := 2 ^ (i % 64)

/-- `~mask` -/
def complementMask (mask : RelationMask) : RelationMask := 2 ^ 64 - (mask + 1)

def popcount (mask : RelationMask) : Nat := (List.range 64).countP fun i => mask.testBit i

/-- The lowest bit of a mask. -/
def indexOfOnlySetBit (mask : RelationMask) : Nat :=
  ((List.range 64).find? fun i => mask.testBit i).getD 64

/-- A plan that stands for the relations of `mask` in estimates: the scan of the one relation, or
a join, for which nothing can be resolved. -/
def syntheticScopeForMask (mask : RelationMask) (g : JoinGraph) : LogicalPlan :=
  let multi := LogicalPlan.scan "<multi-relation>" none []
  if popcount mask = 1 then
    match g.relations[indexOfOnlySetBit mask]? with
    | some rel => .scan rel.tableName rel.aliasName []
    | none => .join .inner .trueLiteral multi multi
  else .join .inner .trueLiteral multi multi

def edgeConnects (edge : JoinEdge) (leftMask rightMask : RelationMask) : Bool :=
  (leftMask &&& relationBit edge.left != 0 && rightMask &&& relationBit edge.right != 0) ||
    (leftMask &&& relationBit edge.right != 0 && rightMask &&& relationBit edge.left != 0)

/-- The first edge between the two sets. -/
def findConnectingEdge (leftMask rightMask : RelationMask) (g : JoinGraph) : Option JoinEdge :=
  g.edges.find? fun e => edgeConnects e leftMask rightMask

/-- The column of an equality of two columns that `aliasName` qualifies. -/
def columnForAlias (predicate : Expression) (aliasName : String) : Option String :=
  match predicate with
  | .binaryOp (.column t c) .eq (.column t' c') =>
    if t == some aliasName then some c else if t' == some aliasName then some c' else none
  | _ => none

/-- Whether `mask` is one relation with an index on its column of the predicate. -/
def probedByIndex (catalog : Catalog) (g : JoinGraph) (predicate : Expression)
    (mask : RelationMask) : Bool :=
  popcount mask == 1 &&
    match g.relations[indexOfOnlySetBit mask]? with
    | none => false
    | some rel =>
      match columnForAlias predicate rel.ident, catalog.get rel.tableName with
      | some c, some schema => schema.hasIndexOn c
      | _, _ => false

variable {R : Type} [CostNum R]

open CostNum

/-- The cost of a nested loop join: the inner plan runs once for each outer row. -/
def nestedLoopCost (outer inner : PhysicalPlan R) : Cost R :=
  let c := outer.estimatedCost
  { c with cpu := c.cpu + ofSize outer.estimatedRows * inner.estimatedCost.total } +
    Cost.nestedLoopJoin outer.estimatedRows inner.estimatedRows

/-- `try_index_nested_loop`: the outer plan and the indexed relation, which is the right one if it
can be. -/
def tryIndexNestedLoop (catalog : Catalog) (leftMask rightMask : RelationMask)
    (leftPlan rightPlan : PhysicalPlan R) (edge : JoinEdge) (g : JoinGraph) (outRows : Nat)
    (est : Estimate R) : Option (PhysicalPlan R) :=
  let indexed (outer inner : PhysicalPlan R) : PhysicalPlan R :=
    .join ⟨outer.estimatedCost + Cost.indexNestedLoopJoin outer.estimatedRows outRows, outRows,
      est.reasoning, est.confidence⟩ .indexNestedLoopJoin .inner edge.predicate outer inner
  if probedByIndex catalog g edge.predicate rightMask then some (indexed leftPlan rightPlan)
  else if probedByIndex catalog g edge.predicate leftMask then some (indexed rightPlan leftPlan)
  else none

/-- The plan of the smaller cost, the first one when they cost the same. -/
def cheaper (best candidate : PhysicalPlan R) : PhysicalPlan R :=
  if lt candidate.estimatedCost.total best.estimatedCost.total then candidate else best

def isEquality : Expression → Bool
  | .binaryOp _ .eq _ => true
  | _ => false

/-- The candidates of one join after the first. -/
def otherCandidates (catalog : Catalog) (leftMask rightMask : RelationMask)
    (leftPlan rightPlan : PhysicalPlan R) (edge : JoinEdge) (g : JoinGraph) (outRows : Nat)
    (est : Estimate R) : List (PhysicalPlan R) :=
  let flipped : PhysicalPlan R := .join ⟨nestedLoopCost rightPlan leftPlan, outRows, est.reasoning,
    est.confidence⟩ .nestedLoopJoin .inner edge.predicate rightPlan leftPlan
  if isEquality edge.predicate then
    let hashed : PhysicalPlan R := .join ⟨leftPlan.estimatedCost + rightPlan.estimatedCost +
      Cost.hashJoin leftPlan.estimatedRows rightPlan.estimatedRows, outRows, est.reasoning,
      est.confidence⟩ .hashJoin .inner edge.predicate leftPlan rightPlan
    [flipped, hashed] ++ (tryIndexNestedLoop catalog leftMask rightMask leftPlan rightPlan edge g
      outRows est).toList
  else [flipped]

def generateBestCandidate (catalog : Catalog) (stats : StatisticsCatalog R)
    (leftMask rightMask : RelationMask) (leftPlan rightPlan : PhysicalPlan R) (edge : JoinEdge)
    (g : JoinGraph) : PhysicalPlan R :=
  let est := estimateJoin stats (ofSize leftPlan.estimatedRows) (ofSize rightPlan.estimatedRows)
    edge.predicate (syntheticScopeForMask leftMask g) (syntheticScopeForMask rightMask g)
  let outRows := rowsToSize est.rows
  let looped : PhysicalPlan R := .join ⟨nestedLoopCost leftPlan rightPlan, outRows, est.reasoning,
    est.confidence⟩ .nestedLoopJoin .inner edge.predicate leftPlan rightPlan
  (otherCandidates catalog leftMask rightMask leftPlan rightPlan edge g outRows est).foldl cheaper
    looped

/-- The best plan of each subset solved so far. -/
abbrev Memo (R : Type) := RelationMask → Option (PhysicalPlan R)

/-- The join that puts relation `r` last in `subset`, if the rest is solved and an edge connects
them. -/
def candidateFor (catalog : Catalog) (stats : StatisticsCatalog R) (g : JoinGraph) (memo : Memo R)
    (subset : RelationMask) (r : Nat) : Option (PhysicalPlan R) :=
  let rMask := relationBit r
  let leftMask := subset &&& complementMask rMask
  if subset &&& rMask = 0 then none
  else if leftMask = 0 then none
  else do
    let leftPlan ← memo leftMask
    let rightPlan ← memo rMask
    let edge ← findConnectingEdge leftMask rMask g
    return generateBestCandidate catalog stats leftMask rMask leftPlan rightPlan edge g

def betterCandidate (best candidate : Option (PhysicalPlan R)) : Option (PhysicalPlan R) :=
  match best, candidate with
  | some b, some c => some (cheaper b c)
  | none, some c => some c
  | b, none => b

def solveSubset (catalog : Catalog) (stats : StatisticsCatalog R) (g : JoinGraph) (memo : Memo R)
    (subset : RelationMask) : Memo R :=
  let best := (List.range g.relations.length).foldl (fun best r =>
    betterCandidate best (candidateFor catalog stats g memo subset r)) none
  match best with
  | some plan => Function.update memo subset (some plan)
  | none => memo

/-- The plans of the single relations. -/
def baseMemo (catalog : Catalog) (stats : StatisticsCatalog R) (g : JoinGraph) : Memo R :=
  g.relations.zipIdx.foldl (fun memo ri =>
    Function.update memo (relationBit ri.2) (some (bestAccessPath catalog stats ri.1))) fun _ => none

/-- The subsets of `size` relations, in the order of the loop. -/
def subsetsOfSize (n size : Nat) : List RelationMask :=
  let limit := if n = 64 then 2 ^ 64 - 1 else relationBit n
  (List.range' 1 (limit - 1)).filter fun subset => popcount subset == size

def fullMask (n : Nat) : RelationMask := if n = 64 then 2 ^ 64 - 1 else relationBit n - 1

/-- `find_best_plan` after the base cases: the subsets by size, then the entry of the whole set. -/
def solveAll (catalog : Catalog) (stats : StatisticsCatalog R) (g : JoinGraph) : Memo R :=
  ((List.range' 2 (g.relations.length - 1)).flatMap (subsetsOfSize g.relations.length)).foldl
    (solveSubset catalog stats g) (baseMemo catalog stats g)

def findBestPlan (catalog : Catalog) (stats : StatisticsCatalog R) (g : JoinGraph) :
    Except String (PhysicalPlan R) :=
  match g.relations with
  | [] => .error "join_enumerator: empty join graph"
  | [rel] => .ok (bestAccessPath catalog stats rel)
  | _ =>
    match solveAll catalog stats g (fullMask g.relations.length) with
    | some plan => .ok plan
    | none => .error ("join_enumerator: relations are not fully connected by join predicates -- " ++
        "a cartesian product would be required, which this search refuses to generate")

end SqlOptimizer
