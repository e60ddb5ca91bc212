import SqlOptimizer.Logical.Plan
import SqlOptimizer.Logical.Schema

/-! `logical/optimizer.cpp`: predicate pushdown, projection pushdown and join reordering. -/

namespace SqlOptimizer

/-! ### Predicate pushdown -/

/-- Stacks `filters` on a plan, the first innermost. -/
def wrapFilters (plan : LogicalPlan) (filters : List Expression) : LogicalPlan :=
  filters.foldl (fun p f => .filter f p) plan

/-- Whether an expression mentions one of the aliases. -/
def mentions (e : Expression) (aliases : List String) : Bool :=
  (referencedTables e).any (· ∈ aliases)

/-- The conjuncts that go below a join on the left, those that go below on the right, and those
that stay above. -/
def classifyConjuncts (leftAliases rightAliases : List String) (conjuncts : List Expression) :
    List Expression × List Expression × List Expression :=
  (conjuncts.filter fun e => mentions e leftAliases && !mentions e rightAliases,
    conjuncts.filter fun e => !mentions e leftAliases && mentions e rightAliases,
    conjuncts.filter fun e => mentions e leftAliases == mentions e rightAliases)

def pushPredicates : LogicalPlan → LogicalPlan
  | .filter predicate input =>
    match pushPredicates input with
    | .join joinType condition left right =>
      let (leftFilters, rightFilters, remaining) :=
        classifyConjuncts left.scanAliases right.scanAliases (splitAnd predicate)
      wrapFilters (.join joinType condition (wrapFilters left leftFilters)
        (wrapFilters right rightFilters)) remaining
    | pushed => .filter predicate pushed
  | .join joinType condition left right =>
    .join joinType condition (pushPredicates left) (pushPredicates right)
  | .aggregate groupBy aggregates input => .aggregate groupBy aggregates (pushPredicates input)
  | .project expressions input => .project expressions (pushPredicates input)
  | .sort orderBy input => .sort orderBy (pushPredicates input)
  | .limit count input => .limit count (pushPredicates input)
  | .scan tableName aliasName projectedColumns => .scan tableName aliasName projectedColumns

/-! ### Projection pushdown -/

/-- The column names of `es` into a set of names, which is a list without repetitions. -/
def addColumns (es : List Expression) (needed : List String) : List String :=
  (es.flatMap fun e => e.columns.map (·.2)).foldl (fun s c => if c ∈ s then s else s ++ [c]) needed

def pushProjections : LogicalPlan → List String → LogicalPlan
  | .scan tableName aliasName _, needed => .scan tableName aliasName needed
  | .project expressions input, needed =>
    .project expressions (pushProjections input (addColumns (expressions.map (·.1)) needed))
  | .filter predicate input, needed =>
    .filter predicate (pushProjections input (addColumns [predicate] needed))
  | .join joinType condition left right, needed =>
    let needed := addColumns [condition] needed
    .join joinType condition (pushProjections left needed) (pushProjections right needed)
  | .aggregate groupBy aggregates input, needed =>
    .aggregate groupBy aggregates
      (pushProjections input (addColumns (groupBy ++ aggregates.map (·.arg)) needed))
  | .sort orderBy input, needed =>
    .sort orderBy (pushProjections input (addColumns (orderBy.map (·.expression)) needed))
  | .limit count input, needed => .limit count (pushProjections input needed)

/-! ### Join reordering -/

/-- Ten percent of the cartesian product, and at least one.  The product wraps at 64 bits. -/
def estimateJoinRows (left right : UInt64) : UInt64 := max (left * right / 10) 1

def estimateRows (catalog : Catalog) : LogicalPlan → UInt64
  | .scan tableName _ _ => match catalog.get tableName with
    | some s => s.stats.rowCount
    | none => 1000
  | .filter _ input => max (estimateRows catalog input / 10) 1
  | .join _ _ l r => estimateJoinRows (estimateRows catalog l) (estimateRows catalog r)
  | _ => 1000

/-- The leaves of a join tree, left to right. -/
def joinLeaves : LogicalPlan → List LogicalPlan
  | .join _ _ l r => joinLeaves l ++ joinLeaves r
  | p => [p]

/-- The conditions of a join tree, each before those of its inputs. -/
def joinConditions : LogicalPlan → List Expression
  | .join _ c l r => c :: (joinConditions l ++ joinConditions r)
  | _ => []

/-- A left-deep tree over `leaves` that takes the conditions in order. -/
def rebuildJoinTree (tree : LogicalPlan) : List LogicalPlan → List Expression → LogicalPlan
  | [], _ => tree
  | leaf :: leaves, [] => rebuildJoinTree (.join .inner .trueLiteral tree leaf) leaves []
  | leaf :: leaves, c :: conds => rebuildJoinTree (.join .inner c tree leaf) leaves conds

/-- The first condition that mentions both plans. -/
def linkingCondition (conds : List Expression) (l r : LogicalPlan) : Option Nat :=
  conds.findIdx? fun c => mentions c l.scanAliases && mentions c r.scanAliases

/-- A pair of nodes to join, with the condition that links them. -/
structure Pairing where
  cost : UInt64
  i : Nat
  j : Nat
  cond : Option Nat

/-- The pairs of positions `i < j` below `n`, in the order of the two loops. -/
def positionPairs (n : Nat) : List (Nat × Nat) :=
  (List.range n).flatMap fun i => ((List.range n).filter (i < ·)).map (i, ·)

/-- One pair of positions in `best_pair`: it replaces the best so far when a condition links it and
its join is smaller. -/
def betterPair (nodes : List (LogicalPlan × UInt64)) (conds : List Expression) (best : Pairing)
    (ij : Nat × Nat) : Pairing :=
  match nodes[ij.1]?, nodes[ij.2]? with
  | some l, some r =>
    match linkingCondition conds l.1 r.1 with
    | some k =>
      let cost := estimateJoinRows l.2 r.2
      if cost < best.cost then ⟨cost, ij.1, ij.2, some k⟩ else best
    | none => best
  | _, _ => best

def bestPair (nodes : List (LogicalPlan × UInt64)) (conds : List Expression) : Pairing :=
  (positionPairs nodes.length).foldl (betterPair nodes conds) ⟨.ofNat (2 ^ 64 - 1), 0, 1, none⟩

/-- One turn of the loop of `greedy_join_order`: the best pair becomes one node at the end. -/
def greedyStep (catalog : Catalog) (nodes : List (LogicalPlan × UInt64)) (conds : List Expression) :
    List (LogicalPlan × UInt64) × List Expression :=
  let best := bestPair nodes conds
  match nodes[best.i]?, nodes[best.j]? with
  | some l, some r =>
    let cond := (best.cond.bind (conds[·]?)).getD .trueLiteral
    let conds := match best.cond with
      | some k => conds.eraseIdx k
      | none => conds
    ((nodes.eraseIdx best.j).eraseIdx best.i ++
      [(.join .inner cond l.1 r.1,
        estimateJoinRows (estimateRows catalog l.1) (estimateRows catalog r.1))], conds)
  | _, _ => (nodes.drop 1, conds)

/-- The loop of `greedy_join_order`: each turn leaves one node less, so the number of nodes bounds
the number of turns. -/
def greedyLoop (catalog : Catalog) : Nat → List (LogicalPlan × UInt64) → List Expression →
    List (LogicalPlan × UInt64)
  | 0, nodes, _ => nodes
  | fuel + 1, nodes, conds =>
    if 1 < nodes.length then
      let (nodes, conds) := greedyStep catalog nodes conds
      greedyLoop catalog fuel nodes conds
    else nodes

def greedyJoinOrder (catalog : Catalog) (leaf : LogicalPlan) (leaves : List LogicalPlan)
    (conds : List Expression) : LogicalPlan :=
  let nodes := (leaf :: leaves).map fun p => (p, estimateRows catalog p)
  ((greedyLoop catalog nodes.length nodes conds).head?.map (·.1)).getD leaf

/-- The join tree of `joined` in greedy order, or as it is when it has an outer join. -/
def reorderTree (catalog : Catalog) (joined : LogicalPlan) : LogicalPlan :=
  if joined.allInner then
    match joinLeaves joined with
    | [] => joined
    | leaf :: leaves =>
      if 2 ≤ leaves.length then greedyJoinOrder catalog leaf leaves (joinConditions joined)
      else rebuildJoinTree leaf leaves (joinConditions joined)
  else joined

def reorderJoins (catalog : Catalog) : LogicalPlan → LogicalPlan
  | .join joinType condition left right =>
    reorderTree catalog
      (.join joinType condition (reorderJoins catalog left) (reorderJoins catalog right))
  | .filter predicate input => .filter predicate (reorderJoins catalog input)
  | .aggregate groupBy aggregates input =>
    .aggregate groupBy aggregates (reorderJoins catalog input)
  | .project expressions input => .project expressions (reorderJoins catalog input)
  | .sort orderBy input => .sort orderBy (reorderJoins catalog input)
  | .limit count input => .limit count (reorderJoins catalog input)
  | .scan tableName aliasName projectedColumns => .scan tableName aliasName projectedColumns

def optimize (catalog : Catalog) (plan : LogicalPlan) : LogicalPlan :=
  reorderJoins catalog (pushProjections (pushPredicates plan) [])

end SqlOptimizer
