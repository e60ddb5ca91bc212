import SqlOptimizer.Physical.Plan

/-! `logical/logical_plan.hpp`, and the helpers over plans and expressions that the optimizer, the
join graph and the physical planner share. -/

namespace SqlOptimizer

inductive LogicalPlan where
  | scan (tableName : String) (aliasName : Option String) (projectedColumns : List String)
  | filter (predicate : Expression) (input : LogicalPlan)
  | join (joinType : JoinType) (condition : Expression) (left right : LogicalPlan)
  | aggregate (groupBy : List Expression) (aggregates : List AggregateExpr) (input : LogicalPlan)
  | project (expressions : List (Expression × Option String)) (input : LogicalPlan)
  | sort (orderBy : List OrderByItem) (input : LogicalPlan)
  | limit (count : Nat) (input : LogicalPlan)

/-- `a AND b AND c` as `[a, b, c]`; any other expression as itself. -/
def splitAnd : Expression → List Expression
  | .binaryOp l .and r => splitAnd l ++ splitAnd r
  | e => [e]

/-- The table qualifiers of the columns of an expression. -/
def referencedTables (e : Expression) : List String := e.columns.filterMap (·.1)

namespace LogicalPlan

/-- True when every join is INNER, down to the first node that is not a join. -/
def allInner : LogicalPlan → Bool
  | .join joinType _ l r => joinType == .inner && l.allInner && r.allInner
  | _ => true

/-- The alias, or else the table name, of each scan of a plan. -/
def scanAliases : LogicalPlan → List String
  | .scan tableName aliasName _ => [aliasName.getD tableName]
  | .join _ _ l r => l.scanAliases ++ r.scanAliases
  | .filter _ input | .aggregate _ _ input | .project _ input | .sort _ input
  | .limit _ input => input.scanAliases

/-- The scans of a plan, left to right: the table and its alias. -/
def scans : LogicalPlan → List (String × Option String)
  | .scan tableName aliasName _ => [(tableName, aliasName)]
  | .join _ _ l r => l.scans ++ r.scans
  | .filter _ input | .aggregate _ _ input | .project _ input | .sort _ input
  | .limit _ input => input.scans

/-- The AND-conjuncts of every filter predicate and every join condition of a plan. -/
def conjuncts : LogicalPlan → List Expression
  | .scan _ _ _ => []
  | .filter p input => splitAnd p ++ input.conjuncts
  | .join _ c l r => splitAnd c ++ (l.conjuncts ++ r.conjuncts)
  | .aggregate _ _ input | .project _ input | .sort _ input | .limit _ input => input.conjuncts

/-- The input under any number of filters. -/
def unwrapFilters : LogicalPlan → LogicalPlan
  | .filter _ input => input.unwrapFilters
  | p => p

end LogicalPlan

end SqlOptimizer
