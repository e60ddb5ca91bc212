import SqlOptimizer.Execution.RowSchema
import SqlOptimizer.Logical.Plan

/-! `logical/planner.cpp`: the logical plan of a SELECT statement. -/

namespace SqlOptimizer

def kAggregateFunctions : List String := ["SUM", "COUNT", "AVG", "MIN", "MAX"]

/-- The aggregate call that an expression of the SELECT list is, if it is one. -/
def aggregateCall (e : Expression) (aliasName : Option String) : Option AggregateExpr :=
  match e with
  | .function name args =>
    if toUpper name ∈ kAggregateFunctions then
      some ⟨toUpper name, args.head?.getD .wildcard, aliasName⟩
    else none
  | _ => none

/-- `split_select_list`: the plain expressions and the aggregates.  Wildcards are skipped. -/
def splitSelectList (items : List SelectItem) :
    List (Expression × Option String) × List AggregateExpr :=
  (items.filterMap fun item => match item with
      | .expression e a => if (aggregateCall e a).isSome then none else some (e, a)
      | _ => none,
    items.filterMap fun item => match item with
      | .expression e a => aggregateCall e a
      | _ => none)

def SelectItem.isWildcard : SelectItem → Bool
  | .wildcard | .qualifiedWildcard _ => true
  | .expression _ _ => false

/-- `LogicalPlanner::plan`.  The alias map that it fills is never read. -/
def planStatement (stmt : SelectStatement) : LogicalPlan :=
  let fromScan := LogicalPlan.scan stmt.fromTable.tableName stmt.fromTable.aliasName []
  let joined := stmt.joins.foldl (fun plan join => .join join.joinType join.condition plan
    (.scan join.table.tableName join.table.aliasName [])) fromScan
  let filtered := match stmt.whereClause with
    | some p => .filter p joined
    | none => joined
  let (plainExprs, aggregates) := splitSelectList stmt.columns
  let aggregated := if !aggregates.isEmpty || !stmt.groupBy.isEmpty
    then .aggregate stmt.groupBy aggregates filtered else filtered
  let selected := match stmt.having with
    | some p => .filter p aggregated
    | none => aggregated
  let sorted := if !stmt.orderBy.isEmpty then .sort stmt.orderBy selected else selected
  let limited := match stmt.limit with
    | some n => .limit n sorted
    | none => sorted
  if !stmt.columns.all SelectItem.isWildcard && aggregates.isEmpty
    then .project plainExprs limited else limited

end SqlOptimizer
