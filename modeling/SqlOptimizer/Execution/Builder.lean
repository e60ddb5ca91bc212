import SqlOptimizer.Execution.Operators

/-! `execution/executor_builder.cpp`: the executor tree of a physical plan. -/

namespace SqlOptimizer

/-- Rows for the `ExternalRows` leaves of a plan, by slot. -/
abbrev ExternalRowSets := AList fun _ : Nat => List Row

/-- The entry that a column name of an `ExternalRows` leaf stands for, split at its last dot. -/
def parseQualified (col : String) : Entry :=
  let rev := col.toList.reverse
  match rev.dropWhile (· != '.') with
  | [] => ⟨none, col⟩
  | _ :: table =>
    ⟨some (String.ofList table.reverse), String.ofList (rev.takeWhile (· != '.')).reverse⟩

/-- The schema of an `ExternalRows` leaf, with the aggregates of the node it stands for. -/
def externalSchema (projectedColumns : List String) (groupBy : List Expression)
    (aggregates : List AggregateExpr) : RowSchema :=
  ⟨projectedColumns.map parseQualified,
    aggregates.mapIdx fun i agg => ⟨toUpper agg.func, agg.arg, groupBy.length + i⟩⟩

def loadedTable (db : Database) (tableName : String) : Except String Table :=
  match db.get tableName with
  | some table => .ok table
  | none => .error ("execution: no data loaded for table '" ++ tableName ++ "'")

variable {R : Type}

def buildExecutor (plan : PhysicalPlan R) (db : Database) (sets : ExternalRowSets) :
    Except String Executor :=
  match plan with
  | .seqScan _ tableName aliasName _ => do
    let table ← loadedTable db tableName
    return .seqScan tableName (scanSchema (aliasName.getD tableName) table.columnNames) table
  | .indexScan _ tableName aliasName _ indexColumn probeValue => do
    let table ← loadedTable db tableName
    return .indexScan tableName (scanSchema (aliasName.getD tableName) table.columnNames) table
      indexColumn probeValue
  | .externalRows _ tableName projectedColumns slot groupBy aggregates =>
    match sets.lookup slot with
    | none => .error ("execution: no external rows supplied for slot " ++ toString slot)
    | some rows =>
      .ok (.externalRows tableName (externalSchema projectedColumns groupBy aggregates) rows)
  | .filter _ predicate input => do return .filter predicate (← buildExecutor input db sets)
  | .join _ kind _ condition left right => do
    let l ← buildExecutor left db sets
    let r ← buildExecutor right db sets
    match kind with
    | .nestedLoopJoin | .indexNestedLoopJoin => return .nestedLoopJoin condition l r
    | .hashJoin =>
      let (leftKey, rightKey) ← hashJoinKeys condition l.schema r.schema
      return .hashJoin condition leftKey rightKey l r
  | .hashAggregate _ groupBy aggregates input => do
    return .hashAggregate groupBy aggregates (← buildExecutor input db sets)
  | .project _ expressions input => do return .project expressions (← buildExecutor input db sets)
  | .sort _ orderBy input => do return .sort orderBy (← buildExecutor input db sets)
  | .limit _ count input => do return .limit count (← buildExecutor input db sets)

/-- The columns and rows of a query. -/
structure ExecutionResult where
  columns : List String
  rows : List Row
  deriving DecidableEq

/-- Builds the executor of `plan` and runs it, with the executor's qualified column names. -/
def executePlan [Rounding] (plan : PhysicalPlan R) (db : Database) (sets : ExternalRowSets) :
    Except String ExecutionResult := do
  let executor ← buildExecutor plan db sets
  let rows ← executor.run
  return ⟨executor.schema.qualifiedNames, rows⟩

end SqlOptimizer
