import SqlOptimizer.Execution.Builder
import SqlOptimizer.Library.Pairs

/-! The relational reading of a physical plan: every join node, whichever operator it names, keeps
the pairs of rows that satisfy its condition, and a row on which a predicate cannot be evaluated
does not satisfy it. -/

namespace SqlOptimizer

variable [Rounding] {R : Type}

/-- The rows of an index scan: those whose index column equals the probe. -/
def indexScanMeaning (schema : RowSchema) (rows : List Row) (indexColumn : String)
    (probeValue : Expression) : Except String (List Row) := do
  let probe ← evaluate probeValue [] RowSchema.empty
  match schema.resolve none indexColumn with
  | none => .error ("execution: index column '" ++ indexColumn ++ "' not found")
  | some idx => return rows.filter fun row => (row[idx]?.map (literalEqual · probe)).getD false

/-- The pairs of rows that satisfy a condition, joined. -/
def joinMeaning (condition : Expression) (ls rs : RowSchema) (l r : List Row) : List Row :=
  Pairs.joinBy (· ++ ·) (fun a b => holds condition (a ++ b) (ls.extend rs)) l r

/-- The schema and the rows of a plan. -/
def relational (plan : PhysicalPlan R) (db : Database) (sets : ExternalRowSets) :
    Except String (RowSchema × List Row) :=
  match plan with
  | .seqScan _ tableName aliasName _ => do
    let table ← loadedTable db tableName
    return (scanSchema (aliasName.getD tableName) table.columnNames, table.rows)
  | .indexScan _ tableName aliasName _ indexColumn probeValue => do
    let table ← loadedTable db tableName
    let schema := scanSchema (aliasName.getD tableName) table.columnNames
    return (schema, ← indexScanMeaning schema table.rows indexColumn probeValue)
  | .filter _ predicate input => do
    let (schema, rows) ← relational input db sets
    return (schema, rows.filter fun row => holds predicate row schema)
  | .join _ _ _ condition left right => do
    let (ls, l) ← relational left db sets
    let (rs, r) ← relational right db sets
    return (ls.extend rs, joinMeaning condition ls rs l r)
  | .hashAggregate _ groupBy aggregates input => do
    let (schema, rows) ← relational input db sets
    return (aggregateSchema groupBy aggregates,
      ← hashAggregateRows groupBy aggregates schema rows)
  | .project _ expressions input => do
    let (schema, rows) ← relational input db sets
    return (projectSchema expressions,
      ← rows.mapM fun row => expressions.mapM fun p => evaluate p.1 row schema)
  | .sort _ orderBy input => do
    let (schema, rows) ← relational input db sets
    return (schema, ← sortRows (sortLess orderBy schema) rows)
  | .limit _ count input => do
    let (schema, rows) ← relational input db sets
    return (schema, rows.take count)
  | .externalRows _ _ projectedColumns slot groupBy aggregates =>
    match sets.lookup slot with
    | none => .error ("execution: no external rows supplied for slot " ++ toString slot)
    | some rows => .ok (externalSchema projectedColumns groupBy aggregates, rows)

theorem relational_join {ann : Annotation R} {kind : JoinKind} {joinType : JoinType}
    {condition : Expression} {left right : PhysicalPlan R} {db : Database} {sets : ExternalRowSets}
    {ls rs : RowSchema} {l r : List Row} (hl : relational left db sets = .ok (ls, l))
    (hr : relational right db sets = .ok (rs, r)) :
    relational (.join ann kind joinType condition left right) db sets =
      .ok (ls.extend rs, joinMeaning condition ls rs l r) := by
  simp [relational, hl, hr]

end SqlOptimizer
