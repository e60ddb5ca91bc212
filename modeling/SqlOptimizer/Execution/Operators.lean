import SqlOptimizer.Library.Drain
import SqlOptimizer.Library.Grouping
import SqlOptimizer.Physical.Plan
import SqlOptimizer.Storage.Database

/-! `execution/operators.cpp`: what each operator returns when it is opened and pulled to its end.
`Executor.drain` is the outcome of `open` (an error of which is an error here) followed by the rows
of `next` until the end or an error.  An operator that reads its whole input inside `open` turns an
error of its input into an error of `open`. -/

namespace SqlOptimizer

/-- An executor tree: the members that the constructors of the executor classes set. -/
inductive Executor where
  | seqScan (tableName : String) (schema : RowSchema) (table : Table)
  | indexScan (tableName : String) (schema : RowSchema) (table : Table) (indexColumn : String)
      (probeValue : Expression)
  | filter (predicate : Expression) (input : Executor)
  | nestedLoopJoin (condition : Expression) (left right : Executor)
  | hashJoin (condition leftKey rightKey : Expression) (left right : Executor)
  | hashAggregate (groupBy : List Expression) (aggregates : List AggregateExpr) (input : Executor)
  | project (expressions : List (Expression × Option String)) (input : Executor)
  | sort (orderBy : List OrderByItem) (input : Executor)
  | limit (count : Nat) (input : Executor)
  | externalRows (tableName : String) (schema : RowSchema) (rows : List Row)

/-! ### Schemas -/

/-- The schema of a scan: the columns of its table under its alias. -/
def scanSchema (qualifier : String) (columnNames : List String) : RowSchema :=
  ⟨columnNames.map fun c => ⟨some qualifier, c⟩, []⟩

def exprDisplayName (e : Expression) (fallbackIndex : Nat) (fallbackPrefix : String) : String :=
  match e with
  | .column _ c => c
  | _ => fallbackPrefix ++ toString fallbackIndex

def exprDisplayTable : Expression → Option String
  | .column t _ => t
  | _ => none

/-- The output name of aggregate `i`. -/
def aggregateName (agg : AggregateExpr) (i : Nat) : String :=
  agg.aliasName.getD (agg.func ++ "_" ++ toString i)

/-- The schema of an aggregate: the group columns, then one unqualified column for each
aggregate, which is also registered under its call. -/
def aggregateSchema (groupBy : List Expression) (aggregates : List AggregateExpr) : RowSchema :=
  ⟨groupBy.mapIdx (fun i g => ⟨exprDisplayTable g, exprDisplayName g i "g"⟩) ++
      aggregates.mapIdx (fun i agg => ⟨none, aggregateName agg i⟩),
    aggregates.mapIdx fun i agg => ⟨toUpper agg.func, agg.arg, groupBy.length + i⟩⟩

def projectSchema (expressions : List (Expression × Option String)) : RowSchema :=
  ⟨expressions.mapIdx fun i p => ⟨none, p.2.getD (exprDisplayName p.1 i "expr")⟩, []⟩

def Executor.schema : Executor → RowSchema
  | .seqScan _ s _ => s
  | .indexScan _ s _ _ _ => s
  | .filter _ input => input.schema
  | .nestedLoopJoin _ l r => l.schema.extend r.schema
  | .hashJoin _ _ _ l r => l.schema.extend r.schema
  | .hashAggregate groupBy aggregates _ => aggregateSchema groupBy aggregates
  | .project expressions _ => projectSchema expressions
  | .sort _ input => input.schema
  | .limit _ input => input.schema
  | .externalRows _ s _ => s

/-- A column that resolves in `schema`. -/
def isColumnOf (e : Expression) (schema : RowSchema) : Bool :=
  match e with
  | .column t c => (schema.resolve t c).isSome
  | _ => false

/-- The keys that the `HashJoinExec` constructor takes from a condition: the first resolves on the
left and the second on the right. -/
def hashJoinKeys (condition : Expression) (left right : RowSchema) :
    Except String (Expression × Expression) :=
  match condition with
  | .binaryOp a .eq b =>
    if isColumnOf a left && isColumnOf b right then .ok (a, b)
    else if isColumnOf a right && isColumnOf b left then .ok (b, a)
    else .error "execution: HashJoin condition must be a simple column-to-column equality across both sides"
  | _ => .error "execution: HashJoin requires an equality condition"

/-! ### Aggregation -/

/-- The accumulators of one aggregate of one group. -/
structure Acc where
  sum : Binary64
  count : Nat
  min : Option Literal
  max : Option Literal

def Acc.empty : Acc := ⟨Binary64.zero, 0, none, none⟩

/-- The key of a group and its accumulators, one for each aggregate. -/
structure AccState where
  groupKey : Row
  accs : List Acc

/-- The text that identifies a group: each key value printed and followed by byte `0x1f`. -/
def groupKeyText (key : Row) : String :=
  key.foldl (fun s k => s ++ literalToString k ++ "\x1f") ""

/-- `acc`, or `v` when there is none yet or `v` comes before it. -/
def keepLess (acc : Option Literal) (v : Literal) : Except String (Option Literal) :=
  match acc with
  | none => .ok (some v)
  | some m => do return if ← literalLess v m then some v else some m

/-- `acc`, or `v` when there is none yet or `v` comes after it. -/
def keepGreater (acc : Option Literal) (v : Literal) : Except String (Option Literal) :=
  match acc with
  | none => .ok (some v)
  | some m => do return if ← literalLess m v then some v else some m

section

variable [Rounding]

/-- The value an aggregate takes from a row.  `COUNT(*)` evaluates nothing and counts every row, as
it would any value that is not NULL. -/
def aggregateInput (agg : AggregateExpr) (row : Row) (schema : RowSchema) :
    Except String Literal :=
  match agg.arg with
  | .wildcard => if agg.func = "COUNT" then .ok (.integer 1) else evaluate .wildcard row schema
  | arg => evaluate arg row schema

/-- One value into the accumulators of an aggregate; NULL is skipped. -/
def Acc.feed (func : String) (acc : Acc) (v : Literal) : Except String Acc :=
  if literalIsNull v then .ok acc
  else if func = "COUNT" then .ok { acc with count := acc.count + 1 }
  else if func = "SUM" ∨ func = "AVG" then do
    let x ← literalAsDouble v
    return { acc with sum := Binary64.add acc.sum x, count := acc.count + 1 }
  else if func = "MIN" then do return { acc with min := ← keepLess acc.min v }
  else if func = "MAX" then do return { acc with max := ← keepGreater acc.max v }
  else .error ("execution: unknown aggregate function '" ++ func ++ "'")

/-- One row into the accumulators of its group. -/
def feedRow (aggregates : List AggregateExpr) (row : Row) (schema : RowSchema) (accs : List Acc) :
    Except String (List Acc) :=
  (aggregates.zip accs).mapM fun p => do p.2.feed p.1.func (← aggregateInput p.1 row schema)

/-- The output of an aggregate of a group, and nothing for an unknown function. -/
def Acc.output (func : String) (acc : Acc) : List Literal :=
  if func = "COUNT" then [.integer (Int64.ofNat acc.count)]
  else if func = "SUM" then [.floating acc.sum]
  else if func = "AVG" then
    [.floating (if 0 < acc.count then Binary64.div acc.sum (Binary64.ofInt acc.count)
      else Binary64.zero)]
  else if func = "MIN" then [acc.min.getD .null]
  else if func = "MAX" then [acc.max.getD .null]
  else []

def AccState.output (aggregates : List AggregateExpr) (st : AccState) : Row :=
  st.groupKey ++ (aggregates.zip st.accs).flatMap fun p => p.2.output p.1.func

/-- The one row of an aggregate without GROUP BY over no rows. -/
def emptyAggregateRow (aggregates : List AggregateExpr) : Row :=
  aggregates.map fun agg =>
    if agg.func = "COUNT" then .integer 0
    else if agg.func = "SUM" then .floating Binary64.zero
    else .null

/-- One input row: its group is found by the text of its key, and made when there is none. -/
def aggregateRow (groupBy : List Expression) (aggregates : List AggregateExpr)
    (schema : RowSchema) (groups : List (String × AccState)) (row : Row) :
    Except String (List (String × AccState)) := do
  let key ← groupBy.mapM fun g => evaluate g row schema
  Grouping.upsert (groupKeyText key) ⟨key, aggregates.map fun _ => Acc.empty⟩
    (fun st => do return { st with accs := ← feedRow aggregates row schema st.accs }) groups

/-- `HashAggregateExec::open_impl` over the rows of its input. -/
def hashAggregateRows (groupBy : List Expression) (aggregates : List AggregateExpr)
    (schema : RowSchema) (rows : List Row) : Except String (List Row) := do
  let groups ← rows.foldlM (aggregateRow groupBy aggregates schema) []
  if groupBy.isEmpty && groups.isEmpty then return [emptyAggregateRow aggregates]
  else return groups.map fun g => g.2.output aggregates

/-! ### Sorting -/

/-- The comparator of `SortExec`. -/
def sortLess (orderBy : List OrderByItem) (schema : RowSchema) (a b : Row) : Except String Bool :=
  match orderBy with
  | [] => .ok false
  | item :: rest => do
    let va ← evaluate item.expression a schema
    let vb ← evaluate item.expression b schema
    if literalEqual va vb then sortLess rest schema a b
    else
      let less ← literalLess va vb
      return if item.ascending then less else !less

/-- Puts `row` before the first of `rows` that it precedes. -/
def insertRow (less : Row → Row → Except String Bool) (row : Row) :
    List Row → Except String (List Row)
  | [] => .ok [row]
  | r :: rs => do
    if ← less row r then return row :: r :: rs else return r :: (← insertRow less row rs)

/-- `std::sort`, as an insertion sort: one of the orders that it may return. -/
def sortRows (less : Row → Row → Except String Bool) (rows : List Row) :
    Except String (List Row) :=
  rows.foldlM (fun sorted row => insertRow less row sorted) []

/-! ### Operators -/

/-- `IndexScanExec` over the rows of its table. -/
def indexScanRows (schema : RowSchema) (rows : List Row) (indexColumn : String)
    (probeValue : Expression) : Except String (Drain String Row) := do
  let probe ← evaluate probeValue [] RowSchema.empty
  match schema.resolve none indexColumn with
  | none => .error ("execution: index column '" ++ indexColumn ++ "' not found")
  | some idx =>
    return (Drain.ofList rows).filter fun row => do return literalEqual (← rowAt row idx) probe

/-- `NestedLoopJoinExec` over the rows of its inputs, left row by left row. -/
def nestedLoopRows (condition : Expression) (schema : RowSchema) (left : Drain String Row)
    (right : List Row) : Drain String Row :=
  (left.flatMap fun l => .ok (right.map (l ++ ·))).filter fun row => passes condition row schema

/-- The build table of `HashJoinExec`: the right rows with their printed keys. -/
def hashBuild (rightKey : Expression) (schema : RowSchema) (right : List Row) :
    Except String (List (String × Row)) :=
  right.mapM fun r => do return (literalToString (← evaluate rightKey r schema), r)

/-- `HashJoinExec` over the rows of its inputs: each left row with the right rows whose key prints
alike. -/
def hashJoinRows (leftKey : Expression) (leftSchema : RowSchema) (build : List (String × Row))
    (left : Drain String Row) : Drain String Row :=
  left.flatMap fun l => do
    let key := literalToString (← evaluate leftKey l leftSchema)
    return (build.filter fun kr => kr.1 == key).map fun kr => l ++ kr.2

/-- The rows of an executor. -/
def Executor.drain : Executor → Except String (Drain String Row)
  | .seqScan _ _ table => .ok (.ofList table.rows)
  | .indexScan _ schema table indexColumn probeValue =>
    indexScanRows schema table.rows indexColumn probeValue
  | .filter predicate input => do
    return (← input.drain).filter fun row => passes predicate row input.schema
  | .nestedLoopJoin condition left right => do
    let l ← left.drain
    let r ← (← right.drain).collect
    return nestedLoopRows condition (left.schema.extend right.schema) l r
  | .hashJoin _ leftKey rightKey left right => do
    let l ← left.drain
    let build ← hashBuild rightKey right.schema (← (← right.drain).collect)
    return hashJoinRows leftKey left.schema build l
  | .hashAggregate groupBy aggregates input => do
    let rows ← (← input.drain).collect
    return .ofList (← hashAggregateRows groupBy aggregates input.schema rows)
  | .project expressions input => do
    return (← input.drain).map fun row => expressions.mapM fun p => evaluate p.1 row input.schema
  | .sort orderBy input => do
    return .ofList (← sortRows (sortLess orderBy input.schema) (← (← input.drain).collect))
  | .limit count input => do return (← input.drain).take count
  | .externalRows _ _ rows => .ok (.ofList rows)

/-- `run_to_completion`: every row, or the first error. -/
def Executor.run (e : Executor) : Except String (List Row) := do (← e.drain).collect

end

end SqlOptimizer
