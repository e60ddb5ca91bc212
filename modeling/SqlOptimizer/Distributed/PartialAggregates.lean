import SqlOptimizer.Execution.Operators

/-! `distributed/coordinator.cpp`: AVG split into SUM and COUNT for the workers, and the rows of the
workers merged into those of the query. -/

namespace SqlOptimizer

/-! ### Splitting AVG -/

/-- Where the parts of an aggregate are among those of the workers; `none` is the index -1. -/
structure AvgMapping where
  func : String
  directIdx : Option Nat
  sumIdx : Option Nat
  countIdx : Option Nat

structure AvgSplit where
  workerAggregates : List AggregateExpr
  mapping : List AvgMapping

/-- One aggregate of the query. -/
def splitOne (out : AvgSplit) (agg : AggregateExpr) : AvgSplit :=
  let n := out.workerAggregates.length
  if agg.func = "AVG" then
    { workerAggregates := out.workerAggregates ++ [⟨"SUM", agg.arg, none⟩, ⟨"COUNT", agg.arg, none⟩]
      mapping := out.mapping ++ [⟨agg.func, none, some n, some (n + 1)⟩] }
  else
    { workerAggregates := out.workerAggregates ++ [agg]
      mapping := out.mapping ++ [⟨agg.func, some n, none, none⟩] }

def splitAvg (original : List AggregateExpr) : AvgSplit := original.foldl splitOne ⟨[], []⟩

/-! ### Merging -/

/-- The accumulators of one aggregate of one group.  The count is a double. -/
structure PartialAcc where
  sum : Binary64
  count : Binary64
  min : Option Literal
  max : Option Literal

def PartialAcc.empty : PartialAcc := ⟨Binary64.zero, Binary64.zero, none, none⟩

structure PartialState where
  groupKey : Row
  accs : List PartialAcc

/-- `static_cast<int64_t>` of a double.  Outside the range of `int64_t` it is undefined. -/
def doubleToInt64 : Binary64 → Int64
  | .fin neg mag => Int64.ofInt (if neg then -(⌊mag⌋₊ : Int) else ⌊mag⌋₊)
  | _ => 0

/-- `row[group_by_count + idx]`. -/
def partialAt (row : Row) (groupByCount : Nat) (idx : Option Nat) : Except String Literal :=
  match idx with
  | some i => rowAt row (groupByCount + i)
  | none => .error "row index out of range"

section

variable [Rounding]

/-- One row of a worker into the accumulators of an aggregate. -/
def PartialAcc.merge (func : String) (m : AvgMapping) (groupByCount : Nat) (acc : PartialAcc)
    (row : Row) : Except String PartialAcc :=
  if func = "AVG" then do
    let s ← literalAsDouble (← partialAt row groupByCount m.sumIdx)
    let c ← literalAsDouble (← partialAt row groupByCount m.countIdx)
    return { acc with sum := Binary64.add acc.sum s, count := Binary64.add acc.count c }
  else if func = "SUM" then do
    let s ← literalAsDouble (← partialAt row groupByCount m.directIdx)
    return { acc with sum := Binary64.add acc.sum s }
  else if func = "COUNT" then do
    let c ← literalAsDouble (← partialAt row groupByCount m.directIdx)
    return { acc with count := Binary64.add acc.count c }
  else if func = "MIN" then do
    return { acc with min := ← keepLess acc.min (← partialAt row groupByCount m.directIdx) }
  else if func = "MAX" then do
    return { acc with max := ← keepGreater acc.max (← partialAt row groupByCount m.directIdx) }
  else .ok acc

def PartialAcc.output (func : String) (acc : PartialAcc) : List Literal :=
  if func = "SUM" then [.floating acc.sum]
  else if func = "COUNT" then [.integer (doubleToInt64 acc.count)]
  else if func = "AVG" then
    [.floating (if Binary64.lt Binary64.zero acc.count then Binary64.div acc.sum acc.count
      else Binary64.zero)]
  else if func = "MIN" then [acc.min.getD .null]
  else if func = "MAX" then [acc.max.getD .null]
  else []

/-- One row of a worker into the accumulators of its group. -/
def mergeAccs (groupByCount : Nat) (original : List AggregateExpr) (split : AvgSplit) (row : Row)
    (accs : List PartialAcc) : Except String (List PartialAcc) :=
  ((original.zip split.mapping).zip accs).mapM fun p =>
    p.2.merge p.1.1.func p.1.2 groupByCount row

/-- One row of a worker: its group is found by the text of its key, and made when there is none. -/
def mergeRow (groupByCount : Nat) (original : List AggregateExpr) (split : AvgSplit)
    (groups : List (String × PartialState)) (row : Row) :
    Except String (List (String × PartialState)) :=
  let key := row.take groupByCount
  Grouping.upsert (groupKeyText key) ⟨key, original.map fun _ => PartialAcc.empty⟩
    (fun st => do return { st with accs := ← mergeAccs groupByCount original split row st.accs })
    groups

def PartialState.output (original : List AggregateExpr) (st : PartialState) : Row :=
  st.groupKey ++ (original.zip st.accs).flatMap fun p => p.2.output p.1.func

def mergePartialAggregates (workerRows : List (List Row)) (groupByCount : Nat)
    (original : List AggregateExpr) (split : AvgSplit) : Except String (List Row) := do
  let groups ← workerRows.flatten.foldlM (mergeRow groupByCount original split) []
  return groups.map fun g => g.2.output original

/-- The aggregation of a query whose rows are spread over workers: each computes the split
aggregates of its own rows. -/
def distributedAggregate (groupBy : List Expression) (aggregates : List AggregateExpr)
    (schema : RowSchema) (workers : List (List Row)) : Except String (List Row) := do
  let split := splitAvg aggregates
  let workerRows ← workers.mapM (hashAggregateRows groupBy split.workerAggregates schema)
  mergePartialAggregates workerRows groupBy.length aggregates split

end

end SqlOptimizer
