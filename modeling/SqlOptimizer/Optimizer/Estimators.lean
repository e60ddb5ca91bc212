import SqlOptimizer.Logical.Plan
import Mathlib.Data.List.AList

/-! The statistics catalog, `optimizer/selectivity_estimator.cpp` and
`optimizer/cardinality_estimator.cpp`. -/

namespace SqlOptimizer

/-! ### Statistics -/

structure HistogramBucket (R : Type) where
  lower : R
  upper : R
  frequency : R

structure ColumnStats (R : Type) where
  distinctCount : R
  nullFraction : R
  minValue : Option R
  maxValue : Option R
  histogram : Option (List (HistogramBucket R))

structure TableStats (R : Type) where
  rowCount : R
  pageCount : R
  columns : AList fun _ : String => ColumnStats R

def TableStats.getColumn {R : Type} (s : TableStats R) (name : String) : Option (ColumnStats R) :=
  s.columns.lookup name

abbrev StatisticsCatalog (R : Type) := AList fun _ : String => TableStats R

def StatisticsCatalog.get {R : Type} (c : StatisticsCatalog R) (name : String) :
    Option (TableStats R) :=
  c.lookup name

variable {R : Type} [CostNum R]

open CostNum

/-- `Histogram::range_selectivity`.  A missing bound is infinite. -/
def rangeSelectivity (buckets : List (HistogramBucket R)) (low high : Option R) : R :=
  let total := buckets.foldl (fun total b =>
    let overlapLow := match low with
      | some l => maxNum b.lower l
      | none => b.lower
    let overlapHigh := match high with
      | some h => minNum b.upper h
      | none => b.upper
    if le overlapHigh overlapLow then total
    else
      let width := b.upper - b.lower
      if le width (ofRat 0) then
        let inside := (match low with | some l => le l b.lower | none => true) &&
          (match high with | some h => le b.lower h | none => true)
        if inside then total + b.frequency else total
      else total + b.frequency * (overlapHigh - overlapLow) / width) (ofRat 0)
  clampNum total (ofRat 0) (ofRat 1)

/-! ### Selectivity -/

def kDefaultSelectivity : R := ofRat (3 / 10)

def literalAsNumber : Literal → Option R
  | .integer i => some (ofDouble (Binary64.ofInt i.toInt))
  | .floating x => some (ofDouble x)
  | _ => none

def estimateEquality (column : String) (stats : TableStats R) : R :=
  match stats.getColumn column with
  | none => kDefaultSelectivity
  | some cs =>
    if le cs.distinctCount (ofRat 0) then kDefaultSelectivity
    else
      let usable := maxNum (ofRat 0) (ofRat 1 - cs.nullFraction)
      clampNum (usable / cs.distinctCount) (ofRat 0) (ofRat 1)

/-- The selectivity of `column < value` (`below`) or `column > value`. -/
def estimateRange (column : String) (below : Bool) (value : R) (stats : TableStats R) : R :=
  match stats.getColumn column with
  | none => kDefaultSelectivity
  | some cs =>
    match cs.histogram with
    | some h => if below then rangeSelectivity h none (some value)
        else rangeSelectivity h (some value) none
    | none =>
      match cs.minValue, cs.maxValue with
      | some minV, some maxV =>
        if le maxV minV then kDefaultSelectivity
        else
          let usable := maxNum (ofRat 0) (ofRat 1 - cs.nullFraction)
          let frac := if below then
              if le value minV then ofRat 0
              else if le maxV value then ofRat 1
              else (value - minV) / (maxV - minV)
            else
              if le maxV value then ofRat 0
              else if le value minV then ofRat 1
              else (maxV - value) / (maxV - minV)
          clampNum (frac * usable) (ofRat 0) (ofRat 1)
      | _, _ => kDefaultSelectivity

/-- `<` and `<=` once the literal is on the right; `none` for any operator but the four orders. -/
def orderBelow (op : BinaryOperator) (literalOnRight : Bool) : Option Bool :=
  match op with
  | .lt | .lte => some literalOnRight
  | .gt | .gte => some (!literalOnRight)
  | _ => none

def estimateComparison (op : BinaryOperator) (l r : Expression) (stats : TableStats R) : R :=
  let compare (column : String) (lit : Literal) (literalOnRight : Bool) : R :=
    match op with
    | .eq => estimateEquality column stats
    | .neq => clampNum (ofRat 1 - estimateEquality column stats) (ofRat 0) (ofRat 1)
    | _ =>
      match literalAsNumber lit, orderBelow op literalOnRight with
      | some value, some below => estimateRange column below value stats
      | _, _ => kDefaultSelectivity
  match l, r with
  | .column _ c, .literal lit => compare c lit true
  | .literal lit, .column _ c => compare c lit false
  | _, _ => kDefaultSelectivity

/-- `SelectivityEstimator::estimate` -/
def estimateSelectivity (predicate : Expression) (stats : TableStats R) : R :=
  match predicate with
  | .binaryOp l op r =>
    match op with
    | .and => clampNum (estimateSelectivity l stats * estimateSelectivity r stats) (ofRat 0) (ofRat 1)
    | .or =>
      let a := estimateSelectivity l stats
      let b := estimateSelectivity r stats
      clampNum (a + b - a * b) (ofRat 0) (ofRat 1)
    | .eq | .neq | .lt | .lte | .gt | .gte => estimateComparison op l r stats
    | _ => kDefaultSelectivity
  | .unaryOp .not e => clampNum (ofRat 1 - estimateSelectivity e stats) (ofRat 0) (ofRat 1)
  | _ => kDefaultSelectivity

/-! ### Cardinality -/

structure Estimate (R : Type) where
  rows : R
  confidence : R
  reasoning : String

/-- The table that a plan scans, under any number of filters, and its alias. -/
def resolveSingleTable : LogicalPlan → Option (String × String)
  | .scan tableName aliasName _ => some (tableName, aliasName.getD tableName)
  | .filter _ input => resolveSingleTable input
  | _ => none

def estimateScan (stats : StatisticsCatalog R) (tableName : String) : Estimate R :=
  match stats.get tableName with
  | none => ⟨ofRat 1000, ofRat (2 / 10),
      "no statistics for table '" ++ tableName ++ "' -- default row-count guess"⟩
  | some s => ⟨s.rowCount, ofRat 1, "base row count from statistics catalog"⟩

/-- A tenth of the input rows, and at least one. -/
def tenthOf (inputRows : R) (reasoning : String) : Estimate R :=
  ⟨maxNum (ofRat 1) (inputRows / ofRat 10), ofRat (2 / 10), reasoning⟩

def estimateFilter (stats : StatisticsCatalog R) (inputRows : R) (predicate : Expression)
    (scope : LogicalPlan) : Estimate R :=
  match resolveSingleTable scope with
  | none => tenthOf inputRows "predicate scope spans multiple relations -- default 10% heuristic"
  | some (tableName, _) =>
    match stats.get tableName with
    | none => tenthOf inputRows
        ("no statistics for table '" ++ tableName ++ "' -- default 10% heuristic")
    | some s =>
      let sel := estimateSelectivity predicate s
      ⟨maxNum (ofRat 1) (inputRows * sel), ofRat (8 / 10),
        "selectivity " ++ toText sel ++ " estimated from statistics for table '" ++ tableName ++ "'"⟩

/-- Whether a column's qualifier is missing or names `aliasOrName`. -/
def qualifierMatches (qualifier : Option String) (aliasOrName : String) : Bool :=
  qualifier.all (· == aliasOrName)

/-- The columns of an equality that belong to the left and to the right relation. -/
def joinColumns (condition : Expression) (leftAlias rightAlias : String) :
    Option (String × String) :=
  match condition with
  | .binaryOp (.column t c) .eq (.column t' c') =>
    if qualifierMatches t leftAlias && qualifierMatches t' rightAlias then some (c, c')
    else if qualifierMatches t' leftAlias && qualifierMatches t rightAlias then some (c', c)
    else none
  | _ => none

def estimateJoin (stats : StatisticsCatalog R) (leftRows rightRows : R) (condition : Expression)
    (leftScope rightScope : LogicalPlan) : Estimate R :=
  let estimated : Option (Estimate R) := do
    let (leftTable, leftAlias) ← resolveSingleTable leftScope
    let (rightTable, rightAlias) ← resolveSingleTable rightScope
    let (leftCol, rightCol) ← joinColumns condition leftAlias rightAlias
    let ls ← (← stats.get leftTable).getColumn leftCol
    let rs ← (← stats.get rightTable).getColumn rightCol
    if le ls.distinctCount (ofRat 0) || le rs.distinctCount (ofRat 0) then none
    else
      return ⟨maxNum (ofRat 1) (leftRows * rightRows / maxNum ls.distinctCount rs.distinctCount),
        ofRat (7 / 10),
        "equi-join NDV formula: (" ++ toText leftRows ++ " x " ++ toText rightRows ++ ") / max(" ++
          toText ls.distinctCount ++ ", " ++ toText rs.distinctCount ++ ") on " ++ leftTable ++ "." ++
          leftCol ++ " = " ++ rightTable ++ "." ++ rightCol⟩
  estimated.getD ⟨maxNum (ofRat 1) (leftRows * rightRows / ofRat 10), ofRat (2 / 10),
    "default 10%-of-cartesian-product heuristic (non-equi condition or statistics unavailable)"⟩

/-- The product of the distinct counts of the GROUP BY columns, or why there is none. -/
def groupProduct (s : TableStats R) (groups : R) : List Expression → Except String R
  | [] => .ok groups
  | .column _ c :: rest =>
    match s.getColumn c with
    | none => .error ("no NDV statistic for GROUP BY column '" ++ c ++ "' -- default 10% heuristic")
    | some cs =>
      if le cs.distinctCount (ofRat 0) then
        .error ("no NDV statistic for GROUP BY column '" ++ c ++ "' -- default 10% heuristic")
      else groupProduct s (groups * cs.distinctCount) rest
  | _ :: _ => .error "non-column GROUP BY expression -- default 10% heuristic"

def estimateAggregate (stats : StatisticsCatalog R) (inputRows : R) (groupBy : List Expression)
    (scope : LogicalPlan) : Estimate R :=
  if groupBy.isEmpty then ⟨ofRat 1, ofRat (9 / 10), "no GROUP BY -- a single aggregate row"⟩
  else match resolveSingleTable scope with
    | none => tenthOf inputRows "GROUP BY over a multi-relation scope -- default 10% heuristic"
    | some (tableName, _) =>
      match stats.get tableName with
      | none => tenthOf inputRows
          ("no statistics for table '" ++ tableName ++ "' -- default 10% heuristic")
      | some s =>
        match groupProduct s (ofRat 1) groupBy with
        | .error reasoning => tenthOf inputRows reasoning
        | .ok groups => ⟨maxNum (ofRat 1) (minNum inputRows groups), ofRat (6 / 10),
            "product of GROUP BY column NDVs (" ++ toText groups ++
              "), capped at input row count (" ++ toText inputRows ++ ")"⟩

def estimateProject (inputRows : R) : Estimate R :=
  ⟨inputRows, ofRat 1, "projection does not change row count"⟩

def estimateSort (inputRows : R) : Estimate R :=
  ⟨inputRows, ofRat 1, "sort does not change row count"⟩

def estimateLimit (inputRows : R) (count : Nat) : Estimate R :=
  ⟨minNum inputRows (ofSize count), ofRat 1, "min(input rows, LIMIT " ++ toString count ++ ")"⟩

end SqlOptimizer
