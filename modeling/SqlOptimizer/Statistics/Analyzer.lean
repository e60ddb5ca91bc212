import SqlOptimizer.Statistics.Histogram
import SqlOptimizer.Logical.Schema
import SqlOptimizer.Storage.Database
import Mathlib.Data.List.Induction
import Mathlib.Algebra.BigOperators.Group.List.Basic

/-! `statistics/analyzer.cpp`: the statistics of a table from its rows, and how far the range
estimates that `optimizer/selectivity_estimator.cpp` makes from them can go. -/

namespace SqlOptimizer

def Table.column (table : Table) (c : Nat) : List Literal := table.rows.map (·.getD c .null)

namespace Statistics

section

variable {R : Type} [CostNum R]

open CostNum

def kHistogramBuckets : Nat := 10

def kAssumedPageBytes : R := ofRat 8192

def literalSetKey : Literal → String
  | .integer i => "i:" ++ String.ofList (Binary64.intText i.toInt)
  | .floating x => "f:" ++ String.ofList x.fixedText
  | .str s => "s:" ++ s
  | .boolean b => if b then "b:1" else "b:0"
  | .null => "n:"

def isNumeric : DataType → Bool
  | .int | .float => true
  | .text | .boolean => false

def asDouble : Literal → R
  | .integer i => ofDouble (Binary64.ofInt i.toInt)
  | .floating x => ofDouble x
  | _ => ofRat 0

def approxLiteralBytes : Literal → R
  | .str s => ofSize s.length
  | .null => ofRat 0
  | _ => ofRat 8

/-- The variables of the loop over the rows of one column.  `range` is `min_v` and `max_v` once
`have_range` is set. -/
structure ColumnScan (R : Type) where
  totalBytes : R
  distinctValues : List String
  nullCount : Nat
  range : Option (R × R)

def widen (range : Option (R × R)) (d : R) : Option (R × R) :=
  match range with
  | none => some (d, d)
  | some (minV, maxV) => some (minNum minV d, maxNum maxV d)

def ColumnScan.add (numeric : Bool) (scan : ColumnScan R) (v : Literal) : ColumnScan R :=
  let totalBytes := scan.totalBytes + approxLiteralBytes v
  match v with
  | .null => { scan with totalBytes, nullCount := scan.nullCount + 1 }
  | v =>
    { scan with
      totalBytes
      distinctValues := scan.distinctValues.insert (literalSetKey v)
      range := if numeric then widen scan.range (asDouble v) else scan.range }

/-- The largest value lands in the last bucket. -/
def bucketOf (minV width : R) (v : Literal) : Nat :=
  let bucket := toSize ((asDouble v - minV) / width)
  if bucket ≥ kHistogramBuckets then kHistogramBuckets - 1 else bucket

def countValue (minV width : R) (counts : List Nat) (v : Literal) : List Nat :=
  match v with
  | .null => counts
  | v => counts.modify (bucketOf minV width v) (· + 1)

def bucketCounts (minV width : R) (values : List Literal) : List Nat :=
  values.foldl (countValue minV width) (List.replicate kHistogramBuckets 0)

def bucketWidth (minV maxV : R) : R := (maxV - minV) / ofSize kHistogramBuckets

def bucketAt (minV maxV : R) (nonNull count b : Nat) : HistogramBucket R :=
  { lower := minV + bucketWidth minV maxV * ofSize b
    upper :=
      if b + 1 = kHistogramBuckets then maxV
      else minV + bucketWidth minV maxV * ofSize (b + 1)
    frequency := ofSize count / ofSize nonNull }

def histogramOf (values : List Literal) (nonNull : Nat) (minV maxV : R) :
    List (HistogramBucket R) :=
  if le maxV minV then [⟨minV, maxV, ofRat 1⟩]
  else
    (bucketCounts minV (bucketWidth minV maxV) values).zipIdx.map fun (count, b) =>
      bucketAt minV maxV nonNull count b

/-- The statistics of a column, from its values and what the scan found. -/
def ColumnScan.stats (numeric : Bool) (values : List Literal) (scan : ColumnScan R) :
    ColumnStats R :=
  let nonNull := values.length - scan.nullCount
  let range := if numeric ∧ nonNull > 0 then scan.range else none
  { distinctCount := ofSize scan.distinctValues.length
    nullFraction :=
      if values.isEmpty then ofRat 0 else ofSize scan.nullCount / ofSize values.length
    minValue := range.map Prod.fst
    maxValue := range.map Prod.snd
    histogram := range.map fun (minV, maxV) => histogramOf values nonNull minV maxV }

def scanColumn (numeric : Bool) (totalBytes : R) (values : List Literal) : ColumnScan R :=
  values.foldl (ColumnScan.add numeric) ⟨totalBytes, [], 0, none⟩

/-- One column in the loop of `analyze_table`.  A later column of the same name takes the place of
an earlier one. -/
def analyzeColumn (table : Table) (schema : TableSchema)
    (acc : R × AList fun _ : String => ColumnStats R) (column : String × Nat) :
    R × AList fun _ : String => ColumnStats R :=
  match schema.getColumn column.1 with
  | none => acc
  | some colDef =>
    let values := table.column column.2
    let scan := scanColumn (isNumeric colDef.dataType) acc.1 values
    (scan.totalBytes, acc.2.insert column.1 (scan.stats (isNumeric colDef.dataType) values))

def analyzeTable (table : Table) (schema : TableSchema) : TableStats R :=
  let rowCount : R := ofSize table.rows.length
  let (totalBytes, columns) :=
    table.columnNames.zipIdx.foldl (analyzeColumn table schema) (ofRat 0, ∅)
  let avgRowBytes := if table.rows.isEmpty then ofRat 0 else totalBytes / rowCount
  { rowCount
    pageCount := ceil (rowCount * avgRowBytes / kAssumedPageBytes)
    columns }

end

/-! ### Columns -/

/-- The values of the column that a name stands for: the last of that name. -/
def columnNamed (table : Table) (name : String) : Option (List Literal) :=
  (table.columnNames.zipIdx.reverse.find? (·.1 == name)).map fun column => table.column column.2

/-- The numbers of a column. -/
def numbersOf {R : Type} [CostNum R] (values : List Literal) : List R :=
  (values.filter (· ≠ .null)).map asDouble

section

variable {R : Type} [CostNum R]

theorem scan_eq (scan : ColumnScan R) (values : List Literal) :
    let scan' := values.foldl (ColumnScan.add true) scan;
    scan'.nullCount = scan.nullCount + values.count .null ∧
      scan'.range = (numbersOf values).foldl widen scan.range := by
  induction values generalizing scan with
  | nil => exact ⟨rfl, rfl⟩
  | cons v values ih =>
    obtain ⟨hnull, hrange⟩ := ih (scan.add true v)
    rw [List.foldl_cons]
    refine ⟨hnull.trans ?_, hrange.trans ?_⟩
    · cases v <;> simp [ColumnScan.add, Nat.add_comm, Nat.add_left_comm]
    · cases v <;> rfl

theorem foldl_widen (minV maxV : R) (ds : List R) :
    ds.foldl widen (some (minV, maxV)) = some (ds.foldl minNum minV, ds.foldl maxNum maxV) := by
  induction ds generalizing minV maxV with
  | nil => rfl
  | cons d ds ih => exact ih _ _

/-- What the columns leave under a name is what the last of that name gives. -/
theorem lookup_foldl_analyzeColumn {table : Table} {schema : TableSchema} {name : String}
    {colDef : ColumnDef} (hdef : schema.getColumn name = some colDef)
    (acc : R × AList fun _ : String => ColumnStats R) {columns : List (String × Nat)}
    {column : String × Nat} (hlast : columns.reverse.find? (·.1 == name) = some column) :
    ∃ bytes, (columns.foldl (analyzeColumn table schema) acc).2.lookup name =
      some ((scanColumn (isNumeric colDef.dataType) bytes (table.column column.2)).stats
        (isNumeric colDef.dataType) (table.column column.2)) := by
  induction columns using List.reverseRecOn with
  | nil => cases hlast
  | append_singleton columns column' ih =>
    rw [List.reverse_append, List.reverse_singleton, List.singleton_append,
      List.find?_cons] at hlast
    rw [List.foldl_append, List.foldl_cons, List.foldl_nil, analyzeColumn]
    by_cases hname : column'.1 = name
    · rw [beq_iff_eq.mpr hname] at hlast
      cases hlast
      rw [hname, hdef]
      exact ⟨_, AList.lookup_insert _⟩
    · rw [beq_eq_false_iff_ne.mpr hname] at hlast
      obtain ⟨bytes, hbytes⟩ := ih hlast
      refine ⟨bytes, ?_⟩
      split
      · exact hbytes
      · exact (AList.lookup_insert_ne (Ne.symm hname)).trans hbytes

theorem length_numbersOf (values : List Literal) :
    (numbersOf values : List R).length = values.length - values.count .null := by
  have hsplit := List.length_eq_length_filter_add (l := values) (· ≠ Literal.null)
  have hcount : (values.filter fun v => !decide (v ≠ .null)).length = values.count .null := by
    rw [List.count_eq_length_filter]
    exact congrArg List.length (List.filter_congr fun v _ => Bool.eq_iff_iff.mpr (by simp))
  rw [numbersOf, List.length_map]
  omega

theorem sum_modify_succ (counts : List Nat) {i : Nat} (hi : i < counts.length) :
    (counts.modify i (· + 1)).sum = counts.sum + 1 := by
  induction counts generalizing i with
  | nil => exact absurd hi (Nat.not_lt_zero i)
  | cons count counts ih =>
    cases i with
    | zero => simp [Nat.add_right_comm]
    | succ i => simp [ih (Nat.lt_of_succ_lt_succ hi), Nat.add_assoc]

theorem bucketOf_lt (minV width : R) (v : Literal) : bucketOf minV width v < kHistogramBuckets := by
  unfold bucketOf
  extract_lets bucket
  split
  · decide
  · next h => exact not_le.mp h

/-- A value that is no NULL is counted in one bucket. -/
theorem countValue_spec (minV width : R) {counts : List Nat} (v : Literal)
    (hlength : counts.length = kHistogramBuckets) :
    (countValue minV width counts v).length = kHistogramBuckets ∧
      (countValue minV width counts v).sum = counts.sum + (numbersOf [v] : List R).length := by
  have hlt : bucketOf minV width v < counts.length := hlength ▸ bucketOf_lt minV width v
  have hmodify : (counts.modify (bucketOf minV width v) (· + 1)).length = kHistogramBuckets ∧
      (counts.modify (bucketOf minV width v) (· + 1)).sum = counts.sum + 1 :=
    ⟨by rw [List.length_modify, hlength], sum_modify_succ counts hlt⟩
  cases v with
  | null => exact ⟨hlength, rfl⟩
  | integer _ => exact hmodify
  | floating _ => exact hmodify
  | str _ => exact hmodify
  | boolean _ => exact hmodify

theorem numbersOf_cons (v : Literal) (values : List Literal) :
    (numbersOf (v :: values) : List R) = numbersOf [v] ++ numbersOf values := by
  rw [numbersOf, ← List.singleton_append, List.filter_append, List.map_append]
  rfl

/-- So the buckets together count the values that are no NULL. -/
theorem bucketCounts_spec (minV width : R) (values : List Literal) :
    (bucketCounts minV width values).length = kHistogramBuckets ∧
      (bucketCounts minV width values).sum = (numbersOf values : List R).length := by
  have hrun : ∀ counts : List Nat, counts.length = kHistogramBuckets →
      (values.foldl (countValue minV width) counts).length = kHistogramBuckets ∧
        (values.foldl (countValue minV width) counts).sum =
          counts.sum + (numbersOf values : List R).length := by
    induction values with
    | nil => exact fun counts hlength => ⟨hlength, rfl⟩
    | cons v values ih =>
      intro counts hlength
      obtain ⟨hlength', hsum⟩ := countValue_spec minV width v hlength
      obtain ⟨hall, hsum'⟩ := ih _ hlength'
      refine ⟨hall, hsum'.trans ?_⟩
      rw [hsum, numbersOf_cons v values, List.length_append, Nat.add_assoc]
  obtain ⟨hlength, hsum⟩ := hrun (List.replicate kHistogramBuckets 0) (List.length_replicate ..)
  exact ⟨hlength, hsum.trans (by simp)⟩

end

end Statistics

end SqlOptimizer
