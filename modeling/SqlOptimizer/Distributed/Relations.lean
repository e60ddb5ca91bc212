import SqlOptimizer.Distributed.Coordinator
import SqlOptimizer.Execution.Success
import SqlOptimizer.Library.Parts
import Mathlib.Data.List.TakeWhile

/-! A relation, which is a scan under filters, on the whole database and on the parts that the
workers hold. -/

namespace SqlOptimizer

section

variable {R : Type}

/-- The schema of a relation over a loaded table. -/
def relationSchema (p : PhysicalPlan R) (columnNames : List String) : RowSchema :=
  scanSchema ((unwrapFilter p).aliasName.getD (unwrapFilter p).tableName) columnNames

/-- The schema that a worker reads back from the column names of a response, which it splits at
their last dot. -/
def reread (s : RowSchema) : RowSchema := externalSchema s.qualifiedNames [] []

@[simp] theorem size_reread (s : RowSchema) : (reread s).size = s.size := by
  simp [reread, externalSchema, RowSchema.size, RowSchema.qualifiedNames]

/-- The name of a column without a dot is split where it was put together. -/
theorem parseQualified_qualifiedName {e : Entry} (h : '.' ∉ e.column.toList) :
    parseQualified e.qualifiedName = e := by
  obtain ⟨table, column⟩ := e
  have hne : ∀ c ∈ column.toList.reverse, (c != '.') = true := fun c hc => by
    have hmem := List.mem_reverse.mp hc
    simpa using fun hdot : c = '.' => h (hdot ▸ hmem)
  cases table with
  | none =>
    have hdrop : column.toList.reverse.dropWhile (· != '.') = [] :=
      List.dropWhile_eq_nil_iff.mpr hne
    simp only [Entry.qualifiedName, parseQualified, hdrop]
  | some t =>
    have hrev : (t ++ "." ++ column).toList.reverse =
        column.toList.reverse ++ '.' :: t.toList.reverse := by
      simp [String.toList_append]
    have hdrop : (column.toList.reverse ++ '.' :: t.toList.reverse).dropWhile (· != '.') =
        '.' :: t.toList.reverse := by
      rw [List.dropWhile_append_of_pos hne]
      simp
    have htake : (column.toList.reverse ++ '.' :: t.toList.reverse).takeWhile (· != '.') =
        column.toList.reverse := by
      rw [List.takeWhile_append_of_pos hne]
      simp
    simp only [Entry.qualifiedName, parseQualified, hrev, hdrop, htake, List.reverse_reverse,
      String.ofList_toList]

theorem lookup_singleton (rows : List Row) :
    (AList.singleton 0 rows : ExternalRowSets).lookup 0 = some rows :=
  AList.lookup_insert ∅

/-- The rows that a response has are a leaf of the next plan. -/
theorem buildExecutor_makeExternalRows [CostNum R] {name : String} {s : RowSchema} {slot : Nat}
    {rows : List Row} {db : Database} {sets : ExternalRowSets} (h : sets.lookup slot = some rows)
    (k : Nat) :
    buildExecutor (makeExternalRows name s.qualifiedNames slot k : PhysicalPlan R) db sets =
      .ok (.externalRows name (reread s) rows) := by
  simp [buildExecutor, makeExternalRows, h, reread]

theorem wide_externalRows [Rounding] {name : String} {s : RowSchema} {rows : List Row}
    (h : ∀ row ∈ rows, row.length = s.size) :
    (Executor.externalRows name (reread s) rows).Wide := by
  intro out hout row hrow
  cases hout
  rw [h row hrow]
  exact (size_reread s).symm

/-- Columns without dots are read back as they were. -/
theorem map_parseQualified {s : RowSchema} (hcolumns : ∀ e ∈ s.entries, '.' ∉ e.column.toList) :
    s.qualifiedNames.map parseQualified = s.entries := by
  rw [RowSchema.qualifiedNames, List.map_map]
  refine (List.map_congr_left fun e he => ?_).trans (List.map_id _)
  exact parseQualified_qualifiedName (hcolumns e he)

/-- A schema of columns without dots is read back as it was. -/
theorem reread_eq_self {s : RowSchema} (hcolumns : ∀ e ∈ s.entries, '.' ∉ e.column.toList)
    (haggs : s.aggEntries = []) : reread s = s := by
  obtain ⟨entries, aggEntries⟩ := s
  subst haggs
  simp only [reread, externalSchema, map_parseQualified hcolumns, List.mapIdx_nil]

end

section

variable [Rounding] {R : Type}

/-- A test, and then a predicate on the rows that pass it. -/
def filteredTest (schema : RowSchema) (predicate : Expression) (test : Row → Except String Bool)
    (row : Row) : Except String Bool := do
  if ← test row then passes predicate row schema else return false

theorem filteredTest_of_ok {schema : RowSchema} {predicate : Expression}
    {test : Row → Except String Bool} {row : Row} {b : Bool} (h : test row = .ok b) :
    filteredTest schema predicate test row =
      if b then passes predicate row schema else .ok false := by
  cases b <;> simp [filteredTest, h]

/-- The test that a relation makes of each row of its table.  There is none for an index scan whose
probe cannot be evaluated or whose column is not found. -/
def relationTest (schema : RowSchema) : PhysicalPlan R → Except String (Row → Except String Bool)
  | .indexScan _ _ _ _ indexColumn probeValue => do
    let probe ← evaluate probeValue [] RowSchema.empty
    match schema.resolve none indexColumn with
    | none => .error ("execution: index column '" ++ indexColumn ++ "' not found")
    | some idx => return fun row => do return literalEqual (← rowAt row idx) probe
  | .filter _ predicate input => do
    let test ← relationTest schema input
    return filteredTest schema predicate test
  | _ => .ok fun _ => .ok true

/-- `out` is what a relation keeps of `rows`. -/
def Keeps (schema : RowSchema) (p : PhysicalPlan R) (rows out : List Row) : Prop :=
  ∃ test, relationTest schema p = .ok test ∧ (∀ row ∈ rows, ∃ b, test row = .ok b) ∧
    out = rows.filter fun row => (test row).toOption.getD false

theorem Keeps.filter {schema : RowSchema} {ann : Annotation R} {predicate : Expression}
    {p : PhysicalPlan R} {rows out : List Row} :
    Keeps schema (.filter ann predicate p) rows out ↔ ∃ kept, Keeps schema p rows kept ∧
      (∀ row ∈ kept, ∃ b, passes predicate row schema = .ok b) ∧
        out = kept.filter fun row => (passes predicate row schema).toOption.getD false := by
  unfold Keeps
  simp only [relationTest, Except.bind_eq_ok, Except.pure_eq_ok, Except.ok.injEq]
  constructor
  · rintro ⟨_, ⟨test, htest, rfl⟩, hall, rfl⟩
    have hok : ∀ row ∈ rows, ∃ b, test row = .ok b := by
      intro row hrow
      obtain ⟨b, hb⟩ := hall row hrow
      obtain ⟨t, ht, -⟩ := Except.bind_eq_ok.mp hb
      exact ⟨t, ht⟩
    refine ⟨_, ⟨test, htest, hok, rfl⟩, fun row hrow => ?_, ?_⟩
    · obtain ⟨hmem, hkeep⟩ := List.mem_filter.mp hrow
      obtain ⟨t, ht⟩ := hok row hmem
      obtain ⟨b, hb⟩ := hall row hmem
      rw [ht] at hkeep
      have htrue : t = true := hkeep
      rw [filteredTest_of_ok ht, htrue, if_pos rfl] at hb
      exact ⟨b, hb⟩
    · rw [List.filter_filter]
      refine List.filter_congr fun row hrow => ?_
      obtain ⟨t, ht⟩ := hok row hrow
      rw [filteredTest_of_ok ht, ht]
      cases t <;> simp [Except.toOption]
  · rintro ⟨_, ⟨test, htest, hok, rfl⟩, hpass, rfl⟩
    refine ⟨_, ⟨test, htest, rfl⟩, fun row hrow => ?_, ?_⟩
    · obtain ⟨t, ht⟩ := hok row hrow
      rw [filteredTest_of_ok ht]
      cases t with
      | false => exact ⟨false, rfl⟩
      | true => exact hpass row (List.mem_filter.mpr ⟨hrow, by rw [ht]; rfl⟩)
    · rw [List.filter_filter]
      refine List.filter_congr fun row hrow => ?_
      obtain ⟨t, ht⟩ := hok row hrow
      rw [filteredTest_of_ok ht, ht]
      cases t <;> simp [Except.toOption]

/-- The executor of a relation over a loaded table. -/
theorem exists_relation_executor {p : PhysicalPlan R} (hp : isSingleRelation p = true)
    {db : Database} {table : Table} (ht : db.get (unwrapFilter p).tableName = some table)
    (sets : ExternalRowSets) :
    ∃ e, buildExecutor p db sets = .ok e ∧ e.schema = relationSchema p table.columnNames ∧
      ∀ out, e.run = .ok out ↔ Keeps (relationSchema p table.columnNames) p table.rows out := by
  match p with
  | .seqScan ann name aliasName cols =>
    have hload : loadedTable db name = .ok table := by
      simp only [unwrapFilter, PhysicalPlan.tableName] at ht
      simp [loadedTable, ht]
    refine ⟨.seqScan name (scanSchema (aliasName.getD name) table.columnNames) table,
      by simp [buildExecutor, hload], rfl, fun out => ?_⟩
    simp [Keeps, relationTest, Executor.run, Executor.drain, Except.toOption, eq_comm]
  | .indexScan ann name aliasName cols column probe =>
    have hload : loadedTable db name = .ok table := by
      simp only [unwrapFilter, PhysicalPlan.tableName] at ht
      simp [loadedTable, ht]
    refine ⟨.indexScan name (scanSchema (aliasName.getD name) table.columnNames) table column probe,
      by simp [buildExecutor, hload], rfl, fun out => ?_⟩
    simp only [Executor.run, Executor.drain, indexScanRows, Keeps, relationTest, relationSchema,
      unwrapFilter, PhysicalPlan.tableName, PhysicalPlan.aliasName]
    cases evaluate probe [] RowSchema.empty with
    | error e => simp
    | ok v =>
      simp only [Except.ok_bind]
      cases (scanSchema (aliasName.getD name) table.columnNames).resolve none column with
      | none => simp
      | some idx =>
        simp only [Except.pure_eq_ok, Except.ok_bind, Drain.collect_filter_eq_ok, Except.ok.injEq,
          exists_eq_left']
        exact and_iff_right rfl
  | .filter ann predicate input =>
    have hinput : isSingleRelation input = true := hp
    obtain ⟨e, he, hschema, hrun⟩ := exists_relation_executor hinput ht sets
    refine ⟨.filter predicate e, by simp [buildExecutor, he], hschema, fun out => ?_⟩
    have hsame : relationSchema (.filter ann predicate input) table.columnNames =
      relationSchema input table.columnNames := rfl
    rw [hsame, Keeps.filter, ← hschema]
    simp only [Executor.run, Executor.drain, Except.bind_eq_ok, Except.pure_eq_ok, Except.ok.injEq]
    constructor
    · rintro ⟨_, ⟨d, hd, rfl⟩, hcollect⟩
      obtain ⟨hfault, hall, hout⟩ := Drain.collect_filter_eq_ok.mp hcollect
      refine ⟨d.rows, (hschema ▸ hrun d.rows).mp ?_, hall, hout⟩
      rw [Executor.run, hd]
      exact Drain.collect_eq_ok.mpr ⟨rfl, hfault⟩
    · rintro ⟨kept, hkept, hall, hout⟩
      have hd := Executor.run_eq_ok.mp ((hschema ▸ hrun kept).mpr hkept)
      exact ⟨_, ⟨_, hd, rfl⟩, Drain.collect_filter_eq_ok.mpr ⟨rfl, hall, hout⟩⟩

omit [Rounding] in
theorem mem_filterTableToPartition {table : Table} {i n : Nat} {row : Row}
    (h : row ∈ (filterTableToPartition table i n).rows) : row ∈ table.rows := by
  unfold filterTableToPartition at h
  split at h
  · exact h
  · exact (List.mem_filter.mp h).1

theorem Keeps.length {schema : RowSchema} {p : PhysicalPlan R} {table : Table} {out : List Row}
    (h : Keeps schema p table.rows out) {row : Row} (hrow : row ∈ out) :
    row.length = table.columnNames.length := by
  obtain ⟨_, -, -, rfl⟩ := h
  exact table.width row (List.mem_filter.mp hrow).1

omit [Rounding] in
theorem size_relationSchema (p : PhysicalPlan R) (columnNames : List String) :
    (relationSchema p columnNames).size = columnNames.length := by
  simp [relationSchema, scanSchema, RowSchema.size]

/-- Each part of a table is scanned as the whole is. -/
theorem executeOnPartition_relation {p : PhysicalPlan R} (hp : isSingleRelation p = true)
    {full : Database} {schemaCatalog : Catalog} {table : Table}
    {test : Row → Except String Bool} (hname : (unwrapFilter p).tableName ∈ schemaCatalog)
    (ht : full.get (unwrapFilter p).tableName = some table)
    (htest : relationTest (relationSchema p table.columnNames) p = .ok test)
    (hall : ∀ row ∈ table.rows, ∃ b, test row = .ok b) (n i : Nat) :
    executeOnPartition full schemaCatalog n i p ∅ =
      .ok ⟨(relationSchema p table.columnNames).qualifiedNames,
        (filterTableToPartition table i n).rows.filter fun row =>
          (test row).toOption.getD false⟩ := by
  obtain ⟨e, he, hschema, hrun⟩ := exists_relation_executor hp
    (get_filterDatabaseToPartition hname ht i n) ∅
  rw [columnNames_filterTableToPartition] at hschema hrun
  refine executePlan_eq_ok.mpr ⟨e, he, (hrun _).mpr ⟨test, htest, ?_, rfl⟩, by rw [hschema]⟩
  exact fun row hrow => hall row (mem_filterTableToPartition hrow)

/-- A relation over the parts of its table: each part succeeds, and the rows are those of the
whole. -/
theorem exists_rows_on_partitions {p : PhysicalPlan R} (hp : isSingleRelation p = true)
    {full : Database} {schemaCatalog : Catalog} {n : Nat} {table : Table} {rows : List Row}
    (hname : (unwrapFilter p).tableName ∈ schemaCatalog)
    (ht : full.get (unwrapFilter p).tableName = some table) (howned : OwnedOnce table n)
    (hrows : Keeps (relationSchema p table.columnNames) p table.rows rows) :
    ∃ rowsOf : Nat → List Row,
      (∀ i, executeOnPartition full schemaCatalog n i p ∅ =
        .ok ⟨(relationSchema p table.columnNames).qualifiedNames, rowsOf i⟩) ∧
      (∀ i, rowsOf i ⊆ rows) ∧ ((List.range n).flatMap rowsOf).Perm rows := by
  obtain ⟨test, htest, hall, rfl⟩ := hrows
  refine ⟨fun i => (filterTableToPartition table i n).rows.filter fun row =>
    (test row).toOption.getD false, executeOnPartition_relation hp hname ht htest hall n,
    fun i => List.filter_subset _ fun row => mem_filterTableToPartition, ?_⟩
  rw [← List.filter_flatMap]
  exact howned.filter _

end

end SqlOptimizer
