import SqlOptimizer.Execution.Run
import SqlOptimizer.Optimizer.JoinSearchRows
import SqlOptimizer.Optimizer.PlanShape
import SqlOptimizer.Physical.Planner

/-! The rows of an access path.  Whether the index or the scan is cheaper, and whichever filter the
index replaces, the path returns the rows of its table that satisfy every filter, in their order. -/

namespace SqlOptimizer

/-- Filters over the own columns of a table without two columns of one name, none of which fails in
a row. -/
structure ScansCleanly [Rounding] (table : Table) (ident : String) (preds : List Expression) :
    Prop where
  distinct : table.columnNames.Nodup
  own : ∀ p ∈ preds, ∀ t c, (t, c) ∈ p.columns →
    qualifierMatches t ident = true ∧ c ∈ table.columnNames
  clean : ∀ row ∈ table.rows, ∀ p ∈ preds,
    ∃ b, passes p row (scanSchema ident table.columnNames) = .ok b

/-- The rows of a table on which all filters are true. -/
def rowsWhere [Rounding] (table : Table) (ident : String) (preds : List Expression) : List Row :=
  table.rows.filter fun row =>
    preds.all fun p => holds p row (scanSchema ident table.columnNames)

section

variable [Rounding] {table : Table} {ident : String} {preds : List Expression}

theorem ScansCleanly.perm {preds' : List Expression} (h : ScansCleanly table ident preds)
    (hperm : preds'.Perm preds) : ScansCleanly table ident preds' where
  distinct := h.distinct
  own p hp := h.own p (hperm.mem_iff.mp hp)
  clean row hrow p hp := h.clean row hrow p (hperm.mem_iff.mp hp)

theorem ScansCleanly.tail {p : Expression} (h : ScansCleanly table ident (p :: preds)) :
    ScansCleanly table ident preds where
  distinct := h.distinct
  own q hq := h.own q (List.mem_cons_of_mem _ hq)
  clean row hrow q hq := h.clean row hrow q (List.mem_cons_of_mem _ hq)

theorem rowsWhere_perm {preds' : List Expression} (hperm : preds'.Perm preds) :
    rowsWhere table ident preds' = rowsWhere table ident preds :=
  List.filter_congr fun _ _ => hperm.all_eq

theorem rowsWhere_cons (p : Expression) : rowsWhere table ident (p :: preds) =
    (rowsWhere table ident preds).filter fun row =>
      holds p row (scanSchema ident table.columnNames) := by
  rw [rowsWhere, rowsWhere, List.filter_filter]
  rfl

omit [Rounding] in
/-- The one column of a name resolves alike with and without the alias of its scan. -/
theorem resolve_own {t : Option String} {c : String} (hc : table.columnNames.count c = 1)
    (ht : qualifierMatches t ident = true) :
    ∃ idx, (scanSchema ident table.columnNames).resolve t c = some idx ∧
      (scanSchema ident table.columnNames).resolve none c = some idx := by
  obtain ⟨idx, hidx⟩ : ∃ idx, table.columnNames.findIdx? (· == c) = some idx := by
    rw [← Option.isSome_iff_exists, List.findIdx?_isSome, List.any_eq_true]
    exact ⟨c, List.count_pos_iff.mp (by omega), beq_self_eq_true c⟩
  have hnone := scanSchema_resolve_none (q := ident) hc
  refine ⟨idx, ?_, hnone.trans hidx⟩
  cases t with
  | none => exact hnone.trans hidx
  | some q =>
    rw [qualifierMatches, Option.all_some, beq_iff_eq] at ht
    rw [ht, scanSchema_resolve_some, hidx]

/-- The filters are own filters, so the column of an equality is there once. -/
theorem ScansCleanly.probe {p : Expression} {t : Option String} {c : String} {lit : Literal}
    (h : ScansCleanly table ident [p]) (hp : columnLiteral p = some (t, c, lit)) :
    qualifierMatches t ident = true ∧ table.columnNames.count c = 1 := by
  obtain ⟨hown, hc⟩ := h.own p List.mem_cons_self t c (mem_columns_of_columnLiteral hp)
  exact ⟨hown, List.count_eq_one_of_mem h.distinct hc⟩

section

variable {p : Expression} {t : Option String} {c : String} {lit : Literal}
  (ht : qualifierMatches t ident = true) (hc : table.columnNames.count c = 1)
  (hp : columnLiteral p = some (t, c, lit))
include ht hc hp

/-- An equality with the one column of its name has a truth value in every row. -/
theorem passes_probe {row : Row} (hrow : row ∈ table.rows) :
    ∃ idx v, (scanSchema ident table.columnNames).resolve none c = some idx ∧
      rowAt row idx = .ok v ∧
        passes p row (scanSchema ident table.columnNames) = .ok (literalEqual v lit) := by
  obtain ⟨idx, hqualified, hbare⟩ := resolve_own hc ht
  have hidx : idx < row.length := by
    have hlt := RowSchema.resolve_lt hqualified
    rwa [scanSchema, RowSchema.size, List.length_map, ← table.width row hrow] at hlt
  have hv : row[idx]? = some row[idx] := List.getElem?_eq_getElem hidx
  exact ⟨idx, row[idx], hbare, rowAt_eq_ok.mpr hv, passes_columnLiteral hp hqualified hv⟩

/-- The probe of the index keeps the rows in which its equality is true. -/
theorem indexScanRows_eq :
    indexScanRows (scanSchema ident table.columnNames) table.rows c (.literal lit) =
      .ok (.ofList (rowsWhere table ident [p])) := by
  obtain ⟨idx, -, hbare⟩ := resolve_own hc ht
  have hkeeps : ∀ row ∈ table.rows, (do return literalEqual (← rowAt row idx) lit) =
      Except.ok (ε := String) (holds p row (scanSchema ident table.columnNames)) := by
    intro row hrow
    obtain ⟨idx', v, hbare', hv, hpasses⟩ := passes_probe ht hc hp hrow
    cases hbare.symm.trans hbare'
    rw [hv, holds, hpasses]
    rfl
  rw [indexScanRows, hbare]
  simp only [evaluate, Except.ok_bind, Except.pure_eq_ok]
  rw [Drain.filter_of_ok hkeeps, rowsWhere]
  simp only [List.all_cons, List.all_nil, Bool.and_true]
  rfl

end

variable {R : Type} {db : Database}

omit [Rounding] in
theorem loadedTable_of_get {name : String} (h : db.get name = some table) :
    loadedTable db name = .ok table := by
  rw [loadedTable, h]

/-- The executor of an access path returns the rows that satisfy its filters. -/
theorem AccessPathOf.buildExecutor_run {rel : Relation} {plan : PhysicalPlan R}
    (sets : ExternalRowSets) (htable : db.get rel.tableName = some table) (h : AccessPathOf rel plan preds)
    (hclean : ScansCleanly table rel.ident preds) :
    ∃ e, buildExecutor plan db sets = .ok e ∧
      e.schema = scanSchema rel.ident table.columnNames ∧
      e.run = .ok (rowsWhere table rel.ident preds) := by
  induction h with
  | seqScan =>
    refine ⟨.seqScan rel.tableName (scanSchema rel.ident table.columnNames) table, ?_, rfl, ?_⟩
    · rw [buildExecutor, loadedTable_of_get htable]
      rfl
    · rw [Executor.run_eq_ok, Executor.drain, rowsWhere]
      simp only [List.all_nil, List.filter_true]
  | @indexScan ann pred t column lit hpred =>
    refine ⟨.indexScan rel.tableName (scanSchema rel.ident table.columnNames) table column
      (.literal lit), ?_, rfl, ?_⟩
    · rw [buildExecutor, loadedTable_of_get htable]
      rfl
    · rw [Executor.run_eq_ok, Executor.drain]
      obtain ⟨ht, hc⟩ := hclean.probe hpred
      exact indexScanRows_eq ht hc hpred
  | @filter ann pred plan preds hplan ih =>
    obtain ⟨e, hbuild, hschema, hrun⟩ := ih hclean.tail
    refine ⟨.filter pred e, ?_, hschema, ?_⟩
    · rw [buildExecutor, hbuild]
      rfl
    · rw [Executor.run_filter hrun, hschema, rowsWhere_cons]
      intro row hrow
      rw [hschema]
      exact hclean.clean row (List.mem_of_mem_filter hrow) pred List.mem_cons_self

theorem AccessPathOf.executePlan_eq {rel : Relation} {plan : PhysicalPlan R}
    (sets : ExternalRowSets) (htable : db.get rel.tableName = some table) (h : AccessPathOf rel plan preds)
    (hclean : ScansCleanly table rel.ident preds) :
    executePlan plan db sets = .ok ⟨(scanSchema rel.ident table.columnNames).qualifiedNames,
      rowsWhere table rel.ident preds⟩ := by
  obtain ⟨e, hbuild, hschema, hrun⟩ := h.buildExecutor_run sets htable hclean
  rw [executePlan, hbuild, Except.ok_bind, hrun, hschema]
  rfl

/-- The path that an index or its cost decides returns the rows of the plain scan under its filters:
the access path of a relation, and the index scan of a filter over a scan. -/
theorem access_path_rows [CostNum R] (catalog : Catalog) (stats : StatisticsCatalog R)
    (db : Database) (sets : ExternalRowSets) :
    (∀ (rel : Relation) (table : Table), db.get rel.tableName = some table →
      ScansCleanly table rel.ident rel.localFilters →
        executePlan (bestAccessPath catalog stats rel) db sets =
          .ok ⟨(scanSchema rel.ident table.columnNames).qualifiedNames,
            rowsWhere table rel.ident rel.localFilters⟩) ∧
    ∀ (pred : Expression) (tableName : String) (aliasName : Option String) (cols : List String)
      (table : Table) (plan : PhysicalPlan R) (ann ann' : Annotation R),
      db.get tableName = some table → ScansCleanly table (aliasName.getD tableName) [pred] →
        tryIndexScan catalog stats pred tableName aliasName cols = some plan →
          executePlan plan db sets =
            executePlan (.filter ann pred (.seqScan ann' tableName aliasName cols)) db sets := by
  refine ⟨fun rel table htable hclean => ?_, ?_⟩
  · obtain ⟨preds, hpath, hperm⟩ : ∃ preds, AccessPathOf rel (bestAccessPath catalog stats rel)
        preds ∧ preds.Perm rel.localFilters := accessPathOf_bestAccessPath rel
    rw [hpath.executePlan_eq sets htable (hclean.perm hperm), rowsWhere_perm hperm]
  · intro pred tableName aliasName cols table plan ann ann' htable hclean hplan
    obtain ⟨rows, reasoning, confidence, t, column, lit, hpred, rfl⟩ := tryIndexScan_eq_some hplan
    -- the executors read every column of a scan, whatever its projection says
    have hindex : AccessPathOf ⟨0, tableName, aliasName, [pred]⟩
        (.indexScan ⟨Cost.indexScan (rowsToSize rows), rowsToSize rows, reasoning, confidence⟩ tableName
          aliasName [] column (.literal lit) : PhysicalPlan R) [pred] := .indexScan hpred
    have hscan : AccessPathOf ⟨0, tableName, aliasName, [pred]⟩
        (.filter ann pred (.seqScan ann' tableName aliasName []) : PhysicalPlan R) [pred] :=
      .filter .seqScan
    exact (hindex.executePlan_eq sets htable hclean).trans
      (hscan.executePlan_eq sets htable hclean).symm

end

attribute [local instance] Rounding.exact

local instance accessCosts : CostNum ℚ := CostNum.rational id

def idEquality : Expression := .binaryOp (.column none "id") .eq (.literal (.integer 1))

def nameEquality : Expression :=
  .binaryOp (.literal (.str "bo")) .eq (.column (some "u") "name")

/-- `users u` under `id = 1` and `'bo' = u.name`. -/
def usersRelation : Relation := ⟨0, "users", some "u", [nameEquality, idEquality]⟩

def usersTable : Table where
  columnNames := ["id", "name"]
  rows := [[.integer 1, .str "al"], [.floating (.fin false 1), .str "bo"], [.null, .str "bo"]]
  width := by decide

def usersDatabase : Database := (∅ : Database).insert "users" usersTable

/-- A thousand rows with different ids, and an index on the id. -/
def usersCatalog : Catalog := (∅ : Catalog).insert "users"
  ⟨[⟨"id", .int, true⟩, ⟨"name", .text, true⟩], ⟨1000, 64⟩, ["id"]⟩

def usersStatistics : StatisticsCatalog ℚ := (∅ : StatisticsCatalog ℚ).insert "users"
  ⟨1000, 8, (∅ : AList fun _ : String => ColumnStats ℚ).insert "id" ⟨1000, 0, none, none, none⟩⟩

theorem access_path_rows_users :
    executePlan (bestAccessPath usersCatalog usersStatistics usersRelation) usersDatabase ∅ =
        .ok ⟨["u.id", "u.name"], [[.floating (.fin false 1), .str "bo"]]⟩ ∧
      ∃ plan, tryIndexScan usersCatalog usersStatistics idEquality "users" (some "u") [] =
          some plan ∧
        executePlan plan usersDatabase ∅ =
          executePlan (R := ℚ) (.filter ⟨Cost.zero, 1, "", 1⟩ idEquality
            (.seqScan ⟨Cost.zero, 3, "", 1⟩ "users" (some "u") [])) usersDatabase ∅ := by
  have hown : ∀ p ∈ [nameEquality, idEquality], ∀ t c, (t, c) ∈ p.columns →
      qualifierMatches t "u" = true ∧ c ∈ usersTable.columnNames := by
    intro p hp t c htc
    simp only [List.mem_cons, List.not_mem_nil, or_false] at hp
    rcases hp with rfl | rfl
    · obtain ⟨rfl, rfl⟩ : t = some "u" ∧ c = "name" := by
        simpa [nameEquality, Expression.columns] using htc
      decide
    · obtain ⟨rfl, rfl⟩ : t = none ∧ c = "id" := by
        simpa [idEquality, Expression.columns] using htc
      decide
  have hclean : ScansCleanly usersTable "u" [nameEquality, idEquality] := by
    refine ⟨by decide, hown, fun row hrow p hp => ?_⟩
    simp only [usersTable, List.mem_cons, List.not_mem_nil, or_false] at hrow hp
    rcases hrow with rfl | rfl | rfl <;> rcases hp with rfl | rfl <;> exact ⟨_, rfl⟩
  obtain ⟨plan, hplan⟩ : ∃ plan, tryIndexScan usersCatalog usersStatistics idEquality "users"
      (some "u") [] = some plan := Option.isSome_iff_exists.mp (by decide +kernel)
  have hlookup : usersDatabase.get "users" = some usersTable := AList.lookup_insert _
  obtain ⟨hpath, hindex⟩ := access_path_rows usersCatalog usersStatistics usersDatabase ∅
  refine ⟨(hpath usersRelation usersTable hlookup hclean).trans ?_, plan, hplan,
    hindex _ _ _ _ usersTable plan _ _ hlookup ?_ hplan⟩
  · decide
  · exact hclean.tail

end SqlOptimizer
