import SqlOptimizer.Logical.Schema
import SqlOptimizer.Optimizer.Estimators
import SqlOptimizer.Optimizer.JoinGraph

/-! `optimizer/access_path_generator.cpp`: the cheapest plan of one relation with its local
filters. -/

namespace SqlOptimizer

/-- The column and the literal of an equality between the two, in either order. -/
def columnLiteral : Expression → Option (Option String × String × Literal)
  | .binaryOp (.column t c) .eq (.literal l) => some (t, c, l)
  | .binaryOp (.literal l) .eq (.column t c) => some (t, c, l)
  | _ => none

/-- The column and the literal of an equality on an indexed column. -/
def indexedEquality (schema : TableSchema) (pred : Expression) : Option (String × Literal) :=
  match columnLiteral pred with
  | some (_, c, l) => if schema.hasIndexOn c then some (c, l) else none
  | none => none

def findIndexedEquality (rel : Relation) (schema : TableSchema) : Option Nat :=
  rel.localFilters.findIdx? fun p => (indexedEquality schema p).isSome

variable {R : Type} [CostNum R]

open CostNum

/-- The page count of the statistics, or one derived from the row count. -/
def pageCountOf (stats : StatisticsCatalog R) (tableName : String) (rows : Nat) : R :=
  match stats.get tableName with
  | some s => if lt (ofRat 0) s.pageCount then s.pageCount else Cost.pagesFor rows 64
  | none => Cost.pagesFor rows 64

/-- Stacks one filter on a plan whose estimated rows are `running`. -/
def stackFilter (stats : StatisticsCatalog R) (scope : LogicalPlan) (st : PhysicalPlan R × R)
    (pred : Expression) : PhysicalPlan R × R :=
  let est := estimateFilter stats st.2 pred scope
  (.filter ⟨st.1.estimatedCost + Cost.filter (rowsToSize st.2), rowsToSize est.rows, est.reasoning,
    est.confidence⟩ pred st.1, est.rows)

def bestAccessPath (catalog : Catalog) (stats : StatisticsCatalog R) (rel : Relation) :
    PhysicalPlan R :=
  let scanEst := estimateScan stats rel.tableName
  let baseRows := rowsToSize scanEst.rows
  let scope := LogicalPlan.scan rel.tableName rel.aliasName []
  let scan : PhysicalPlan R := .seqScan ⟨Cost.seqScan baseRows (pageCountOf stats rel.tableName
    baseRows), baseRows, scanEst.reasoning, scanEst.confidence⟩ rel.tableName rel.aliasName []
  let seq := (rel.localFilters.foldl (stackFilter stats scope) (scan, scanEst.rows)).1
  match catalog.get rel.tableName with
  | none => seq
  | some schema =>
    match findIndexedEquality rel schema with
    | none => seq
    | some i =>
      match rel.localFilters[i]?.bind fun p => (indexedEquality schema p).map (p, ·) with
      | none => seq
      | some (pred, column, lit) =>
        let est := estimateFilter stats scanEst.rows pred scope
        let matched := rowsToSize est.rows
        let indexScan : PhysicalPlan R := .indexScan ⟨Cost.indexScan matched, matched,
          est.reasoning, est.confidence⟩ rel.tableName rel.aliasName [] column (.literal lit)
        let index := ((rel.localFilters.eraseIdx i).foldl (stackFilter stats scope)
          (indexScan, est.rows)).1
        if lt index.estimatedCost.total seq.estimatedCost.total then index else seq

section

variable {catalog : Catalog} {stats : StatisticsCatalog R}

/-- What a filter keeps, a stack of filters keeps. -/
theorem foldl_stackFilter_forall {P : PhysicalPlan R × R → Prop} {scope : LogicalPlan}
    (hfilter : ∀ st pred, P st → P (stackFilter stats scope st pred)) (preds : List Expression)
    {st : PhysicalPlan R × R} (h : P st) : P (preds.foldl (stackFilter stats scope) st) := by
  induction preds generalizing st with
  | nil => exact h
  | cons pred preds ih => exact ih (hfilter st pred h)

/-- The probe of an index scan is the equality that it replaces. -/
theorem columnLiteral_of_indexedEquality {schema : TableSchema} {pred : Expression} {column : String}
    {lit : Literal} (h : indexedEquality schema pred = some (column, lit)) :
    ∃ t, columnLiteral pred = some (t, column, lit) := by
  unfold indexedEquality at h
  split at h
  · next t c l hpred =>
    split at h
    · cases h
      exact ⟨t, hpred⟩
    · cases h
  · cases h

theorem mem_columns_of_columnLiteral {p : Expression} {t : Option String} {c : String}
    {lit : Literal} (h : columnLiteral p = some (t, c, lit)) : (t, c) ∈ p.columns := by
  unfold columnLiteral at h
  split at h
  · cases h
    simp [Expression.columns]
  · cases h
    simp [Expression.columns]
  · cases h

variable (catalog stats) in
/-- An access path is the filters over the scan of the table, or all of them but an equality over
the index scan of that. -/
theorem bestAccessPath_cases (rel : Relation) :
    (∃ scope rows reasoning confidence, bestAccessPath catalog stats rel =
      (rel.localFilters.foldl (stackFilter stats scope)
        (.seqScan ⟨Cost.seqScan (rowsToSize rows) (pageCountOf stats rel.tableName
          (rowsToSize rows)), rowsToSize rows, reasoning, confidence⟩ rel.tableName rel.aliasName [],
          rows)).1) ∨
    ∃ i pred t column lit, rel.localFilters[i]? = some pred ∧
      columnLiteral pred = some (t, column, lit) ∧
      ∃ scope rows reasoning confidence, bestAccessPath catalog stats rel =
        ((rel.localFilters.eraseIdx i).foldl (stackFilter stats scope)
          (.indexScan ⟨Cost.indexScan (rowsToSize rows), rowsToSize rows, reasoning, confidence⟩
            rel.tableName rel.aliasName [] column (.literal lit), rows)).1 := by
  unfold bestAccessPath
  dsimp only
  split
  case h_1 => exact .inl ⟨_, _, _, _, rfl⟩
  case h_2 schema hschema =>
    split
    case h_1 => exact .inl ⟨_, _, _, _, rfl⟩
    case h_2 i hfind =>
      split
      case h_1 => exact .inl ⟨_, _, _, _, rfl⟩
      case h_2 pred column lit hpred =>
        split
        case isFalse => exact .inl ⟨_, _, _, _, rfl⟩
        case isTrue =>
          obtain ⟨p, hp, hq⟩ := Option.bind_eq_some_iff.mp hpred
          obtain ⟨_, hindexed, heq⟩ := Option.map_eq_some_iff.mp hq
          cases heq
          obtain ⟨t, hcol⟩ := columnLiteral_of_indexedEquality hindexed
          exact .inr ⟨i, pred, t, column, lit, hp, hcol, _, _, _, _, rfl⟩

/-- The column that the index scan of an access path probes. -/
def PhysicalPlan.probedColumn : PhysicalPlan R → Option String
  | .indexScan _ _ _ _ column _ => some column
  | .filter _ _ input => input.probedColumn
  | _ => none

theorem probedColumn_stackFilter {scope : LogicalPlan}
    (preds : List Expression) (st : PhysicalPlan R × R) :
    (preds.foldl (stackFilter stats scope) st).1.probedColumn = st.1.probedColumn :=
  foldl_stackFilter_forall (P := fun st' => st'.1.probedColumn = st.1.probedColumn)
    (fun _ _ h => h) preds rfl

/-- The probed column is compared to a literal by a filter. -/
theorem exists_filter_of_probedColumn {rel : Relation} {c : String} (h : (bestAccessPath catalog stats rel).probedColumn = some c) :
    ∃ p ∈ rel.localFilters, ∃ t l, columnLiteral p = some (t, c, l) := by
  rcases bestAccessPath_cases catalog stats rel with
    ⟨scope, rows, _, _, heq⟩ | ⟨i, pred, t, column, lit, hp, hcol, scope, rows, _, _, heq⟩
  · rw [heq, probedColumn_stackFilter] at h
    cases h
  · rw [heq, probedColumn_stackFilter] at h
    cases h
    exact ⟨pred, List.mem_of_getElem? hp, t, lit, hcol⟩

/-- What holds of the two scans of a relation, with the estimated rows before rounding, and is kept
by filters holds of its access path. -/
theorem bestAccessPath_state {P : PhysicalPlan R × R → Prop} {rel : Relation}
    (hseq : ∀ rows reasoning confidence, P (.seqScan ⟨Cost.seqScan (rowsToSize rows)
      (pageCountOf stats rel.tableName (rowsToSize rows)), rowsToSize rows, reasoning, confidence⟩
      rel.tableName rel.aliasName [], rows))
    (hindex : ∀ rows reasoning confidence column lit, P (.indexScan ⟨Cost.indexScan (rowsToSize rows),
      rowsToSize rows, reasoning, confidence⟩ rel.tableName rel.aliasName [] column lit, rows))
    (hfilter : ∀ scope st pred, P st → P (stackFilter stats scope st pred)) :
    ∃ rows, P (bestAccessPath catalog stats rel, rows) := by
  rcases bestAccessPath_cases catalog stats rel with
    ⟨scope, rows, _, _, heq⟩ | ⟨i, pred, t, column, lit, hp, hcol, scope, rows, _, _, heq⟩
  · rw [heq]
    exact ⟨_, foldl_stackFilter_forall (hfilter _) _ (hseq _ _ _)⟩
  · rw [heq]
    exact ⟨_, foldl_stackFilter_forall (hfilter _) _ (hindex _ _ _ _ _)⟩

/-- What holds of the two scans of a relation and is kept by filters holds of its access path. -/
theorem bestAccessPath_forall {P : PhysicalPlan R → Prop} {rel : Relation}
    (hseq : ∀ rows pages reasoning confidence, P (.seqScan ⟨Cost.seqScan rows pages, rows, reasoning,
      confidence⟩ rel.tableName rel.aliasName []))
    (hindex : ∀ rows reasoning confidence column lit, P (.indexScan ⟨Cost.indexScan rows, rows,
      reasoning, confidence⟩ rel.tableName rel.aliasName [] column lit))
    (hfilter : ∀ scope st pred, P st.1 → P (stackFilter stats scope st pred).1) :
    P (bestAccessPath catalog stats rel) :=
  (bestAccessPath_state (P := fun st => P st.1) (fun _ _ _ => hseq _ _ _ _)
    (fun _ _ _ _ _ => hindex _ _ _ _ _) hfilter).choose_spec

end

end SqlOptimizer
