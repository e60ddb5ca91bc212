import SqlOptimizer.Distributed.Relations
import SqlOptimizer.Execution.OuterJoin

/-! The scan of one relation over the workers against the scan of the whole database. -/

namespace SqlOptimizer

/-! ### The owner of a row -/

theorem partitionOf_lt {n : Nat} (hn : 0 < n) (id : Int64) : partitionOf id n < n := by
  have hpos : (0 : Int) < n := by omega
  have hlow := Int.lt_tmod_of_pos id.toInt hpos
  have hhigh := Int.tmod_lt_of_pos id.toInt hpos
  rw [partitionOf, if_neg (by omega)]
  dsimp only
  split <;> omega

/-- The worker that owns a row, if its id is an integer. -/
def ownerOf (idCol n : Nat) (row : Row) : Option Nat :=
  match row[idCol]? with
  | some (.integer id) => some (partitionOf id n)
  | _ => none

theorem ownsRow_eq (idCol i n : Nat) (row : Row) :
    ownsRow idCol i n row = (ownerOf idCol n row == some i) := by
  unfold ownsRow ownerOf
  cases row[idCol]? with
  | none => rfl
  | some v => cases v <;> simp

theorem ownerOf_any_lt {idCol n : Nat} (hn : 0 < n) {row : Row} :
    (ownerOf idCol n row).any (· < n) = true ↔ ∃ id, row[idCol]? = some (.integer id) := by
  unfold ownerOf
  split
  · rename_i id hid
    simp [hid, partitionOf_lt hn]
  · rename_i hid
    simp only [Option.any_none, Bool.false_eq_true, false_iff, not_exists]
    exact fun id h => hid id h

/-- The rows of a part of a table: those that the worker owns, or all of them without an `id`
column. -/
theorem rows_filterTableToPartition (table : Table) (i n : Nat) :
    (filterTableToPartition table i n).rows =
      match table.columnNames.findIdx? (· == "id") with
      | none => table.rows
      | some idCol => table.rows.filter (ownerOf idCol n · == some i) := by
  unfold filterTableToPartition
  cases table.columnNames.findIdx? (· == "id") with
  | none => rfl
  | some idCol => exact List.filter_congr fun row _ => ownsRow_eq idCol i n row

section

variable [Rounding] {R : Type}

/-! ### The scan -/

/-- A relation returns this row of its table. -/
def Returns (p : PhysicalPlan R) (table : Table) (row : Row) : Prop :=
  ∃ test, relationTest (relationSchema p table.columnNames) p = .ok test ∧ test row = .ok true

/-- The rows that a relation returns are each on one of the workers: the only one when the table has
no `id` column, the owner of their integer id when it has one. -/
def Placed (p : PhysicalPlan R) (table : Table) (n : Nat) : Prop :=
  match table.columnNames.findIdx? (· == "id") with
  | none => n = 1 ∨ ∀ row ∈ table.rows, ¬ Returns p table row
  | some idCol => ∀ row ∈ table.rows, Returns p table row →
      ∃ id, row[idCol]? = some (.integer id)

variable [CostNum R]

/-- The scan of one relation over the workers: where the scan of the whole database succeeds, its
rows come back once each exactly when they are placed. -/
theorem collectSingle_perm_iff {u : UnwrapResult R} {full : Database} {schemaCatalog : Catalog}
    {n : Nat} {table : Table} {out : ExecutionResult} (hcore : isSingleRelation u.core = true)
    (hu : u.aggregate = none) (hn : 0 < n)
    (hname : (unwrapFilter u.core).tableName ∈ schemaCatalog)
    (ht : full.get (unwrapFilter u.core).tableName = some table)
    (hout : executePlan u.core full ∅ = .ok out) :
    (∃ res, collectSingle (executeOnPartition full schemaCatalog n) n u = .ok res ∧
      res.rows.Perm out.rows) ↔ Placed u.core table n := by
  obtain ⟨e, he, hschema, hrun⟩ := exists_relation_executor hcore ht ∅
  obtain ⟨e', he', hrows, -⟩ := executePlan_eq_ok.mp hout
  cases he.symm.trans he'
  obtain ⟨test, htest, hall, hkept⟩ := (hrun _).mp hrows
  have hcall := executeOnPartition_relation hcore hname ht htest hall n
  have hcollect : collectSingle (executeOnPartition full schemaCatalog n) n u =
      mergeResponses none ((List.range n).map fun i =>
        ⟨(relationSchema u.core table.columnNames).qualifiedNames,
          (filterTableToPartition table i n).rows.filter fun row =>
            (test row).toOption.getD false⟩) := by
    rw [collectSingle, hu, partialPlan, Except.mapM_eq_ok_map fun i _ => hcall i, Except.ok_bind]
  -- a row of the table is returned exactly when it is in the scan of the whole
  have hreturns : ∀ row ∈ table.rows, Returns u.core table row ↔ row ∈ out.rows := by
    intro row hrow
    obtain ⟨b, hb⟩ := hall row hrow
    rw [hkept, List.mem_filter, and_iff_right hrow, hb]
    constructor
    · rintro ⟨test', htest', hb'⟩
      cases htest.symm.trans htest'
      rw [hb] at hb'
      cases hb'
      rfl
    · intro htrue
      have : b = true := htrue
      exact ⟨test, htest, this ▸ hb⟩
  have hsub : ∀ row ∈ out.rows, row ∈ table.rows := fun row hrow =>
    (List.mem_filter.mp (hkept ▸ hrow)).1
  rw [hcollect]
  simp only [mergeResponses, Except.ok.injEq, exists_eq_left', List.flatMap_map,
    rows_filterTableToPartition]
  unfold Placed
  cases table.columnNames.findIdx? (· == "id") with
  | none =>
    dsimp only
    rw [← hkept, Parts.flatMap_const_perm_iff, List.eq_nil_iff_forall_not_mem]
    refine or_congr_right ⟨fun h row hrow => ?_, fun h row hrow => ?_⟩
    · exact fun hret => h row ((hreturns row hrow).mp hret)
    · exact h row (hsub row hrow) ((hreturns row (hsub row hrow)).mpr hrow)
  | some idCol =>
    simp only [List.filter_comm (p := fun row => (test row).toOption.getD false), ← hkept]
    rw [(Parts.flatMap_filter_some_perm _ n out.rows).congr_left, Parts.filter_perm_iff]
    simp only [ownerOf_any_lt hn]
    constructor
    · exact fun h row hrow hret => h row ((hreturns row hrow).mp hret)
    · exact fun h row hrow => h row (hsub row hrow) ((hreturns row (hsub row hrow)).mpr hrow)

end

/-! ### Two small tables -/

/-- A catalog of one table `t`, whose columns the scan takes from the loaded table. -/
def oneTableCatalog : Catalog :=
  AList.insert "t" { columns := [], stats := ⟨0, 0⟩, indexedColumns := [] } ∅

def oneTableDatabase (columnNames : List String) (rows : List Row)
    (width : ∀ row ∈ rows, row.length = columnNames.length) : Database :=
  AList.insert "t" ⟨columnNames, rows, width⟩ ∅

/-- `SELECT * FROM t` -/
def scanT : UnwrapResult ℚ := ⟨[], none, none, .seqScan noEstimates "t" none []⟩

section

attribute [local instance] Rounding.exact

local instance scanCosts : CostNum ℚ := CostNum.rational id

/-- Without an `id` column both workers have the row; with a NULL id neither has it. -/
theorem collectSingle_repeats_and_drops :
    executePlan scanT.core (oneTableDatabase ["x"] [[.integer 7]] (by decide)) ∅ =
      .ok ⟨["t.x"], [[.integer 7]]⟩ ∧
    collectSingle (executeOnPartition (oneTableDatabase ["x"] [[.integer 7]] (by decide))
      oneTableCatalog 2) 2 scanT = .ok ⟨["t.x"], [[.integer 7], [.integer 7]]⟩ ∧
    executePlan scanT.core (oneTableDatabase ["id"] [[.null]] (by decide)) ∅ =
      .ok ⟨["t.id"], [[.null]]⟩ ∧
    collectSingle (executeOnPartition (oneTableDatabase ["id"] [[.null]] (by decide))
      oneTableCatalog 2) 2 scanT = .ok ⟨["t.id"], []⟩ ∧
    ¬ ([[.integer 7], [.integer 7]] : List Row).Perm [[.integer 7]] ∧
    ¬ ([] : List Row).Perm [[.null]] := by
  refine ⟨by decide, by decide, by decide, by decide, by decide,
    by decide⟩

/-- Ids of either sign on two workers. -/
theorem collectSingle_perm_integer_ids :
    ∃ res, collectSingle (executeOnPartition
        (oneTableDatabase ["id"] [[.integer (-3)], [.integer 4]] (by decide)) oneTableCatalog 2)
        2 scanT = .ok res ∧
      res.rows.Perm [[.integer (-3)], [.integer 4]] := by
  have hout : executePlan scanT.core
      (oneTableDatabase ["id"] [[.integer (-3)], [.integer 4]] (by decide)) ∅ =
    .ok ⟨["t.id"], [[.integer (-3)], [.integer 4]]⟩ := by decide
  refine (collectSingle_perm_iff rfl rfl (by decide) ?_ rfl hout).mpr ?_
  · exact AList.mem_keys.mpr List.mem_cons_self
  · intro row hrow _
    rcases List.mem_cons.mp hrow with rfl | hrow
    · exact ⟨-3, rfl⟩
    · rcases List.mem_cons.mp hrow with rfl | hrow
      · exact ⟨4, rfl⟩
      · cases hrow

end

end SqlOptimizer
