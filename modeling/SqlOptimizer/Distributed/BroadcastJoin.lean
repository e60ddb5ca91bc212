import SqlOptimizer.Distributed.PartitionedScan

/-! The broadcast join of two relations against the join on the whole database. -/

namespace SqlOptimizer

/-! ### Tables that are split without loss -/

/-- Every row has an integer in the `id` column. -/
def IntegerIds (table : Table) : Prop :=
  ∀ row ∈ table.rows, ∃ idCol id, table.columnNames.findIdx? (· == "id") = some idCol ∧
    row[idCol]? = some (.integer id)

theorem IntegerIds.ownedOnce {table : Table} {n : Nat} (h : IntegerIds table) (hn : 0 < n) :
    OwnedOnce table n := by
  unfold OwnedOnce
  simp only [rows_filterTableToPartition]
  cases hid : table.columnNames.findIdx? (· == "id") with
  | none =>
    have hempty : table.rows = [] := by
      rw [List.eq_nil_iff_forall_not_mem]
      intro row hrow
      obtain ⟨_, _, hsome, -⟩ := h row hrow
      rw [hid] at hsome
      cases hsome
    rw [hempty]
    exact Parts.flatMap_const_perm_iff.mpr (.inr rfl)
  | some idCol =>
    dsimp only
    rw [(Parts.flatMap_filter_some_perm _ n _).congr_left, Parts.filter_perm_iff]
    intro row hrow
    obtain ⟨i, id, hi, hrowId⟩ := h row hrow
    cases hid.symm.trans hi
    exact (ownerOf_any_lt hn).mpr ⟨id, hrowId⟩

section

variable [Rounding] {R : Type}

/-! ### What a relation keeps of the parts -/

theorem Keeps.congr_rows {schema : RowSchema} {p : PhysicalPlan R} {rows rows' out : List Row}
    (h : Keeps schema p rows out) (hsub : rows' ⊆ rows) :
    ∃ out', Keeps schema p rows' out' := by
  obtain ⟨test, htest, hall, -⟩ := h
  exact ⟨_, test, htest, fun row hrow => hall row (hsub hrow), rfl⟩

/-- What a relation keeps of the parts of a table is, together, what it keeps of the table. -/
theorem keeps_flatMap_parts {schema : RowSchema} {p : PhysicalPlan R} {table : Table} {n : Nat}
    {rowsOf : Nat → List Row} (hn : 0 < n) (howned : OwnedOnce table n)
    (h : ∀ i < n, Keeps schema p (filterTableToPartition table i n).rows (rowsOf i)) :
    ∃ rows, Keeps schema p table.rows rows ∧ ((List.range n).flatMap rowsOf).Perm rows := by
  obtain ⟨test, htest, -⟩ := h 0 hn
  have hparts : ∀ i < n, (∀ row ∈ (filterTableToPartition table i n).rows, ∃ b, test row = .ok b) ∧
      rowsOf i = (filterTableToPartition table i n).rows.filter fun row =>
        (test row).toOption.getD false := by
    intro i hi
    obtain ⟨test', htest', hall, hkept⟩ := h i hi
    cases htest.symm.trans htest'
    exact ⟨hall, hkept⟩
  refine ⟨_, ⟨test, htest, fun row hrow => ?_, rfl⟩, ?_⟩
  · obtain ⟨i, hi, hrowi⟩ := List.mem_flatMap.mp (howned.mem_iff.mpr hrow)
    exact (hparts i (List.mem_range.mp hi)).1 row hrowi
  · rw [List.flatMap_congr fun i hi => (hparts i (List.mem_range.mp hi)).2, ← List.filter_flatMap]
    exact howned.filter _

theorem Keeps.unique {schema : RowSchema} {p : PhysicalPlan R} {rows out out' : List Row}
    (h : Keeps schema p rows out) (h' : Keeps schema p rows out') : out = out' := by
  obtain ⟨test, htest, -, rfl⟩ := h
  obtain ⟨test', htest', -, rfl⟩ := h'
  cases htest.symm.trans htest'
  rfl

/-- A relation that succeeds on a table succeeds on its parts. -/
theorem Keeps.parts {schema : RowSchema} {p : PhysicalPlan R} {table : Table} {rows : List Row}
    {n : Nat} (h : Keeps schema p table.rows rows) (hn : 0 < n) (howned : OwnedOnce table n) :
    ∃ rowsOf : Nat → List Row,
      (∀ i < n, Keeps schema p (filterTableToPartition table i n).rows (rowsOf i)) ∧
        ((List.range n).flatMap rowsOf).Perm rows := by
  choose rowsOf hrowsOf using fun i =>
    h.congr_rows fun row (hrow : row ∈ (filterTableToPartition table i n).rows) =>
      mem_filterTableToPartition hrow
  have hparts : ∀ i < n, Keeps schema p (filterTableToPartition table i n).rows (rowsOf i) :=
    fun i _ => hrowsOf i
  obtain ⟨rows', hkeeps, hperm⟩ := keeps_flatMap_parts hn howned hparts
  exact ⟨rowsOf, hparts, h.unique hkeeps ▸ hperm⟩

/-- The call of worker `i` for a relation. -/
theorem executeOnPartition_relation_eq_ok {p : PhysicalPlan R} (hp : isSingleRelation p = true)
    {full : Database} {schemaCatalog : Catalog} {table : Table} {n i : Nat} {out : ExecutionResult}
    (hname : (unwrapFilter p).tableName ∈ schemaCatalog)
    (ht : full.get (unwrapFilter p).tableName = some table) :
    executeOnPartition full schemaCatalog n i p ∅ = .ok out ↔
      ∃ rows, Keeps (relationSchema p table.columnNames) p
          (filterTableToPartition table i n).rows rows ∧
        out = ⟨(relationSchema p table.columnNames).qualifiedNames, rows⟩ := by
  obtain ⟨e, he, hschema, hrun⟩ := exists_relation_executor hp
    (get_filterDatabaseToPartition hname ht i n) ∅
  rw [columnNames_filterTableToPartition] at hschema hrun
  rw [executeOnPartition, executePlan_eq_ok]
  constructor
  · rintro ⟨e', he', hrows, hcolumns⟩
    cases he.symm.trans he'
    exact ⟨out.rows, (hrun _).mp hrows, by rw [← hschema, ← hcolumns]⟩
  · rintro ⟨rows, hkeeps, rfl⟩
    exact ⟨e, he, (hrun _).mpr hkeeps, by rw [hschema]⟩

/-! ### The joins of two relations, and of a relation with the rows of the other side -/

/-- The rows of an executor of a relation. -/
theorem wide_of_keeps {p : PhysicalPlan R} {table : Table} {e : Executor}
    (hschema : e.schema = relationSchema p table.columnNames)
    (hrun : ∀ rows, e.run = .ok rows ↔
      Keeps (relationSchema p table.columnNames) p table.rows rows) : e.Wide := by
  intro rows hrows row hrow
  rw [hschema, size_relationSchema]
  exact ((hrun rows).mp hrows).length hrow

theorem executePlan_join_relations_eq_ok {ann : Annotation R} {kind : JoinKind}
    {joinType : JoinType} {condition : Expression} {p q : PhysicalPlan R} {db : Database}
    {sets : ExternalRowSets} {left right : Table} {out : ExecutionResult}
    (hp : isSingleRelation p = true) (hq : isSingleRelation q = true)
    (hl : db.get (unwrapFilter p).tableName = some left)
    (hr : db.get (unwrapFilter q).tableName = some right) :
    let ls := relationSchema p left.columnNames
    let rs := relationSchema q right.columnNames
    executePlan (.join ann kind joinType condition p q) db sets = .ok out ↔
      joinAccepts kind condition ls rs ∧ ∃ l r, Keeps ls p left.rows l ∧ Keeps rs q right.rows r ∧
        (∀ a ∈ l, ∀ b ∈ r, ∃ v, joinMatch kind condition ls rs a b = .ok v) ∧
        out = ⟨(ls.extend rs).qualifiedNames, joined kind condition ls rs l r⟩ := by
  intro ls rs
  obtain ⟨le, hle, hls, hlrun⟩ := exists_relation_executor hp hl sets
  obtain ⟨re, hre, hrs, hrrun⟩ := exists_relation_executor hq hr sets
  rw [executePlan_join_eq_ok hle hre (wide_of_keeps hls hlrun) (wide_of_keeps hrs hrrun), hls, hrs]
  simp only [hlrun, hrrun]
  rfl

variable [CostNum R]

/-- Worker `i` joins the broadcast rows of the left side with its part of the right. -/
theorem executeOnPartition_broadcastLeft_eq_ok {join : JoinNode R} {full : Database}
    {schemaCatalog : Catalog} {n i k : Nat} {name : String} {ss : RowSchema} {small : List Row}
    {table : Table} {out : ExecutionResult} (hq : isSingleRelation join.right = true)
    (hname : (unwrapFilter join.right).tableName ∈ schemaCatalog)
    (ht : full.get (unwrapFilter join.right).tableName = some table)
    (hsmall : ∀ row ∈ small, row.length = ss.size) (hss : reread ss = ss) :
    let rs := relationSchema join.right table.columnNames
    executeOnPartition full schemaCatalog n i
        (join.plan (makeExternalRows name ss.qualifiedNames 0 k) join.right)
        (AList.singleton 0 small) = .ok out ↔
      joinAccepts join.kind join.condition ss rs ∧
        ∃ r, Keeps rs join.right (filterTableToPartition table i n).rows r ∧
          (∀ a ∈ small, ∀ b ∈ r, ∃ v, joinMatch join.kind join.condition ss rs a b = .ok v) ∧
          out = ⟨(ss.extend rs).qualifiedNames,
            joined join.kind join.condition ss rs small r⟩ := by
  intro rs
  obtain ⟨re, hre, hrs, hrrun⟩ := exists_relation_executor hq
    (get_filterDatabaseToPartition hname ht i n) (AList.singleton 0 small)
  have hwide := wide_of_keeps hrs hrrun
  rw [columnNames_filterTableToPartition] at hrs hrrun
  rw [executeOnPartition, JoinNode.plan, executePlan_join_eq_ok (buildExecutor_makeExternalRows
    (lookup_singleton small) k)
    hre (wide_externalRows hsmall) hwide, hrs]
  simp only [hrrun, Executor.schema, hss]
  refine and_congr_right fun _ => ?_
  constructor
  · rintro ⟨_, r, ⟨rfl⟩, hr, hall, hout⟩
    exact ⟨r, hr, hall, hout⟩
  · rintro ⟨r, hr, hall, hout⟩
    exact ⟨small, r, rfl, hr, hall, hout⟩

/-- Worker `i` joins its part of the left side with the broadcast rows of the right. -/
theorem executeOnPartition_broadcastRight_eq_ok {join : JoinNode R} {full : Database}
    {schemaCatalog : Catalog} {n i k : Nat} {name : String} {ss : RowSchema} {small : List Row}
    {table : Table} {out : ExecutionResult} (hp : isSingleRelation join.left = true)
    (hname : (unwrapFilter join.left).tableName ∈ schemaCatalog)
    (ht : full.get (unwrapFilter join.left).tableName = some table)
    (hsmall : ∀ row ∈ small, row.length = ss.size) (hss : reread ss = ss) :
    let ls := relationSchema join.left table.columnNames
    executeOnPartition full schemaCatalog n i
        (join.plan join.left (makeExternalRows name ss.qualifiedNames 0 k))
        (AList.singleton 0 small) = .ok out ↔
      joinAccepts join.kind join.condition ls ss ∧
        ∃ l, Keeps ls join.left (filterTableToPartition table i n).rows l ∧
          (∀ a ∈ l, ∀ b ∈ small, ∃ v, joinMatch join.kind join.condition ls ss a b = .ok v) ∧
          out = ⟨(ls.extend ss).qualifiedNames,
            joined join.kind join.condition ls ss l small⟩ := by
  intro ls
  obtain ⟨le, hle, hls, hlrun⟩ := exists_relation_executor hp
    (get_filterDatabaseToPartition hname ht i n) (AList.singleton 0 small)
  have hwide := wide_of_keeps hls hlrun
  rw [columnNames_filterTableToPartition] at hls hlrun
  rw [executeOnPartition, JoinNode.plan, executePlan_join_eq_ok hle
    (buildExecutor_makeExternalRows
    (lookup_singleton small) k) hwide (wide_externalRows hsmall), hls]
  simp only [hlrun, Executor.schema, hss]
  refine and_congr_right fun _ => ?_
  constructor
  · rintro ⟨l, _, hl, ⟨rfl⟩, hall, hout⟩
    exact ⟨l, hl, hall, hout⟩
  · rintro ⟨l, hl, hall, hout⟩
    exact ⟨l, small, hl, rfl, hall, hout⟩

/-! ### The broadcast -/

omit [CostNum R] in
/-- What the workers send of one relation. -/
theorem gather_eq_ok {p : PhysicalPlan R} {full : Database} {schemaCatalog : Catalog} {n : Nat}
    {table : Table} {small : List ExecutionResult} (hp : isSingleRelation p = true)
    (hname : (unwrapFilter p).tableName ∈ schemaCatalog)
    (ht : full.get (unwrapFilter p).tableName = some table) :
    ((List.range n).mapM fun i => executeOnPartition full schemaCatalog n i p ∅) = .ok small ↔
      ∃ rowsOf : Nat → List Row, (∀ i < n, Keeps (relationSchema p table.columnNames) p
          (filterTableToPartition table i n).rows (rowsOf i)) ∧
        small = (List.range n).map fun i =>
          ⟨(relationSchema p table.columnNames).qualifiedNames, rowsOf i⟩ := by
  constructor
  · intro h
    have : Nonempty ExecutionResult := ⟨⟨[], []⟩⟩
    obtain ⟨g, hg, rfl⟩ := Except.exists_map_of_mapM_eq_ok h
    have hi : ∀ i < n, Keeps (relationSchema p table.columnNames) p
        (filterTableToPartition table i n).rows (g i).rows ∧
          g i = ⟨(relationSchema p table.columnNames).qualifiedNames, (g i).rows⟩ := by
      intro i hi
      obtain ⟨rows, hkeeps, hout⟩ := (executeOnPartition_relation_eq_ok hp hname ht).mp
        (hg i (List.mem_range.mpr hi))
      rw [hout]
      exact ⟨hkeeps, rfl⟩
    refine ⟨fun i => (g i).rows, fun i h => (hi i h).1, ?_⟩
    exact List.map_congr_left fun i h => (hi i (List.mem_range.mp h)).2
  · rintro ⟨rowsOf, hkeeps, rfl⟩
    exact Except.mapM_eq_ok_map fun i hi => (executeOnPartition_relation_eq_ok hp hname ht).mpr
      ⟨rowsOf i, hkeeps i (List.mem_range.mp hi), rfl⟩

omit [Rounding] in
theorem lastColumns_map {n : Nat} (hn : 0 < n) (columns : List String) (rowsOf : Nat → List Row) :
    lastColumns ((List.range n).map fun i => ⟨columns, rowsOf i⟩) = columns := by
  obtain ⟨m, rfl⟩ := Nat.exists_eq_succ_of_ne_zero (by omega : n ≠ 0)
  simp [lastColumns, List.range_succ]

section Collect

variable {join : JoinNode R} {u : UnwrapResult R} {full : Database} {schemaCatalog : Catalog}
  {n : Nat} {left right : Table} {res : ExecutionResult} {lOf rOf : Nat → List Row}

/-- The sides of a join are relations over loaded tables of the catalog. -/
structure JoinNode.Over (join : JoinNode R) (full : Database) (schemaCatalog : Catalog)
    (left right : Table) : Prop where
  leftSingle : isSingleRelation join.left = true
  rightSingle : isSingleRelation join.right = true
  leftName : (unwrapFilter join.left).tableName ∈ schemaCatalog
  rightName : (unwrapFilter join.right).tableName ∈ schemaCatalog
  leftTable : full.get (unwrapFilter join.left).tableName = some left
  rightTable : full.get (unwrapFilter join.right).tableName = some right

abbrev JoinNode.leftSchema (join : JoinNode R) (left : Table) : RowSchema :=
  relationSchema join.left left.columnNames

abbrev JoinNode.rightSchema (join : JoinNode R) (right : Table) : RowSchema :=
  relationSchema join.right right.columnNames

/-- What the relations keep on each worker, with a condition that can be decided on every pair. -/
structure Gathered (join : JoinNode R) (left right : Table) (n : Nat) (lOf rOf : Nat → List Row) :
    Prop where
  leftKeeps : ∀ i < n, Keeps (join.leftSchema left) join.left
    (filterTableToPartition left i n).rows (lOf i)
  rightKeeps : ∀ i < n, Keeps (join.rightSchema right) join.right
    (filterTableToPartition right i n).rows (rOf i)
  accepts : joinAccepts join.kind join.condition (join.leftSchema left) (join.rightSchema right)
  pairs : ∀ a ∈ (List.range n).flatMap lOf, ∀ b ∈ (List.range n).flatMap rOf, ∃ v,
    joinMatch join.kind join.condition (join.leftSchema left) (join.rightSchema right) a b = .ok v

omit [CostNum R] in
theorem length_of_keeps_parts {p : PhysicalPlan R} {table : Table} {rowsOf : Nat → List Row}
    (h : ∀ i < n, Keeps (relationSchema p table.columnNames) p
      (filterTableToPartition table i n).rows (rowsOf i)) :
    ∀ row ∈ (List.range n).flatMap rowsOf,
      row.length = (relationSchema p table.columnNames).size := by
  intro row hrow
  obtain ⟨i, hi, hrow⟩ := List.mem_flatMap.mp hrow
  rw [size_relationSchema, (h i (List.mem_range.mp hi)).length hrow,
    columnNames_filterTableToPartition]

/-- The joined rows of the workers when the left side is broadcast. -/
def broadcastLeftRows (join : JoinNode R) (left right : Table) (n : Nat)
    (lOf rOf : Nat → List Row) : List Row :=
  (List.range n).flatMap fun i => joined join.kind join.condition (join.leftSchema left)
    (join.rightSchema right) ((List.range n).flatMap lOf) (rOf i)

theorem collectBroadcast_left_eq_ok (hover : join.Over full schemaCatalog left right)
    (hu : u.aggregate = none) (hn : 0 < n)
    (hls : reread (join.leftSchema left) = join.leftSchema left) :
    collectBroadcast (executeOnPartition full schemaCatalog n) n join true u = .ok res ↔
      ∃ lOf rOf, Gathered join left right n lOf rOf ∧
        res = ⟨((join.leftSchema left).extend (join.rightSchema right)).qualifiedNames,
          broadcastLeftRows join left right n lOf rOf⟩ := by
  simp only [collectBroadcast, hu, partialPlan, if_true, Except.bind_eq_ok,
    gather_eq_ok hover.leftSingle hover.leftName hover.leftTable, mergeResponses, Except.ok.injEq]
  constructor
  · rintro ⟨_, ⟨lOf, hlOf, rfl⟩, responses, hresponses, rfl⟩
    rw [lastColumns_map hn, List.flatMap_map] at hresponses
    have : Nonempty ExecutionResult := ⟨⟨[], []⟩⟩
    obtain ⟨g, hg, rfl⟩ := Except.exists_map_of_mapM_eq_ok hresponses
    have hworker := fun i (hi : i < n) => (executeOnPartition_broadcastLeft_eq_ok hover.rightSingle
      hover.rightName hover.rightTable (length_of_keeps_parts hlOf) hls).mp
        (hg i (List.mem_range.mpr hi))
    choose! rOf hrOf hpairs hout using fun i hi => (hworker i hi).2
    have hcolumns : (List.range n).map g = (List.range n).map fun i =>
        ⟨((join.leftSchema left).extend (join.rightSchema right)).qualifiedNames,
          joined join.kind join.condition (join.leftSchema left) (join.rightSchema right)
            ((List.range n).flatMap lOf) (rOf i)⟩ :=
      List.map_congr_left fun i hi => hout i (List.mem_range.mp hi)
    refine ⟨lOf, rOf, ⟨hlOf, hrOf, (hworker 0 hn).1, fun a ha b hb => ?_⟩, ?_⟩
    · obtain ⟨i, hi, hb⟩ := List.mem_flatMap.mp hb
      exact hpairs i (List.mem_range.mp hi) a ha b hb
    · rw [hcolumns, lastColumns_map hn, List.flatMap_map, broadcastLeftRows]
  · rintro ⟨lOf, rOf, hgathered, rfl⟩
    refine ⟨_, ⟨lOf, hgathered.leftKeeps, rfl⟩, ?_⟩
    rw [lastColumns_map hn, List.flatMap_map]
    refine ⟨_, Except.mapM_eq_ok_map fun i hi => (executeOnPartition_broadcastLeft_eq_ok
      hover.rightSingle hover.rightName hover.rightTable
        (length_of_keeps_parts hgathered.leftKeeps) hls).mpr ⟨hgathered.accepts, rOf i,
          hgathered.rightKeeps i (List.mem_range.mp hi),
          fun a ha b hb => hgathered.pairs a ha b (List.mem_flatMap.mpr ⟨i, hi, hb⟩), rfl⟩, ?_⟩
    rw [lastColumns_map hn, List.flatMap_map, broadcastLeftRows]

/-- The joined rows of the workers when the right side is broadcast. -/
def broadcastRightRows (join : JoinNode R) (left right : Table) (n : Nat)
    (lOf rOf : Nat → List Row) : List Row :=
  (List.range n).flatMap fun i => joined join.kind join.condition (join.leftSchema left)
    (join.rightSchema right) (lOf i) ((List.range n).flatMap rOf)

theorem collectBroadcast_right_eq_ok (hover : join.Over full schemaCatalog left right)
    (hu : u.aggregate = none) (hn : 0 < n)
    (hrs : reread (join.rightSchema right) = join.rightSchema right) :
    collectBroadcast (executeOnPartition full schemaCatalog n) n join false u = .ok res ↔
      ∃ lOf rOf, Gathered join left right n lOf rOf ∧
        res = ⟨((join.leftSchema left).extend (join.rightSchema right)).qualifiedNames,
          broadcastRightRows join left right n lOf rOf⟩ := by
  simp only [collectBroadcast, hu, partialPlan, Bool.false_eq_true, if_false, Except.bind_eq_ok,
    gather_eq_ok hover.rightSingle hover.rightName hover.rightTable, mergeResponses,
    Except.ok.injEq]
  constructor
  · rintro ⟨_, ⟨rOf, hrOf, rfl⟩, responses, hresponses, rfl⟩
    rw [lastColumns_map hn, List.flatMap_map] at hresponses
    have : Nonempty ExecutionResult := ⟨⟨[], []⟩⟩
    obtain ⟨g, hg, rfl⟩ := Except.exists_map_of_mapM_eq_ok hresponses
    have hworker := fun i (hi : i < n) => (executeOnPartition_broadcastRight_eq_ok hover.leftSingle
      hover.leftName hover.leftTable (length_of_keeps_parts hrOf) hrs).mp
        (hg i (List.mem_range.mpr hi))
    choose! lOf hlOf hpairs hout using fun i hi => (hworker i hi).2
    have hcolumns : (List.range n).map g = (List.range n).map fun i =>
        ⟨((join.leftSchema left).extend (join.rightSchema right)).qualifiedNames,
          joined join.kind join.condition (join.leftSchema left) (join.rightSchema right)
            (lOf i) ((List.range n).flatMap rOf)⟩ :=
      List.map_congr_left fun i hi => hout i (List.mem_range.mp hi)
    refine ⟨lOf, rOf, ⟨hlOf, hrOf, (hworker 0 hn).1, fun a ha b hb => ?_⟩, ?_⟩
    · obtain ⟨i, hi, ha⟩ := List.mem_flatMap.mp ha
      exact hpairs i (List.mem_range.mp hi) a ha b hb
    · rw [hcolumns, lastColumns_map hn, List.flatMap_map, broadcastRightRows]
  · rintro ⟨lOf, rOf, hgathered, rfl⟩
    refine ⟨_, ⟨rOf, hgathered.rightKeeps, rfl⟩, ?_⟩
    rw [lastColumns_map hn, List.flatMap_map]
    refine ⟨_, Except.mapM_eq_ok_map fun i hi => (executeOnPartition_broadcastRight_eq_ok
      hover.leftSingle hover.leftName hover.leftTable
        (length_of_keeps_parts hgathered.rightKeeps) hrs).mpr ⟨hgathered.accepts, lOf i,
          hgathered.leftKeeps i (List.mem_range.mp hi),
          fun a ha b hb => hgathered.pairs a (List.mem_flatMap.mpr ⟨i, hi, ha⟩) b hb, rfl⟩, ?_⟩
    rw [lastColumns_map hn, List.flatMap_map, broadcastRightRows]

omit [CostNum R] in
/-- One side in full on every worker, the other in parts: together the join of all the rows. -/
theorem broadcastLeftRows_perm :
    (broadcastLeftRows join left right n lOf rOf).Perm (joined join.kind join.condition
      (join.leftSchema left) (join.rightSchema right) ((List.range n).flatMap lOf)
        ((List.range n).flatMap rOf)) := by
  unfold broadcastLeftRows joined
  exact Pairs.flatMap_joinBy_right_perm _ _ _ _ _

omit [CostNum R] in
theorem broadcastRightRows_eq :
    broadcastRightRows join left right n lOf rOf = joined join.kind join.condition
      (join.leftSchema left) (join.rightSchema right) ((List.range n).flatMap lOf)
        ((List.range n).flatMap rOf) := by
  simp only [broadcastRightRows, joined, Pairs.joinBy, List.flatMap_assoc]

omit [Rounding] [CostNum R] in
theorem reread_relationSchema {p : PhysicalPlan R} {columnNames : List String}
    (h : ∀ c ∈ columnNames, '.' ∉ c.toList) :
    reread (relationSchema p columnNames) = relationSchema p columnNames := by
  refine reread_eq_self (fun e he => ?_) rfl
  obtain ⟨c, hc, rfl⟩ := List.mem_map.mp he
  exact h c hc

/-- The broadcast join of two relations whose rows have integer ids and whose columns have no dot:
it succeeds when the join on the whole database does, with the same columns and rows, whatever side
is broadcast. -/
theorem collectBroadcast_agrees {ann : Annotation R} (hover : join.Over full schemaCatalog left right)
    (hu : u.aggregate = none) (hn : 0 < n) (hil : IntegerIds left) (hir : IntegerIds right)
    (hdl : ∀ c ∈ left.columnNames, '.' ∉ c.toList) (hdr : ∀ c ∈ right.columnNames, '.' ∉ c.toList)
    (broadcastLeft : Bool) :
    Except.Agree (fun out res => res.columns = out.columns ∧ res.rows.Perm out.rows)
      (executePlan (.join ann join.kind join.joinType join.condition join.left join.right) full ∅)
      (collectBroadcast (executeOnPartition full schemaCatalog n) n join broadcastLeft u) := by
  have hls : reread (join.leftSchema left) = join.leftSchema left := reread_relationSchema hdl
  have hrs : reread (join.rightSchema right) = join.rightSchema right := reread_relationSchema hdr
  -- what either broadcast collects
  have hcollect : ∀ lOf rOf, Gathered join left right n lOf rOf → ∃ res,
      collectBroadcast (executeOnPartition full schemaCatalog n) n join broadcastLeft u = .ok res ∧
        res.columns = ((join.leftSchema left).extend (join.rightSchema right)).qualifiedNames ∧
        res.rows.Perm (joined join.kind join.condition (join.leftSchema left)
          (join.rightSchema right) ((List.range n).flatMap lOf) ((List.range n).flatMap rOf)) := by
    intro lOf rOf hgathered
    cases broadcastLeft with
    | true =>
      exact ⟨_, (collectBroadcast_left_eq_ok hover hu hn hls).mpr ⟨lOf, rOf, hgathered, rfl⟩, rfl,
        broadcastLeftRows_perm⟩
    | false =>
      refine ⟨_, (collectBroadcast_right_eq_ok hover hu hn hrs).mpr ⟨lOf, rOf, hgathered, rfl⟩, rfl,
        ?_⟩
      exact .of_eq broadcastRightRows_eq
  have hgather : ∀ res,
      collectBroadcast (executeOnPartition full schemaCatalog n) n join broadcastLeft u = .ok res →
        ∃ lOf rOf, Gathered join left right n lOf rOf := by
    intro res hres
    cases broadcastLeft with
    | true =>
      obtain ⟨lOf, rOf, hgathered, -⟩ := (collectBroadcast_left_eq_ok hover hu hn hls).mp hres
      exact ⟨lOf, rOf, hgathered⟩
    | false =>
      obtain ⟨lOf, rOf, hgathered, -⟩ := (collectBroadcast_right_eq_ok hover hu hn hrs).mp hres
      exact ⟨lOf, rOf, hgathered⟩
  have hjoin : ∀ out, executePlan (.join ann join.kind join.joinType join.condition join.left
      join.right) full ∅ = .ok out ↔ _ := fun _ => executePlan_join_relations_eq_ok
    hover.leftSingle hover.rightSingle hover.leftTable hover.rightTable
  refine .of_imp (fun out hout => ?_) fun res hres => ?_
  · obtain ⟨haccepts, l, r, hl, hr, hpairs, rfl⟩ := (hjoin out).mp hout
    obtain ⟨lOf, hlOf, hlperm⟩ := hl.parts hn (hil.ownedOnce hn)
    obtain ⟨rOf, hrOf, hrperm⟩ := hr.parts hn (hir.ownedOnce hn)
    obtain ⟨res, hres, hcolumns, hperm⟩ := hcollect lOf rOf ⟨hlOf, hrOf, haccepts,
      fun a ha b hb => hpairs a (hlperm.mem_iff.mp ha) b (hrperm.mem_iff.mp hb)⟩
    refine ⟨res, hres, hcolumns, hperm.trans ?_⟩
    exact (Pairs.joinBy_perm_left _ _ _ hlperm).trans (Pairs.joinBy_perm_right _ _ _ hrperm)
  · obtain ⟨lOf, rOf, hgathered⟩ := hgather res hres
    obtain ⟨l, hl, hlperm⟩ := keeps_flatMap_parts hn (hil.ownedOnce hn) hgathered.leftKeeps
    obtain ⟨r, hr, hrperm⟩ := keeps_flatMap_parts hn (hir.ownedOnce hn) hgathered.rightKeeps
    exact ⟨_, (hjoin _).mpr ⟨hgathered.accepts, l, r, hl, hr, fun a ha b hb =>
      hgathered.pairs a (hlperm.mem_iff.mpr ha) b (hrperm.mem_iff.mpr hb), rfl⟩⟩

end Collect

end

/-! ### A table with itself -/

/-- `t AS a JOIN t AS b ON a.k = b.k` -/
def selfJoin : JoinNode ℚ where
  kind := .hashJoin
  joinType := .inner
  condition := keyedCondition
  left := .seqScan noEstimates "t" (some "a") []
  right := .seqScan noEstimates "t" (some "b") []

section

attribute [local instance] Rounding.exact

local instance broadcastCosts : CostNum ℚ := CostNum.rational id

/-- Two rows with one key on two workers. -/
theorem collectBroadcast_agrees_selfJoin :
    let full := oneTableDatabase ["id", "k"] [[.integer 1, .integer 5], [.integer 2, .integer 5]]
      (by decide)
    Except.Agree (fun out res => res.columns = out.columns ∧ res.rows.Perm out.rows)
      (executePlan (.join noEstimates selfJoin.kind selfJoin.joinType selfJoin.condition
        selfJoin.left selfJoin.right) full ∅)
      (collectBroadcast (executeOnPartition full oneTableCatalog 2) 2 selfJoin true
        ⟨[], none, none, selfJoin.plan selfJoin.left selfJoin.right⟩) := by
  have hids : IntegerIds ⟨["id", "k"], [[.integer 1, .integer 5], [.integer 2, .integer 5]],
      by decide⟩ := by
    intro row hrow
    rcases List.mem_cons.mp hrow with rfl | hrow
    · exact ⟨0, 1, rfl, rfl⟩
    · rcases List.mem_cons.mp hrow with rfl | hrow
      · exact ⟨0, 2, rfl, rfl⟩
      · cases hrow
  have hname : "t" ∈ oneTableCatalog := AList.mem_keys.mpr List.mem_cons_self
  exact collectBroadcast_agrees ⟨rfl, rfl, hname, hname, rfl, rfl⟩ rfl (by decide) hids hids
    (by decide) (by decide) true

end

end SqlOptimizer
