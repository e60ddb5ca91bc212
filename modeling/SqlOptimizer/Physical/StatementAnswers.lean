import SqlOptimizer.Execution.Reordered
import SqlOptimizer.Execution.ResultRows
import SqlOptimizer.Physical.RewrittenTrees

/-! What a statement over inner joins asks for, in terms of its tables alone, and that every plan of
it returns that: the choices of one row of each table that satisfy ON, WHERE and HAVING, in an order
that ORDER BY permits, cut by LIMIT, with the values of the SELECT list. -/

namespace SqlOptimizer

/-! ### The rows that a statement asks for -/

namespace SelectStatement

/-- The numbers of the tables, in textual order. -/
def order (stmt : SelectStatement) : List Nat := List.range stmt.tables.length

/-- The conjuncts of ON, WHERE and HAVING. -/
def conjuncts (stmt : SelectStatement) : List Expression :=
  (stmt.joins.flatMap fun join => splitAnd join.condition) ++
    stmt.whereClause.elim [] splitAnd ++ stmt.having.elim [] splitAnd

section

variable [Rounding] (stmt : SelectStatement) (db : Database)

/-- The choices of one row of each table that satisfy every conjunct. -/
def tuples : List (Nat → Row) :=
  (choices (fun i => (scanTable db (stmt.tableAt i)).rows) stmt.order).filter fun t =>
    stmt.conjuncts.all fun p => holds p (Blocks.layout stmt.order t) (stmt.joinedSchema db stmt.order)

/-- Whether ORDER BY puts `t` before `t'`. -/
def before (t t' : Nat → Row) : Except String Bool :=
  sortLess stmt.orderBy (stmt.joinedSchema db stmt.order) (Blocks.layout stmt.order t)
    (Blocks.layout stmt.order t')

/-- What LIMIT leaves. -/
def cut {α : Type} (stmt : SelectStatement) (ts : List α) : List α :=
  match stmt.limit with
  | some n => ts.take n
  | none => ts

/-- The result with the rows of `ts`. -/
def resultOf (ts : List (Nat → Row)) : Except String ExecutionResult := do
  return ⟨(projectSchema stmt.plain).qualifiedNames,
    ← (stmt.cut ts).mapM fun t => listValues stmt db stmt.order stmt.columns [t]⟩

/-- ORDER BY decides any two rows, as a strict weak order. -/
structure Orders : Prop where
  decided : ∀ t ∈ stmt.tuples db, ∀ t' ∈ stmt.tuples db, ∃ b, stmt.before db t t' = .ok b
  weak : StrictWeakOn {t | t ∈ stmt.tuples db} (stmt.before db · · = .ok true)

/-- No GROUP BY, aggregate or `*`, and only inner joins. -/
structure Plain : Prop where
  ungrouped : stmt.isGrouped = false
  items : stmt.NoWildcards
  inner : ∀ join ∈ stmt.joins, join.joinType = .inner

end

/-! ### The statement and its plan -/

variable {stmt : SelectStatement} {db : Database}

theorem aggregates_of_ungrouped (h : stmt.isGrouped = false) : stmt.aggregates = [] := by
  simp only [isGrouped, Bool.or_eq_false_iff, Bool.not_eq_false', List.isEmpty_iff] at h
  exact h.1

theorem selected_of_ungrouped (h : stmt.isGrouped = false) : stmt.selected = stmt.core := by
  unfold selected core
  rw [h]
  rfl

theorem fromWhere_flat (h : ∀ join ∈ stmt.joins, join.joinType = .inner) :
    stmt.fromWhere.isFlat = true := by
  have hjoins : ∀ (joins : List Join) (plan : LogicalPlan), plan.isFlat = true →
      (∀ join ∈ joins, join.joinType = .inner) →
        (joins.foldl (fun plan join => LogicalPlan.join join.joinType join.condition plan
          (.scan join.table.tableName join.table.aliasName [])) plan).isFlat = true := by
    intro joins
    induction joins with
    | nil => exact fun plan h _ => h
    | cons join joins ih =>
      intro plan hplan hinner
      refine ih _ ?_ fun j hj => hinner j (List.mem_cons_of_mem _ hj)
      simp [LogicalPlan.isFlat, hinner join List.mem_cons_self, hplan]
  unfold fromWhere
  cases stmt.whereClause with
  | none => exact hjoins _ _ rfl h
  | some p => exact hjoins _ _ rfl h

theorem isFlat_core (hgrouped : stmt.isGrouped = false)
    (h : ∀ join ∈ stmt.joins, join.joinType = .inner) : stmt.core.isFlat = true := by
  rw [core, hgrouped]
  cases stmt.having with
  | none => exact fromWhere_flat h
  | some p => exact fromWhere_flat h

theorem conjuncts_core (hgrouped : stmt.isGrouped = false) :
    stmt.core.conjuncts.Perm stmt.conjuncts := by
  have hjoins : ∀ (joins : List Join) (plan : LogicalPlan),
      (joins.foldl (fun plan join => LogicalPlan.join join.joinType join.condition plan
        (.scan join.table.tableName join.table.aliasName [])) plan).conjuncts.Perm
          ((joins.flatMap fun join => splitAnd join.condition) ++ plan.conjuncts) := by
    intro joins
    induction joins with
    | nil => exact fun plan => .refl _
    | cons join joins ih =>
      intro plan
      refine (ih _).trans ?_
      simp only [LogicalPlan.conjuncts, List.append_nil, List.flatMap_cons]
      rw [← List.append_assoc]
      exact List.perm_append_comm.append_right _
  have hfrom := hjoins stmt.joins (.scan stmt.fromTable.tableName stmt.fromTable.aliasName [])
  simp only [LogicalPlan.conjuncts, List.append_nil] at hfrom
  rw [core, hgrouped, conjuncts]
  unfold fromWhere
  cases stmt.whereClause with
  | none =>
    cases stmt.having with
    | none => simpa using hfrom
    | some p =>
      simp only [Bool.false_eq_true, if_false, LogicalPlan.conjuncts, Option.elim, List.append_nil]
      exact List.perm_append_comm.trans (hfrom.append_right _)
  | some q =>
    have hwhere := List.perm_append_comm.trans (hfrom.append_right (splitAnd q))
    cases stmt.having with
    | none => simpa [LogicalPlan.conjuncts] using hwhere
    | some p =>
      simp only [Bool.false_eq_true, if_false, LogicalPlan.conjuncts, Option.elim]
      exact List.perm_append_comm.trans (hwhere.append_right _)

section

variable (hgrouped : stmt.isGrouped = false)
include hgrouped

theorem scanAt_core : stmt.core.scanAt = stmt.tableAt := by
  funext i
  rw [LogicalPlan.scanAt, tableAt, (joinTree_core hgrouped).2]

theorem scanIds_core : stmt.core.scanIds = stmt.order := by
  rw [LogicalPlan.scanIds, order, (joinTree_core hgrouped).2]

theorem layoutSchema_core (π : List Nat) :
    (stmt.core.blocks db).layoutSchema π = stmt.joinedSchema db π := by
  simp only [Blocks.layoutSchema, Blocks.schemaOf, LogicalPlan.blocks, scanAt_core hgrouped,
    joinedSchema, scansSchema, List.flatMap_map]

theorem satisfying_core [Rounding] : stmt.core.satisfying db = stmt.tuples db := by
  rw [LogicalPlan.satisfying, tuples, layoutSchema_core hgrouped, scanIds_core hgrouped]
  simp only [(conjuncts_core hgrouped).all_eq]
  congr 2
  funext i
  rw [LogicalPlan.tableRows, scanAt_core hgrouped]

end

end SelectStatement

/-! ### The operators above the joins -/

section

variable [Rounding] {stmt : SelectStatement} {db : Database} {e : Executor}
  {ts : List (Nat → Row)}

/-- The joined rows of these tuples, with the tables in some order. -/
def ReturnsTuples (stmt : SelectStatement) (db : Database) (e : Executor)
    (ts : List (Nat → Row)) : Prop :=
  ∃ π, π.Perm stmt.order ∧ e.schema = stmt.joinedSchema db π ∧
    e.run = .ok (ts.map (Blocks.layout π))

variable (hgrouped : stmt.isGrouped = false) (hw : stmt.core.WellFormed db)
include hgrouped hw

/-- An expression has the same value in every order of the tables. -/
theorem evaluate_order (x : Expression) {π : List Nat} (hπ : π.Perm stmt.order) {t : Nat → Row}
    (ht : t ∈ stmt.tuples db) :
    evaluate x (Blocks.layout π t) (stmt.joinedSchema db π) =
      evaluate x (Blocks.layout stmt.order t) (stmt.joinedSchema db stmt.order) := by
  have hdistinct := hw.blocks
  rw [SelectStatement.scanIds_core hgrouped] at hdistinct
  have hfit : (stmt.core.blocks db).Fits stmt.order t := by
    intro i hi
    simp only [LogicalPlan.blocks, SelectStatement.scanAt_core hgrouped]
    exact (scanTable db (stmt.tableAt i)).width _
      (Assignment.mem_dom_of_mem_all (List.mem_of_mem_filter ht) hi)
  rw [← SelectStatement.layoutSchema_core hgrouped, ← SelectStatement.layoutSchema_core hgrouped]
  exact Blocks.evaluate_layout_perm hπ hdistinct hfit x

theorem sortLess_order (items : List OrderByItem) {π : List Nat} (hπ : π.Perm stmt.order)
    {t t' : Nat → Row} (ht : t ∈ stmt.tuples db) (ht' : t' ∈ stmt.tuples db) :
    sortLess items (stmt.joinedSchema db π) (Blocks.layout π t) (Blocks.layout π t') =
      sortLess items (stmt.joinedSchema db stmt.order) (Blocks.layout stmt.order t)
        (Blocks.layout stmt.order t') := by
  induction items with
  | nil => rfl
  | cons item items ih =>
    rw [sortLess, sortLess, ih, evaluate_order hgrouped hw _ hπ ht, evaluate_order hgrouped hw _ hπ ht']

theorem ReturnsTuples.sort (h : ReturnsTuples stmt db e ts) (hts : ts.Perm (stmt.tuples db))
    (horders : stmt.Orders db) : ∃ ts', ts'.Perm ts ∧
      ts'.Pairwise (fun t t' => stmt.before db t' t ≠ .ok true) ∧
        ReturnsTuples stmt db (.sort stmt.orderBy e) ts' := by
  obtain ⟨π, hπ, hschema, hrun⟩ := h
  have hless : ∀ t ∈ ts, ∀ t' ∈ ts, sortLess stmt.orderBy e.schema (Blocks.layout π t)
      (Blocks.layout π t') = stmt.before db t t' := fun t ht t' ht' => by
    rw [hschema]
    exact sortLess_order hgrouped hw _ hπ (hts.mem_iff.mp ht) (hts.mem_iff.mp ht')
  obtain ⟨out, hout⟩ := @exists_sortRows (sortLess stmt.orderBy e.schema)
    (ts.map (Blocks.layout π)) fun a ha b hb => by
      obtain ⟨t, ht, rfl⟩ := List.mem_map.mp ha
      obtain ⟨t', ht', rfl⟩ := List.mem_map.mp hb
      rw [hless t ht t' ht']
      exact horders.decided t (hts.mem_iff.mp ht) t' (hts.mem_iff.mp ht')
  have hweak : StrictWeakOn {r | r ∈ ts.map (Blocks.layout π)}
      (sortLess stmt.orderBy e.schema · · = .ok true) := by
    have hts : StrictWeakOn {t | t ∈ ts} (stmt.before db · · = .ok true) :=
      horders.weak.subset fun t ht => hts.mem_iff.mp ht
    have hlaid : StrictWeakOn {t | t ∈ ts} (fun t t' => sortLess stmt.orderBy e.schema
        (Blocks.layout π t) (Blocks.layout π t') = .ok true) :=
      hts.congr fun t ht t' ht' => by rw [hless t ht t' ht']
    exact hlaid.image.subset fun r hr => List.mem_map.mp hr
  have hcomp := congrFun (congrFun (List.eq_map_comp_perm (Blocks.layout π)) out) ts
  obtain ⟨ts', rfl, hperm⟩ := hcomp.mpr (perm_sortRows hout)
  refine ⟨ts', hperm, ?_, π, hπ, hschema, Executor.run_sort_eq_ok.mpr ⟨_, hrun, hout⟩⟩
  have hsorted := List.pairwise_map.mp (sortedBy_sortRows hweak hout)
  refine hsorted.imp_of_mem fun {t t'} ht ht' hnot => ?_
  rwa [hless t' (hperm.mem_iff.mp ht') t (hperm.mem_iff.mp ht)] at hnot

omit hgrouped hw in
theorem ReturnsTuples.limit (h : ReturnsTuples stmt db e ts) (n : Nat) :
    ReturnsTuples stmt db (.limit n e) (ts.take n) := by
  obtain ⟨π, hπ, hschema, hrun⟩ := h
  exact ⟨π, hπ, hschema, by rw [Executor.run_limit hrun, List.map_take]⟩

theorem ReturnsTuples.project (h : ReturnsTuples stmt db e ts)
    (hts : ∀ t ∈ ts, t ∈ stmt.tuples db) (hplain : stmt.Plain) :
    (Executor.project stmt.plain e).run =
      ts.mapM fun t => listValues stmt db stmt.order stmt.columns [t] := by
  obtain ⟨π, hπ, hschema, hrun⟩ := h
  have hcall := call_eq_none (SelectStatement.aggregates_of_ungrouped hgrouped)
  rw [Executor.run_project hrun, List.mapM_map]
  refine Except.mapM_congr fun t ht => ?_
  rw [listValues_plain hcall hplain.items.2, hschema]
  exact Except.mapM_congr fun x _ => evaluate_order hgrouped hw x.1 hπ (hts t ht)

end

/-! ### Building -/

section

variable {R : Type} [CostNum R] {catalog : Catalog} {stats : StatisticsCatalog R} {db : Database}
  {node : LogicalPlan}

/-- Every plan of `node` has an executor. -/
def AlwaysBuilds (catalog : Catalog) (stats : StatisticsCatalog R) (db : Database)
    (node : LogicalPlan) : Prop :=
  ∀ needed plan, planNode catalog stats
    (reorderJoins catalog (pushProjections (pushPredicates node) needed)) = .ok plan →
      ∃ e, buildExecutor plan db ∅ = .ok e

theorem AlwaysBuilds.over {outer : LogicalPlan → LogicalPlan} {f : Executor → Executor}
    (hop : OverInput outer f) (h : AlwaysBuilds catalog stats db node) :
    AlwaysBuilds catalog stats db (outer node) := by
  intro needed plan hplan
  cases hop with
  | aggregate | project | sort | limit =>
    simp only [pushPredicates, pushProjections, reorderJoins, planNode, isJoinSearchCandidate,
      LogicalPlan.unwrapFilters, Bool.false_eq_true, if_false] at hplan
    obtain ⟨inner, hinner, hplan⟩ := Except.bind_eq_ok.mp hplan
    cases hplan
    obtain ⟨i, hi⟩ := h _ inner hinner
    rw [buildExecutor, hi]
    exact ⟨_, rfl⟩

theorem builds_limited [Rounding] {stmt : SelectStatement} (hplain : stmt.Plain)
    (hw : stmt.core.WellFormed db) (he : stmt.core.Evaluates db)
    (hacyclic : acyclicJoins (pushPredicates stmt.core)) :
    AlwaysBuilds catalog stats db stmt.limited := by
  have hcore : AlwaysBuilds catalog stats db stmt.core := by
    intro needed plan hplan
    obtain ⟨e, -, -, hbuild, -⟩ : AnswersTree stmt.core db plan ∅ := answersTree_rewritten
      (SelectStatement.isFlat_core hplain.ungrouped hplain.inner) hw he hacyclic hplan
    exact ⟨e, hbuild⟩
  have hselected : AlwaysBuilds catalog stats db stmt.selected := by
    rwa [SelectStatement.selected_of_ungrouped hplain.ungrouped]
  have hsorted : AlwaysBuilds catalog stats db stmt.sorted := by
    unfold SelectStatement.sorted
    split
    · exact hselected.over (.sort _)
    · exact hselected
  unfold SelectStatement.limited
  split
  · exact hsorted.over (.limit _)
  · exact hsorted

end

/-! ### The result -/

section

variable [Rounding] {R : Type} [CostNum R] {catalog : Catalog} {stats : StatisticsCatalog R}
  {stmt : SelectStatement} {db : Database} {plan : PhysicalPlan R} {e : Executor}

theorem Implements.returnsCore (h : Implements catalog stats db stmt.core plan e)
    (hplain : stmt.Plain) (hw : stmt.core.WellFormed db) (he : stmt.core.Evaluates db)
    (hacyclic : acyclicJoins (pushPredicates stmt.core)) :
    ∃ ts, ts.Perm (stmt.tuples db) ∧ ReturnsTuples stmt db e ts := by
  have hgrouped := hplain.ungrouped
  obtain ⟨π, rows, hπ, hschema, hrun, hrows⟩ := h.answersTree
    (SelectStatement.isFlat_core hgrouped hplain.inner) hw he hacyclic
  rw [SelectStatement.satisfying_core hgrouped] at hrows
  rw [SelectStatement.scanIds_core hgrouped] at hπ
  rw [SelectStatement.layoutSchema_core hgrouped] at hschema
  have hcomp := congrFun (congrFun (List.eq_map_comp_perm (Blocks.layout π)) rows) (stmt.tuples db)
  obtain ⟨ts, rfl, hts⟩ := hcomp.mpr hrows
  exact ⟨ts, hts, π, hπ, hschema, hrun⟩

theorem Implements.returnsSorted (h : Implements catalog stats db stmt.sorted plan e)
    (hplain : stmt.Plain) (hw : stmt.core.WellFormed db) (he : stmt.core.Evaluates db)
    (hacyclic : acyclicJoins (pushPredicates stmt.core)) (horders : stmt.Orders db) :
    ∃ ts, ts.Perm (stmt.tuples db) ∧
      ts.Pairwise (fun t t' => stmt.before db t' t ≠ .ok true) ∧ ReturnsTuples stmt db e ts := by
  rw [SelectStatement.sorted, SelectStatement.selected_of_ungrouped hplain.ungrouped] at h
  cases hempty : stmt.orderBy.isEmpty with
  | true =>
    rw [hempty] at h
    obtain ⟨ts, hts, hreturns⟩ := h.returnsCore hplain hw he hacyclic
    refine ⟨ts, hts, List.pairwise_of_forall fun t t' => ?_, hreturns⟩
    rw [SelectStatement.before, List.isEmpty_iff.mp hempty, sortLess]
    simp
  | false =>
    rw [hempty] at h
    obtain ⟨inner, i, -, rfl, hinner⟩ := h.input (.sort _)
    obtain ⟨ts, hts, hreturns⟩ := hinner.returnsCore hplain hw he hacyclic
    obtain ⟨ts', hperm, hsorted, hreturns'⟩ :=
      hreturns.sort hplain.ungrouped hw hts horders
    exact ⟨ts', hperm.trans hts, hsorted, hreturns'⟩

/-- A statement over inner joins of loaded tables, with conjuncts that can be evaluated and links
that form a tree, is answered by every plan of it, whatever the statistics: with the choices of one
row of each table that satisfy ON, WHERE and HAVING, in an order that ORDER BY permits, up to LIMIT.
An expression of the SELECT list that fails on one of them fails the query. -/
theorem statement_answered (hplain : stmt.Plain) (hw : stmt.core.WellFormed db)
    (he : stmt.core.Evaluates db) (hacyclic : acyclicJoins (pushPredicates stmt.core))
    (horders : stmt.Orders db)
    (hplan : generatePhysicalPlan (optimize catalog (planStatement stmt)) catalog stats = .ok plan) :
    ∃ ts, ts.Perm (stmt.tuples db) ∧
      ts.Pairwise (fun t t' => stmt.before db t' t ≠ .ok true) ∧
        executePlan plan db ∅ = stmt.resultOf db ts := by
  have hproject : planStatement stmt = .project stmt.plain stmt.limited := by
    rw [SelectStatement.planStatement_eq, if_pos (isProjected_of_noWildcards
      (SelectStatement.aggregates_of_ungrouped hplain.ungrouped) hplain.items)]
  rw [hproject] at hplan
  obtain ⟨e, hbuild⟩ :=
    (builds_limited hplain hw he hacyclic).over (.project stmt.plain) [] plan hplan
  have himplements : Implements catalog stats db (.project stmt.plain stmt.limited) plan e :=
    ⟨⟨[], hplan⟩, hbuild⟩
  obtain ⟨inner, i, -, rfl, hlimited⟩ := himplements.input (.project _)
  obtain ⟨ts, hts, hsorted, hreturns⟩ : ∃ ts, ts.Perm (stmt.tuples db) ∧
      ts.Pairwise (fun t t' => stmt.before db t' t ≠ .ok true) ∧
        ReturnsTuples stmt db i (stmt.cut ts) := by
    rw [SelectStatement.limited] at hlimited
    unfold SelectStatement.cut
    cases hlimit : stmt.limit with
    | none =>
      rw [hlimit] at hlimited
      exact hlimited.returnsSorted hplain hw he hacyclic horders
    | some n =>
      rw [hlimit] at hlimited
      obtain ⟨inner', i', -, rfl, hinner⟩ := hlimited.input (.limit _)
      obtain ⟨ts, hts, hsorted, hreturns⟩ := hinner.returnsSorted hplain hw he hacyclic horders
      exact ⟨ts, hts, hsorted, hreturns.limit n⟩
  refine ⟨ts, hts, hsorted, ?_⟩
  have hmem : ∀ t ∈ stmt.cut ts, t ∈ stmt.tuples db := by
    intro t ht
    unfold SelectStatement.cut at ht
    split at ht
    · exact hts.mem_iff.mp (List.mem_of_mem_take ht)
    · exact hts.mem_iff.mp ht
  rw [executePlan, hbuild, Except.ok_bind, hreturns.project hplain.ungrouped hw hmem hplain]
  rfl

end

section

attribute [local instance] Rounding.exact exactCosts

/-- `SELECT b.y FROM a JOIN b ON a.x = b.x ORDER BY a.x LIMIT 1` -/
def firstPair : SelectStatement :=
  ⟨[.expression (.column (some "b") "y") none], ⟨"a", none⟩,
    [⟨.inner, ⟨"b", none⟩, columnsEqual "x"⟩], none, [], none, [⟨.column (some "a") "x", true⟩],
    some 1⟩

/-- The columns of the condition. -/
theorem columns_columnsEqual {t : Option String} {c : String}
    (h : (t, c) ∈ (columnsEqual "x").columns) :
    (t = some "a" ∨ t = some "b") ∧ c = "x" := by
  simp only [columnsEqual, Expression.columns, List.mem_append, List.mem_singleton,
    Prod.mk.injEq] at h
  rcases h with ⟨rfl, rfl⟩ | ⟨rfl, rfl⟩ <;> simp

theorem wellFormed_firstPair : firstPair.core.WellFormed pairDatabase where
  loaded := by decide
  distinct := by decide
  names := by decide
  owned p hp t c htc := by
    rw [List.mem_singleton.mp hp] at htc
    obtain ⟨rfl | rfl, rfl⟩ := columns_columnsEqual htc
    · exact ⟨("a", none), by decide, rfl, by decide⟩
    · exact ⟨("b", none), by decide, rfl, by decide⟩
  width := by decide
  tree := by decide

/-- The rows that the condition is evaluated in. -/
theorem combinedRow_firstPair {e : Nat → Row}
    (h : firstPair.core.Picks pairDatabase (columnsEqual "x") e) :
    firstPair.core.combinedRow e = [.integer 1, .integer 1, .integer 1, .integer 2] := by
  have hleft := List.mem_singleton.mp (h.2 0 (by decide) (by decide))
  have hright := List.mem_singleton.mp (h.2 1 (by decide) (by decide))
  have hids : firstPair.core.scanIds = [0, 1] := rfl
  rw [LogicalPlan.combinedRow, hids]
  simp only [Blocks.layout, List.flatMap_cons, List.flatMap_nil, hleft, hright]
  rfl

theorem evaluates_firstPair : firstPair.core.Evaluates pairDatabase where
  truth p hp e he := by
    rw [List.mem_singleton.mp hp] at he ⊢
    rw [combinedRow_firstPair he]
    exact ⟨true, by decide⟩
  columns edge hedge x y hxy := by
    rw [List.mem_singleton.mp hedge] at hxy
    cases hxy
    exact ⟨_, _, _, _, rfl, rfl⟩
  keys edge hedge x y hxy e he v w hv hw := by
    rw [List.mem_singleton.mp hedge] at hxy he
    cases hxy
    rw [combinedRow_firstPair he] at hv hw
    cases hv
    cases hw
    decide

theorem before_firstPair {t t' : Nat → Row} (ht : t ∈ firstPair.tuples pairDatabase)
    (ht' : t' ∈ firstPair.tuples pairDatabase) :
    firstPair.before pairDatabase t t' = .ok false := by
  have hrow : ∀ t ∈ firstPair.tuples pairDatabase, Blocks.layout firstPair.order t =
      [.integer 1, .integer 1, .integer 1, .integer 2] := by
    intro t ht
    cases List.mem_singleton.mp ht
    rfl
  rw [SelectStatement.before, hrow t ht, hrow t' ht']
  decide

theorem orders_firstPair : firstPair.Orders pairDatabase where
  decided t ht t' ht' := ⟨false, before_firstPair ht ht'⟩
  weak := by
    have hnot : ∀ t ∈ firstPair.tuples pairDatabase, ∀ t' ∈ firstPair.tuples pairDatabase,
        firstPair.before pairDatabase t t' ≠ .ok true := fun t ht t' ht' h => by
      rw [before_firstPair ht ht'] at h
      cases h
    exact ⟨fun t ht => hnot t ht t ht, fun t ht t' ht' h => absurd h (hnot t ht t' ht'),
      fun t ht t' ht' _ _ h => absurd h (hnot t ht t' ht'),
      fun t ht _ _ t' ht' _ _ => ⟨hnot t ht t' ht', hnot t' ht' t ht⟩⟩

theorem statement_answered_firstPair : ∃ (plan : PhysicalPlan ℚ) (ts : List (Nat → Row)),
    generatePhysicalPlan (optimize ∅ (planStatement firstPair)) ∅ ∅ = .ok plan ∧
      ts.Perm (firstPair.tuples pairDatabase) ∧
        ts.Pairwise (fun t t' => firstPair.before pairDatabase t' t ≠ .ok true) ∧
          executePlan plan pairDatabase ∅ = firstPair.resultOf pairDatabase ts := by
  obtain ⟨plan, hplan⟩ : ∃ plan : PhysicalPlan ℚ,
      generatePhysicalPlan (optimize ∅ (planStatement firstPair)) ∅ ∅ = .ok plan := ⟨_, rfl⟩
  have hplain : firstPair.Plain := ⟨by decide, ⟨by decide, by decide⟩, by decide⟩
  obtain ⟨ts, h⟩ := statement_answered hplain wellFormed_firstPair evaluates_firstPair
    ⟨fun h => absurd h (by decide), trivial, trivial⟩ orders_firstPair hplan
  exact ⟨plan, ts, hplan, h⟩

end

end SqlOptimizer
