import SqlOptimizer.Physical.JoinCorrespondence
import SqlOptimizer.Physical.JoinTrees
import SqlOptimizer.Physical.TreeRows

/-! What the statistics cannot change.  Every plan of a logical plan returns the rows of one reference
executor, as far as the choices that the planner makes by cost agree: the order of a search, the
operator of a join and the index of a filter. -/

namespace SqlOptimizer

namespace LogicalPlan

/-- No plan changes the places of the columns: there is no search, or an aggregate or a projection
stands above it. -/
def fixed : LogicalPlan → Bool
  | .scan _ _ _ | .aggregate _ _ _ | .project _ _ => true
  | .filter _ input | .sort _ input | .limit _ input => input.fixed
  | .join joinType condition left right =>
    !(LogicalPlan.join joinType condition left right).allInner && left.fixed && right.fixed

/-- No plan changes the order of the rows: there is no search, and no join that may be hashed. -/
def ordered : LogicalPlan → Bool
  | .scan _ _ _ => true
  | .filter _ input | .aggregate _ _ input | .project _ input | .sort _ input | .limit _ input =>
    input.ordered
  | .join joinType condition left right =>
    !(LogicalPlan.join joinType condition left right).allInner && !isEquality condition &&
      left.ordered && right.ordered

theorem fixed_of_ordered {node : LogicalPlan} (h : node.ordered = true) : node.fixed = true := by
  induction node with
  | scan | aggregate | project => rfl
  | filter _ _ ih | sort _ _ ih | limit _ _ ih => exact ih h
  | join joinType condition left right ihl ihr =>
    simp only [ordered, Bool.and_eq_true] at h
    simp only [fixed, Bool.and_eq_true]
    exact ⟨⟨h.1.1.1, ihl h.1.2⟩, ihr h.2⟩

theorem fixed_of_candidate {node : LogicalPlan} (h : isJoinSearchCandidate node = true) :
    node.fixed = false := by
  induction node with
  | filter predicate input ih => exact ih h
  | join joinType condition left right =>
    have hinner : (LogicalPlan.join joinType condition left right).allInner = true := h
    simp [fixed, hinner]
  | _ => cases h

section

variable [Rounding] (catalog : Catalog) (db : Database)

/-- The executor that takes a logical plan as it stands, with scans, filters and nested loops.  A
subtree that is searched has the choices of one row of each scan that satisfy its conjuncts. -/
def reference (node : LogicalPlan) : Except String Executor :=
  if isJoinSearchCandidate node then
    if node.scans.all fun s => (db.get s.1).isSome then
      .ok (.externalRows "" (node.combinedSchema db) ((node.satisfying db).map node.combinedRow))
    else .error "a table of the search is not loaded"
  else match node with
    | .scan tableName aliasName _ => do
      let table ← loadedTable db tableName
      return .seqScan tableName (scanSchema (aliasName.getD tableName) table.columnNames) table
    | .filter predicate input => do return .filter predicate (← input.reference)
    | .join _ condition left right => do
      return .nestedLoopJoin condition (← left.reference) (← right.reference)
    | .aggregate groupBy aggregates input => do
      return .hashAggregate groupBy aggregates (← input.reference)
    | .project expressions input => do return .project expressions (← input.reference)
    | .sort orderBy input => do return .sort orderBy (← input.reference)
    | .limit count input => do return .limit count (← input.reference)

/-- An index that the planner may use for a filter over a scan finds its column in the loaded table,
once. -/
def ProbeLoaded (predicate : Expression) (tableName : String) (aliasName : Option String) : Prop :=
  ∀ t c lit schema table, columnLiteral predicate = some (t, c, lit) →
    qualifierMatches t (aliasName.getD tableName) = true → catalog.get tableName = some schema →
      schema.hasIndexOn c = true → db.get tableName = some table → table.columnNames.count c = 1

/-- The choices that the planner makes by cost do not change the answer:
* a search is over loaded tables with different aliases, its links form a tree, and its conjuncts can
  be evaluated, with keys that print alike only when they are equal;
* an index finds its column;
* a join that may be hashed pairs the same rows when it is;
* where the rows may come in another order, an aggregate does not depend on it, and ORDER BY decides
  any two rows.
LIMIT is left out, since it keeps the rows that come first. -/
def Steady (node : LogicalPlan) : Prop :=
  if isJoinSearchCandidate node then
    (∀ s ∈ node.scans, (db.get s.1).isSome = true) → node.WellFormed db ∧ node.Evaluates db
  else match node with
    | .scan _ _ _ => True
    | .filter predicate input => input.Steady ∧ match input with
      | .scan tableName aliasName _ => ProbeLoaded catalog db predicate tableName aliasName
      | _ => True
    | .join _ condition left right => left.Steady ∧ right.Steady ∧ (isEquality condition = true →
        ∀ le re, left.reference db = .ok le → right.reference db = .ok re → Hashes condition le re)
    | .aggregate groupBy aggregates input => input.Steady ∧ (input.ordered = true ∨
        ∀ e rows, input.reference db = .ok e → e.run = .ok rows →
          OrderFree groupBy aggregates e.schema rows)
    | .project _ input => input.Steady
    | .sort orderBy input => input.Steady ∧ (input.ordered = true ∨
        ∀ e, input.reference db = .ok e → e.Sorts orderBy)
    | .limit _ _ => False

end

end LogicalPlan

/-! ### Join trees -/

section

variable [Rounding] {R : Type} [CostNum R] {catalog : Catalog} {stats : StatisticsCatalog R}
  {db : Database} {node : LogicalPlan} {plan : PhysicalPlan R}

/-- An executor of a join tree against the reference. -/
structure AnswersAs (node : LogicalPlan) (e e' : Executor) : Prop where
  tree : TreeCorrespond (node.fixed = true) e e'
  alike : node.ordered = true → Alike e e'

omit [Rounding] in
theorem length_layout_eq_size {B : Blocks} {π : List Nat} {t : Nat → Row} (h : B.Fits π t) :
    (Blocks.layout π t).length = (B.layoutSchema π).size := by
  rw [Blocks.layout, Blocks.layoutSchema, RowSchema.size, List.length_flatMap, List.length_flatMap]
  refine congrArg List.sum (List.map_congr_left fun i hi => ?_)
  rw [h i hi, ← RowSchema.size, Blocks.schemaOf_size]

theorem wide_of_layout {e : Executor} {B : Blocks} {π : List Nat} {rows : List Row}
    (hschema : e.schema = B.layoutSchema π) (hrun : e.run = .ok rows)
    (hrows : ∀ row ∈ rows, ∃ t, B.Fits π t ∧ row = Blocks.layout π t) : e.Wide := by
  intro rows' hrun' row hrow
  rw [hrun] at hrun'
  cases hrun'
  obtain ⟨t, hfit, rfl⟩ := hrows row hrow
  rw [hschema, length_layout_eq_size hfit]

omit [CostNum R] in
/-- The plan of a search. -/
theorem answersAs_search (hcandidate : isJoinSearchCandidate node = true)
    (hw : node.WellFormed db) (h : AnswersTree node db plan ∅) :
    ∃ e, buildExecutor plan db ∅ = .ok e ∧ AnswersAs node
      (.externalRows "" (node.combinedSchema db) ((node.satisfying db).map node.combinedRow)) e := by
  obtain ⟨e, π, rows, hbuild, hπ, hschema, hrun, hrows⟩ := h
  have hfit : ∀ t ∈ node.satisfying db, (node.blocks db).Fits node.scanIds t := fun t ht i hi =>
    (scanTable db (node.scanAt i)).width _ (Assignment.mem_dom_of_mem_all (List.mem_of_mem_filter ht) hi)
  have hfit' : ∀ t ∈ node.satisfying db, (node.blocks db).Fits π t := fun t ht i hi =>
    hfit t ht i (hπ.mem_iff.mp hi)
  have hloose : node.fixed = false := LogicalPlan.fixed_of_candidate hcandidate
  have hreference : ∀ s rows, (Executor.externalRows "" s rows).run = .ok rows := fun _ _ => rfl
  refine ⟨e, hbuild, ⟨⟨⟨?_, ?_⟩, ?_, ?_, ?_⟩, ?_⟩⟩
  · rw [hloose]
    exact nofun
  · rw [hreference, hrun, hschema]
    refine .ok ⟨(node.satisfying db).map fun t => (node.combinedRow t, Blocks.layout π t), ?_, ?_, ?_⟩
    · rw [List.map_map]
      rfl
    · rw [List.map_map]
      exact hrows
    · intro p hp
      obtain ⟨t, ht, rfl⟩ := List.mem_map.mp hp
      refine ⟨?_, ?_⟩
      · exact Blocks.readsAlike_layout hπ.symm ((hπ.map _).nodup_iff.mpr hw.blocks) (hfit' t ht)
      · rw [hloose]
        exact nofun
  · rw [hschema]
    exact Blocks.sameColumns_layoutSchema hπ.symm
  · refine wide_of_layout rfl (hreference _ _) fun row hrow => ?_
    obtain ⟨t, ht, rfl⟩ := List.mem_map.mp hrow
    exact ⟨t, hfit t ht, rfl⟩
  · refine wide_of_layout hschema hrun fun row hrow => ?_
    obtain ⟨t, ht, rfl⟩ := List.mem_map.mp (hrows.mem_iff.mp hrow)
    exact ⟨t, hfit' t ht, rfl⟩
  · intro hordered
    have hfixed := LogicalPlan.fixed_of_ordered hordered
    rw [hloose] at hfixed
    cases hfixed

omit [Rounding] [CostNum R] in
/-- A plan whose executor can be built reads loaded tables. -/
theorem loaded_of_build {sets : ExternalRowSets} {e : Executor}
    (h : buildExecutor plan db sets = .ok e) : ∀ s ∈ plan.scans, (db.get s.1).isSome = true := by
  have hload : ∀ {name : String} {table : Table}, loadedTable db name = .ok table →
      (db.get name).isSome = true := by
    intro name table htable
    unfold loadedTable at htable
    split at htable
    · rw [‹db.get name = _›]
      rfl
    · cases htable
  induction plan generalizing e with
  | seqScan | indexScan =>
    obtain ⟨table, htable, -⟩ := Except.bind_eq_ok.mp h
    intro s hs
    cases List.mem_singleton.mp hs
    exact hload htable
  | externalRows => exact nofun
  | join ann kind joinType condition left right ihl ihr =>
    obtain ⟨l, hl, h⟩ := Except.bind_eq_ok.mp h
    obtain ⟨r, hr, -⟩ := Except.bind_eq_ok.mp h
    exact fun s hs => (List.mem_append.mp hs).elim (ihl hl s) (ihr hr s)
  | filter _ _ _ ih | hashAggregate _ _ _ _ ih | project _ _ _ ih | sort _ _ _ ih
  | limit _ _ _ ih =>
    obtain ⟨i, hi, -⟩ := Except.bind_eq_ok.mp h
    exact ih hi

theorem agree_candidate (hcandidate : isJoinSearchCandidate node = true)
    (hfit : ∀ k ∈ node.searches, k ≤ 63) (hsteady : node.Steady catalog db)
    (hplan : planNode catalog stats node = .ok plan) :
    Except.Agree (AnswersAs node) (node.reference db) (buildExecutor plan db ∅) := by
  rw [planNode.eq_def, if_pos hcandidate] at hplan
  rw [LogicalPlan.Steady.eq_def, if_pos hcandidate] at hsteady
  rw [LogicalPlan.reference.eq_def, if_pos hcandidate]
  by_cases hloaded : ∀ s ∈ node.scans, (db.get s.1).isSome = true
  · rw [if_pos (List.all_eq_true.mpr hloaded)]
    obtain ⟨hw, he⟩ := hsteady hloaded
    obtain ⟨e, hbuild, h⟩ := answersAs_search hcandidate hw (answersTree_planJoinSearch hw he hplan)
    rw [hbuild]
    exact .ok h
  · rw [if_neg fun h => hloaded (List.all_eq_true.mp h)]
    cases hbuild : buildExecutor plan db ∅ with
    | error => exact .error
    | ok e =>
      rw [LogicalPlan.searches_of_candidate hcandidate] at hfit
      obtain ⟨scans, hreads, hperm⟩ :=
        reads_planJoinSearch ((hfit _ (List.mem_singleton_self _)).trans (by omega)) hplan
      rw [← hreads.2] at hperm
      exact absurd (fun s hs => loaded_of_build hbuild s (hperm.mem_iff.mpr hs)) hloaded

omit [Rounding] in
/-- The planner probes an index that the catalog has. -/
theorem tryIndexScan_indexed {pred : Expression} {tableName column : String}
    {aliasName t : Option String} {lit : Literal} {cols : List String}
    (h : tryIndexScan catalog stats pred tableName aliasName cols = some plan)
    (hpred : columnLiteral pred = some (t, column, lit)) :
    qualifierMatches t (aliasName.getD tableName) = true ∧
      ∃ schema, catalog.get tableName = some schema ∧ schema.hasIndexOn column = true := by
  rw [tryIndexScan, hpred] at h
  dsimp only [Option.bind_eq_bind, Option.bind_some] at h
  split at h
  · cases h
  case isFalse hqualifier =>
    obtain ⟨schema, hschema, h⟩ := Option.bind_eq_some_iff.mp h
    split at h
    · cases h
    case isFalse hindex => exact ⟨by simpa using hqualifier, schema, hschema, by simpa using hindex⟩

/-- Scans of one table. -/
theorem AnswersAs.of_alike {e e' : Executor} (h : Alike e e') (hcolumns : e.schema.aggEntries = [])
    (hwide : e.Wide) : AnswersAs node e e' where
  tree :=
    { toCorrespond := h.correspond _
      columns := ⟨.of_eq (congrArg _ h.schema), hcolumns, h.schema ▸ hcolumns⟩
      wide := hwide
      wide' := fun rows hrows row hrow => h.schema ▸ hwide rows ((h.rows rows).mpr hrows) row hrow }
  alike _ := h

theorem wide_seqScan (tableName ident : String) (table : Table) :
    (Executor.seqScan tableName (scanSchema ident table.columnNames) table).Wide := by
  intro rows hrows row hrow
  have hrun : (Executor.seqScan tableName (scanSchema ident table.columnNames) table).run =
      .ok table.rows := Executor.run_eq_ok.mpr rfl
  rw [hrun] at hrows
  cases hrows
  rw [table.width row hrow, Executor.schema, RowSchema.size, scanSchema, List.length_map]

/-- The index scan of a filter over a scan. -/
theorem alike_indexScan {predicate : Expression} {tableName : String} {aliasName t : Option String}
    {column : String} {lit : Literal} {table : Table}
    (ht : qualifierMatches t (aliasName.getD tableName) = true)
    (hc : table.columnNames.count column = 1)
    (hpred : columnLiteral predicate = some (t, column, lit)) :
    Alike (.filter predicate (.seqScan tableName
        (scanSchema (aliasName.getD tableName) table.columnNames) table))
      (.indexScan tableName (scanSchema (aliasName.getD tableName) table.columnNames) table column
        (.literal lit)) := by
  have hscan : (Executor.seqScan tableName
      (scanSchema (aliasName.getD tableName) table.columnNames) table).run = .ok table.rows :=
    Executor.run_eq_ok.mpr rfl
  have hfilter := Executor.run_filter (p := predicate) hscan fun row hrow => by
    obtain ⟨_, v, -, -, hpasses⟩ := passes_probe ht hc hpred hrow
    exact ⟨_, hpasses⟩
  have hindex : (Executor.indexScan tableName
      (scanSchema (aliasName.getD tableName) table.columnNames) table column (.literal lit)).run =
        .ok (rowsWhere table (aliasName.getD tableName) [predicate]) := by
    rw [Executor.run_eq_ok, Executor.drain]
    exact indexScanRows_eq ht hc hpred
  refine ⟨rfl, fun out => ?_⟩
  rw [hfilter, hindex, rowsWhere]
  simp [Executor.schema]

omit [CostNum R] in
theorem AnswersAs.filter {predicate : Expression} {input : LogicalPlan} {e e' : Executor}
    (h : AnswersAs input e e') :
    AnswersAs (.filter predicate input) (.filter predicate e) (.filter predicate e') where
  tree := h.tree.filter predicate
  alike hordered := (h.alike hordered).filter predicate

omit [CostNum R] in
theorem AnswersAs.join {joinType : JoinType} {condition : Expression} {left right : LogicalPlan}
    (ann : Annotation R) {kind : JoinKind} {l r : PhysicalPlan R} {le le' re re' : Executor}
    (houter : (LogicalPlan.join joinType condition left right).allInner = false)
    (hl : AnswersAs left le le') (hr : AnswersAs right re re')
    (hkind : kind = .hashJoin → isEquality condition = true)
    (hhashes : isEquality condition = true → Hashes condition le re)
    (hlbuild : buildExecutor l db ∅ = .ok le') (hrbuild : buildExecutor r db ∅ = .ok re') :
    ∃ e, buildExecutor (.join ann kind joinType condition l r) db ∅ = .ok e ∧
      AnswersAs (.join joinType condition left right) (.nestedLoopJoin condition le re) e := by
  have hfixed : (LogicalPlan.join joinType condition left right).fixed = true →
      left.fixed = true ∧ right.fixed = true := by
    intro h
    rw [LogicalPlan.fixed, houter] at h
    simpa using h
  have hltree : TreeCorrespond ((LogicalPlan.join joinType condition left right).fixed = true)
      le le' := hl.tree.imp fun h => (hfixed h).1
  have hrtree : TreeCorrespond ((LogicalPlan.join joinType condition left right).fixed = true)
      re re' := hr.tree.imp fun h => (hfixed h).2
  have hnested : AnswersAs (.join joinType condition left right) (.nestedLoopJoin condition le re)
      (.nestedLoopJoin condition le' re') :=
    ⟨hltree.nestedLoopJoin hrtree condition, fun hordered => by
      simp only [LogicalPlan.ordered, Bool.and_eq_true] at hordered
      exact (hl.alike hordered.1.2).nestedLoopJoin (hr.alike hordered.2) condition⟩
  cases kind with
  | nestedLoopJoin | indexNestedLoopJoin =>
    exact ⟨_, by simp only [buildExecutor, hlbuild, hrbuild]; rfl, hnested⟩
  | hashJoin =>
    have hequality := hkind rfl
    have hhash := hhashes hequality
    obtain ⟨⟨lk, rk⟩, hkeys⟩ := hhash.accepted
    rw [hashJoinKeys_perm hl.tree.columns.entries hr.tree.columns.entries] at hkeys
    refine ⟨.hashJoin condition lk rk le' re', by simp [buildExecutor, hlbuild, hrbuild, hkeys],
      hltree.hashJoin hrtree hhash hkeys, fun hordered => ?_⟩
    simp [LogicalPlan.ordered, hequality] at hordered

/-- Every plan of a join tree answers as the reference. -/
theorem agree_joinTree (htree : node.joinTree = true) (hfit : ∀ k ∈ node.searches, k ≤ 63)
    (hsteady : node.Steady catalog db) (hplan : planNode catalog stats node = .ok plan) :
    Except.Agree (AnswersAs node) (node.reference db) (buildExecutor plan db ∅) := by
  induction node generalizing plan with
  | scan tableName aliasName columns =>
    cases hplan
    simp only [LogicalPlan.reference, isJoinSearchCandidate, LogicalPlan.unwrapFilters,
      Bool.false_eq_true, if_false, planScan, buildExecutor]
    refine (Except.Agree.refl (loadedTable db tableName)).bind fun table _ _ heq => ?_
    cases heq
    exact .ok (.of_alike (.refl _) rfl (wide_seqScan _ _ _))
  | filter predicate input ih =>
    cases hcandidate : isJoinSearchCandidate (.filter predicate input) with
    | true => exact agree_candidate hcandidate hfit hsteady hplan
    | false =>
      rw [LogicalPlan.Steady.eq_def, if_neg (by simp [hcandidate])] at hsteady
      rw [LogicalPlan.reference.eq_def, if_neg (by simp [hcandidate])]
      rw [planNode.eq_def, if_neg (by simp [hcandidate])] at hplan
      dsimp only at hsteady hplan ⊢
      split at hplan
      case h_1 indexed hindexed =>
        cases hplan
        cases input with
        | scan tableName aliasName columns =>
          obtain ⟨rows, reasoning, confidence, t, column, lit, hpred, rfl⟩ :=
            tryIndexScan_eq_some hindexed
          obtain ⟨ht, schema, hschema, hindex⟩ := tryIndexScan_indexed hindexed hpred
          simp only [LogicalPlan.reference, isJoinSearchCandidate, LogicalPlan.unwrapFilters,
            Bool.false_eq_true, if_false, buildExecutor]
          cases htable : db.get tableName with
          | none =>
            simp only [loadedTable, htable]
            exact .error
          | some table =>
            simp only [loadedTable, htable]
            have hc := hsteady.2 t column lit schema table hpred ht hschema hindex htable
            exact .ok (.of_alike (alike_indexScan ht hc hpred) rfl ((wide_seqScan _ _ _).filter _))
        | _ => cases hindexed
      case h_2 =>
        obtain ⟨inner, hinner, hplan⟩ := Except.bind_eq_ok.mp hplan
        cases hplan
        rw [buildExecutor]
        exact (ih htree hfit hsteady.1 hinner).bind fun e e' _ h => .ok h.filter
  | join joinType condition left right ihl ihr =>
    cases hcandidate : isJoinSearchCandidate (.join joinType condition left right) with
    | true => exact agree_candidate hcandidate hfit hsteady hplan
    | false =>
      have houter : (LogicalPlan.join joinType condition left right).allInner = false := hcandidate
      rw [LogicalPlan.Steady.eq_def, if_neg (by simp [hcandidate])] at hsteady
      rw [LogicalPlan.reference.eq_def, if_neg (by simp [hcandidate])]
      rw [planNode.eq_def, if_neg (by simp [hcandidate])] at hplan
      obtain ⟨l, hl, hplan⟩ := Except.bind_eq_ok.mp hplan
      obtain ⟨r, hr, hplan⟩ := Except.bind_eq_ok.mp hplan
      cases hplan
      rw [LogicalPlan.joinTree, Bool.and_eq_true] at htree
      rw [LogicalPlan.searches, houter, if_neg (by simp)] at hfit
      have hleft := ihl htree.1 (fun k hk => hfit k (List.mem_append_left _ hk)) hsteady.1 hl
      have hright := ihr htree.2 (fun k hk => hfit k (List.mem_append_right _ hk)) hsteady.2.1 hr
      obtain ⟨ann, kind, hchoice, -, -, hkind⟩ :=
        chooseJoinStrategy_eq stats joinType condition l r left right
      rw [hchoice]
      dsimp only
      cases hlref : left.reference db with
      | error =>
        rw [hlref] at hleft
        cases hlbuild : buildExecutor l db ∅ with
        | ok => rw [hlbuild] at hleft; cases hleft
        | error => rw [buildExecutor, hlbuild]; exact .error
      | ok le =>
        rw [hlref] at hleft
        obtain ⟨le', hlbuild, hlanswers⟩ := hleft.of_ok rfl
        cases hrref : right.reference db with
        | error =>
          rw [hrref] at hright
          cases hrbuild : buildExecutor r db ∅ with
          | ok => rw [hrbuild] at hright; cases hright
          | error => rw [buildExecutor, hlbuild, Except.ok_bind, hrbuild]; exact .error
        | ok re =>
          rw [hrref] at hright
          obtain ⟨re', hrbuild, hranswers⟩ := hright.of_ok rfl
          obtain ⟨e, hbuild, h⟩ := AnswersAs.join ann houter hlanswers hranswers hkind
            (fun hequality => hsteady.2.2 hequality le re hlref hrref) hlbuild hrbuild
          rw [hbuild]
          exact .ok h
  | _ => cases htree

/-! ### The operators above -/

/-- Operators with one input over a join tree, with aggregates that the executor knows. -/
def LogicalPlan.isQuery : LogicalPlan → Bool
  | .scan _ _ _ => true
  | .join joinType condition left right => (LogicalPlan.join joinType condition left right).joinTree
  | .aggregate _ aggregates input =>
    (aggregates.all fun agg => agg.func ∈ aggregateFunctions) && input.isQuery
  | .filter _ input | .project _ input | .sort _ input | .limit _ input => input.isQuery

omit [Rounding] in
theorem LogicalPlan.joinTree_of_candidate (hquery : node.isQuery = true)
    (h : isJoinSearchCandidate node = true) : node.joinTree = true := by
  induction node with
  | filter predicate input ih => exact ih hquery h
  | join joinType condition left right => exact hquery
  | _ => cases h

/-- An executor of a plan against the reference. -/
structure ReturnsAs (node : LogicalPlan) (e e' : Executor) : Prop where
  rows : Correspond (node.fixed = true) e e'
  alike : node.ordered = true → Alike e e'

/-- Every plan answers as the reference. -/
theorem agree_planNode (hquery : node.isQuery = true) (hfit : ∀ k ∈ node.searches, k ≤ 63)
    (hsteady : node.Steady catalog db) (hplan : planNode catalog stats node = .ok plan) :
    Except.Agree (ReturnsAs node) (node.reference db) (buildExecutor plan db ∅) := by
  have htrees : ∀ {node : LogicalPlan} {plan : PhysicalPlan R}, node.joinTree = true →
      (∀ k ∈ node.searches, k ≤ 63) → node.Steady catalog db →
        planNode catalog stats node = .ok plan →
          Except.Agree (ReturnsAs node) (node.reference db) (buildExecutor plan db ∅) :=
    fun htree hfit hsteady hplan => (agree_joinTree htree hfit hsteady hplan).imp
      fun _ _ h => ⟨h.tree.toCorrespond, h.alike⟩
  induction node generalizing plan with
  | scan => exact htrees rfl hfit hsteady hplan
  | join => exact htrees hquery hfit hsteady hplan
  | filter predicate input ih =>
    cases htree : (LogicalPlan.filter predicate input).joinTree with
    | true => exact htrees htree hfit hsteady hplan
    | false =>
      have hcandidate : isJoinSearchCandidate (.filter predicate input) = false := by
        by_contra hcandidate
        rw [LogicalPlan.joinTree_of_candidate hquery (Bool.not_eq_false _ ▸ hcandidate)] at htree
        cases htree
      rw [LogicalPlan.Steady.eq_def, if_neg (by simp [hcandidate])] at hsteady
      rw [LogicalPlan.reference.eq_def, if_neg (by simp [hcandidate])]
      rw [planNode.eq_def, if_neg (by simp [hcandidate])] at hplan
      dsimp only at hsteady hplan ⊢
      split at hplan
      case h_1 indexed hindexed =>
        cases input with
        | scan => cases htree
        | _ => cases hindexed
      case h_2 =>
        obtain ⟨inner, hinner, hplan⟩ := Except.bind_eq_ok.mp hplan
        cases hplan
        rw [buildExecutor]
        exact (ih hquery hfit hsteady.1 hinner).bind fun e e' _ h =>
          .ok ⟨h.rows.filter predicate, fun hordered => (h.alike hordered).filter predicate⟩
  | aggregate groupBy aggregates input ih =>
    rw [LogicalPlan.isQuery, Bool.and_eq_true] at hquery
    obtain ⟨hsteady, hfree⟩ := hsteady
    obtain ⟨inner, hinner, hplan⟩ := Except.bind_eq_ok.mp hplan
    cases hplan
    rw [buildExecutor]
    refine (ih hquery.2 hfit hsteady hinner).bind fun e e' he h => .ok ⟨?_, fun hordered =>
      (h.alike hordered).hashAggregate groupBy aggregates⟩
    rcases hfree with hordered | hfree
    · exact ((h.alike hordered).hashAggregate groupBy aggregates).correspond _
    · exact (h.rows.hashAggregate (fun agg hagg => of_decide_eq_true
        (List.all_eq_true.mp hquery.1 agg hagg)) fun rows hrows => hfree e rows he hrows).imp
        fun _ => trivial
  | project expressions input ih =>
    obtain ⟨inner, hinner, hplan⟩ := Except.bind_eq_ok.mp hplan
    cases hplan
    rw [buildExecutor]
    exact (ih hquery hfit hsteady hinner).bind fun e e' _ h =>
      .ok ⟨(h.rows.project expressions).imp fun _ => trivial, fun hordered =>
        (h.alike hordered).project expressions⟩
  | sort orderBy input ih =>
    obtain ⟨hsteady, hsorts⟩ := hsteady
    obtain ⟨inner, hinner, hplan⟩ := Except.bind_eq_ok.mp hplan
    cases hplan
    rw [buildExecutor]
    refine (ih hquery hfit hsteady hinner).bind fun e e' he h => .ok ⟨?_, fun hordered =>
      (h.alike hordered).sort orderBy⟩
    rcases hsorts with hordered | hsorts
    · exact ((h.alike hordered).sort orderBy).correspond _
    · exact h.rows.sort (hsorts e he)
  | limit => cases hsteady

end

end SqlOptimizer
