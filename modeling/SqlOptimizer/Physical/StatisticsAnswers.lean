import SqlOptimizer.Execution.SelectList
import SqlOptimizer.Optimizer.Connectivity
import SqlOptimizer.Physical.ReferenceAnswers

/-! Statistics and the answers of a statement.  The logical plan of a statement does not depend on the
statistics, and neither does whether it can be planned; where the choices that they make agree, the
columns and the rows of the result do not either. -/

namespace SqlOptimizer

/-! ### The rewriting of a query -/

namespace LogicalPlan

theorem isQuery_of_joinTree {node : LogicalPlan} (h : node.joinTree = true) :
    node.isQuery = true := by
  induction node with
  | scan => rfl
  | filter predicate input ih => exact ih h
  | join => exact h
  | _ => cases h

theorem isQuery_wrapFilters (p : LogicalPlan) (fs : List Expression) :
    (wrapFilters p fs).isQuery = p.isQuery := by
  induction fs generalizing p with
  | nil => rfl
  | cons f fs ih => exact ih _

theorem isQuery_pushPredicates {p : LogicalPlan} (h : p.isQuery = true) :
    (pushPredicates p).isQuery = true := by
  induction p with
  | scan => rfl
  | filter predicate input ih =>
    have hinput := ih h
    obtain ⟨joinType, condition, left, right, heq, hpushed⟩ | hpushed :=
      pushPredicates_filter predicate input
    · rw [heq] at hinput
      rw [hpushed, pushIntoJoin, isQuery_wrapFilters]
      show ((wrapFilters left _).joinTree && (wrapFilters right _).joinTree) = true
      rw [joinTree_wrapFilters, joinTree_wrapFilters]
      exact hinput
    · rw [hpushed]
      exact hinput
  | join joinType condition left right =>
    refine isQuery_of_joinTree ?_
    rw [joinTree_pushPredicates]
    exact h
  | aggregate groupBy aggregates input ih =>
    simp only [isQuery, pushPredicates, Bool.and_eq_true] at h ⊢
    exact ⟨h.1, ih h.2⟩
  | project _ _ ih | sort _ _ ih | limit _ _ ih => exact ih h

theorem isQuery_pushProjections {p : LogicalPlan} (h : p.isQuery = true) (needed : List String) :
    (pushProjections p needed).isQuery = true := by
  induction p generalizing needed with
  | scan => rfl
  | join joinType condition left right =>
    refine isQuery_of_joinTree ?_
    rw [joinTree_pushProjections]
    exact h
  | aggregate groupBy aggregates input ih =>
    simp only [isQuery, pushProjections, Bool.and_eq_true] at h ⊢
    exact ⟨h.1, ih h.2 _⟩
  | filter _ _ ih | project _ _ ih | sort _ _ ih | limit _ _ ih => exact ih h _

theorem isQuery_reorderJoins (catalog : Catalog) {p : LogicalPlan} (h : p.isQuery = true) :
    (reorderJoins catalog p).isQuery = true := by
  induction p with
  | scan => rfl
  | join joinType condition left right =>
    refine isQuery_of_joinTree ?_
    rw [joinTree_reorderJoins]
    exact h
  | aggregate groupBy aggregates input ih =>
    simp only [isQuery, reorderJoins, Bool.and_eq_true] at h ⊢
    exact ⟨h.1, ih h.2⟩
  | filter _ _ ih | project _ _ ih | sort _ _ ih | limit _ _ ih => exact ih h

end LogicalPlan

/-- A statement is a query. -/
theorem isQuery_planStatement (stmt : SelectStatement) :
    (planStatement stmt).isQuery = true := by
  have hfrom := LogicalPlan.isQuery_of_joinTree stmt.joinTree_fromWhere.1
  have haggregated : (if stmt.isGrouped then
      LogicalPlan.aggregate stmt.groupBy stmt.aggregates stmt.fromWhere
        else stmt.fromWhere).isQuery = true := by
    split
    · rw [LogicalPlan.isQuery, hfrom, Bool.and_true, List.all_eq_true]
      exact fun agg hagg => decide_eq_true (func_mem_of_aggregates hagg)
    · exact hfrom
  have hselected : stmt.selected.isQuery = true := by
    unfold SelectStatement.selected
    dsimp only
    split
    · exact haggregated
    · exact haggregated
  have hsorted : stmt.sorted.isQuery = true := by
    unfold SelectStatement.sorted
    split
    · exact hselected
    · exact hselected
  have hlimited : stmt.limited.isQuery = true := by
    unfold SelectStatement.limited
    split
    · exact hsorted
    · exact hsorted
  rw [SelectStatement.planStatement_eq]
  split
  · exact hlimited
  · exact hlimited

theorem isQuery_optimize (catalog : Catalog) (stmt : SelectStatement) :
    (optimize catalog (planStatement stmt)).isQuery = true :=
  LogicalPlan.isQuery_reorderJoins catalog (LogicalPlan.isQuery_pushProjections
    (LogicalPlan.isQuery_pushPredicates (isQuery_planStatement stmt)) [])

/-! ### Which plans exist -/

/-- Every search of the plan is over a connected graph. -/
def LogicalPlan.Plannable (node : LogicalPlan) : Prop :=
  if isJoinSearchCandidate node then ∃ ex, buildJoinGraph node = .ok ex ∧ ex.graph.Connected
  else match node with
    | .scan _ _ _ => True
    | .join _ _ left right => left.Plannable ∧ right.Plannable
    | .filter _ input | .aggregate _ _ input | .project _ input | .sort _ input
    | .limit _ input => input.Plannable

theorem LogicalPlan.scans_ne_nil {node : LogicalPlan} (h : node.joinTree = true) :
    node.scans ≠ [] := by
  induction node with
  | scan => exact List.cons_ne_nil _ _
  | filter predicate input ih => exact ih h
  | join joinType condition left right ihl ihr =>
    rw [joinTree, Bool.and_eq_true] at h
    exact List.append_ne_nil_of_left_ne_nil (ihl h.1) _
  | _ => cases h

section

variable {R : Type} [CostNum R] (catalog : Catalog) (stats : StatisticsCatalog R)
  {node : LogicalPlan}

theorem exists_planJoinSearch_iff (hne : node.scans ≠ []) (hfit : node.scans.length ≤ 63) :
    (∃ plan, planJoinSearch catalog stats node = .ok plan) ↔
      ∃ ex, buildJoinGraph node = .ok ex ∧ ex.graph.Connected := by
  have hgraph : ∀ {ex : JoinGraphExtraction}, buildJoinGraph node = .ok ex →
      ((∃ plan, findBestPlan catalog stats ex.graph = .ok plan) ↔ ex.graph.Connected) := by
    intro ex hex
    have hlength : node.joinGraph.relations.length = node.scans.length := by
      simp [LogicalPlan.joinGraph, baseRelations]
    have hnone : node.joinGraph.relations ≠ [] := by
      rw [← List.length_pos_iff, hlength, List.length_pos_iff]
      exact hne
    have hsome : (solveAll catalog stats node.joinGraph
        (fullMask node.joinGraph.relations.length)).isSome ↔ node.joinGraph.Connected :=
      solveAll_isSome_iff hnone (hlength ▸ hfit) (joinGraph_fitsMask (by omega)).ends
    rw [buildJoinGraph_eq_ok hex]
    show (∃ plan, findBestPlan catalog stats node.joinGraph = .ok plan) ↔ node.joinGraph.Connected
    rw [findBestPlan_eq hnone (hlength ▸ hfit), ← hsome]
    cases solveAll catalog stats node.joinGraph (fullMask node.joinGraph.relations.length) <;> simp
  constructor
  · rintro ⟨plan, hplan⟩
    obtain ⟨ex, hex, hplan⟩ := Except.bind_eq_ok.mp hplan
    obtain ⟨best, hbest, -⟩ := Except.bind_eq_ok.mp hplan
    exact ⟨ex, hex, (hgraph hex).mp ⟨best, hbest⟩⟩
  · rintro ⟨ex, hex, hconnected⟩
    obtain ⟨best, hbest⟩ := (hgraph hex).mpr hconnected
    rw [planJoinSearch, hex, Except.ok_bind, hbest]
    exact ⟨_, rfl⟩

/-- An operator over one input is planned when its input is. -/
theorem exists_bind_pure_iff {ε α β : Type} {x : Except ε α} {f : α → β} :
    (∃ b, (do return f (← x)) = Except.ok b) ↔ ∃ a, x = .ok a := by
  cases x with
  | error =>
    constructor
    · rintro ⟨b, hb⟩
      cases hb
    · rintro ⟨a, ha⟩
      cases ha
  | ok a => exact ⟨fun _ => ⟨a, rfl⟩, fun _ => ⟨f a, rfl⟩⟩

/-- Whether a query can be planned does not depend on the statistics. -/
theorem exists_planNode_iff (hquery : node.isQuery = true) (hfit : ∀ k ∈ node.searches, k ≤ 63) :
    (∃ plan, planNode catalog stats node = .ok plan) ↔ node.Plannable := by
  have hsearch : ∀ {node : LogicalPlan}, node.isQuery = true →
      (∀ k ∈ node.searches, k ≤ 63) → isJoinSearchCandidate node = true →
        ((∃ plan, planNode catalog stats node = .ok plan) ↔ node.Plannable) := by
    intro node hquery hfit hcandidate
    rw [planNode.eq_def, LogicalPlan.Plannable.eq_def, if_pos hcandidate, if_pos hcandidate]
    refine exists_planJoinSearch_iff catalog stats
      (LogicalPlan.scans_ne_nil (LogicalPlan.joinTree_of_candidate hquery hcandidate)) ?_
    rw [LogicalPlan.searches_of_candidate hcandidate] at hfit
    exact hfit _ (List.mem_singleton_self _)
  induction node with
  | scan => exact ⟨fun _ => trivial, fun _ => ⟨_, rfl⟩⟩
  | filter predicate input ih =>
    cases hcandidate : isJoinSearchCandidate (.filter predicate input) with
    | true => exact hsearch hquery hfit hcandidate
    | false =>
      rw [planNode.eq_def, LogicalPlan.Plannable.eq_def, if_neg (by simp [hcandidate]),
        if_neg (by simp [hcandidate])]
      dsimp only
      split
      case h_1 plan hindexed =>
        refine ⟨fun _ => ?_, fun _ => ⟨_, rfl⟩⟩
        cases input with
        | scan => exact trivial
        | _ => cases hindexed
      case h_2 => exact exists_bind_pure_iff.trans (ih hquery hfit)
  | join joinType condition left right ihl ihr =>
    cases hcandidate : isJoinSearchCandidate (.join joinType condition left right) with
    | true => exact hsearch hquery hfit hcandidate
    | false =>
      have houter : (LogicalPlan.join joinType condition left right).allInner = false := hcandidate
      rw [LogicalPlan.isQuery, LogicalPlan.joinTree, Bool.and_eq_true] at hquery
      rw [LogicalPlan.searches, houter, if_neg (by simp)] at hfit
      have hleft := ihl (LogicalPlan.isQuery_of_joinTree hquery.1) fun k hk =>
        hfit k (List.mem_append_left _ hk)
      have hright := ihr (LogicalPlan.isQuery_of_joinTree hquery.2) fun k hk =>
        hfit k (List.mem_append_right _ hk)
      rw [planNode.eq_def, LogicalPlan.Plannable.eq_def, if_neg (by simp [hcandidate]),
        if_neg (by simp [hcandidate])]
      refine Iff.trans ?_ (and_congr hleft hright)
      constructor
      · rintro ⟨plan, hplan⟩
        obtain ⟨l, hl, hplan⟩ := Except.bind_eq_ok.mp hplan
        obtain ⟨r, hr, -⟩ := Except.bind_eq_ok.mp hplan
        exact ⟨⟨l, hl⟩, r, hr⟩
      · rintro ⟨⟨l, hl⟩, r, hr⟩
        dsimp only
        rw [hl, Except.ok_bind, hr]
        exact ⟨_, rfl⟩
  | aggregate groupBy aggregates input ih =>
    rw [LogicalPlan.isQuery, Bool.and_eq_true] at hquery
    exact exists_bind_pure_iff.trans (ih hquery.2 hfit)
  | project _ _ ih | sort _ _ ih | limit _ _ ih =>
    exact exists_bind_pure_iff.trans (ih hquery hfit)

end

/-! ### Two catalogs of statistics -/

section

variable [Rounding] {R : Type} [CostNum R]

/-- Plans a statement with `stats` and executes the plan. -/
def answerStatement (catalog : Catalog) (stats : StatisticsCatalog R) (stmt : SelectStatement)
    (db : Database) : Except String ExecutionResult := do
  let plan ← generatePhysicalPlan (optimize catalog (planStatement stmt)) catalog stats
  executePlan plan db ∅

/-- The same columns in the same order, and the same multiset of rows. -/
def ExecutionResult.Same (q q' : ExecutionResult) : Prop :=
  q.columns = q'.columns ∧ q'.rows.Perm q.rows

/-- Two executors that return what the reference does, with the columns in their places. -/
theorem ReturnsAs.same {node : LogicalPlan} {r e e' : Executor} (hfixed : node.fixed = true)
    (h : ReturnsAs node r e) (h' : ReturnsAs node r e') : Except.Agree ExecutionResult.Same
      (do let rows ← e.run; return ⟨e.schema.qualifiedNames, rows⟩)
      (do let rows ← e'.run; return ⟨e'.schema.qualifiedNames, rows⟩) := by
  have hrows : Except.Agree (fun rows rows' : List Row => rows'.Perm rows) e.run e'.run :=
    h.rows.rows.meet h'.rows.rows fun _ _ _ hsame hsame' =>
      (hsame'.imp fun _ => hfixed).perm.trans (hsame.imp fun _ => hfixed).perm.symm
  have hschema : e.schema = e'.schema :=
    (h.rows.schema hfixed).symm.trans (h'.rows.schema hfixed)
  exact hrows.bind fun rows rows' _ hperm => .ok ⟨by rw [hschema], hperm⟩

variable {catalog : Catalog} {stmt : SelectStatement} {db : Database}

end

/-! ### Two runs -/

section

attribute [local instance] Rounding.exact exactCosts

/-- Of each table one row that fills one page. -/
def oneRowStatistics : StatisticsCatalog ℚ :=
  AList.insert "b" ⟨1, 1, ∅⟩ (AList.insert "a" ⟨1, 1, ∅⟩ ∅)

/-- `SELECT a.y, COUNT(*) FROM a JOIN b ON a.x = b.x GROUP BY a.y` -/
def matchesPerKey : SelectStatement :=
  ⟨[.expression (.column (some "a") "y") none, .expression (.function "COUNT" [.wildcard]) none],
    ⟨"a", none⟩, [⟨.inner, ⟨"b", none⟩, columnsEqual "x"⟩], none, [.column (some "a") "y"], none, [],
    none⟩

def matchesDatabase : Database :=
  AList.insert "b" (pairTable [(.integer 1, .integer 5), (.integer 2, .integer 6),
      (.integer 2, .integer 7)])
    (AList.insert "a" (pairTable [(.integer 1, .integer 1), (.integer 2, .integer 1)]) ∅)

/-- The join of the statement after the rewriting. -/
def matchesJoin : LogicalPlan :=
  .join .inner (columnsEqual "x") (.scan "a" none ["y", "x"]) (.scan "b" none ["y", "x"])

def matchesCount : AggregateExpr := ⟨"COUNT", .wildcard, none⟩

/-- The rows that the condition is evaluated in. -/
theorem combinedRow_matches {e : Nat → Row}
    (h : matchesJoin.Picks matchesDatabase (columnsEqual "x") e) :
    ∃ a ∈ matchesJoin.tableRows matchesDatabase 0, ∃ b ∈ matchesJoin.tableRows matchesDatabase 1,
      matchesJoin.combinedRow e = a ++ b := by
  refine ⟨_, h.2 0 (by decide) (by decide), _, h.2 1 (by decide) (by decide), ?_⟩
  have hids : matchesJoin.scanIds = [0, 1] := rfl
  simp [LogicalPlan.combinedRow, hids, Blocks.layout]

theorem wellFormed_matches : matchesJoin.WellFormed matchesDatabase where
  loaded := by decide
  distinct := by decide
  names := by decide
  owned p hp t c htc := by
    rw [List.mem_singleton.mp hp] at htc
    rcases List.mem_append.mp htc with htc | htc
    · cases List.mem_singleton.mp htc
      exact ⟨("a", none), by decide, rfl, by decide⟩
    · cases List.mem_singleton.mp htc
      exact ⟨("b", none), by decide, rfl, by decide⟩
  width := by decide
  tree := by decide

theorem evaluates_matches : matchesJoin.Evaluates matchesDatabase where
  truth p hp e he := by
    rw [List.mem_singleton.mp hp] at he ⊢
    obtain ⟨a, ha, b, hb, hrow⟩ := combinedRow_matches he
    rw [hrow]
    have hall : ∀ a ∈ matchesJoin.tableRows matchesDatabase 0,
        ∀ b ∈ matchesJoin.tableRows matchesDatabase 1, ∃ t : Bool,
          passes (columnsEqual "x") (a ++ b) (matchesJoin.combinedSchema matchesDatabase) = .ok t := by
      decide +kernel
    exact hall a ha b hb
  columns edge hedge x y hxy := by
    rw [List.mem_singleton.mp hedge] at hxy
    cases hxy
    exact ⟨_, _, _, _, rfl, rfl⟩
  keys edge hedge x y hxy e he v w hv hw := by
    rw [List.mem_singleton.mp hedge] at hxy he
    cases hxy
    obtain ⟨a, ha, b, hb, hrow⟩ := combinedRow_matches he
    rw [hrow] at hv hw
    have hleft : a = [.integer 1, .integer 1] ∨ a = [.integer 2, .integer 1] := by
      simpa using show a ∈ [[Literal.integer 1, .integer 1], [.integer 2, .integer 1]] from ha
    have hright : b = [.integer 1, .integer 5] ∨ b = [.integer 2, .integer 6] ∨
        b = [.integer 2, .integer 7] := by
      simpa using show b ∈ [[Literal.integer 1, .integer 5], [.integer 2, .integer 6],
        [.integer 2, .integer 7]] from hb
    rcases hleft with rfl | rfl <;> rcases hright with rfl | rfl | rfl <;> cases hv <;> cases hw <;>
      decide

theorem optimize_matches : optimize ∅ (planStatement matchesPerKey) =
    .aggregate [.column (some "a") "y"] [matchesCount] matchesJoin := rfl

theorem steady_matches :
    (optimize ∅ (planStatement matchesPerKey)).Steady ∅ matchesDatabase := by
  have hjoin : matchesJoin.Steady ∅ matchesDatabase := by
    rw [LogicalPlan.Steady.eq_def, if_pos (show isJoinSearchCandidate matchesJoin = true from rfl)]
    exact fun _ => ⟨wellFormed_matches, evaluates_matches⟩
  rw [optimize_matches]
  refine ⟨hjoin, .inr fun e rows he hrows => ?_⟩
  rw [LogicalPlan.reference.eq_def,
    if_pos (show isJoinSearchCandidate matchesJoin = true from rfl), if_pos (by decide)] at he
  cases he
  have hsame : (matchesJoin.satisfying matchesDatabase).map matchesJoin.combinedRow =
      [[.integer 1, .integer 1, .integer 1, .integer 5],
        [.integer 2, .integer 1, .integer 2, .integer 6],
        [.integer 2, .integer 1, .integer 2, .integer 7]] := by decide +kernel
  rw [hsame] at hrows
  cases hrows
  constructor
  · decide +kernel
  · intro k agg hagg vs hperm
    cases List.mem_singleton.mp hagg
    simp only [outputOf, matchesCount, if_pos, hperm.length_eq]

/-- `SELECT a.x FROM a JOIN b ON a.x = b.x` -/
def nullKeys : SelectStatement :=
  ⟨[.expression (.column (some "a") "x") none], ⟨"a", none⟩,
    [⟨.inner, ⟨"b", none⟩, columnsEqual "x"⟩], none, [], none, [], none⟩

def nullDatabase : Database :=
  AList.insert "b" (pairTable [(.null, .integer 2)])
    (AList.insert "a" (pairTable [(.null, .integer 1)]) ∅)

end

end SqlOptimizer
