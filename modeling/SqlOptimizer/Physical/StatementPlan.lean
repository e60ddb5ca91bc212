import SqlOptimizer.Logical.Planner
import SqlOptimizer.Physical.JoinTrees

/-! The executor that a statement leads to through `LogicalPlanner`, `optimize`,
`generate_physical_plan` and `build_executor`, operator by operator. -/

namespace SqlOptimizer

section

variable {R : Type} [CostNum R] (catalog : Catalog) (stats : StatisticsCatalog R) (db : Database)

/-- The rewriting, planning and building of a logical plan.  `needed` are the columns that the
operators above it asked for. -/
def Implements (node : LogicalPlan) (plan : PhysicalPlan R) (e : Executor) : Prop :=
  (∃ needed, planNode catalog stats
    (reorderJoins catalog (pushProjections (pushPredicates node) needed)) = .ok plan) ∧
  buildExecutor plan db ∅ = .ok e

variable {catalog stats db} {plan : PhysicalPlan R} {e : Executor} {node : LogicalPlan}

/-- The operators over one input that the rewriting leaves where they are. -/
inductive OverInput : (LogicalPlan → LogicalPlan) → (Executor → Executor) → Prop
  | aggregate (groupBy : List Expression) (aggregates : List AggregateExpr) :
      OverInput (.aggregate groupBy aggregates) (.hashAggregate groupBy aggregates)
  | project (expressions : List (Expression × Option String)) :
      OverInput (.project expressions) (.project expressions)
  | sort (orderBy : List OrderByItem) : OverInput (.sort orderBy) (.sort orderBy)
  | limit (count : Nat) : OverInput (.limit count) (.limit count)

theorem Implements.input {outer : LogicalPlan → LogicalPlan} {f : Executor → Executor}
    (hop : OverInput outer f) (h : Implements catalog stats db (outer node) plan e) :
    ∃ inner i, plan.scans = inner.scans ∧ e = f i ∧ Implements catalog stats db node inner i := by
  obtain ⟨⟨needed, hplan⟩, hbuild⟩ := h
  cases hop with
  | aggregate | project | sort | limit =>
    simp only [pushPredicates, pushProjections, reorderJoins, planNode, isJoinSearchCandidate,
      LogicalPlan.unwrapFilters, Bool.false_eq_true, if_false] at hplan
    obtain ⟨inner, hinner, hplan⟩ := Except.bind_eq_ok.mp hplan
    cases hplan
    obtain ⟨i, hi, hbuild⟩ := Except.bind_eq_ok.mp hbuild
    cases hbuild
    exact ⟨inner, i, rfl, rfl, ⟨_, hinner⟩, hi⟩

/-- A filter over an aggregate stays where it is. -/
theorem Implements.having {predicate : Expression} {groupBy : List Expression}
    {aggregates : List AggregateExpr}
    (h : Implements catalog stats db (.filter predicate (.aggregate groupBy aggregates node)) plan
      e) :
    ∃ inner i, plan.scans = inner.scans ∧ e = .filter predicate i ∧
      Implements catalog stats db (.aggregate groupBy aggregates node) inner i := by
  obtain ⟨⟨needed, hplan⟩, hbuild⟩ := h
  simp only [pushPredicates, pushProjections, reorderJoins] at hplan
  rw [planNode] at hplan
  simp only [isJoinSearchCandidate, LogicalPlan.unwrapFilters, Bool.false_eq_true, if_false,
    indexScanOf] at hplan
  obtain ⟨inner, hinner, hplan⟩ := Except.bind_eq_ok.mp hplan
  cases hplan
  obtain ⟨i, hi, hbuild⟩ := Except.bind_eq_ok.mp hbuild
  cases hbuild
  refine ⟨inner, i, rfl, rfl, ⟨addColumns [predicate] needed, ?_⟩, hi⟩
  simpa only [pushPredicates, pushProjections, reorderJoins] using hinner

variable [Rounding]

/-- A join tree is read in an order that the searches pick, and in its own if there is none. -/
theorem Implements.rows (h : Implements catalog stats db node plan e)
    (htree : node.joinTree = true) (hfit : ∀ k ∈ (pushPredicates node).searches, k ≤ 64) :
    (plan.scans.Perm node.scans ∧
      ((pushPredicates node).searches = [] → plan.scans = node.scans)) ∧
    e.schema = scansSchema db plan.scans ∧
      ∀ d, e.drain = .ok d → ∀ row ∈ d.rows, SideBySide db plan.scans row := by
  obtain ⟨⟨needed, hplan⟩, hbuild⟩ := h
  have hsearches := LogicalPlan.searches_reorderJoins catalog
    (pushProjections (pushPredicates node) needed)
  have hperm := scans_reorderJoins catalog (pushProjections (pushPredicates node) needed)
  rw [LogicalPlan.searches_pushProjections] at hsearches
  rw [scans_pushProjections, scans_pushPredicates] at hperm
  obtain ⟨scans, hreads, hscans, horder⟩ := reads_planNode (by
    rw [LogicalPlan.joinTree_reorderJoins, LogicalPlan.joinTree_pushProjections,
      LogicalPlan.joinTree_pushPredicates, htree]) (fun k hk => by
    obtain ⟨m, hm, hle⟩ := hsearches k hk
    exact hle.trans (hfit m hm)) hplan
  have hrows := hreads.rows hbuild
  rw [← hreads.2] at hrows hscans horder
  refine ⟨⟨hscans.trans hperm, fun hnone => ?_⟩, hrows⟩
  have hproj : (pushProjections (pushPredicates node) needed).searches = [] := by
    rw [LogicalPlan.searches_pushProjections, hnone]
  rw [hnone] at hsearches
  rw [horder (List.eq_nil_iff_forall_not_mem.mpr fun k hk => by
    obtain ⟨m, hm, -⟩ := hsearches k hk
    cases hm), LogicalPlan.scans_reorderJoins_of_outer catalog hproj, scans_pushProjections,
    scans_pushPredicates]

end

/-! ### Operators that keep rows -/

theorem mem_insertRow {less : Row → Row → Except String Bool} {row : Row} {rows out : List Row}
    (h : insertRow less row rows = .ok out) {r : Row} (hr : r ∈ out) : r = row ∨ r ∈ rows := by
  induction rows generalizing out with
  | nil =>
    cases h
    exact .inl (List.mem_singleton.mp hr)
  | cons first rows ih =>
    obtain ⟨b, -, h⟩ := Except.bind_eq_ok.mp h
    cases b with
    | true =>
      cases h
      exact List.mem_cons.mp hr
    | false =>
      obtain ⟨rest, hrest, h⟩ := Except.bind_eq_ok.mp h
      cases h
      rcases List.mem_cons.mp hr with rfl | hr
      · exact .inr List.mem_cons_self
      · exact (ih hrest hr).imp_right (List.mem_cons_of_mem _)

theorem mem_sortRows {less : Row → Row → Except String Bool} {rows out : List Row}
    (h : sortRows less rows = .ok out) {r : Row} (hr : r ∈ out) : r ∈ rows := by
  have hall : ∀ {start : List Row},
      rows.foldlM (fun sorted row => insertRow less row sorted) start = .ok out →
        r ∈ start ∨ r ∈ rows := by
    clear h
    induction rows with
    | nil =>
      rintro start ⟨⟩
      exact .inl hr
    | cons row rows ih =>
      intro start h
      rw [List.foldlM_cons] at h
      obtain ⟨next, hnext, h⟩ := Except.bind_eq_ok.mp h
      rcases ih h with hmem | hmem
      · rcases mem_insertRow hnext hmem with rfl | hmem
        · exact .inr List.mem_cons_self
        · exact .inl hmem
      · exact .inr (List.mem_cons_of_mem _ hmem)
  exact (hall h).resolve_left (by simp)

section

variable [Rounding]

/-- The rows of `e` are rows of `e'`, under the same schema. -/
structure Among (e e' : Executor) : Prop where
  schema : e.schema = e'.schema
  rows : ∀ d, e.drain = .ok d → ∃ d', e'.drain = .ok d' ∧ ∀ row ∈ d.rows, row ∈ d'.rows

namespace Among

theorem refl (e : Executor) : Among e e := ⟨rfl, fun d hd => ⟨d, hd, fun _ h => h⟩⟩

theorem trans {e e' e'' : Executor} (h : Among e e') (h' : Among e' e'') : Among e e'' where
  schema := h.schema.trans h'.schema
  rows d hd := by
    obtain ⟨d', hd', hrows⟩ := h.rows d hd
    obtain ⟨d'', hd'', hrows'⟩ := h'.rows d' hd'
    exact ⟨d'', hd'', fun row hrow => hrows' row (hrows row hrow)⟩

theorem filter (predicate : Expression) (e : Executor) : Among (.filter predicate e) e where
  schema := rfl
  rows d hd := by
    obtain ⟨d', hd', hd⟩ := Except.bind_eq_ok.mp hd
    cases hd
    exact ⟨d', hd', fun row hrow => Drain.mem_filter hrow⟩

theorem limit (count : Nat) (e : Executor) : Among (.limit count e) e where
  schema := rfl
  rows d hd := by
    obtain ⟨d', hd', hd⟩ := Except.bind_eq_ok.mp hd
    cases hd
    exact ⟨d', hd', fun row hrow => Drain.mem_take hrow⟩

theorem sort (orderBy : List OrderByItem) (e : Executor) : Among (.sort orderBy e) e where
  schema := rfl
  rows d hd := by
    rw [Executor.drain] at hd
    obtain ⟨d', hd', hd⟩ := Except.bind_eq_ok.mp hd
    obtain ⟨rows, hrows, hd⟩ := Except.bind_eq_ok.mp hd
    obtain ⟨sorted, hsorted, hd⟩ := Except.bind_eq_ok.mp hd
    cases hd
    refine ⟨d', hd', fun row hrow => ?_⟩
    rw [(Drain.collect_eq_ok.mp hrows).1]
    exact mem_sortRows hsorted hrow

end Among

end

/-! ### The operators of a statement -/

namespace SelectStatement

/-- The FROM table and the JOIN tables with their aliases, in textual order. -/
def tables (stmt : SelectStatement) : List (String × Option String) :=
  (stmt.fromTable :: stmt.joins.map (·.table)).map fun t => (t.tableName, t.aliasName)

/-- FROM, JOIN and WHERE. -/
def fromWhere (stmt : SelectStatement) : LogicalPlan :=
  let joined := stmt.joins.foldl (fun plan join => .join join.joinType join.condition plan
    (.scan join.table.tableName join.table.aliasName []))
    (.scan stmt.fromTable.tableName stmt.fromTable.aliasName [])
  match stmt.whereClause with
  | some p => .filter p joined
  | none => joined

/-- The plain expressions and the aggregates of the SELECT list. -/
def plain (stmt : SelectStatement) : List (Expression × Option String) :=
  (splitSelectList stmt.columns).1

def aggregates (stmt : SelectStatement) : List AggregateExpr := (splitSelectList stmt.columns).2

def isGrouped (stmt : SelectStatement) : Bool :=
  !stmt.aggregates.isEmpty || !stmt.groupBy.isEmpty

/-- Whether the plan ends in a `Project`. -/
def isProjected (stmt : SelectStatement) : Bool :=
  !stmt.columns.all SelectItem.isWildcard && stmt.aggregates.isEmpty

/-- The plan under ORDER BY, LIMIT and the `Project`, and under HAVING if there is an `Aggregate`. -/
def core (stmt : SelectStatement) : LogicalPlan :=
  if stmt.isGrouped then .aggregate stmt.groupBy stmt.aggregates stmt.fromWhere
  else match stmt.having with
    | some p => .filter p stmt.fromWhere
    | none => stmt.fromWhere

/-- The plan with HAVING, and with ORDER BY above it. -/
def selected (stmt : SelectStatement) : LogicalPlan :=
  let aggregated := if stmt.isGrouped then .aggregate stmt.groupBy stmt.aggregates stmt.fromWhere
    else stmt.fromWhere
  match stmt.having with
  | some p => .filter p aggregated
  | none => aggregated

def sorted (stmt : SelectStatement) : LogicalPlan :=
  if !stmt.orderBy.isEmpty then .sort stmt.orderBy stmt.selected else stmt.selected

/-- The plan under the `Project`. -/
def limited (stmt : SelectStatement) : LogicalPlan :=
  match stmt.limit with
  | some n => .limit n stmt.sorted
  | none => stmt.sorted

theorem planStatement_eq (stmt : SelectStatement) : planStatement stmt =
    if stmt.isProjected then .project stmt.plain stmt.limited else stmt.limited := rfl

theorem joinTree_fromWhere (stmt : SelectStatement) :
    stmt.fromWhere.joinTree = true ∧ stmt.fromWhere.scans = stmt.tables := by
  have hjoins : ∀ (joins : List Join) (plan : LogicalPlan), plan.joinTree = true →
      (joins.foldl (fun plan join => LogicalPlan.join join.joinType join.condition plan
        (.scan join.table.tableName join.table.aliasName [])) plan).joinTree = true ∧
      (joins.foldl (fun plan join => LogicalPlan.join join.joinType join.condition plan
        (.scan join.table.tableName join.table.aliasName [])) plan).scans =
          plan.scans ++ joins.map fun join => (join.table.tableName, join.table.aliasName) := by
    intro joins
    induction joins with
    | nil => exact fun plan h => ⟨h, (List.append_nil _).symm⟩
    | cons join joins ih =>
      intro plan h
      obtain ⟨htree, hscans⟩ := ih (.join join.joinType join.condition plan
        (.scan join.table.tableName join.table.aliasName [])) (by simp [LogicalPlan.joinTree, h])
      exact ⟨htree, by rw [List.foldl_cons, hscans]; simp [LogicalPlan.scans]⟩
  obtain ⟨htree, hscans⟩ := hjoins stmt.joins
    (.scan stmt.fromTable.tableName stmt.fromTable.aliasName []) rfl
  unfold fromWhere tables
  cases stmt.whereClause with
  | none => exact ⟨htree, by rw [hscans]; simp [LogicalPlan.scans]⟩
  | some p => exact ⟨htree, by dsimp only [LogicalPlan.scans]; rw [hscans]; simp [LogicalPlan.scans]⟩

theorem joinTree_core {stmt : SelectStatement} (h : stmt.isGrouped = false) :
    stmt.core.joinTree = true ∧ stmt.core.scans = stmt.tables := by
  rw [core, h]
  cases stmt.having with
  | none => exact stmt.joinTree_fromWhere
  | some p => exact stmt.joinTree_fromWhere

end SelectStatement

section

variable {R : Type} [CostNum R] {catalog : Catalog} {stats : StatisticsCatalog R} {db : Database}
  {plan : PhysicalPlan R} {e : Executor}

variable [Rounding]

/-- A plan whose executor keeps rows of the executor of `node`. -/
def KeepsRows (catalog : Catalog) (stats : StatisticsCatalog R) (db : Database)
    (node : LogicalPlan) (plan : PhysicalPlan R) (e : Executor) : Prop :=
  ∃ inner i, plan.scans = inner.scans ∧ Implements catalog stats db node inner i ∧ Among e i

/-- Whatever implements `node` keeps rows of the core. -/
def KeepsCore (catalog : Catalog) (stats : StatisticsCatalog R) (db : Database)
    (stmt : SelectStatement) (node : LogicalPlan) : Prop :=
  ∀ (plan : PhysicalPlan R) (e : Executor), Implements catalog stats db node plan e →
    KeepsRows catalog stats db stmt.core plan e

variable {stmt : SelectStatement}

theorem KeepsCore.over {outer : LogicalPlan → LogicalPlan} {f : Executor → Executor}
    (hop : OverInput outer f) (hamong : ∀ i, Among (f i) i) {node : LogicalPlan}
    (hnode : KeepsCore catalog stats db stmt node) :
    KeepsCore catalog stats db stmt (outer node) := by
  intro plan e houter
  obtain ⟨inner, i, hscans, rfl, hinner⟩ := houter.input hop
  obtain ⟨inner', i', hscans', hcore, hamong'⟩ := hnode inner i hinner
  exact ⟨inner', i', hscans.trans hscans', hcore, (hamong i).trans hamong'⟩

theorem keepsCore_selected : KeepsCore catalog stats db stmt stmt.selected := by
  intro plan e h
  unfold SelectStatement.core
  unfold SelectStatement.selected at h
  cases hgrouped : stmt.isGrouped with
  | false =>
    simp only [hgrouped, Bool.false_eq_true, if_false] at h ⊢
    exact ⟨plan, e, rfl, h, .refl e⟩
  | true =>
    simp only [hgrouped, if_true] at h ⊢
    cases hhaving : stmt.having with
    | none =>
      rw [hhaving] at h
      exact ⟨plan, e, rfl, h, .refl e⟩
    | some p =>
      rw [hhaving] at h
      obtain ⟨inner, i, hscans, rfl, hcore⟩ := h.having
      exact ⟨inner, i, hscans, hcore, .filter p i⟩

theorem keepsCore_sorted : KeepsCore catalog stats db stmt stmt.sorted := by
  unfold SelectStatement.sorted
  split
  · exact keepsCore_selected.over (.sort _) (Among.sort _)
  · exact keepsCore_selected

theorem keepsCore_limited : KeepsCore catalog stats db stmt stmt.limited := by
  unfold SelectStatement.limited
  split
  · exact keepsCore_sorted.over (.limit _) (Among.limit _)
  · exact keepsCore_sorted

/-- The executor of a statement: its rows are rows of the core, or the projections of such rows. -/
theorem Implements.statement (h : Implements catalog stats db (planStatement stmt) plan e) :
    ∃ kplan kept, plan.scans = kplan.scans ∧ KeepsRows catalog stats db stmt.core kplan kept ∧
      e = if stmt.isProjected then .project stmt.plain kept else kept := by
  rw [SelectStatement.planStatement_eq] at h
  cases hprojected : stmt.isProjected with
  | true =>
    rw [if_pos hprojected] at h
    obtain ⟨inner, i, hscans, rfl, hinner⟩ := h.input (.project _)
    exact ⟨inner, i, hscans, keepsCore_limited _ _ hinner, rfl⟩
  | false =>
    rw [hprojected] at h
    exact ⟨plan, e, rfl, keepsCore_limited _ _ h, rfl⟩

end

end SqlOptimizer
