import SqlOptimizer.Distributed.Relations
import SqlOptimizer.Execution.SelectList

/-! A plan that `unwrap` splits and `finish` puts together again over the rows of its core, against
the plan in one piece. -/

namespace SqlOptimizer

section

variable {R : Type}

/-! ### Post operators -/

/-- The executor of a post operator over another one. -/
def attachOp (op : PhysicalPlan R) (e : Executor) : Executor :=
  match op with
  | .project _ expressions _ => .project expressions e
  | .sort _ orderBy _ => .sort orderBy e
  | .limit _ count _ => .limit count e
  | _ => e

def attachHaving (having : Option Expression) (e : Executor) : Executor :=
  match having with
  | some predicate => .filter predicate e
  | none => e

namespace UnwrapResult

/-- The executor of the whole plan, from that of the core or of the aggregate over it. -/
def attach (u : UnwrapResult R) (e : Executor) : Executor :=
  u.postOps.foldr attachOp (attachHaving u.having e)

/-- The core, or the aggregate over it. -/
def aggregated [CostNum R] (u : UnwrapResult R) : PhysicalPlan R :=
  match u.aggregate with
  | some (groupBy, aggregates) => .hashAggregate (plainEstimates 0) groupBy aggregates u.core
  | none => u.core

end UnwrapResult

theorem unwrapFrom_eq (postOps : List (PhysicalPlan R)) (plan : PhysicalPlan R) :
    unwrapFrom postOps plan = ⟨postOps ++ (unwrap plan).postOps, (unwrap plan).having,
      (unwrap plan).aggregate, (unwrap plan).core⟩ := by
  induction plan generalizing postOps with
  | project ann expressions input ih | sort ann orderBy input ih | limit ann count input ih =>
    rw [unwrap, unwrapFrom, unwrapFrom, ih (postOps ++ _), ih ([] ++ _)]
    simp
  | filter ann predicate input => cases input <;> simp [unwrap, unwrapFrom, unwrapCore]
  | _ => simp [unwrap, unwrapFrom, unwrapCore]

theorem buildExecutor_reattach [CostNum R] (ops : List (PhysicalPlan R)) (p : PhysicalPlan R)
    (db : Database) (sets : ExternalRowSets) :
    buildExecutor (ops.foldr reattach p) db sets =
      (buildExecutor p db sets).map fun e => ops.foldr attachOp e := by
  induction ops with
  | nil =>
    rw [List.foldr_nil]
    cases buildExecutor p db sets <;> rfl
  | cons op ops ih =>
    rw [List.foldr_cons]
    cases op with
    | project | sort | limit =>
      rw [reattach, buildExecutor, ih]
      cases buildExecutor p db sets <;> rfl
    | _ => exact ih

variable [CostNum R] {db : Database} {sets : ExternalRowSets}

/-- The executor of a plan is put together from the parts of `unwrap`. -/
theorem buildExecutor_unwrap (plan : PhysicalPlan R) :
    buildExecutor plan db sets =
      (buildExecutor (unwrap plan).aggregated db sets).map (unwrap plan).attach := by
  induction plan with
  | project ann expressions input ih | sort ann orderBy input ih | limit ann count input ih =>
    rw [unwrap, unwrapFrom, unwrapFrom_eq, buildExecutor, ih]
    cases h : buildExecutor (unwrap input).aggregated db sets <;>
      simp only [UnwrapResult.aggregated] at h ⊢ <;> rw [h] <;> rfl
  | filter ann predicate input =>
    cases input with
    | hashAggregate ann groupBy aggregates input =>
      simp only [unwrap, unwrapFrom, unwrapCore, UnwrapResult.aggregated, buildExecutor]
      cases buildExecutor input db sets <;> rfl
    | _ =>
      simp only [unwrap, unwrapFrom, unwrapCore, UnwrapResult.aggregated]
      exact (congrFun Except.map_id _).symm
  | hashAggregate ann groupBy aggregates input =>
    simp only [unwrap, unwrapFrom, unwrapCore, UnwrapResult.aggregated, buildExecutor]
    cases buildExecutor input db sets <;> rfl
  | _ => exact (congrFun Except.map_id _).symm

/-- The executor of `finish`. -/
theorem buildExecutor_finishPlan (u : UnwrapResult R) (columns : List String) (rows : List Row)
    (k : Nat) :
    buildExecutor (finishPlan u columns k) ∅ (AList.singleton 0 rows) =
      .ok (u.attach (.externalRows "merged" (externalSchema columns ((u.aggregate.map (·.1)).getD [])
        ((u.aggregate.map (·.2)).getD [])) rows)) := by
  unfold finishPlan
  rw [buildExecutor_reattach]
  cases hhaving : u.having <;>
    simp [hhaving, lookup_singleton, buildExecutor, UnwrapResult.attach, attachHaving, Except.map]

end

/-! ### The same input, and inputs that fail -/

section

variable [Rounding] {R : Type}

/-- The same columns and rows, with the failure that ends them if there is one. -/
def Executor.Same (e e' : Executor) : Prop := e.schema = e'.schema ∧ e.drain = e'.drain

/-- The executor does not return all its rows. -/
def Executor.Fails (e : Executor) : Prop := ∀ rows, e.run ≠ .ok rows

/-- The executor fails before its first row. -/
def Executor.FailsToOpen (e : Executor) : Prop := ∀ d, e.drain ≠ .ok d

variable {e e' : Executor}

theorem Executor.Same.attachOp (h : e.Same e') (op : PhysicalPlan R) :
    (attachOp op e).Same (attachOp op e') := by
  obtain ⟨hschema, hdrain⟩ := h
  cases op with
  | project expressions =>
    refine ⟨rfl, ?_⟩
    rw [SqlOptimizer.attachOp, SqlOptimizer.attachOp, Executor.drain, Executor.drain, hschema, hdrain]
  | sort ann orderBy =>
    refine ⟨hschema, ?_⟩
    rw [SqlOptimizer.attachOp, SqlOptimizer.attachOp, Executor.drain, Executor.drain, hschema, hdrain]
  | limit ann count =>
    refine ⟨hschema, ?_⟩
    rw [SqlOptimizer.attachOp, SqlOptimizer.attachOp, Executor.drain, Executor.drain, hdrain]
  | _ => exact ⟨hschema, hdrain⟩

theorem Executor.Same.attachHaving (h : e.Same e') (having : Option Expression) :
    (attachHaving having e).Same (attachHaving having e') := by
  obtain ⟨hschema, hdrain⟩ := h
  cases having with
  | none => exact ⟨hschema, hdrain⟩
  | some predicate =>
    refine ⟨hschema, ?_⟩
    rw [SqlOptimizer.attachHaving, SqlOptimizer.attachHaving, Executor.drain, Executor.drain, hschema,
      hdrain]

theorem Executor.Same.attach (h : e.Same e') (u : UnwrapResult R) :
    (u.attach e).Same (u.attach e') := by
  unfold UnwrapResult.attach
  induction u.postOps with
  | nil => exact h.attachHaving u.having
  | cons op ops ih => exact ih.attachOp op

theorem Executor.FailsToOpen.fails (h : e.FailsToOpen) : e.Fails := fun _ hrun =>
  h _ (Executor.run_eq_ok.mp hrun)

namespace Executor

/-- What is pulled to its end inside `open` fails there. -/
theorem failsToOpen_of_collect {α : Type} {f : List Row → Except String α}
    {g : α → Drain String Row} {e' : Executor}
    (hdrain : e'.drain = do return g (← f (← (← e.drain).collect))) (h : e.Fails) :
    e'.FailsToOpen := by
  intro d hd
  rw [hdrain] at hd
  obtain ⟨di, hdi, hd⟩ := Except.bind_eq_ok.mp hd
  obtain ⟨rows, hrows, -⟩ := Except.bind_eq_ok.mp hd
  refine h rows ?_
  rw [run, hdi, Except.ok_bind, hrows]

theorem Fails.sort (h : e.Fails) (orderBy : List OrderByItem) : (sort orderBy e).FailsToOpen :=
  failsToOpen_of_collect rfl h

theorem fails_hashAggregate {groupBy : List Expression} {aggregates : List AggregateExpr}
    (h : (hashAggregate groupBy aggregates e).Fails) :
    (hashAggregate groupBy aggregates e).FailsToOpen := by
  intro d hd
  have hrows := hd
  rw [drain] at hrows
  obtain ⟨di, -, hrows⟩ := Except.bind_eq_ok.mp hrows
  obtain ⟨rows, -, hrows⟩ := Except.bind_eq_ok.mp hrows
  obtain ⟨out, -, hrows⟩ := Except.bind_eq_ok.mp hrows
  cases hrows
  exact h out (run_eq_ok.mpr hd)

theorem Fails.filter (h : e.Fails) (predicate : Expression) : (filter predicate e).Fails := by
  intro rows hrun
  rw [run, drain] at hrun
  obtain ⟨d, hd, hrun⟩ := Except.bind_eq_ok.mp hrun
  obtain ⟨di, hdi, hd⟩ := Except.bind_eq_ok.mp hd
  cases hd
  obtain ⟨hfault, -⟩ := Drain.collect_filter_eq_ok.mp hrun
  refine h di.rows ?_
  rw [run, hdi, Except.ok_bind, Drain.collect_eq_ok]
  exact ⟨rfl, hfault⟩

theorem Fails.project (h : e.Fails) (expressions : List (Expression × Option String)) :
    (project expressions e).Fails := by
  intro rows hrun
  rw [run, drain] at hrun
  obtain ⟨d, hd, hrun⟩ := Except.bind_eq_ok.mp hrun
  obtain ⟨di, hdi, hd⟩ := Except.bind_eq_ok.mp hd
  cases hd
  obtain ⟨hfault, -⟩ := Drain.collect_flatMap_eq_ok.mp hrun
  refine h di.rows ?_
  rw [run, hdi, Except.ok_bind, Drain.collect_eq_ok]
  exact ⟨rfl, hfault⟩

theorem FailsToOpen.filter (h : e.FailsToOpen) (predicate : Expression) :
    (Executor.filter predicate e).FailsToOpen := by
  intro d hd
  obtain ⟨di, hdi, -⟩ := Except.bind_eq_ok.mp hd
  exact h di hdi

theorem FailsToOpen.limit (h : e.FailsToOpen) (count : Nat) :
    (Executor.limit count e).FailsToOpen := by
  intro d hd
  obtain ⟨di, hdi, -⟩ := Except.bind_eq_ok.mp hd
  exact h di hdi

end Executor

end

/-! ### The plan of a statement -/

section

variable {R : Type} [CostNum R] {catalog : Catalog} {stats : StatisticsCatalog R}

/-- The rewriting and planning of a logical plan. -/
def Planned (catalog : Catalog) (stats : StatisticsCatalog R) (node : LogicalPlan)
    (plan : PhysicalPlan R) : Prop :=
  ∃ needed, planNode catalog stats
    (reorderJoins catalog (pushProjections (pushPredicates node) needed)) = .ok plan

/-- The operators over one input, before and after planning. -/
inductive PlansTo : (LogicalPlan → LogicalPlan) →
    ( Annotation R → PhysicalPlan R → PhysicalPlan R) → Prop
  | aggregate (groupBy : List Expression) (aggregates : List AggregateExpr) :
      PlansTo (.aggregate groupBy aggregates) fun ann => .hashAggregate ann groupBy aggregates
  | project (expressions : List (Expression × Option String)) :
      PlansTo (.project expressions) fun ann => .project ann expressions
  | sort (orderBy : List OrderByItem) : PlansTo (.sort orderBy) fun ann => .sort ann orderBy
  | limit (count : Nat) : PlansTo (.limit count) fun ann => .limit ann count

variable {node : LogicalPlan} {plan : PhysicalPlan R} {stmt : SelectStatement}

theorem Planned.input {outer : LogicalPlan → LogicalPlan}
    {op : Annotation R → PhysicalPlan R → PhysicalPlan R} (hop : PlansTo outer op)
    (h : Planned catalog stats (outer node) plan) :
    ∃ ann inner, plan = op ann inner ∧ Planned catalog stats node inner := by
  obtain ⟨needed, hplan⟩ := h
  cases hop with
  | aggregate | project | sort | limit =>
    simp only [pushPredicates, pushProjections, reorderJoins, planNode, isJoinSearchCandidate,
      LogicalPlan.unwrapFilters, Bool.false_eq_true, if_false] at hplan
    obtain ⟨inner, hinner, hplan⟩ := Except.bind_eq_ok.mp hplan
    cases hplan
    exact ⟨_, inner, rfl, _, hinner⟩

theorem Planned.having {predicate : Expression} {groupBy : List Expression}
    {aggregates : List AggregateExpr}
    (h : Planned catalog stats (.filter predicate (.aggregate groupBy aggregates node)) plan) :
    ∃ ann inner, plan = .filter ann predicate inner ∧
      Planned catalog stats (.aggregate groupBy aggregates node) inner := by
  obtain ⟨needed, hplan⟩ := h
  simp only [pushPredicates, pushProjections, reorderJoins] at hplan
  rw [planNode] at hplan
  simp only [isJoinSearchCandidate, LogicalPlan.unwrapFilters, Bool.false_eq_true, if_false,
    indexScanOf] at hplan
  obtain ⟨inner, hinner, hplan⟩ := Except.bind_eq_ok.mp hplan
  cases hplan
  refine ⟨_, inner, rfl, addColumns [predicate] needed, ?_⟩
  simpa only [pushPredicates, pushProjections, reorderJoins] using hinner

theorem Planned.joinTree (h : Planned catalog stats node plan) (htree : node.joinTree = true) :
    plan.joinTree = true := by
  obtain ⟨needed, hplan⟩ := h
  refine joinTree_planNode ?_ hplan
  rw [LogicalPlan.joinTree_reorderJoins, LogicalPlan.joinTree_pushProjections,
    LogicalPlan.joinTree_pushPredicates, htree]

omit [CostNum R] in
theorem unwrap_joinTree (h : plan.joinTree = true) : unwrap plan = ⟨[], none, none, plan⟩ := by
  cases plan with
  | filter ann predicate input =>
    cases input with
    | hashAggregate => cases h
    | _ => rfl
  | hashAggregate | project | sort | limit => cases h
  | _ => rfl

namespace SelectStatement

/-- The executor of ORDER BY, LIMIT and the `Project` over that of the plan below. -/
def sortedOn (stmt : SelectStatement) : Executor → Executor :=
  if !stmt.orderBy.isEmpty then .sort stmt.orderBy else id

def limitedOn (stmt : SelectStatement) : Executor → Executor :=
  match stmt.limit with
  | some n => .limit n ∘ stmt.sortedOn
  | none => stmt.sortedOn

def projectedOn (stmt : SelectStatement) : Executor → Executor :=
  if stmt.isProjected then .project stmt.plain ∘ stmt.limitedOn else stmt.limitedOn

/-- HAVING, when it is above an aggregate. -/
def groupHaving (stmt : SelectStatement) : Option Expression :=
  if stmt.isGrouped then stmt.having else none

def groupAggregate (stmt : SelectStatement) : Option (List Expression × List AggregateExpr) :=
  if stmt.isGrouped then some (stmt.groupBy, stmt.aggregates) else none

end SelectStatement

/-- The parts of a plan: those of the statement, with `f` the post operators so far. -/
structure Splits (stmt : SelectStatement) (plan : PhysicalPlan R) (f : Executor → Executor) :
    Prop where
  having : (unwrap plan).having = stmt.groupHaving
  aggregate : (unwrap plan).aggregate = stmt.groupAggregate
  core : (unwrap plan).core.joinTree = true
  attach : ∀ e, (unwrap plan).attach e = f (attachHaving stmt.groupHaving e)

theorem splits_selected (h : Planned catalog stats stmt.selected plan) : Splits stmt plan id := by
  unfold SelectStatement.selected at h
  cases hgrouped : stmt.isGrouped with
  | false =>
    have htree : plan.joinTree = true := by
      refine h.joinTree ?_
      have hcore := (SelectStatement.joinTree_core hgrouped).1
      unfold SelectStatement.core at hcore
      simpa only [hgrouped, Bool.false_eq_true, if_false] using hcore
    have hsplit := unwrap_joinTree htree
    refine ⟨?_, ?_, by rw [hsplit]; exact htree, fun e => ?_⟩
    all_goals simp [hsplit, SelectStatement.groupHaving, SelectStatement.groupAggregate, hgrouped,
      UnwrapResult.attach]
  | true =>
    simp only [hgrouped, if_true] at h
    have hbelow : ∀ {agg : PhysicalPlan R},
        Planned catalog stats (.aggregate stmt.groupBy stmt.aggregates stmt.fromWhere) agg →
          ∃ ann core, agg = .hashAggregate ann stmt.groupBy stmt.aggregates core ∧
            core.joinTree = true := by
      intro agg hagg
      obtain ⟨ann, core, rfl, hcore⟩ := hagg.input (.aggregate _ _)
      exact ⟨ann, core, rfl, hcore.joinTree stmt.joinTree_fromWhere.1⟩
    cases hhaving : stmt.having with
    | none =>
      rw [hhaving] at h
      obtain ⟨ann, core, rfl, htree⟩ := hbelow h
      refine ⟨?_, ?_, htree, fun e => ?_⟩
      all_goals simp [unwrap, unwrapFrom, unwrapCore, SelectStatement.groupHaving,
        SelectStatement.groupAggregate, hgrouped, hhaving, UnwrapResult.attach]
    | some p =>
      rw [hhaving] at h
      obtain ⟨ann', inner, rfl, hinner⟩ := h.having
      obtain ⟨ann, core, rfl, htree⟩ := hbelow hinner
      refine ⟨?_, ?_, htree, fun e => ?_⟩
      all_goals simp [unwrap, unwrapFrom, unwrapCore, SelectStatement.groupHaving,
        SelectStatement.groupAggregate, hgrouped, hhaving, UnwrapResult.attach]

omit [CostNum R] in
/-- A post operator over a plan. -/
theorem Splits.over {f : Executor → Executor} (h : Splits stmt plan f) (op : PhysicalPlan R)
    (hop : unwrap op = unwrapFrom [op] plan) : Splits stmt op (attachOp op ∘ f) := by
  have hsplit := hop.trans (unwrapFrom_eq [op] plan)
  rw [List.singleton_append] at hsplit
  refine ⟨?_, ?_, ?_, fun e => ?_⟩
  · rw [hsplit]
    exact h.having
  · rw [hsplit]
    exact h.aggregate
  · rw [hsplit]
    exact h.core
  · rw [Function.comp_apply, ← h.attach e, hsplit]
    rfl

theorem splits_sorted (h : Planned catalog stats stmt.sorted plan) :
    Splits stmt plan stmt.sortedOn := by
  unfold SelectStatement.sorted at h
  unfold SelectStatement.sortedOn
  split at h
  · obtain ⟨ann, inner, rfl, hinner⟩ := h.input (.sort _)
    rw [if_pos ‹_›]
    exact (splits_selected hinner).over (.sort ann stmt.orderBy inner) rfl
  · rw [if_neg ‹_›]
    exact splits_selected h

theorem splits_limited (h : Planned catalog stats stmt.limited plan) :
    Splits stmt plan stmt.limitedOn := by
  unfold SelectStatement.limited at h
  unfold SelectStatement.limitedOn
  cases hlimit : stmt.limit with
  | none =>
    rw [hlimit] at h
    exact splits_sorted h
  | some n =>
    rw [hlimit] at h
    obtain ⟨ann, inner, rfl, hinner⟩ := h.input (.limit n)
    exact (splits_sorted hinner).over (.limit ann n inner) rfl

/-- What `unwrap` makes of the plan of a statement. -/
theorem splits_planStatement
    (h : generatePhysicalPlan (optimize catalog (planStatement stmt)) catalog stats = .ok plan) :
    Splits stmt plan stmt.projectedOn := by
  have hplanned : Planned catalog stats (planStatement stmt) plan := ⟨[], h⟩
  rw [SelectStatement.planStatement_eq] at hplanned
  unfold SelectStatement.projectedOn
  split at hplanned
  · obtain ⟨ann, inner, rfl, hinner⟩ := hplanned.input (.project _)
    rw [if_pos ‹_›]
    exact (splits_limited hinner).over (.project ann stmt.plain inner) rfl
  · rw [if_neg ‹_›]
    exact splits_limited hplanned

end

/-! ### Splitting and finishing -/

section

variable {R : Type} [CostNum R] [Rounding]

/-- The rows of the core, or of the aggregate over it, with the columns that `finish` is told. -/
def collectLocally (u : UnwrapResult R) (db : Database) : Except String ExecutionResult := do
  let result ← executePlan u.aggregated db ∅
  match u.aggregate with
  | some (groupBy, aggregates) => return ⟨aggregateOutputColumns groupBy aggregates, result.rows⟩
  | none => return result

/-- `unwrap`, its core in one place, and `finish`. -/
def runSplit (plan : PhysicalPlan R) (db : Database) (workersUsed : Nat) (joinStrategy : String)
    (usedCopartitionMergeSkip : Bool) : Except String DistributedQueryResult := do
  finish (unwrap plan) (← collectLocally (unwrap plan) db) workersUsed joinStrategy
    usedCopartitionMergeSkip

/-- The same columns and the same rows in the same order, or an error in both. -/
def SameAnswer (x y : Except String DistributedQueryResult) : Prop :=
  Except.Agree (fun q q' => q.columns = q'.columns ∧ q.rows = q'.rows) x y

/-- No column that a name could be split at. -/
structure DotlessNames (stmt : SelectStatement) (db : Database) : Prop where
  tables : ∀ name table, db.get name = some table → ∀ c ∈ table.columnNames, '.' ∉ c.toList
  groupBy : ∀ t c, .column t c ∈ stmt.groupBy → '.' ∉ c.toList
  aliases : ∀ agg ∈ stmt.aggregates, ∀ a, agg.aliasName = some a → '.' ∉ a.toList

/-- A LIMIT that stops the plan below it in the middle of its rows. -/
def SelectStatement.stopsEarly (stmt : SelectStatement) : Bool :=
  stmt.limit.isSome && stmt.orderBy.isEmpty && !stmt.isGrouped

variable {catalog : Catalog} {stats : StatisticsCatalog R} {stmt : SelectStatement}
  {plan : PhysicalPlan R} {db : Database} {e : Executor}

omit [CostNum R] [Rounding] in
theorem dotless_joinTree {core : PhysicalPlan R} (hnames : DotlessNames stmt db)
    (htree : core.joinTree = true) (hbuild : buildExecutor core db ∅ = .ok e) :
    e.schema.aggEntries = [] ∧ ∀ c ∈ e.schema.entries, '.' ∉ c.column.toList := by
  have hreads : Reads core core.scans := ⟨htree, rfl⟩
  rw [(@Reads.rows db ∅ .exact R core core.scans hreads e hbuild).1]
  refine ⟨rfl, fun c hc => ?_⟩
  obtain ⟨s, -, hc⟩ := List.mem_flatMap.mp hc
  obtain ⟨name, hname, rfl⟩ := List.mem_map.mp hc
  unfold scanTable at hname
  cases htable : db.get s.1 with
  | none =>
    rw [htable] at hname
    cases hname
  | some table =>
    rw [htable] at hname
    exact hnames.tables s.1 table htable name hname

omit [Rounding] in
theorem dotless_indexed {name : String} (hname : '.' ∉ name.toList) (i : Nat) :
    '.' ∉ (name ++ toString i).toList := by
  rw [String.toList_append, List.mem_append, not_or]
  refine ⟨hname, fun h => ?_⟩
  rw [Nat.toString_eq_repr, Nat.toList_repr] at h
  have hdigit := Nat.isDigit_of_mem_toDigits (by decide) (by decide) h
  cases hdigit

omit [CostNum R] [Rounding] in
/-- The columns of the aggregate of a statement. -/
theorem dotless_aggregateSchema (hnames : DotlessNames stmt db) :
    ∀ c ∈ (aggregateSchema stmt.groupBy stmt.aggregates).entries, '.' ∉ c.column.toList := by
  intro c hc
  rcases List.mem_append.mp hc with hc | hc
  · obtain ⟨i, hi, rfl⟩ := List.mem_mapIdx.mp hc
    cases hg : stmt.groupBy[i] with
    | column t name => exact hnames.groupBy t name (hg ▸ List.getElem_mem hi)
    | _ => exact dotless_indexed (by decide) i
  · obtain ⟨i, hi, rfl⟩ := List.mem_mapIdx.mp hc
    have hmem := List.getElem_mem hi
    show '.' ∉ (aggregateName stmt.aggregates[i] i).toList
    unfold aggregateName
    cases halias : stmt.aggregates[i].aliasName with
    | some a => exact hnames.aliases _ hmem a halias
    | none =>
      have hfunc := func_mem_of_aggregates hmem
      have hplain : ∀ func ∈ aggregateFunctions, '.' ∉ (func ++ "_").toList := by decide
      exact dotless_indexed (hplain _ hfunc) i

/-- The columns that `finish` is told, from the executor of the core or of the aggregate over it. -/
def UnwrapResult.columns (u : UnwrapResult R) (e : Executor) : List String :=
  match u.aggregate with
  | some (groupBy, aggregates) => aggregateOutputColumns groupBy aggregates
  | none => e.schema.qualifiedNames

omit [Rounding] in
/-- `finish` reads the schema of the executor back from these names. -/
theorem externalSchema_columns {f : Executor → Executor} (h : Splits stmt plan f)
    (hnames : DotlessNames stmt db)
    (hbuild : buildExecutor (unwrap plan).aggregated db ∅ = .ok e) :
    externalSchema ((unwrap plan).columns e) (((unwrap plan).aggregate.map (·.1)).getD [])
      (((unwrap plan).aggregate.map (·.2)).getD []) = e.schema := by
  unfold UnwrapResult.columns
  unfold UnwrapResult.aggregated at hbuild
  cases hgrouped : stmt.isGrouped with
  | true =>
    have hagg : (unwrap plan).aggregate = some (stmt.groupBy, stmt.aggregates) := by
      rw [h.aggregate, SelectStatement.groupAggregate, if_pos hgrouped]
    rw [hagg] at hbuild ⊢
    obtain ⟨i, -, hbuild⟩ := Except.bind_eq_ok.mp hbuild
    cases hbuild
    show externalSchema (aggregateOutputColumns stmt.groupBy stmt.aggregates) stmt.groupBy
      stmt.aggregates = aggregateSchema stmt.groupBy stmt.aggregates
    rw [aggregateOutputColumns_eq, externalSchema,
      map_parseQualified (dotless_aggregateSchema hnames)]
    rfl
  | false =>
    have hagg : (unwrap plan).aggregate = none := by
      rw [h.aggregate, SelectStatement.groupAggregate, hgrouped]
      rfl
    rw [hagg] at hbuild ⊢
    obtain ⟨haggs, hdotless⟩ := dotless_joinTree hnames h.core hbuild
    exact reread_eq_self hdotless haggs

theorem collectLocally_eq (u : UnwrapResult R) (hbuild : buildExecutor u.aggregated db ∅ = .ok e) :
    collectLocally u db = e.run.map fun rows => ⟨u.columns e, rows⟩ := by
  unfold collectLocally executePlan UnwrapResult.columns
  rw [hbuild]
  simp only [Except.ok_bind]
  cases e.run with
  | error m => rfl
  | ok rows => cases u.aggregate <;> rfl

/-- What fails under ORDER BY, an aggregate or no LIMIT fails the whole plan. -/
theorem fails_projectedOn (hstops : stmt.stopsEarly = false) (h : e.Fails)
    (hopen : stmt.isGrouped = true → e.FailsToOpen) :
    (stmt.projectedOn (attachHaving stmt.groupHaving e)).Fails := by
  have hhaving : (attachHaving stmt.groupHaving e).Fails ∧
      (stmt.isGrouped = true → (attachHaving stmt.groupHaving e).FailsToOpen) := by
    cases stmt.groupHaving with
    | none => exact ⟨h, hopen⟩
    | some p => exact ⟨h.filter p, fun hgrouped => (hopen hgrouped).filter p⟩
  have hsorted : (stmt.sortedOn (attachHaving stmt.groupHaving e)).Fails ∧
      ((!stmt.orderBy.isEmpty) = true ∨ stmt.isGrouped = true →
        (stmt.sortedOn (attachHaving stmt.groupHaving e)).FailsToOpen) := by
    unfold SelectStatement.sortedOn
    split
    case isTrue =>
      have hsort := hhaving.1.sort stmt.orderBy
      exact ⟨hsort.fails, fun _ => hsort⟩
    case isFalse horder => exact ⟨hhaving.1, fun hor => hhaving.2 (hor.resolve_left horder)⟩
  have hlimited : (stmt.limitedOn (attachHaving stmt.groupHaving e)).Fails := by
    unfold SelectStatement.limitedOn
    cases hlimit : stmt.limit with
    | none => exact hsorted.1
    | some n =>
      refine (Executor.FailsToOpen.limit (hsorted.2 ?_) n).fails
      simpa [SelectStatement.stopsEarly, hlimit, or_iff_not_imp_left] using hstops
  unfold SelectStatement.projectedOn
  split
  · exact hlimited.project stmt.plain
  · exact hlimited

/-- Splitting the plan of a statement and finishing it later answers like running it in one piece,
unless a LIMIT stops the run in one piece before the core fails. -/
theorem runSplit_sameAnswer (hplan : generatePhysicalPlan (optimize catalog (planStatement stmt))
      catalog stats = .ok plan) (hnames : DotlessNames stmt db) (workersUsed : Nat)
    (joinStrategy reason : String) (skip : Bool) :
    SameAnswer (runSplit plan db workersUsed joinStrategy skip) (runFallback plan db reason) ∨
      stmt.stopsEarly = true ∧ (∃ m, executePlan (unwrap plan).core db ∅ = .error m) ∧
        ∃ m, runSplit plan db workersUsed joinStrategy skip = .error m := by
  have hsplits := splits_planStatement hplan
  cases hbuild : buildExecutor (unwrap plan).aggregated db ∅ with
  | error m =>
    have hsplit : runSplit plan db workersUsed joinStrategy skip = .error m := by
      unfold runSplit collectLocally executePlan
      rw [hbuild]
      rfl
    have hfallback : runFallback plan db reason = .error m := by
      unfold runFallback
      rw [buildExecutor_unwrap, hbuild]
      rfl
    rw [hsplit, hfallback]
    exact .inl .error
  | ok e =>
    have hdirect : buildExecutor plan db ∅ = .ok ((unwrap plan).attach e) := by
      rw [buildExecutor_unwrap, hbuild]
      rfl
    cases hrun : e.run with
    | ok rows =>
      have hleaf : (Executor.externalRows "merged" e.schema rows).Same e :=
        ⟨rfl, (Executor.run_eq_ok.mp hrun).symm⟩
      obtain ⟨hschema, hdrain⟩ := hleaf.attach (unwrap plan)
      left
      unfold runSplit
      rw [collectLocally_eq _ hbuild, hrun]
      unfold runFallback
      show SameAnswer (finish (unwrap plan) ⟨(unwrap plan).columns e, rows⟩ _ _ _) _
      unfold finish
      rw [buildExecutor_finishPlan, externalSchema_columns hsplits hnames hbuild, hdirect]
      simp only [Except.ok_bind, Executor.run, hschema, hdrain]
      cases ((unwrap plan).attach e).drain >>= Drain.collect with
      | ok out => exact .ok ⟨rfl, rfl⟩
      | error m => exact .error
    | error m =>
      have hsplit : runSplit plan db workersUsed joinStrategy skip = .error m := by
        unfold runSplit
        rw [collectLocally_eq _ hbuild, hrun]
        rfl
      have hfails : e.Fails := by
        intro rows h
        rw [hrun] at h
        cases h
      have haggregate := hsplits.aggregate
      unfold SelectStatement.groupAggregate at haggregate
      unfold UnwrapResult.aggregated at hbuild
      cases hstops : stmt.stopsEarly with
      | true =>
        have hgrouped : stmt.isGrouped = false := by
          simp only [SelectStatement.stopsEarly, Bool.and_eq_true, Bool.not_eq_true'] at hstops
          exact hstops.2
        rw [hgrouped, if_neg Bool.false_ne_true] at haggregate
        rw [haggregate] at hbuild
        refine .inr ⟨rfl, ⟨m, ?_⟩, m, hsplit⟩
        rw [executePlan, hbuild, Except.ok_bind, hrun]
        rfl
      | false =>
        have hopen : stmt.isGrouped = true → e.FailsToOpen := by
          intro hgrouped
          rw [if_pos hgrouped] at haggregate
          rw [haggregate] at hbuild
          obtain ⟨i, -, hbuild⟩ := Except.bind_eq_ok.mp hbuild
          cases hbuild
          exact Executor.fails_hashAggregate hfails
        have hwhole := fails_projectedOn hstops hfails hopen
        rw [← hsplits.attach] at hwhole
        left
        rw [hsplit, runFallback, hdirect, Except.ok_bind]
        cases hdone : ((unwrap plan).attach e).run with
        | ok rows => exact absurd hdone (hwhole rows)
        | error m => exact .error

end

/-! ### A predicate that fails on the second row -/

/-- A table `t` with a number and a truth value, NULL in the second row. -/
def checkedDb : Database :=
  (∅ : Database).insert "t"
    ⟨["a", "ok"], [[.integer 1, .boolean true], [.integer 2, .null]], by decide⟩

/-- `SELECT a FROM t WHERE ok LIMIT 1` -/
def firstChecked : SelectStatement :=
  ⟨[.expression (.column none "a") none], ⟨"t", none⟩, [], some (.column none "ok"), [], none, [],
    some 1⟩

/-- `SELECT a, COUNT(*) FROM t GROUP BY a HAVING COUNT(*) = 1` -/
def countChecked : SelectStatement :=
  ⟨[.expression (.column none "a") none, .expression (.function "COUNT" [.wildcard]) none],
    ⟨"t", none⟩, [], none, [.column none "a"],
    some (.binaryOp (.function "COUNT" [.wildcard]) .eq (.literal (.integer 1))), [], none⟩

theorem dotless_checkedDb : ∀ name table, checkedDb.get name = some table →
    ∀ c ∈ table.columnNames, '.' ∉ c.toList := by
  intro name table h
  by_cases hname : name = "t"
  · subst hname
    cases h
    decide
  · rw [Database.get, checkedDb, AList.lookup_insert_ne hname] at h
    cases h

section

attribute [local instance] Rounding.exact

local instance finishCosts : CostNum ℚ := CostNum.rational id

theorem runSplit_sameAnswer_having : ∃ plan : PhysicalPlan ℚ,
    generatePhysicalPlan (optimize ∅ (planStatement countChecked)) ∅ ∅ = .ok plan ∧
      SameAnswer (runSplit plan checkedDb 1 "single" false) (runFallback plan checkedDb "") := by
  obtain ⟨plan, hplan⟩ : ∃ plan : PhysicalPlan ℚ,
      generatePhysicalPlan (optimize ∅ (planStatement countChecked)) ∅ ∅ = .ok plan := ⟨_, rfl⟩
  have hnames : DotlessNames countChecked checkedDb := by
    refine ⟨dotless_checkedDb, fun t c h => ?_, fun agg h a ha => ?_⟩
    · cases List.mem_singleton.mp h
      decide
    · cases List.mem_singleton.mp h
      cases ha
  refine ⟨plan, hplan, (runSplit_sameAnswer hplan hnames 1 "single" "" false).resolve_right ?_⟩
  rintro ⟨hstops, -⟩
  cases hstops

/-- The plan in one piece stops before the second row, which the core fails on. -/
theorem runSplit_fails_alone : ∃ plan : PhysicalPlan ℚ,
    generatePhysicalPlan (optimize ∅ (planStatement firstChecked)) ∅ ∅ = .ok plan ∧
      DotlessNames firstChecked checkedDb ∧
      ¬ SameAnswer (runSplit plan checkedDb 1 "single" false) (runFallback plan checkedDb "") := by
  obtain ⟨plan, hplan, ⟨m, hsplit⟩, q, hdirect⟩ : ∃ plan : PhysicalPlan ℚ,
      generatePhysicalPlan (optimize ∅ (planStatement firstChecked)) ∅ ∅ = .ok plan ∧
        (∃ m, runSplit plan checkedDb 1 "single" false = .error m) ∧
          ∃ q, runFallback plan checkedDb "" = .ok q := ⟨_, rfl, ⟨_, rfl⟩, _, rfl⟩
  have hnames : DotlessNames firstChecked checkedDb :=
    ⟨dotless_checkedDb, nofun, nofun⟩
  refine ⟨plan, hplan, hnames, fun hsame => ?_⟩
  rw [hsplit, hdirect] at hsame
  cases hsame

end

end SqlOptimizer
