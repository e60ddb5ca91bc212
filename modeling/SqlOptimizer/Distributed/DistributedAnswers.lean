import SqlOptimizer.Distributed.SpreadAggregates
import SqlOptimizer.Distributed.StrategyLearning
import SqlOptimizer.Execution.Reordered

/-! The answer of the coordinator, whichever way it executes a plan, against that of the plan in one
piece on the whole database. -/

namespace SqlOptimizer

open Adaptive

section

variable [Rounding] {R : Type} {full : Database} {schemaCatalog : Catalog} {n : Nat}

/-! ### Joins that can be shuffled -/

/-- A join on columns of its two sides, whose keys print alike in the rows that it pairs.  The keys
of a hash join always do. -/
structure Exchangeable (join : JoinNode R) (schemaCatalog : Catalog) (left right : Table) :
    Prop where
  resolves : ∃ keys, resolveJoinKeys join.condition join.left join.right schemaCatalog = .ok keys
  alike : join.kind ≠ .hashJoin → ∀ keys,
    resolveJoinKeys join.condition join.left join.right schemaCatalog = .ok keys →
    ∀ a ∈ left.rows, ∀ b ∈ right.rows, joinMatch join.kind join.condition (join.leftSchema left)
        (join.rightSchema right) a b = .ok true →
      literalToString (keyOf keys.1 a (join.leftSchema left)) =
        literalToString (keyOf keys.2 b (join.rightSchema right))

section Join

variable {join : JoinNode R} {left right : Table} {keys : Expression × Expression}

omit [Rounding] in
/-- Over tables in the order of the catalog, the coordinator and the hash join take the same keys. -/
theorem resolveJoinKeys_eq_ok_iff (hcl : InCatalogOrder schemaCatalog join.left left)
    (hcr : InCatalogOrder schemaCatalog join.right right) :
    resolveJoinKeys join.condition join.left join.right schemaCatalog = .ok keys ↔
      hashJoinKeys join.condition (join.leftSchema left) (join.rightSchema right) = .ok keys := by
  have hleft : schemaForRelation join.left schemaCatalog = join.leftSchema left :=
    hcl.schemaForRelation_eq
  have hright : schemaForRelation join.right schemaCatalog = join.rightSchema right :=
    hcr.schemaForRelation_eq
  rcases hcondition : join.condition with _ | _ | ⟨a, op, b⟩ | _ | _ | _
  case binaryOp =>
    rcases op with _ | _
    case eq =>
      simp only [resolveJoinKeys, hashJoinKeys, hleft, hright]
      rw [Bool.and_comm (isColumnOf b _) (isColumnOf a _)]
      split
      · rfl
      · split
        · rfl
        · exact iff_of_false (fun h => by cases h) fun h => by cases h
    all_goals exact iff_of_false (fun h => by cases h) fun h => by cases h
  all_goals exact iff_of_false (fun h => by cases h) fun h => by cases h

omit [Rounding] in
theorem resolveKey_lt {key : Expression} {schema : RowSchema} {i : Nat}
    (hi : resolveKey key schema = some i) : i < schema.size := by
  unfold resolveKey at hi
  split at hi
  · exact RowSchema.resolve_lt hi
  · cases hi

theorem Keeps.mem {schema : RowSchema} {p : PhysicalPlan R} {rows out : List Row}
    (h : Keeps schema p rows out) {row : Row} (hrow : row ∈ out) : row ∈ rows := by
  obtain ⟨_, -, -, rfl⟩ := h
  exact (List.mem_filter.mp hrow).1

/-- The value at the index of a key. -/
theorem keyOf_eq_getD {key : Expression} {schema : RowSchema} {i : Nat}
    (hi : resolveKey key schema = some i) {row : Row} (hw : row.length = schema.size) :
    keyOf key row schema = row.getD i .null := by
  have hlt := hw ▸ resolveKey_lt hi
  unfold resolveKey at hi
  split at hi
  · have hat : rowAt row i = .ok row[i] := rowAt_eq_ok.mpr (List.getElem?_eq_getElem hlt)
    simp [keyOf, evaluate_column hi, hat, List.getElem?_eq_getElem hlt]
  · cases hi

omit [Rounding] in
theorem exists_resolveKey {key : Expression} {schema : RowSchema}
    (h : isColumnOf key schema = true) : ∃ i, resolveKey key schema = some i := by
  obtain ⟨t, c, i, rfl, hi⟩ := isColumnOf_iff.mp h
  exact ⟨i, hi⟩

/-- Rows that are paired are sent to the same worker. -/
theorem Exchangeable.shuffleKept (hex : Exchangeable join schemaCatalog left right)
    (hcl : InCatalogOrder schemaCatalog join.left left)
    (hcr : InCatalogOrder schemaCatalog join.right right)
    (hls : reread (join.leftSchema left) = join.leftSchema left)
    (hrs : reread (join.rightSchema right) = join.rightSchema right) {l r : List Row}
    (hl : Keeps (join.leftSchema left) join.left left.rows l)
    (hr : Keeps (join.rightSchema right) join.right right.rows r)
    (hdecided : JoinDecided join left right l r) :
    SqlOptimizer.shuffleKept join schemaCatalog n (join.leftSchema left) (join.rightSchema right)
      l r := by
  obtain ⟨keys, hkeys⟩ := hex.resolves
  have hhash := (resolveJoinKeys_eq_ok_iff hcl hcr).mp hkeys
  obtain ⟨hlk, hrk, -⟩ := hashJoinKeys_eq_ok hhash
  obtain ⟨i, hi⟩ := exists_resolveKey hlk
  obtain ⟨j, hj⟩ := exists_resolveKey hrk
  have hleft : schemaForRelation join.left schemaCatalog = join.leftSchema left :=
    hcl.schemaForRelation_eq
  have hright : schemaForRelation join.right schemaCatalog = join.rightSchema right :=
    hcr.schemaForRelation_eq
  have hidx : shuffleKeyIndices keys join.left join.right schemaCatalog = .ok (i, j) := by
    rw [shuffleKeyIndices, hleft, hright, hi, hj]
  have hlw : ∀ a ∈ l, a.length = (join.leftSchema left).size := fun a ha =>
    (hl.length ha).trans (size_relationSchema join.left left.columnNames).symm
  have hrw : ∀ b ∈ r, b.length = (join.rightSchema right).size := fun b hb =>
    (hr.length hb).trans (size_relationSchema join.right right.columnNames).symm
  refine ⟨keys, (i, j), hkeys, hidx, fun a ha => ?_, fun b hb => ?_, ?_, fun a ha b hb => ?_⟩
  · rw [hlw a ha]
    exact resolveKey_lt hi
  · rw [hrw b hb]
    exact resolveKey_lt hj
  · rw [hls, hrs]
    exact hdecided.accepts
  rw [hls, hrs]
  split
  · rfl
  case isFalse hne =>
    obtain ⟨v, hv⟩ := hdecided.pairs a ha b hb
    rw [hv]
    refine congrArg Except.ok (Bool.eq_false_iff.mpr ?_)
    rintro rfl
    -- keys that print alike have the same worker
    refine hne ?_
    have hprint : literalToString (keyOf keys.1 a (join.leftSchema left)) =
        literalToString (keyOf keys.2 b (join.rightSchema right)) := by
      by_cases hkind : join.kind = .hashJoin
      · rw [hkind] at hv
        simp only [joinMatch, hhash, Except.ok_bind, evaluate_eq_ok_keyOf hlk (hlw a ha),
          evaluate_eq_ok_keyOf hrk (hrw b hb), Except.pure_eq_ok, Except.ok.injEq, beq_iff_eq] at hv
        exact hv.symm
      · exact hex.alike hkind keys hkeys a (hl.mem ha) b (hr.mem hb) hv
    rw [keyOf_eq_getD hi (hlw a ha), keyOf_eq_getD hj (hrw b hb)] at hprint
    rw [target, target, hashPartitionOf, hashPartitionOf, hprint]

end Join

/-! ### Finishing over rows in another order -/

variable {stmt : SelectStatement}

theorem Executor.Reorders.attachHaving {e e' : Executor} (h : e.Reorders e')
    (having : Option Expression) :
    (SqlOptimizer.attachHaving having e).Reorders (SqlOptimizer.attachHaving having e') := by
  cases having with
  | none => exact h
  | some predicate => exact h.filter predicate

/-- ORDER BY decides any two of the rows that it gets. -/
def OrderDecided (stmt : SelectStatement) (e : Executor) : Prop :=
  ∀ rows, (attachHaving stmt.groupHaving e).run = .ok rows → ∀ a ∈ rows, ∀ b ∈ rows,
    ∃ t, sortLess stmt.orderBy (attachHaving stmt.groupHaving e).schema a b = .ok t

/-- The rest of a statement without LIMIT. -/
theorem Executor.Reorders.projectedOn {e e' : Executor} (h : e.Reorders e')
    (hlimit : stmt.limit = none) (hdecided : OrderDecided stmt e) :
    (stmt.projectedOn (SqlOptimizer.attachHaving stmt.groupHaving e)).Reorders
      (stmt.projectedOn (SqlOptimizer.attachHaving stmt.groupHaving e')) := by
  have hhaving := h.attachHaving stmt.groupHaving
  have hsorted : (stmt.limitedOn (SqlOptimizer.attachHaving stmt.groupHaving e)).Reorders
      (stmt.limitedOn (SqlOptimizer.attachHaving stmt.groupHaving e')) := by
    simp only [SelectStatement.limitedOn, hlimit, SelectStatement.sortedOn]
    split
    · exact hhaving.sort stmt.orderBy hdecided
    · exact hhaving
  unfold SelectStatement.projectedOn
  split
  · exact hsorted.project stmt.plain
  · exact hsorted

variable [CostNum R] {stats : StatisticsCatalog R} {plan : PhysicalPlan R}
  {reason : String} {q : DistributedQueryResult}

/-- What an answer of the plan in one piece comes from: the rows of the core, and those of the
aggregate over it. -/
structure Answered (plan : PhysicalPlan R) (full : Database) (q : DistributedQueryResult)
    (e core : Executor) (rows out : List Row) : Prop where
  built : buildExecutor (unwrap plan).aggregated full ∅ = .ok e
  run : e.run = .ok out
  coreBuilt : buildExecutor (unwrap plan).core full ∅ = .ok core
  coreRun : core.run = .ok rows
  whole : wholeRows (unwrap plan).aggregate core.schema rows = .ok out
  names : (unwrap plan).columns e = mergedColumns (unwrap plan).aggregate core.schema
  columns : q.columns = ((unwrap plan).attach e).schema.entries.map (·.column)
  rows : ((unwrap plan).attach e).run = .ok q.rows

theorem exists_answered (hplan : generatePhysicalPlan (optimize schemaCatalog
      (planStatement stmt)) schemaCatalog stats = .ok plan) (hlimit : stmt.limit = none)
    (hanswer : runFallback plan full reason = .ok q) :
    ∃ e core rows out, Answered plan full q e core rows out := by
  have hsplits := splits_planStatement hplan
  obtain ⟨whole, hwhole, hanswer⟩ := Except.bind_eq_ok.mp hanswer
  obtain ⟨rows, hrows, hanswer⟩ := Except.bind_eq_ok.mp hanswer
  cases hanswer
  rw [buildExecutor_unwrap] at hwhole
  rcases hbuild : buildExecutor (unwrap plan).aggregated full ∅ with m | e
  · rw [hbuild] at hwhole
    cases hwhole
  rw [hbuild] at hwhole
  cases hwhole
  rcases hrun : e.run with m | out
  · -- without a LIMIT a failure below is one of the whole
    have hfails : e.Fails := fun rows h => by rw [hrun] at h; cases h
    have hopen : stmt.isGrouped = true → e.FailsToOpen := by
      intro hgrouped
      unfold UnwrapResult.aggregated at hbuild
      rw [hsplits.aggregate, SelectStatement.groupAggregate, if_pos hgrouped] at hbuild
      obtain ⟨i, -, hbuild⟩ := Except.bind_eq_ok.mp hbuild
      cases hbuild
      exact Executor.fails_hashAggregate hfails
    have hstops : stmt.stopsEarly = false := by simp [SelectStatement.stopsEarly, hlimit]
    rw [hsplits.attach] at hrows
    exact absurd hrows (fails_projectedOn hstops hfails hopen rows)
  · obtain ⟨core, hcore, hnames, hwhole⟩ := exists_core_executor hbuild
    obtain ⟨coreRows, hcoreRows, hwhole⟩ := (hwhole out).mp hrun
    exact ⟨e, core, coreRows, out, hbuild, hrun, hcore, hcoreRows, hwhole, hnames, rfl, hrows⟩

/-- Another answer has the same columns and the same bag of rows. -/
def SameBag (x : Except String DistributedQueryResult) (q : DistributedQueryResult) : Prop :=
  ∃ q', x = .ok q' ∧ q'.columns = q.columns ∧ q'.rows.Perm q.rows

/-- What of a plan and the database allows its execution over the workers: names that are read back
as they were, no LIMIT to pick some of the rows, an ORDER BY that decides any two, and a join whose
rows can be exchanged. -/
structure Distributable (schemaCatalog : Catalog) (full : Database) (stmt : SelectStatement)
    (plan : PhysicalPlan R) : Prop where
  limit : stmt.limit = none
  names : DotlessNames stmt full
  ordered : ∀ e, buildExecutor (unwrap plan).aggregated full ∅ = .ok e → OrderDecided stmt e
  exchangeable : ∀ join left right, relationJoin plan = some join →
    join.Over full schemaCatalog left right → Exchangeable join schemaCatalog left right
  colocates : ∀ join left right, relationJoin plan = some join →
    join.Over full schemaCatalog left right → ∀ core rows,
      buildExecutor (unwrap plan).core full ∅ = .ok core → core.run = .ok rows →
        stmt.isGrouped = true → Colocates join schemaCatalog left right stmt.groupBy core.schema rows

namespace Answered

variable {e core : Executor} {rows out merged : List Row}

/-- `finish` over the collected rows, in whatever order. -/
theorem sameBag_finish (h : Answered plan full q e core rows out)
    (hplan : generatePhysicalPlan (optimize schemaCatalog (planStatement stmt)) schemaCatalog
      stats = .ok plan) (hd : Distributable schemaCatalog full stmt plan) (hperm : merged.Perm out)
    (workersUsed : Nat) (joinStrategy : String) (skip : Bool) :
    SameBag (finish (unwrap plan) ⟨mergedColumns (unwrap plan).aggregate core.schema, merged⟩
      workersUsed joinStrategy skip) q := by
  have hsplits := splits_planStatement hplan
  have hleaf : e.Reorders (.externalRows "merged" e.schema merged) := by
    refine ⟨rfl, fun rows hrows => ⟨merged, rfl, ?_⟩⟩
    cases h.run.symm.trans hrows
    exact hperm
  have hreorders := hleaf.projectedOn hd.limit (hd.ordered e h.built)
  rw [← hsplits.attach, ← hsplits.attach] at hreorders
  obtain ⟨rows', hrows', hperm'⟩ := hreorders.rows q.rows h.rows
  have hfinish : buildExecutor (finishPlan (unwrap plan) ((unwrap plan).columns e) merged.length) ∅
      (AList.singleton 0 merged) =
        .ok ((unwrap plan).attach (.externalRows "merged" e.schema merged)) := by
    rw [buildExecutor_finishPlan, externalSchema_columns hsplits hd.names h.built]
  unfold finish SameBag
  rw [← h.names, hfinish, Except.ok_bind, hrows']
  exact ⟨_, rfl, by rw [hreorders.schema, h.columns], hperm'⟩

end Answered

/-! ### The routes -/

/-- The loaded tables are those of the catalog, with their columns in its order, and each of their
rows is on one worker. -/
structure Partitionable (schemaCatalog : Catalog) (full : Database) (n : Nat) : Prop where
  owned : ∀ name table, full.get name = some table → OwnedOnce table n
  loaded : ∀ name table, full.get name = some table → ∃ tableSchema,
    schemaCatalog.get name = some tableSchema ∧
      tableSchema.columns.map (·.name) = table.columnNames

omit [Rounding] [CostNum R] in
/-- A relation of which there is an executor is over a loaded table. -/
theorem exists_table {p : PhysicalPlan R} (hp : isSingleRelation p = true) {e : Executor}
    (h : buildExecutor p full ∅ = .ok e) :
    ∃ table, full.get (unwrapFilter p).tableName = some table := by
  have hloaded : ∀ {name : String} {table : Table}, loadedTable full name = .ok table →
      full.get name = some table := by
    intro name table h
    unfold loadedTable at h
    split at h
    · cases h
      assumption
    · cases h
  match p with
  | .seqScan ann name aliasName cols | .indexScan ann name aliasName cols column probe =>
    obtain ⟨table, htable, -⟩ := Except.bind_eq_ok.mp h
    exact ⟨table, hloaded htable⟩
  | .filter ann predicate input =>
    obtain ⟨inner, hinner, -⟩ := Except.bind_eq_ok.mp h
    exact exists_table (p := input) hp hinner

omit [Rounding] [CostNum R] in
theorem Partitionable.mem (h : Partitionable schemaCatalog full n) {name : String} {table : Table}
    (ht : full.get name = some table) : name ∈ schemaCatalog := by
  obtain ⟨tableSchema, hget, -⟩ := h.loaded name table ht
  exact AList.lookup_isSome.mp (by rw [show AList.lookup name schemaCatalog = _ from hget]; rfl)

omit [Rounding] [CostNum R] in
theorem core_eq_of_relationJoin {join : JoinNode R} (h : relationJoin plan = some join) :
    (∃ ann, (unwrap plan).core =
      .join ann join.kind join.joinType join.condition join.left join.right) ∧
    isSingleRelation join.left = true ∧ isSingleRelation join.right = true := by
  unfold relationJoin at h
  split at h
  case h_2 => cases h
  case h_1 ann kind joinType condition left right hcore =>
    split at h
    case isFalse => cases h
    case isTrue hsingle =>
      cases h
      exact ⟨⟨ann, hcore⟩, Bool.and_eq_true_iff.mp hsingle⟩

omit [Rounding] [CostNum R] in
/-- The sides of the join at the core of an executed plan. -/
theorem exists_over {join : JoinNode R} (hjoin : relationJoin plan = some join)
    (hpart : Partitionable schemaCatalog full n) {core : Executor}
    (hbuild : buildExecutor (unwrap plan).core full ∅ = .ok core) :
    ∃ left right, join.Over full schemaCatalog left right := by
  obtain ⟨⟨ann, hcore⟩, hl, hr⟩ := core_eq_of_relationJoin hjoin
  rw [hcore] at hbuild
  obtain ⟨le, hle, hbuild⟩ := Except.bind_eq_ok.mp hbuild
  obtain ⟨re, hre, -⟩ := Except.bind_eq_ok.mp hbuild
  obtain ⟨left, hleft⟩ := exists_table hl hle
  obtain ⟨right, hright⟩ := exists_table hr hre
  exact ⟨left, right, hl, hr, hpart.mem hleft, hpart.mem hright, hleft, hright⟩

section Routes

variable {K : Type} [Arithmetic K] {e core : Executor} {rows out : List Row}

/-- The groups of the plan do not depend on where their rows are. -/
def Spreadable (plan : PhysicalPlan R) (full : Database) : Prop :=
  ∀ core rows out, buildExecutor (unwrap plan).core full ∅ = .ok core → core.run = .ok rows →
    wholeRows (unwrap plan).aggregate core.schema rows = .ok out →
      Spreads (unwrap plan).aggregate core.schema rows out

theorem sameBag_single (h : Answered plan full q e core rows out)
    (hplan : generatePhysicalPlan (optimize schemaCatalog (planStatement stmt)) schemaCatalog
      stats = .ok plan) (hd : Distributable schemaCatalog full stmt plan)
    (hpart : Partitionable schemaCatalog full n) (hn : 0 < n) (hspreads : Spreadable plan full)
    (hsingle : isSingleRelation (unwrap plan).core = true) :
    SameBag (runDistributedSingle (executeOnPartition full schemaCatalog n) n (unwrap plan)) q := by
  obtain ⟨table, htable⟩ := exists_table hsingle h.coreBuilt
  obtain ⟨merged, hmerged, hperm⟩ := collectSingle_spreads hsingle hn (hpart.mem htable) htable
    (hpart.owned _ table htable) h.coreBuilt h.coreRun
    (hspreads core rows out h.coreBuilt h.coreRun h.whole)
  rw [runDistributedSingle, hmerged, Except.ok_bind]
  exact h.sameBag_finish hplan hd hperm n "single" false

/-- The join of two relations, broadcast from either side or shuffled. -/
theorem sameBag_join (h : Answered plan full q e core rows out)
    (hplan : generatePhysicalPlan (optimize schemaCatalog (planStatement stmt)) schemaCatalog
      stats = .ok plan) (hd : Distributable schemaCatalog full stmt plan)
    (hpart : Partitionable schemaCatalog full n) (hn : 0 < n) (hspreads : Spreadable plan full)
    {join : JoinNode R} (hjoin : relationJoin plan = some join) :
    (∀ broadcastLeft, SameBag (runBroadcastJoin (executeOnPartition full schemaCatalog n) n join
      broadcastLeft (unwrap plan)) q) ∧
    SameBag (runShuffleJoin (executeOnPartition full schemaCatalog n) n join (unwrap plan)
      schemaCatalog) q := by
  obtain ⟨left, right, hover⟩ := exists_over hjoin hpart h.coreBuilt
  obtain ⟨⟨ann, hcore⟩, -⟩ := core_eq_of_relationJoin hjoin
  have hol := hpart.owned _ left hover.leftTable
  have hor := hpart.owned _ right hover.rightTable
  have hls : reread (join.leftSchema left) = join.leftSchema left :=
    reread_relationSchema (hd.names.tables _ left hover.leftTable)
  have hrs : reread (join.rightSchema right) = join.rightSchema right :=
    reread_relationSchema (hd.names.tables _ right hover.rightTable)
  have hbuild := h.coreBuilt
  rw [hcore] at hbuild
  have hsp := hspreads core rows out h.coreBuilt h.coreRun h.whole
  refine ⟨fun broadcastLeft => ?_, ?_⟩
  · obtain ⟨merged, hmerged, hperm⟩ := collectBroadcast_spreads hover hn hol hor hls hrs
      broadcastLeft hbuild h.coreRun hsp
    rw [runBroadcastJoin, hmerged, Except.ok_bind]
    exact h.sameBag_finish hplan hd hperm n _ false
  · have hcl : InCatalogOrder schemaCatalog join.left left := hpart.loaded _ left hover.leftTable
    have hcr : InCatalogOrder schemaCatalog join.right right :=
      hpart.loaded _ right hover.rightTable
    have hkept := fun l r hl hr hdecided => (hd.exchangeable join left right hjoin
      hover).shuffleKept (n := n) hcl hcr hls hrs (l := l) (r := r) hl hr hdecided
    have haggregate := (splits_planStatement hplan).aggregate
    have hco : ∀ groupBy aggregates, (unwrap plan).aggregate = some (groupBy, aggregates) →
        Colocates join schemaCatalog left right groupBy core.schema rows := by
      intro groupBy aggregates hagg
      rw [haggregate, SelectStatement.groupAggregate] at hagg
      split at hagg
      case isTrue hgrouped =>
        cases hagg
        exact hd.colocates join left right hjoin hover core rows h.coreBuilt h.coreRun hgrouped
      case isFalse => cases hagg
    obtain ⟨merged, skipped, hmerged, hperm⟩ := collectShuffle_spreads hover hn hol hor hls hrs
      hkept hco hbuild h.coreRun hsp
    rw [runShuffleJoin, hmerged, Except.ok_bind]
    exact h.sameBag_finish hplan hd hperm n "shuffle" skipped

omit [CostNum R] in
theorem sameBag_fallback (h : runFallback plan full reason = .ok q) (reason' : String) :
    SameBag (runFallback plan full reason') q := by
  obtain ⟨e, he, h⟩ := Except.bind_eq_ok.mp h
  obtain ⟨rows, hrows, h⟩ := Except.bind_eq_ok.mp h
  cases h
  unfold runFallback SameBag
  rw [he, Except.ok_bind, hrows]
  exact ⟨_, rfl, rfl, .refl rows⟩

/-- Whatever the bandit and the surroundings choose. -/
theorem sameBag_routePlan (hplan : generatePhysicalPlan (optimize schemaCatalog
      (planStatement stmt)) schemaCatalog stats = .ok plan)
    (hd : Distributable schemaCatalog full stmt plan)
    (hpart : Partitionable schemaCatalog full n) (hn : 0 < n) (hspreads : Spreadable plan full)
    (hanswer : runFallback plan full reason = .ok q) (env : Surroundings K)
    (bandit : BanditModel K) :
    SameBag (routePlan (executeOnPartition full schemaCatalog n) n schemaCatalog plan full env
      bandit).result q := by
  obtain ⟨e, core, rows, out, h⟩ := exists_answered hplan hd.limit hanswer
  rcases hjoin : relationJoin plan with _ | join
  · unfold routePlan
    dsimp only
    unfold relationJoin at hjoin
    split
    case h_1 ann kind joinType condition left right hcore =>
      rw [if_pos]
      · exact sameBag_fallback hanswer _
      · rw [hcore] at hjoin
        simpa [Decidable.imp_iff_not_or] using hjoin
    case h_2 =>
      split
      case isTrue hsingle => exact sameBag_single h hplan hd hpart hn hspreads hsingle
      case isFalse => exact sameBag_fallback hanswer _
  · obtain ⟨hbroadcast, hshuffle⟩ := sameBag_join h hplan hd hpart hn hspreads hjoin
    rw [routePlan_join hjoin, routeJoin]
    split
    · dsimp only
      split
      · exact hbroadcast _
      · exact hshuffle
    · exact hshuffle

/-- One query, from any state of the bandit. -/
theorem sameBag_runDistributedQuery (hn : 0 < n) (hpart : Partitionable schemaCatalog full n)
    {request : DistributedRequest R K} (hplan : request.plan schemaCatalog = .ok plan)
    (hd : Distributable schemaCatalog full request.stmt plan) (hspreads : Spreadable plan full)
    (hanswer : runFallback plan full reason = .ok q) (bandit : BanditModel K) :
    SameBag (runDistributedQuery (executeOnPartition full schemaCatalog n) n schemaCatalog full
      bandit request).1 q := by
  have hroute := sameBag_routePlan hplan hd hpart hn hspreads hanswer request.env bandit
  rw [runDistributedQuery_eq, if_neg (by omega), hplan]
  unfold runDistributedPlan
  obtain ⟨q', hq', hsame⟩ := hroute
  dsimp only
  rw [hq']
  exact ⟨q', rfl, hsame⟩

/-- An answer to a request has the columns and the bag of rows of the plan in one piece, if that has
an answer. -/
def AnswersWhole (schemaCatalog : Catalog) (full : Database) (request : DistributedRequest R K)
    (answer : Except String DistributedQueryResult) : Prop :=
  ∀ plan reason q, request.plan schemaCatalog = .ok plan → runFallback plan full reason = .ok q →
    SameBag answer q

/-- In any run of queries, over workers that each hold a part of the tables, with whatever strategies
were forced, drawn or learned. -/
theorem answersWhole_of_run {P : DistributedRequest R K → Prop} (hn : 0 < n)
    (hpart : Partitionable schemaCatalog full n)
    (hP : ∀ request, P request → ∀ plan, request.plan schemaCatalog = .ok plan →
      Distributable schemaCatalog full request.stmt plan ∧ Spreadable plan full)
    (bandit : BanditModel K) (requests : List (DistributedRequest R K)) :
    ∀ p ∈ (runDistributedQuery (executeOnPartition full schemaCatalog n) n schemaCatalog
        full).trace bandit requests,
      P p.1 → AnswersWhole schemaCatalog full p.1 p.2 := by
  refine Machine.trace_forall (P := fun _ => True) (E := fun _ => True)
    (Q := fun request answer => P request → AnswersWhole schemaCatalog full request answer)
    (fun bandit request _ _ => ⟨?_, trivial⟩) trivial fun _ _ => trivial
  intro hrequest plan reason q hplan hanswer
  obtain ⟨hd, hspreads⟩ := hP request hrequest plan hplan
  exact sameBag_runDistributedQuery hn hpart hplan hd hspreads hanswer bandit

/-- Requests without groups. -/
structure PlainlyDistributable (schemaCatalog : Catalog) (full : Database)
    (request : DistributedRequest R K) : Prop where
  ungrouped : request.stmt.isGrouped = false
  distributable : ∀ plan, request.plan schemaCatalog = .ok plan →
    Distributable schemaCatalog full request.stmt plan

end Routes

end

/-! ### Groups -/

section

attribute [local instance] Rounding.exact

variable {R K : Type} [CostNum R] [Arithmetic K] {full : Database}
  {schemaCatalog : Catalog} {n : Nat}

/-- Requests whose groups can be spread. -/
structure GroupsDistributable (schemaCatalog : Catalog) (full : Database)
    (request : DistributedRequest R K) : Prop where
  grouped : request.stmt.isGrouped = true
  distributable : ∀ plan, request.plan schemaCatalog = .ok plan →
    Distributable schemaCatalog full request.stmt plan
  splittable : ∀ plan core rows, request.plan schemaCatalog = .ok plan →
    buildExecutor (unwrap plan).core full ∅ = .ok core → core.run = .ok rows →
      Splittable request.stmt.groupBy request.stmt.aggregates core.schema rows

end

/-! ### A join, and groups of its rows -/

section

attribute [local instance] Rounding.exact

local instance answerCosts : CostNum ℚ := CostNum.rational id

/-- `a` has two rows with the key of the row of `b`. -/
def twoKeyDatabase : Database := idKeyDatabase (integerTable "id" "k" [(2, 1), (4, 1)])

theorem get_twoKeyDatabase {name : String} {table : Table}
    (h : twoKeyDatabase.get name = some table) :
    name = "b" ∧ table = integerTable "id" "k" [(3, 1)] ∨
      name = "a" ∧ table = integerTable "id" "k" [(2, 1), (4, 1)] := by
  by_cases hb : name = "b"
  · subst hb
    cases h
    exact .inl ⟨rfl, rfl⟩
  rw [Database.get, twoKeyDatabase, idKeyDatabase, AList.lookup_insert_ne hb] at h
  by_cases ha : name = "a"
  · subst ha
    cases h
    exact .inr ⟨rfl, rfl⟩
  · rw [AList.lookup_insert_ne ha] at h
    cases h

theorem partitionable_twoKeyDatabase : Partitionable idKeyCatalog twoKeyDatabase 2 := by
  constructor
  · intro name table h
    rcases get_twoKeyDatabase h with ⟨-, rfl⟩ | ⟨-, rfl⟩
    · decide
    · decide
  · intro name table h
    rcases get_twoKeyDatabase h with ⟨rfl, rfl⟩ | ⟨rfl, rfl⟩
    · exact ⟨_, rfl, rfl⟩
    · exact ⟨_, rfl, rfl⟩

theorem orderDecided_nil {stmt : SelectStatement} (h : stmt.orderBy = []) (e : Executor) :
    OrderDecided stmt e := by
  intro rows _ a _ b _
  rw [h]
  exact ⟨false, rfl⟩

/-- The joins of a request are the hash join of `b` and `a`. -/
def joinsKeys (request : DistributedRequest ℚ ℚ) : Bool :=
  ((request.plan idKeyCatalog).toOption.bind relationJoin).all fun join =>
    join.kind = .hashJoin ∧ (resolveJoinKeys join.condition join.left join.right
      idKeyCatalog).toOption.isSome ∧ relationName join.left = "b" ∧ relationName join.right = "a"

def joinedSchema : RowSchema :=
  ⟨[⟨some "b", "id"⟩, ⟨some "b", "k"⟩, ⟨some "a", "id"⟩, ⟨some "a", "k"⟩], []⟩

def joinedRows : List Row :=
  [[.integer 3, .integer 1, .integer 2, .integer 1],
    [.integer 3, .integer 1, .integer 4, .integer 1]]

def joinsRows (request : DistributedRequest ℚ ℚ) : Bool :=
  ((request.plan idKeyCatalog).toOption.bind fun plan =>
    (buildExecutor (unwrap plan).core twoKeyDatabase ∅).toOption).all fun core =>
      core.schema.entries = joinedSchema.entries ∧ core.schema.aggEntries.isEmpty ∧
        core.run.toOption.all (· = joinedRows)

section

variable {request : DistributedRequest ℚ ℚ} {plan : PhysicalPlan ℚ}

theorem of_joinsKeys (h : joinsKeys request = true) (hplan : request.plan idKeyCatalog = .ok plan)
    {join : JoinNode ℚ} (hjoin : relationJoin plan = some join) :
    join.kind = .hashJoin ∧ (resolveJoinKeys join.condition join.left join.right
      idKeyCatalog).toOption.isSome = true ∧ relationName join.left = "b" ∧
        relationName join.right = "a" := by
  rw [joinsKeys, hplan, Except.toOption, Option.bind_some, hjoin] at h
  exact of_decide_eq_true h

theorem of_joinsRows (h : joinsRows request = true) (hplan : request.plan idKeyCatalog = .ok plan)
    {core : Executor} {rows : List Row}
    (hbuild : buildExecutor (unwrap plan).core twoKeyDatabase ∅ = .ok core)
    (hrun : core.run = .ok rows) : core.schema = joinedSchema ∧ rows = joinedRows := by
  rw [joinsRows, hplan, Except.toOption, Option.bind_some, hbuild] at h
  obtain ⟨hentries, haggs, hrows⟩ := of_decide_eq_true h
  rw [hrun] at hrows
  refine ⟨?_, of_decide_eq_true hrows⟩
  show (⟨core.schema.entries, core.schema.aggEntries⟩ : RowSchema) = joinedSchema
  rw [hentries, List.isEmpty_iff.mp haggs]
  rfl

/-- Queries for the join, with groups of the key of `a` or without groups. -/
theorem distributable_twoKeyDatabase (hplan : request.plan idKeyCatalog = .ok plan)
    (hlimit : request.stmt.limit = none) (horder : request.stmt.orderBy = [])
    (hgroupBy : ∀ g ∈ request.stmt.groupBy, g = .column (some "a") "k")
    (haliases : ∀ agg ∈ request.stmt.aggregates, agg.aliasName = none)
    (hkeys : joinsKeys request = true) (hrows : joinsRows request = true) :
    Distributable idKeyCatalog twoKeyDatabase request.stmt plan := by
  refine ⟨hlimit, ⟨fun name table h => ?_, fun t c h => ?_, fun agg h => ?_⟩,
    fun e _ => orderDecided_nil horder e, fun join left right hjoin hover => ?_,
    fun join left right hjoin hover core rows hbuild hrun _ => ?_⟩
  · rcases get_twoKeyDatabase h with ⟨-, rfl⟩ | ⟨-, rfl⟩
    · decide
    · decide
  · cases hgroupBy _ h
    decide
  · rw [haliases agg h]
    nofun
  · obtain ⟨hkind, hresolves, -⟩ := of_joinsKeys hkeys hplan hjoin
    refine ⟨?_, fun h => absurd hkind h⟩
    rcases h : resolveJoinKeys join.condition join.left join.right idKeyCatalog with m | keys
    · rw [h] at hresolves
      cases hresolves
    · exact ⟨keys, rfl⟩
  · obtain ⟨-, -, hleft, hright⟩ := of_joinsKeys hkeys hplan hjoin
    obtain ⟨hschema, rfl⟩ := of_joinsRows hrows hplan hbuild hrun
    rw [hschema]
    refine ⟨partitionable_twoKeyDatabase.loaded _ left hover.leftTable,
      partitionable_twoKeyDatabase.loaded _ right hover.rightTable, ?_, ?_, ?_, ?_⟩
    · rw [hleft, hright]
      decide
    · rw [hleft]
      decide
    · rw [hright]
      decide
    · intro row hrow g hg v hv
      cases hgroupBy g hg
      have htexts : ∀ row ∈ joinedRows, (evaluate (.column (some "a") "k") row
          joinedSchema).toOption.all fun v => '\x1f' ∉ (literalToString v).toList := by decide
      have htext := htexts row hrow
      rw [hv] at htext
      exact of_decide_eq_true htext

end

/-- `SELECT a.k, SUM(b.id), MIN(b.id) FROM a JOIN b ON a.k = b.k GROUP BY a.k` -/
def groupedRequest : DistributedRequest ℚ ℚ where
  stmt := ⟨[.expression (.column (some "a") "k") none,
      .expression (.function "SUM" [.column (some "b") "id"]) none,
      .expression (.function "MIN" [.column (some "b") "id"]) none], ⟨"a", none⟩,
    [⟨.inner, ⟨"b", none⟩, keyedCondition⟩], none, [.column (some "a") "k"], none, [], none⟩
  statsCatalog := ∅
  env := ⟨none, ⟨1 / 2, 0⟩, 5⟩

theorem splittable_groupedRequest :
    Splittable groupedRequest.stmt.groupBy groupedRequest.stmt.aggregates joinedSchema
      joinedRows where
  size := by decide
  keys := by decide
  averages := nofun
  grouped _ _ _ := by decide
  placed agg hagg hext row hrow := by
    have hplaced : ∀ agg ∈ groupedRequest.stmt.aggregates, ∀ row ∈ joinedRows,
        aggregateInput agg row joinedSchema = .ok (.integer 3) := by decide
    exact ⟨_, hplaced agg hagg row hrow, rfl, nofun⟩
  level agg hagg _ := by
    have hlevel : ∀ agg ∈ groupedRequest.stmt.aggregates,
        ∀ a ∈ valuesOf joinedSchema agg joinedRows, a = .integer 3 := by decide
    exact fun a ha b hb _ _ => (hlevel agg hagg a ha).trans (hlevel agg hagg b hb).symm

end

end SqlOptimizer
