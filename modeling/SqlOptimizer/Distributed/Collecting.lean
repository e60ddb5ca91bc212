import SqlOptimizer.Distributed.CoLocation
import SqlOptimizer.Distributed.Finish

/-! What the coordinator collects by each of its routes, against the core of the plan and its
aggregate on the whole database: the same columns, and the same rows in some order. -/

namespace SqlOptimizer

section

variable [Rounding] {R : Type}

/-! ### Rows that are spread over workers -/

/-- The rows of the aggregate, if there is one, over those of the core. -/
def wholeRows (aggregate : Option (List Expression × List AggregateExpr)) (schema : RowSchema)
    (rows : List Row) : Except String (List Row) :=
  match aggregate with
  | none => .ok rows
  | some (groupBy, aggregates) => hashAggregateRows groupBy aggregates schema rows

/-- The merged rows when each worker has some of those of the core. -/
def mergedRows (aggregate : Option (List Expression × List AggregateExpr)) (schema : RowSchema)
    (workers : List (List Row)) : Except String (List Row) :=
  match aggregate with
  | none => .ok workers.flatten
  | some (groupBy, aggregates) => distributedAggregate groupBy aggregates schema workers

def mergedColumns (aggregate : Option (List Expression × List AggregateExpr))
    (schema : RowSchema) : List String :=
  match aggregate with
  | none => schema.qualifiedNames
  | some (groupBy, aggregates) => aggregateOutputColumns groupBy aggregates

/-- Neither the spreading of the rows over workers nor their order changes the bag of the result. -/
structure Spreads (aggregate : Option (List Expression × List AggregateExpr)) (schema : RowSchema)
    (rows out : List Row) : Prop where
  whole : wholeRows aggregate schema rows = .ok out
  merged : ∀ ws ≠ [], ws.flatten.Perm rows →
    ∃ merged, mergedRows aggregate schema ws = .ok merged ∧ merged.Perm out
  reordered : ∀ rows', rows'.Perm rows →
    ∃ out', wholeRows aggregate schema rows' = .ok out' ∧ out'.Perm out

theorem spreads_none (schema : RowSchema) (rows : List Row) : Spreads none schema rows rows :=
  ⟨rfl, fun _ _ h => ⟨_, rfl, h⟩, fun _ h => ⟨_, rfl, h⟩⟩

variable [CostNum R] {u : UnwrapResult R} {full : Database} {schemaCatalog : Catalog} {n : Nat}

/-- The executor of the core, or of the aggregate over it. -/
theorem exists_core_executor {db : Database} {e : Executor}
    (h : buildExecutor u.aggregated db ∅ = .ok e) :
    ∃ core, buildExecutor u.core db ∅ = .ok core ∧
      u.columns e = mergedColumns u.aggregate core.schema ∧
      ∀ out, e.run = .ok out ↔
        ∃ rows, core.run = .ok rows ∧ wholeRows u.aggregate core.schema rows = .ok out := by
  unfold UnwrapResult.aggregated at h
  unfold UnwrapResult.columns mergedColumns wholeRows
  rcases hagg : u.aggregate with _ | ⟨groupBy, aggregates⟩
  · rw [hagg] at h
    refine ⟨e, h, rfl, fun out => ?_⟩
    simp
  · rw [hagg] at h
    obtain ⟨core, hcore, h⟩ := Except.bind_eq_ok.mp h
    cases h
    exact ⟨core, hcore, rfl, fun out => Executor.run_hashAggregate_eq_ok⟩

/-- Workers that run the node over the same columns, each on rows of its own. -/
structure WorkersRun (node : PhysicalPlan R) (db : Nat → Database) (sets : Nat → ExternalRowSets)
    (n : Nat) (schema : RowSchema) (rowsOf : Nat → List Row) : Prop where
  built : ∀ i < n, ∃ e, buildExecutor node (db i) (sets i) = .ok e ∧ e.run = .ok (rowsOf i) ∧
    e.schema = schema

/-- The merged rows of workers that run the node, or the partial aggregates over it. -/
theorem WorkersRun.merge {node : PhysicalPlan R} {db : Nat → Database}
    {sets : Nat → ExternalRowSets} {schema : RowSchema} {rowsOf : Nat → List Row}
    (h : WorkersRun node db sets n schema rowsOf) (hn : 0 < n)
    {aggregate : Option (List Expression × List AggregateExpr)} {merged : List Row}
    (hmerged : mergedRows aggregate schema ((List.range n).map rowsOf) = .ok merged) :
    (do mergeResponses aggregate (← (List.range n).mapM fun i =>
      executePlan (partialPlan aggregate node) (db i) (sets i))) =
        .ok ⟨mergedColumns aggregate schema, merged⟩ := by
  rcases aggregate with _ | ⟨groupBy, aggregates⟩
  · have hrun : ∀ i ∈ List.range n, executePlan (partialPlan none node) (db i) (sets i) =
        .ok ⟨schema.qualifiedNames, rowsOf i⟩ := by
      intro i hi
      obtain ⟨e, he, hrows, hschema⟩ := h.built i (List.mem_range.mp hi)
      exact executePlan_eq_ok.mpr ⟨e, he, hrows, by rw [hschema]⟩
    cases hmerged
    rw [Except.mapM_eq_ok_map hrun, Except.ok_bind, mergeResponses, lastColumns_map hn,
      List.flatMap_map]
    rfl
  · obtain ⟨outs, houts, hmerge⟩ := Except.bind_eq_ok.mp hmerged
    rw [List.mapM_map] at houts
    have : Nonempty (List Row) := ⟨[]⟩
    obtain ⟨out, hout, rfl⟩ := Except.exists_map_of_mapM_eq_ok houts
    have hrun : ∀ i ∈ List.range n,
        executePlan (partialPlan (some (groupBy, aggregates)) node) (db i) (sets i) =
          .ok ⟨(aggregateSchema groupBy (splitAvg aggregates).workerAggregates).qualifiedNames,
            out i⟩ := by
      intro i hi
      obtain ⟨e, he, hrows, hschema⟩ := h.built i (List.mem_range.mp hi)
      exact (worker_aggregate_eq_ok he hrows hschema).mpr ⟨hout i hi, rfl⟩
    rw [Except.mapM_eq_ok_map hrun, Except.ok_bind, mergeResponses, List.map_map]
    show (do
      let merged ← mergePartialAggregates ((List.range n).map out) groupBy.length aggregates
        (splitAvg aggregates)
      return (⟨aggregateOutputColumns groupBy aggregates, merged⟩ : ExecutionResult)) = _
    rw [hmerge]
    rfl

omit [Rounding] [CostNum R] in
theorem range_map_ne_nil {α : Type} (hn : 0 < n) (f : Nat → α) : (List.range n).map f ≠ [] := by
  simp [Nat.ne_of_gt hn]

/-! ### One relation -/

omit [CostNum R] in
/-- The parts of a table on which a relation runs. -/
theorem workersRun_relation {p : PhysicalPlan R} (hp : isSingleRelation p = true)
    (hname : (unwrapFilter p).tableName ∈ schemaCatalog) {table : Table}
    (ht : full.get (unwrapFilter p).tableName = some table) {sets : ExternalRowSets}
    {rowsOf : Nat → List Row} (h : ∀ i < n, Keeps (relationSchema p table.columnNames) p
      (filterTableToPartition table i n).rows (rowsOf i)) :
    WorkersRun p (fun i => filterDatabaseToPartition full schemaCatalog i n) (fun _ => sets) n
      (relationSchema p table.columnNames) rowsOf := by
  refine ⟨fun i hi => ?_⟩
  obtain ⟨e, he, hschema, hrun⟩ := exists_relation_executor hp
    (get_filterDatabaseToPartition hname ht i n) sets
  rw [columnNames_filterTableToPartition] at hschema hrun
  exact ⟨e, he, (hrun _).mpr (h i hi), hschema⟩

/-- The scan of one relation over the workers. -/
theorem collectSingle_spreads {table : Table} {core : Executor} {rows out : List Row}
    (hcore : isSingleRelation u.core = true) (hn : 0 < n)
    (hname : (unwrapFilter u.core).tableName ∈ schemaCatalog)
    (ht : full.get (unwrapFilter u.core).tableName = some table) (howned : OwnedOnce table n)
    (hbuild : buildExecutor u.core full ∅ = .ok core) (hrun : core.run = .ok rows)
    (hspreads : Spreads u.aggregate core.schema rows out) :
    ∃ merged, collectSingle (executeOnPartition full schemaCatalog n) n u =
        .ok ⟨mergedColumns u.aggregate core.schema, merged⟩ ∧ merged.Perm out := by
  obtain ⟨e, he, hschema, hkeeps⟩ := exists_relation_executor hcore ht ∅
  cases he.symm.trans hbuild
  rw [hschema] at hspreads ⊢
  obtain ⟨rowsOf, hrowsOf, hperm⟩ := ((hkeeps rows).mp hrun).parts hn howned
  obtain ⟨merged, hmerged, hout⟩ := hspreads.merged _ (range_map_ne_nil hn rowsOf) hperm
  exact ⟨merged, (workersRun_relation hcore hname ht hrowsOf).merge hn hmerged, hout⟩

/-! ### The broadcast join -/

section Join

variable {join : JoinNode R} {left right : Table} {core : Executor} {rows out : List Row}
  {ann : Annotation R} {lOf rOf : Nat → List Row}

omit [CostNum R] in
/-- What a join of two relations returns on the whole database. -/
theorem exists_gathered (hover : join.Over full schemaCatalog left right)
    (hn : 0 < n) (hol : OwnedOnce left n) (hor : OwnedOnce right n)
    (hbuild : buildExecutor (.join ann join.kind join.joinType join.condition join.left join.right)
      full ∅ = .ok core) (hrun : core.run = .ok rows) :
    core.schema = (join.leftSchema left).extend (join.rightSchema right) ∧
      ∃ lOf rOf, Gathered join left right n lOf rOf ∧ (joined join.kind join.condition
        (join.leftSchema left) (join.rightSchema right) ((List.range n).flatMap lOf)
          ((List.range n).flatMap rOf)).Perm rows := by
  obtain ⟨le, hle, hls, -⟩ := exists_relation_executor hover.leftSingle hover.leftTable ∅
  obtain ⟨re, hre, hrs, -⟩ := exists_relation_executor hover.rightSingle hover.rightTable ∅
  have hschema := schema_of_buildExecutor_join hle hre hbuild
  rw [hls, hrs] at hschema
  refine ⟨hschema, ?_⟩
  have hok : executePlan (.join ann join.kind join.joinType join.condition join.left join.right)
      full ∅ = .ok ⟨core.schema.qualifiedNames, rows⟩ :=
    executePlan_eq_ok.mpr ⟨core, hbuild, hrun, rfl⟩
  obtain ⟨haccepts, l, r, hl, hr, hpairs, hout⟩ := (executePlan_join_relations_eq_ok
    hover.leftSingle hover.rightSingle hover.leftTable hover.rightTable).mp hok
  obtain ⟨lOf, hlOf, hlperm⟩ := hl.parts hn hol
  obtain ⟨rOf, hrOf, hrperm⟩ := hr.parts hn hor
  refine ⟨lOf, rOf, ⟨hlOf, hrOf, haccepts, fun a ha b hb =>
    hpairs a (hlperm.mem_iff.mp ha) b (hrperm.mem_iff.mp hb)⟩, ?_⟩
  rw [(ExecutionResult.mk.inj hout).2]
  exact (Pairs.joinBy_perm_left _ _ _ hlperm).trans (Pairs.joinBy_perm_right _ _ _ hrperm)

/-- The joins of the workers when the rows of the left side are broadcast. -/
theorem workersRun_broadcastLeft (hover : join.Over full schemaCatalog left right)
    (h : Gathered join left right n lOf rOf)
    (hls : reread (join.leftSchema left) = join.leftSchema left) (name : String) (k : Nat) :
    WorkersRun (join.plan (makeExternalRows name (join.leftSchema left).qualifiedNames 0 k)
        join.right) (fun i => filterDatabaseToPartition full schemaCatalog i n)
      (fun _ => AList.singleton 0 ((List.range n).flatMap lOf)) n
      ((join.leftSchema left).extend (join.rightSchema right)) fun i =>
        joined join.kind join.condition (join.leftSchema left) (join.rightSchema right)
          ((List.range n).flatMap lOf) (rOf i) := by
  refine ⟨fun i hi => ?_⟩
  have hwidth := length_of_keeps_parts h.leftKeeps
  have hok : executeOnPartition full schemaCatalog n i
      (join.plan (makeExternalRows name (join.leftSchema left).qualifiedNames 0 k) join.right)
      (AList.singleton 0 ((List.range n).flatMap lOf)) = .ok _ :=
    (executeOnPartition_broadcastLeft_eq_ok hover.rightSingle hover.rightName hover.rightTable
      hwidth hls).mpr ⟨h.accepts, rOf i, h.rightKeeps i hi, fun a ha b hb =>
        h.pairs a ha b (List.mem_flatMap.mpr ⟨i, List.mem_range.mpr hi, hb⟩), rfl⟩
  obtain ⟨e, he, hrun, -⟩ := executePlan_eq_ok.mp hok
  refine ⟨e, he, hrun, ?_⟩
  obtain ⟨re, hre, hrs, -⟩ := exists_relation_executor hover.rightSingle
    (get_filterDatabaseToPartition hover.rightName hover.rightTable i n)
      (AList.singleton 0 ((List.range n).flatMap lOf))
  rw [columnNames_filterTableToPartition] at hrs
  rw [schema_of_buildExecutor_join (buildExecutor_makeExternalRows (lookup_singleton _) k) hre he,
    hrs]
  exact congrArg (fun s : RowSchema => s.extend (join.rightSchema right)) hls

theorem workersRun_broadcastRight (hover : join.Over full schemaCatalog left right)
    (h : Gathered join left right n lOf rOf)
    (hrs : reread (join.rightSchema right) = join.rightSchema right) (name : String) (k : Nat) :
    WorkersRun (join.plan join.left
        (makeExternalRows name (join.rightSchema right).qualifiedNames 0 k))
      (fun i => filterDatabaseToPartition full schemaCatalog i n)
      (fun _ => AList.singleton 0 ((List.range n).flatMap rOf)) n
      ((join.leftSchema left).extend (join.rightSchema right)) fun i =>
        joined join.kind join.condition (join.leftSchema left) (join.rightSchema right)
          (lOf i) ((List.range n).flatMap rOf) := by
  refine ⟨fun i hi => ?_⟩
  have hwidth := length_of_keeps_parts h.rightKeeps
  have hok : executeOnPartition full schemaCatalog n i
      (join.plan join.left (makeExternalRows name (join.rightSchema right).qualifiedNames 0 k))
      (AList.singleton 0 ((List.range n).flatMap rOf)) = .ok _ :=
    (executeOnPartition_broadcastRight_eq_ok hover.leftSingle hover.leftName hover.leftTable
      hwidth hrs).mpr ⟨h.accepts, lOf i, h.leftKeeps i hi, fun a ha b hb =>
        h.pairs a (List.mem_flatMap.mpr ⟨i, List.mem_range.mpr hi, ha⟩) b hb, rfl⟩
  obtain ⟨e, he, hrun, -⟩ := executePlan_eq_ok.mp hok
  refine ⟨e, he, hrun, ?_⟩
  obtain ⟨le, hle, hls, -⟩ := exists_relation_executor hover.leftSingle
    (get_filterDatabaseToPartition hover.leftName hover.leftTable i n)
      (AList.singleton 0 ((List.range n).flatMap rOf))
  rw [columnNames_filterTableToPartition] at hls
  rw [schema_of_buildExecutor_join hle (buildExecutor_makeExternalRows (lookup_singleton _) k) he,
    hls]
  exact congrArg (RowSchema.extend _) hrs

/-- The broadcast join, whichever side is broadcast. -/
theorem collectBroadcast_spreads (hover : join.Over full schemaCatalog left right) (hn : 0 < n)
    (hol : OwnedOnce left n) (hor : OwnedOnce right n)
    (hls : reread (join.leftSchema left) = join.leftSchema left)
    (hrs : reread (join.rightSchema right) = join.rightSchema right) (broadcastLeft : Bool)
    (hbuild : buildExecutor (.join ann join.kind join.joinType join.condition join.left join.right)
      full ∅ = .ok core) (hrun : core.run = .ok rows)
    (hspreads : Spreads u.aggregate core.schema rows out) :
    ∃ merged, collectBroadcast (executeOnPartition full schemaCatalog n) n join broadcastLeft u =
        .ok ⟨mergedColumns u.aggregate core.schema, merged⟩ ∧ merged.Perm out := by
  obtain ⟨hschema, lOf, rOf, hgathered, hperm⟩ := exists_gathered hover hn hol hor hbuild hrun
  rw [hschema] at hspreads ⊢
  cases broadcastLeft with
  | true =>
    have hws : (broadcastLeftRows join left right n lOf rOf).Perm rows :=
      broadcastLeftRows_perm.trans hperm
    obtain ⟨merged, hmerged, hout⟩ := hspreads.merged _ (range_map_ne_nil hn _) hws
    refine ⟨merged, ?_, hout⟩
    have hgather := (gather_eq_ok hover.leftSingle hover.leftName hover.leftTable).mpr
      ⟨lOf, hgathered.leftKeeps, rfl⟩
    simp only [collectBroadcast, if_true, hgather, Except.ok_bind, lastColumns_map hn,
      List.flatMap_map]
    exact (workersRun_broadcastLeft hover hgathered hls _ _).merge hn hmerged
  | false =>
    have hws : (broadcastRightRows join left right n lOf rOf).Perm rows :=
      broadcastRightRows_eq ▸ hperm
    obtain ⟨merged, hmerged, hout⟩ := hspreads.merged _ (range_map_ne_nil hn _) hws
    refine ⟨merged, ?_, hout⟩
    have hgather := (gather_eq_ok hover.rightSingle hover.rightName hover.rightTable).mpr
      ⟨rOf, hgathered.rightKeeps, rfl⟩
    simp only [collectBroadcast, Bool.false_eq_true, if_false, hgather, Except.ok_bind,
      lastColumns_map hn, List.flatMap_map]
    exact (workersRun_broadcastRight hover hgathered hrs _ _).merge hn hmerged

/-! ### The shuffle join -/

/-- The join accepts its condition and decides each pair of rows. -/
structure JoinDecided (join : JoinNode R) (left right : Table) (l r : List Row) : Prop where
  accepts : joinAccepts join.kind join.condition (join.leftSchema left) (join.rightSchema right)
  pairs : ∀ a ∈ l, ∀ b ∈ r, ∃ v, joinMatch join.kind join.condition (join.leftSchema left)
    (join.rightSchema right) a b = .ok v

/-- The joined rows of the workers of a shuffle join. -/
theorem exists_shuffled (hover : join.Over full schemaCatalog left right) (hn : 0 < n)
    (hol : OwnedOnce left n) (hor : OwnedOnce right n)
    (hkept : ∀ l r, Keeps (join.leftSchema left) join.left left.rows l →
      Keeps (join.rightSchema right) join.right right.rows r →
      JoinDecided join left right l r →
        shuffleKept join schemaCatalog n (join.leftSchema left) (join.rightSchema right) l r)
    (hbuild : buildExecutor (.join ann join.kind join.joinType join.condition join.left join.right)
      full ∅ = .ok core) (hrun : core.run = .ok rows) :
    ∃ keys keyIdx exchanges rowsOf,
      WorkerJoins join full schemaCatalog n left right keys keyIdx exchanges rowsOf ∧
        ((List.range n).flatMap rowsOf).Perm rows := by
  have hok : executePlan (.join ann join.kind join.joinType join.condition join.left join.right)
      full ∅ = .ok ⟨core.schema.qualifiedNames, rows⟩ :=
    executePlan_eq_ok.mpr ⟨core, hbuild, hrun, rfl⟩
  obtain ⟨haccepts, l, r, hl, hr, hall, hout⟩ := (executePlan_join_relations_eq_ok
    hover.leftSingle hover.rightSingle hover.leftTable hover.rightTable).mp hok
  obtain ⟨rowsL, hrowsL, hsubL, hpermL⟩ := exists_rows_on_partitions hover.leftSingle
    hover.leftName hover.leftTable hol hl
  obtain ⟨rowsR, hrowsR, hsubR, hpermR⟩ := exists_rows_on_partitions hover.rightSingle
    hover.rightName hover.rightTable hor hr
  have hlw : ∀ a ∈ l, a.length = (join.leftSchema left).size := fun a ha =>
    (hl.length ha).trans (size_relationSchema join.left left.columnNames).symm
  have hrw : ∀ b ∈ r, b.length = (join.rightSchema right).size := fun b hb =>
    (hr.length hb).trans (size_relationSchema join.right right.columnNames).symm
  have hs : Supplies join full schemaCatalog n (join.leftSchema left) (join.rightSchema right)
      rowsL rowsR :=
    ⟨hrowsL, hrowsR, fun i a ha => hlw a (hsubL i ha), fun i b hb => hrw b (hsubR i hb)⟩
  obtain ⟨keys, keyIdx, hkeys, hidx, h1, h2, haccepts, hpairs⟩ := hkept l r hl hr ⟨haccepts, hall⟩
  obtain ⟨hdecided, hperm⟩ := (workerResponses_perm_iff hn hpermL hpermR hlw hall).mpr hpairs
  let plain : UnwrapResult R := ⟨[], none, none, join.left⟩
  obtain ⟨res, hres, hrows⟩ := (collectShuffle_eq_ok (u := { plain with aggregate := none }) hs hn
    rfl).mpr ⟨keys, keyIdx, hkeys, hidx, fun a ha => h1 a (hpermL.mem_iff.mp ha),
      fun b hb => h2 b (hpermR.mem_iff.mp hb), haccepts, hdecided, rfl⟩
  obtain ⟨keyIdx, exchanges, rowsOf, hby, rfl⟩ := exists_workerJoins (u := plain) hover hn hkeys hres
  refine ⟨keys, keyIdx, exchanges, rowsOf, hby, ?_⟩
  rw [(ExecutionResult.mk.inj hout).2, show (List.range n).flatMap rowsOf = _ from hrows]
  exact hperm

/-- What makes the groups of a GROUP BY with a key of the join come from one worker each. -/
structure Colocates (join : JoinNode R) (schemaCatalog : Catalog) (left right : Table)
    (groupBy : List Expression) (schema : RowSchema) (rows : List Row) : Prop where
  leftOrder : InCatalogOrder schemaCatalog join.left left
  rightOrder : InCatalogOrder schemaCatalog join.right right
  names : relationName join.left ≠ relationName join.right
  leftDotless : '.' ∉ (relationName join.left).toList
  rightDotless : '.' ∉ (relationName join.right).toList
  texts : ∀ row ∈ rows, ∀ g ∈ groupBy, ∀ v, evaluate g row schema = .ok v →
    '\x1f' ∉ (literalToString v).toList

/-- The shuffle join, with or without its merge. -/
theorem collectShuffle_spreads (hover : join.Over full schemaCatalog left right) (hn : 0 < n)
    (hol : OwnedOnce left n) (hor : OwnedOnce right n)
    (hls : reread (join.leftSchema left) = join.leftSchema left)
    (hrs : reread (join.rightSchema right) = join.rightSchema right)
    (hkept : ∀ l r, Keeps (join.leftSchema left) join.left left.rows l →
      Keeps (join.rightSchema right) join.right right.rows r →
      JoinDecided join left right l r →
        shuffleKept join schemaCatalog n (join.leftSchema left) (join.rightSchema right) l r)
    (hcolocates : ∀ groupBy aggregates, u.aggregate = some (groupBy, aggregates) →
      Colocates join schemaCatalog left right groupBy core.schema rows)
    (hbuild : buildExecutor (.join ann join.kind join.joinType join.condition join.left join.right)
      full ∅ = .ok core) (hrun : core.run = .ok rows)
    (hspreads : Spreads u.aggregate core.schema rows out) :
    ∃ merged skipped, collectShuffle (executeOnPartition full schemaCatalog n) n join u
        schemaCatalog = .ok (⟨mergedColumns u.aggregate core.schema, merged⟩, skipped) ∧
      merged.Perm out := by
  obtain ⟨hschema, -⟩ := exists_gathered hover hn hol hor hbuild hrun
  obtain ⟨keys, keyIdx, exchanges, rowsOf, hby, hperm⟩ :=
    exists_shuffled hover hn hol hor hkept hbuild hrun
  have hworker : join.workerSchema left right = core.schema := by
    rw [hschema, JoinNode.workerSchema, hls, hrs]
  have hrun : WorkersRun (shuffledJoin join (join.leftSchema left).qualifiedNames
      (join.rightSchema right).qualifiedNames)
        (fun i => filterDatabaseToPartition full schemaCatalog i n) (shuffledSets exchanges) n
        core.schema rowsOf := by
    refine ⟨fun i hi => ?_⟩
    obtain ⟨e, he, hrun, hschema⟩ := hby.built i (List.mem_range.mpr hi)
    exact ⟨e, he, hrun, hschema.trans hworker⟩
  obtain ⟨merged, hmerged, hout⟩ := hspreads.merged _ (range_map_ne_nil hn rowsOf) hperm
  have hmerge := hrun.merge hn hmerged
  obtain ⟨responses, hresponses, hmerge⟩ := Except.bind_eq_ok.mp hmerge
  have hresponses : ((List.range n).mapM fun i => executeOnPartition full schemaCatalog n i
      (partialPlan u.aggregate (shuffledJoin join (join.leftSchema left).qualifiedNames
        (join.rightSchema right).qualifiedNames)) (shuffledSets exchanges i)) = .ok responses :=
    hresponses
  rcases hagg : u.aggregate with _ | ⟨groupBy, aggregates⟩
  · rw [hagg] at hmerge hresponses
    refine ⟨merged, false, ?_, hout⟩
    simp only [collectShuffle, hby.resolves, hby.indexed, hby.sent, Except.ok_bind, hagg,
      hby.columns]
    rw [show (List.range n).mapM _ = .ok responses from hresponses, Except.ok_bind, hmerge]
    rfl
  by_cases hsafe : partitionKeyIsSafeForGroupBy keys.1 groupBy = true ∨
      partitionKeyIsSafeForGroupBy keys.2 groupBy = true
  · -- the aggregates of the workers, put together, are those of the rows in their order
    have hco := hcolocates groupBy aggregates hagg
    obtain ⟨out', hout', hperm'⟩ := hspreads.reordered _ hperm
    rw [hagg] at hout'
    have hdisj := pairwise_groupText_ne hco.leftOrder hco.rightOrder hco.names hco.leftDotless
      hco.rightDotless hby.indexed hby.met hsafe fun row hrow g hg v hv =>
        hco.texts row (hperm.mem_iff.mp hrow) g hg v (hworker ▸ hv)
    rw [hworker] at hdisj
    obtain ⟨outs, houts, rfl⟩ :=
      (hashAggregateRows_flatMap_eq_ok (ne_nil_of_safe hsafe) hdisj).mp hout'
    refine ⟨_, true, (collectShuffle_safe_eq_ok hn hby hagg hsafe).mpr
      ⟨outs, fun i hi => hworker ▸ houts i hi, ?_⟩, hperm'⟩
    rw [mergedColumns, aggregateOutputColumns_eq]
  · rw [hagg] at hmerge hresponses
    refine ⟨merged, false, ?_, hout⟩
    have hunsafe : (partitionKeyIsSafeForGroupBy keys.1 groupBy ||
        partitionKeyIsSafeForGroupBy keys.2 groupBy) = false := by simpa using hsafe
    simp only [collectShuffle, hby.resolves, hby.indexed, hby.sent, Except.ok_bind, hagg,
      hby.columns, hunsafe, Bool.false_eq_true, if_false]
    rw [show (List.range n).mapM _ = .ok responses from hresponses, Except.ok_bind, hmerge]
    rfl

end Join

end

end SqlOptimizer
