import SqlOptimizer.Distributed.PartialAggregates
import SqlOptimizer.Distributed.Partition
import SqlOptimizer.Execution.Builder
import SqlOptimizer.Util.Hash

/-! `distributed/coordinator.cpp`: the execution of a plan over the workers.  What
`call_worker_or_recover` returns is a parameter, `call`; the indices of the recovered workers and
the elapsed time, which no result depends on, are left out. -/

namespace SqlOptimizer

variable {R : Type}

/-! ### Plan shape -/

/-- The parts of a plan around its core: Project, Sort and Limit, outermost first, the predicate of
a Filter right above the aggregate, and the aggregate. -/
structure UnwrapResult (R : Type) where
  postOps : List (PhysicalPlan R)
  having : Option Expression
  aggregate : Option (List Expression × List AggregateExpr)
  core : PhysicalPlan R

/-- What is below the post operators. -/
def unwrapCore (postOps : List (PhysicalPlan R)) : PhysicalPlan R → UnwrapResult R
  | .filter _ predicate (.hashAggregate _ groupBy aggregates input) =>
    ⟨postOps, some predicate, some (groupBy, aggregates), input⟩
  | .hashAggregate _ groupBy aggregates input => ⟨postOps, none, some (groupBy, aggregates), input⟩
  | node => ⟨postOps, none, none, node⟩

/-- The loop of `unwrap`. -/
def unwrapFrom (postOps : List (PhysicalPlan R)) : PhysicalPlan R → UnwrapResult R
  | .project ann expressions input => unwrapFrom (postOps ++ [.project ann expressions input]) input
  | .sort ann orderBy input => unwrapFrom (postOps ++ [.sort ann orderBy input]) input
  | .limit ann count input => unwrapFrom (postOps ++ [.limit ann count input]) input
  | node => unwrapCore postOps node

def unwrap (plan : PhysicalPlan R) : UnwrapResult R := unwrapFrom [] plan

def unwrapFilter : PhysicalPlan R → PhysicalPlan R
  | .filter _ _ input => unwrapFilter input
  | node => node

def isSingleRelation (node : PhysicalPlan R) : Bool :=
  match unwrapFilter node with
  | .seqScan .. | .indexScan .. => true
  | _ => false

namespace PhysicalPlan

/-- The table of a leaf; the other nodes have none. -/
def tableName : PhysicalPlan R → String
  | seqScan _ t .. | indexScan _ t .. | externalRows _ t .. => t
  | _ => ""

def aliasName : PhysicalPlan R → Option String
  | seqScan _ _ a _ | indexScan _ _ a .. => a
  | _ => none

end PhysicalPlan

/-- The schema that a relation has in the catalog.  The loaded table may have its columns in
another order. -/
def schemaForRelation (node : PhysicalPlan R) (schemaCatalog : Catalog) : RowSchema :=
  let n := unwrapFilter node
  match schemaCatalog.get n.tableName with
  | none => RowSchema.empty
  | some tableSchema =>
    scanSchema (n.aliasName.getD n.tableName) (tableSchema.columns.map (·.name))

/-! ### Join keys -/

def resolveJoinKeys (condition : Expression) (left right : PhysicalPlan R)
    (schemaCatalog : Catalog) : Except String (Expression × Expression) :=
  match condition with
  | .binaryOp a .eq b =>
    let leftSchema := schemaForRelation left schemaCatalog
    let rightSchema := schemaForRelation right schemaCatalog
    if isColumnOf a leftSchema && isColumnOf b rightSchema then .ok (a, b)
    else if isColumnOf b leftSchema && isColumnOf a rightSchema then .ok (b, a)
    else .error "distributed: join condition isn't a simple column-to-column equality across both sides"
  | _ => .error "distributed: shuffle join requires a simple equality condition"

/-- The worker that a row with this key is sent to. -/
def hashPartitionOf (v : Literal) (numWorkers : Nat) : Nat :=
  if numWorkers = 0 then 0 else (fnv1a64 (literalToString v)).toNat % numWorkers

/-- The index of a key that is a column. -/
def resolveKey (key : Expression) (schema : RowSchema) : Option Nat :=
  match key with
  | .column t c => schema.resolve t c
  | _ => none

/-- The indices of the join keys in the rows of the two sides. -/
def shuffleKeyIndices (keys : Expression × Expression) (left right : PhysicalPlan R)
    (schemaCatalog : Catalog) : Except String (Nat × Nat) :=
  match resolveKey keys.1 (schemaForRelation left schemaCatalog),
      resolveKey keys.2 (schemaForRelation right schemaCatalog) with
  | some l, some r => .ok (l, r)
  | _, _ => .error "distributed: could not resolve join key column for shuffle"

/-- `partition_key_is_safe_for_group_by` -/
def partitionKeyIsSafeForGroupBy (key : Expression) (groupBy : List Expression) : Bool :=
  match key with
  | .column t c => groupBy.any fun e =>
    match e with
    | .column t' c' => t' == t && c' == c
    | _ => false
  | _ => false

/-! ### Calls -/

/-- `call_worker_or_recover`: what worker `i` returns for a plan and external rows. -/
abbrev WorkerCall (R : Type) :=
  Nat → PhysicalPlan R → ExternalRowSets → Except String ExecutionResult

/-- The rows of the worker's part of the database, as the worker and, when it does not answer, the
coordinator compute them. -/
def executeOnPartition [Rounding] (full : Database) (schemaCatalog : Catalog) (numWorkers : Nat) :
    WorkerCall R := fun i plan sets =>
  executePlan plan (filterDatabaseToPartition full schemaCatalog i numWorkers) sets

/-- `result_columns` after the loop over the workers: those of the last one. -/
def lastColumns (responses : List ExecutionResult) : List String :=
  (responses.getLast?.map (·.columns)).getD []

variable [CostNum R]

/-- The estimates of the nodes that the coordinator builds. -/
def plainEstimates (rows : Nat) : Annotation R := ⟨Cost.zero, rows, "", CostNum.ofRat 1⟩

/-- `PhysicalPlan::make_external_rows` -/
def makeExternalRows (tableName : String) (projectedColumns : List String) (slot rows : Nat) :
    PhysicalPlan R :=
  .externalRows (plainEstimates rows) tableName projectedColumns slot [] []

/-- The columns of the merged aggregate. -/
def aggregateOutputColumns (groupBy : List Expression) (aggregates : List AggregateExpr) :
    List String :=
  groupBy.mapIdx (fun i e => match e with
    | .column (some t) c => t ++ "." ++ c
    | .column none c => c
    | _ => "g" ++ toString i) ++
  aggregates.mapIdx fun i agg => agg.aliasName.getD (agg.func ++ "_" ++ toString i)

/-- They are named as `HashAggregateExec` names its own. -/
theorem aggregateOutputColumns_eq (groupBy : List Expression) (aggregates : List AggregateExpr) :
    aggregateOutputColumns groupBy aggregates =
      (aggregateSchema groupBy aggregates).qualifiedNames := by
  simp only [aggregateOutputColumns, RowSchema.qualifiedNames, aggregateSchema, List.map_append,
    List.mapIdx_eq_zipIdx_map, List.map_map]
  congr 2
  funext ⟨e, i⟩
  cases e with
  | column t c => cases t <;> rfl
  | _ => rfl

/-- The plan of the workers below the merge: the node, or its partial aggregate. -/
def partialPlan (aggregate : Option (List Expression × List AggregateExpr))
    (node : PhysicalPlan R) : PhysicalPlan R :=
  match aggregate with
  | none => node
  | some (groupBy, aggregates) =>
    .hashAggregate (plainEstimates 0) groupBy (splitAvg aggregates).workerAggregates node

/-- The rows and columns of the query from those of the workers. -/
def mergeResponses [Rounding] (aggregate : Option (List Expression × List AggregateExpr))
    (responses : List ExecutionResult) : Except String ExecutionResult :=
  match aggregate with
  | none => .ok ⟨lastColumns responses, responses.flatMap (·.rows)⟩
  | some (groupBy, aggregates) => do
    let merged ← mergePartialAggregates (responses.map (·.rows)) groupBy.length aggregates
      (splitAvg aggregates)
    return ⟨aggregateOutputColumns groupBy aggregates, merged⟩

/-! ### Finishing -/

structure DistributedQueryResult where
  columns : List String
  rows : List Row
  distributed : Bool
  fallbackReason : String
  workersUsed : Nat
  joinStrategy : String
  usedCopartitionMergeSkip : Bool

/-- A post operator over another input. -/
def reattach (op current : PhysicalPlan R) : PhysicalPlan R :=
  match op with
  | .project _ expressions _ => .project (plainEstimates 0) expressions current
  | .sort _ orderBy _ => .sort (plainEstimates 0) orderBy current
  | .limit _ count _ => .limit (plainEstimates 0) count current
  | _ => current

/-- The plan of `finish` over the merged rows. -/
def finishPlan (u : UnwrapResult R) (resultColumns : List String) (rows : Nat) : PhysicalPlan R :=
  let groupBy := (u.aggregate.map (·.1)).getD []
  let aggregates := (u.aggregate.map (·.2)).getD []
  let leaf : PhysicalPlan R :=
    .externalRows (plainEstimates rows) "merged" resultColumns 0 groupBy aggregates
  let filtered : PhysicalPlan R := match u.having with
    | some predicate => .filter (plainEstimates 0) predicate leaf
    | none => leaf
  u.postOps.foldr reattach filtered

/-- HAVING, Project, Sort and Limit over the merged rows. -/
def finish [Rounding] (u : UnwrapResult R) (result : ExecutionResult) (workersUsed : Nat)
    (joinStrategy : String) (usedCopartitionMergeSkip : Bool) :
    Except String DistributedQueryResult := do
  let executor ← buildExecutor (finishPlan u result.columns result.rows.length) ∅
    (AList.singleton 0 result.rows)
  let rows ← executor.run
  return {
    columns := executor.schema.entries.map (·.column)
    rows := rows
    distributed := true
    fallbackReason := ""
    workersUsed := workersUsed
    joinStrategy := joinStrategy
    usedCopartitionMergeSkip := usedCopartitionMergeSkip }

/-- The plan in one piece, on the whole database. -/
def runFallback [Rounding] (plan : PhysicalPlan R) (localFullDatabase : Database) (reason : String) :
    Except String DistributedQueryResult := do
  let executor ← buildExecutor plan localFullDatabase ∅
  let rows ← executor.run
  return {
    columns := executor.schema.entries.map (·.column)
    rows := rows
    distributed := false
    fallbackReason := reason
    workersUsed := 0
    joinStrategy := ""
    usedCopartitionMergeSkip := false }

/-! ### One relation -/

/-- The rows that `run_distributed_single` gives to `finish`. -/
def collectSingle [Rounding] (call : WorkerCall R) (n : Nat) (u : UnwrapResult R) :
    Except String ExecutionResult := do
  let responses ← (List.range n).mapM fun i => call i (partialPlan u.aggregate u.core) ∅
  mergeResponses u.aggregate responses

def runDistributedSingle [Rounding] (call : WorkerCall R) (n : Nat) (u : UnwrapResult R) :
    Except String DistributedQueryResult := do
  finish u (← collectSingle call n u) n "single" false

/-! ### Joins -/

/-- The outermost join of a plan. -/
structure JoinNode (R : Type) where
  kind : JoinKind
  joinType : JoinType
  condition : Expression
  left : PhysicalPlan R
  right : PhysicalPlan R

def JoinNode.plan (join : JoinNode R) (left right : PhysicalPlan R) : PhysicalPlan R :=
  .join (plainEstimates 0) join.kind join.joinType join.condition left right

/-- The rows that `run_broadcast_join` gives to `finish`. -/
def collectBroadcast [Rounding] (call : WorkerCall R) (n : Nat) (join : JoinNode R)
    (broadcastLeft : Bool) (u : UnwrapResult R) : Except String ExecutionResult := do
  let smallSide := if broadcastLeft then join.left else join.right
  let largeSide := if broadcastLeft then join.right else join.left
  let small ← (List.range n).mapM fun i => call i smallSide ∅
  let rows := small.flatMap (·.rows)
  let ext := makeExternalRows ("broadcast:" ++ smallSide.tableName) (lastColumns small) 0 rows.length
  let workerJoin := if broadcastLeft then join.plan ext largeSide else join.plan largeSide ext
  let responses ← (List.range n).mapM fun i =>
    call i (partialPlan u.aggregate workerJoin) (AList.singleton 0 rows)
  mergeResponses u.aggregate responses

def runBroadcastJoin [Rounding] (call : WorkerCall R) (n : Nat) (join : JoinNode R)
    (broadcastLeft : Bool) (u : UnwrapResult R) : Except String DistributedQueryResult := do
  finish u (← collectBroadcast call n join broadcastLeft u) n
    (if broadcastLeft then "broadcast_left" else "broadcast_right") false

/-- Rows with the worker that each is sent to. -/
def targetRows (n keyIdx : Nat) (rows : List Row) : Except String (List (Nat × Row)) :=
  rows.mapM fun row => do return (hashPartitionOf (← rowAt row keyIdx) n, row)

/-- What one worker contributes to the exchange. -/
structure Exchange where
  leftColumns : List String
  rightColumns : List String
  left : List (Nat × Row)
  right : List (Nat × Row)

def exchangeFrom (call : WorkerCall R) (n : Nat) (left right : PhysicalPlan R)
    (keyIdx : Nat × Nat) (i : Nat) : Except String Exchange := do
  let l ← call i left ∅
  let r ← call i right ∅
  return ⟨l.columns, r.columns, ← targetRows n keyIdx.1 l.rows, ← targetRows n keyIdx.2 r.rows⟩

/-- The rows that are sent to worker `i`. -/
def sentTo (i : Nat) (rows : List (Nat × Row)) : List Row :=
  (rows.filter (·.1 == i)).map (·.2)

/-- The join that the workers run, over the rows they were sent. -/
def shuffledJoin (join : JoinNode R) (leftColumns rightColumns : List String) : PhysicalPlan R :=
  join.plan
    (makeExternalRows ("shuffle:" ++ (unwrapFilter join.left).tableName) leftColumns 0 0)
    (makeExternalRows ("shuffle:" ++ (unwrapFilter join.right).tableName) rightColumns 1 0)

/-- The external rows of worker `i`. -/
def shuffledSets (exchanges : List Exchange) (i : Nat) : ExternalRowSets :=
  (AList.singleton 0 (sentTo i (exchanges.flatMap (·.left)))).insert 1
    (sentTo i (exchanges.flatMap (·.right)))

/-- The rows that `run_shuffle_join` gives to `finish`, and whether it skipped the merge. -/
def collectShuffle [Rounding] (call : WorkerCall R) (n : Nat) (join : JoinNode R)
    (u : UnwrapResult R) (schemaCatalog : Catalog) : Except String (ExecutionResult × Bool) := do
  let keys ← resolveJoinKeys join.condition join.left join.right schemaCatalog
  let keyIdx ← shuffleKeyIndices keys join.left join.right schemaCatalog
  let exchanges ← (List.range n).mapM (exchangeFrom call n join.left join.right keyIdx)
  let columns := (exchanges.getLast?.map fun x => (x.leftColumns, x.rightColumns)).getD ([], [])
  let workerJoin := shuffledJoin join columns.1 columns.2
  let run (plan : PhysicalPlan R) :=
    (List.range n).mapM fun i => call i plan (shuffledSets exchanges i)
  match u.aggregate with
  | none => return (← mergeResponses none (← run workerJoin), false)
  | some (groupBy, aggregates) =>
    -- each group is on one worker when GROUP BY has a key of the join
    if partitionKeyIsSafeForGroupBy keys.1 groupBy || partitionKeyIsSafeForGroupBy keys.2 groupBy
    then
      let responses ← run (.hashAggregate (plainEstimates 0) groupBy aggregates workerJoin)
      return (← mergeResponses none responses, true)
    else
      let responses ← run (partialPlan (some (groupBy, aggregates)) workerJoin)
      return (← mergeResponses (some (groupBy, aggregates)) responses, false)

def runShuffleJoin [Rounding] (call : WorkerCall R) (n : Nat) (join : JoinNode R)
    (u : UnwrapResult R) (schemaCatalog : Catalog) : Except String DistributedQueryResult := do
  let (result, skipped) ← collectShuffle call n join u schemaCatalog
  finish u result n "shuffle" skipped

end SqlOptimizer
