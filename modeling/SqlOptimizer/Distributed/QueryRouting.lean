import SqlOptimizer.Adaptive.Bandit
import SqlOptimizer.Distributed.Coordinator
import SqlOptimizer.Logical.Optimizer
import SqlOptimizer.Logical.Planner
import SqlOptimizer.Physical.Planner

/-! `run_distributed_query`: the way in which a plan is executed, and what the bandit learns from
it.  The plan is the one that planning without a cache gives. -/

namespace SqlOptimizer

open Adaptive

variable {R K : Type} [CostNum R] [Arithmetic K]

/-- Above these rows a side of a join is not broadcast. -/
def kBroadcastEligible : Nat := 5000

/-- `forced_strategy`, from the value of `SQLOPT_FORCE_STRATEGY`. -/
def forcedStrategy (env : Option String) : Option String :=
  match env with
  | none => none
  | some s => if s = "broadcast" ∨ s = "shuffle" then some s else none

/-- What a query finds outside: `SQLOPT_FORCE_STRATEGY`, what the bandit would draw, and the time
that the query will have taken. -/
structure Surroundings (K : Type) where
  forceStrategy : Option String
  draws : Draws K
  totalMs : K

/-- The result, and the context and the arm that the bandit learns from when both have a name. -/
structure Routed (K : Type) where
  result : Except String DistributedQueryResult
  banditContext : String
  banditArm : String
  bandit : BanditModel K

/-- The reason that a join of more than two relations is not distributed. -/
def deepJoinReason : String :=
  "join has a side that isn't a single base relation (e.g. a 3+ table join) -- " ++
  "distributing it would need an exchange at more than one point in the tree, " ++
  "which needs physical property tracking (see ROADMAP.md), not built yet"

def otherCoreReason : String :=
  "plan's core isn't a single base relation or a 2-relation join -- not eligible for " ++
  "this build's distributed execution"

/-- The tables that a join is between, as the bandit's context names them. -/
def JoinNode.banditContext (join : JoinNode R) : String :=
  (unwrapFilter join.left).tableName ++ ":" ++ (unwrapFilter join.right).tableName

def JoinNode.canBroadcastLeft (join : JoinNode R) : Bool :=
  join.left.estimatedRows ≤ kBroadcastEligible

def JoinNode.canBroadcastRight (join : JoinNode R) : Bool :=
  join.right.estimatedRows ≤ kBroadcastEligible

def JoinNode.preferBroadcastLeft (join : JoinNode R) : Bool :=
  join.canBroadcastLeft &&
    (!join.canBroadcastRight || join.left.estimatedRows ≤ join.right.estimatedRows)

section

variable [Rounding] (call : WorkerCall R) (n : Nat) (schemaCatalog : Catalog)

/-- The join of two relations. -/
def routeJoin (join : JoinNode R) (u : UnwrapResult R) (env : Surroundings K)
    (bandit : BanditModel K) : Routed K :=
  if join.canBroadcastLeft || join.canBroadcastRight then
    let forced := forcedStrategy env.forceStrategy
    -- the argument of `value_or` is evaluated in any case
    let (chosen, bandit) := bandit.choose join.banditContext ["broadcast", "shuffle"] env.draws
    let arm := forced.getD chosen
    { result :=
        if arm = "broadcast" then runBroadcastJoin call n join join.preferBroadcastLeft u
        else runShuffleJoin call n join u schemaCatalog
      banditContext := if forced.isSome then "" else join.banditContext
      banditArm := arm
      bandit := bandit }
  else
    ⟨runShuffleJoin call n join u schemaCatalog, join.banditContext, "shuffle", bandit⟩

def routePlan (plan : PhysicalPlan R) (localFullDatabase : Database) (env : Surroundings K)
    (bandit : BanditModel K) : Routed K :=
  let u := unwrap plan
  match u.core with
  | .join _ kind joinType condition left right =>
    if !isSingleRelation left || !isSingleRelation right then
      ⟨runFallback plan localFullDatabase deepJoinReason, "", "", bandit⟩
    else routeJoin call n schemaCatalog ⟨kind, joinType, condition, left, right⟩ u env bandit
  | core =>
    if isSingleRelation core then ⟨runDistributedSingle call n u, "", "", bandit⟩
    else ⟨runFallback plan localFullDatabase otherCoreReason, "", "", bandit⟩

/-- `run_distributed_query` from its plan on. -/
def runDistributedPlan (plan : PhysicalPlan R) (localFullDatabase : Database)
    (env : Surroundings K) (bandit : BanditModel K) :
    Except String DistributedQueryResult × BanditModel K :=
  let routed := routePlan call n schemaCatalog plan localFullDatabase env bandit
  match routed.result with
  | .error e => (.error e, routed.bandit)
  | .ok result =>
    (.ok result,
      if routed.banditContext ≠ "" ∧ routed.banditArm ≠ "" then
        routed.bandit.update routed.banditContext routed.banditArm
          (Arithmetic.neg env.totalMs)
      else routed.bandit)

/-- A query to the coordinator. -/
structure DistributedRequest (R K : Type) where
  stmt : SelectStatement
  statsCatalog : StatisticsCatalog R
  env : Surroundings K

def DistributedRequest.plan (schemaCatalog : Catalog) (request : DistributedRequest R K) :
    Except String (PhysicalPlan R) :=
  generatePhysicalPlan (optimize schemaCatalog (planStatement request.stmt)) schemaCatalog
    request.statsCatalog

/-- `run_distributed_query` -/
def runDistributedQuery (localFullDatabase : Database) :
    Machine (BanditModel K) (DistributedRequest R K) (Except String DistributedQueryResult)
  | bandit, request =>
    if n = 0 then (.error "distributed: no workers configured", bandit)
    else
      match request.plan schemaCatalog with
      | .error e => (.error e, bandit)
      | .ok plan =>
        runDistributedPlan call n schemaCatalog plan localFullDatabase request.env bandit

end

end SqlOptimizer
