import SqlOptimizer.Distributed.QueryRouting
import SqlOptimizer.Distributed.ShuffleJoin

/-! What the bandit of the coordinator knows after any run of queries: for each pair of tables and
each strategy, the mean time of the joins that it was asked about. -/

namespace SqlOptimizer

open Adaptive

section

variable {R K : Type} [CostNum R] [Arithmetic K]

/-- The join of two relations that is at the core of a plan. -/
def relationJoin (plan : PhysicalPlan R) : Option (JoinNode R) :=
  match (unwrap plan).core with
  | .join _ kind joinType condition left right =>
    if isSingleRelation left && isSingleRelation right then
      some ⟨kind, joinType, condition, left, right⟩
    else none
  | _ => none

/-- The arm whose strategy a result names. -/
def armOf (joinStrategy : String) : Option String :=
  if joinStrategy = "broadcast_left" ∨ joinStrategy = "broadcast_right" then some "broadcast"
  else if joinStrategy = "shuffle" then some "shuffle"
  else none

/-- The bandit is not taught by a strategy that was forced. -/
def JoinNode.Unforced (join : JoinNode R) (env : Surroundings K) : Prop :=
  forcedStrategy env.forceStrategy = none ∨
    join.canBroadcastLeft = false ∧ join.canBroadcastRight = false

instance (join : JoinNode R) (env : Surroundings K) : Decidable (join.Unforced env) :=
  inferInstanceAs (Decidable (_ ∨ _))

/-- The reward that an answered query is for an arm in a context: its time, negated. -/
def lesson (schemaCatalog : Catalog) (context arm : String)
    (p : DistributedRequest R K × Except String DistributedQueryResult) : Option K :=
  match (p.1.plan schemaCatalog).toOption.bind relationJoin, p.2 with
  | some join, .ok result =>
    if join.banditContext = context ∧ armOf result.joinStrategy = some arm ∧
        join.Unforced p.1.env then some (Arithmetic.neg p.1.env.totalMs)
    else none
  | _, _ => none

variable [Rounding] {call : WorkerCall R} {n : Nat} {schemaCatalog : Catalog} {full : Database}
  {context arm : String}

/-! ### What a route leaves to learn -/

omit [Arithmetic K] in
theorem joinStrategy_of_finish {u : UnwrapResult R} {result : ExecutionResult} {workersUsed : Nat}
    {joinStrategy : String} {skip : Bool} {q : DistributedQueryResult}
    (h : finish u result workersUsed joinStrategy skip = .ok q) : q.joinStrategy = joinStrategy := by
  obtain ⟨e, -, h⟩ := Except.bind_eq_ok.mp h
  obtain ⟨rows, -, h⟩ := Except.bind_eq_ok.mp h
  cases h
  rfl

omit [Arithmetic K] in
theorem armOf_runBroadcastJoin {join : JoinNode R} {broadcastLeft : Bool} {u : UnwrapResult R}
    {q : DistributedQueryResult} (h : runBroadcastJoin call n join broadcastLeft u = .ok q) :
    armOf q.joinStrategy = some "broadcast" := by
  obtain ⟨result, -, h⟩ := Except.bind_eq_ok.mp h
  rw [joinStrategy_of_finish h]
  cases broadcastLeft <;> decide

omit [Arithmetic K] in
theorem armOf_runShuffleJoin {join : JoinNode R} {u : UnwrapResult R} {q : DistributedQueryResult}
    (h : runShuffleJoin call n join u schemaCatalog = .ok q) :
    armOf q.joinStrategy = some "shuffle" := by
  obtain ⟨⟨result, skip⟩, -, h⟩ := Except.bind_eq_ok.mp h
  rw [joinStrategy_of_finish h]
  decide

omit [Rounding] [CostNum R] [Arithmetic K] in
theorem forcedStrategy_eq_some {env : Option String} {s : String}
    (h : forcedStrategy env = some s) : s = "broadcast" ∨ s = "shuffle" := by
  unfold forcedStrategy at h
  split at h
  · cases h
  · split at h
    case isTrue hs =>
      cases h
      exact hs
    case isFalse => cases h

variable (call n schemaCatalog) in
theorem routeJoin_spec (join : JoinNode R) (u : UnwrapResult R) {env : Surroundings K}
    (bandit : BanditModel K) (hpick : env.draws.pick < 2) :
    let routed := routeJoin call n schemaCatalog join u env bandit
    (∀ context arm, routed.bandit.armStats context arm = bandit.armStats context arm) ∧
      routed.banditContext = (if join.Unforced env then join.banditContext else "") ∧
      ∀ q, routed.result = .ok q → armOf q.joinStrategy = some routed.banditArm := by
  intro routed
  unfold routed routeJoin
  split
  case isFalse hnone =>
    have hunforced : join.Unforced env := .inr (by simpa using hnone)
    rw [if_pos hunforced]
    exact ⟨fun _ _ => rfl, rfl, fun q hq => armOf_runShuffleJoin hq⟩
  case isTrue hsome =>
    dsimp only
    refine ⟨fun context arm => armStats_choose _ _, ?_, fun q hq => ?_⟩
    · have hunforced : join.Unforced env ↔ forcedStrategy env.forceStrategy = none := by
        refine or_iff_left fun hnone => ?_
        rw [hnone.1, hnone.2] at hsome
        cases hsome
      rcases hforced : forcedStrategy env.forceStrategy with _ | s
      · rw [if_pos (hunforced.mpr hforced)]
        rfl
      · have hnot : ¬ join.Unforced env := by
          rw [hunforced, hforced]
          nofun
        rw [if_neg hnot]
        rfl
    · have harm : ∀ arm, arm = "broadcast" ∨ arm = "shuffle" →
          (if arm = "broadcast" then runBroadcastJoin call n join join.preferBroadcastLeft u
            else runShuffleJoin call n join u schemaCatalog) = .ok q →
          armOf q.joinStrategy = some arm := by
        rintro arm (rfl | rfl) hq
        · exact armOf_runBroadcastJoin hq
        · exact armOf_runShuffleJoin hq
      refine harm _ ?_ hq
      rcases hforced : forcedStrategy env.forceStrategy with _ | s
      · have hmem := choose_mem bandit join.banditContext ["broadcast", "shuffle"] hpick
        simpa using hmem
      · exact forcedStrategy_eq_some hforced

theorem routePlan_join {plan : PhysicalPlan R} {join : JoinNode R} (h : relationJoin plan = some join)
    (env : Surroundings K) (bandit : BanditModel K) :
    routePlan call n schemaCatalog plan full env bandit =
      routeJoin call n schemaCatalog join (unwrap plan) env bandit := by
  unfold relationJoin at h
  unfold routePlan
  split at h
  case h_2 => cases h
  case h_1 ann kind joinType condition left right hcore =>
    split at h
    case isFalse => cases h
    case isTrue hsingle =>
      cases h
      dsimp only
      rw [hcore]
      dsimp only
      rw [if_neg]
      simpa using hsingle

variable (call n schemaCatalog full) in
/-- Without a join of two relations there is nothing to learn. -/
theorem routePlan_other {plan : PhysicalPlan R} (h : relationJoin plan = none)
    (env : Surroundings K) (bandit : BanditModel K) :
    let routed := routePlan call n schemaCatalog plan full env bandit
    routed.bandit = bandit ∧ routed.banditContext = "" := by
  intro routed
  unfold relationJoin at h
  unfold routed routePlan
  dsimp only
  split
  case h_1 ann kind joinType condition left right hcore =>
    rw [hcore] at h
    dsimp only at h
    split at h
    case isTrue => cases h
    case isFalse hsingle =>
      rw [if_pos]
      · exact ⟨rfl, rfl⟩
      · simpa [Decidable.imp_iff_not_or] using hsingle
  case h_2 => split <;> exact ⟨rfl, rfl⟩

omit [Rounding] [CostNum R] [Arithmetic K] in
theorem banditContext_ne (join : JoinNode R) : join.banditContext ≠ "" := by
  intro h
  have hlength := congrArg String.length h
  rw [JoinNode.banditContext, String.length_append, String.length_append] at hlength
  have hcolon : ":".length = 1 := rfl
  have hempty : "".length = 0 := rfl
  omega

omit [Rounding] [CostNum R] [Arithmetic K] in
theorem armOf_ne {joinStrategy a : String} (h : armOf joinStrategy = some a) : a ≠ "" := by
  unfold armOf at h
  split at h
  · cases h
    decide
  · split at h <;> cases h
    decide

theorem runDistributedQuery_eq (bandit : BanditModel K) (request : DistributedRequest R K) :
    runDistributedQuery call n schemaCatalog full bandit request =
      if n = 0 then (.error "distributed: no workers configured", bandit)
      else match request.plan schemaCatalog with
        | .error e => (.error e, bandit)
        | .ok plan => runDistributedPlan call n schemaCatalog plan full request.env bandit := rfl

theorem epsilon_runDistributedQuery (bandit : BanditModel K) (request : DistributedRequest R K) :
    (runDistributedQuery call n schemaCatalog full bandit request).2.epsilon = bandit.epsilon := by
  rw [runDistributedQuery_eq]
  split
  · rfl
  split
  · rfl
  case h_2 plan hplan =>
    have hroute : (routePlan call n schemaCatalog plan full request.env bandit).bandit.epsilon =
        bandit.epsilon := by
      rcases hjoin : relationJoin plan with _ | join
      · rw [(routePlan_other call n schemaCatalog full hjoin request.env bandit).1]
      · rw [routePlan_join hjoin, routeJoin]
        split
        · exact epsilon_choose _ _ _ _
        · rfl
    unfold runDistributedPlan
    dsimp only
    split
    · exact hroute
    · split
      · exact hroute
      · exact hroute

end

/-! ### What a run of queries teaches -/

section

variable {R K : Type} [CostNum R] [Field K] [LinearOrder K] [IsStrictOrderedRing K] [Rounding]
  {call : WorkerCall R} {n : Nat} {schemaCatalog : Catalog} {full : Database} {context arm : String}

/-- A query adds its lesson to what the bandit knows of an arm. -/
theorem summarizes_runDistributedPlan {request : DistributedRequest R K} {plan : PhysicalPlan R}
    {bandit : BanditModel K} {rewards : List K} (hplan : request.plan schemaCatalog = .ok plan)
    (hpick : request.env.draws.pick < 2)
    (h : Summarizes (bandit.armStats context arm) rewards) :
    let out := runDistributedPlan call n schemaCatalog plan full request.env bandit
    Summarizes (out.2.armStats context arm)
      (rewards ++ (lesson schemaCatalog context arm (request, out.1)).toList) := by
  intro out
  unfold out runDistributedPlan lesson
  rw [hplan]
  dsimp only [Except.toOption, Option.bind_some]
  rcases hjoin : relationJoin plan with _ | join
  · obtain ⟨hbandit, hcontext⟩ := routePlan_other call n schemaCatalog full hjoin request.env
      bandit
    rw [hbandit, hcontext, if_neg fun hnames => hnames.1 rfl, Option.toList_none, List.append_nil]
    split <;> exact h
  · obtain ⟨hstats, hcontext, harm⟩ := routeJoin_spec call n schemaCatalog join (unwrap plan)
      bandit hpick
    rw [routePlan_join hjoin]
    generalize routeJoin call n schemaCatalog join (unwrap plan) request.env bandit = routed
      at hstats hcontext harm
    rw [← hstats] at h
    rcases hresult : routed.result with e | result
    · dsimp only
      rw [Option.toList_none, List.append_nil]
      exact h
    have harm := harm result hresult
    dsimp only
    by_cases hunforced : join.Unforced request.env
    · rw [if_pos hunforced] at hcontext
      rw [if_pos ⟨hcontext ▸ banditContext_ne join, armOf_ne harm⟩, hcontext, harm]
      by_cases hthis : join.banditContext = context ∧ routed.banditArm = arm
      · obtain ⟨hc, ha⟩ := hthis
        rw [hc, ha, armStats_update_self, if_pos ⟨rfl, rfl, hunforced⟩]
        exact h.update _
      · rw [armStats_update_ne hthis, if_neg, Option.toList_none, List.append_nil]
        · exact h
        · rintro ⟨hc, ha, -⟩
          exact hthis ⟨hc, Option.some.inj ha⟩
    · rw [if_neg hunforced] at hcontext
      rw [if_neg fun hnames => hnames.1 hcontext, if_neg fun hlesson => hunforced hlesson.2.2,
        Option.toList_none, List.append_nil]
      exact h

/-- After any run of queries, the bandit of the coordinator has, for each pair of tables and each
strategy, the count and the mean of the negated times of the answered queries that joined these
tables with this strategy unforced; neither the other queries, the failed ones nor the forced ones
matter. -/
theorem summarizes_runDistributedQuery (epsilon : K) (requests : List (DistributedRequest R K))
    (hpick : ∀ request ∈ requests, request.env.draws.pick < 2) :
    let coordinator := runDistributedQuery call n schemaCatalog full
    Summarizes ((coordinator.after (newBandit epsilon) requests).armStats context arm)
      ((coordinator.trace (newBandit epsilon) requests).filterMap
        (lesson schemaCatalog context arm)) := by
  intro coordinator
  induction requests using List.reverseRecOn with
  | nil => exact summarizes_run epsilon [] context arm
  | append_singleton requests request ih =>
    have ih := ih fun r hr => hpick r (List.mem_append_left _ hr)
    rw [Machine.after_append, Machine.trace_append, List.filterMap_append]
    show Summarizes ((coordinator _ request).2.armStats context arm)
      (_ ++ [(request, (coordinator _ request).1)].filterMap _)
    generalize coordinator.after (newBandit epsilon) requests = bandit at ih
    generalize (coordinator.trace (newBandit epsilon) requests).filterMap
      (lesson schemaCatalog context arm) = rewards at ih
    have hone : ∀ p : DistributedRequest R K × Except String DistributedQueryResult,
        [p].filterMap (lesson schemaCatalog context arm) =
          (lesson schemaCatalog context arm p).toList := by
      intro p
      rcases hp : lesson schemaCatalog context arm p <;> simp [hp]
    rw [hone]
    have hnone : ∀ e, (lesson schemaCatalog context arm (request, .error e)).toList = [] := by
      intro e
      unfold lesson
      split <;> simp_all
    rw [show coordinator bandit request = _ from runDistributedQuery_eq bandit request]
    by_cases hn : n = 0
    · rw [if_pos hn, hnone, List.append_nil]
      exact ih
    · rw [if_neg hn]
      rcases hplan : request.plan schemaCatalog with e | plan
      · rw [hnone, List.append_nil]
        exact ih
      · exact summarizes_runDistributedPlan hplan (hpick request (by simp)) ih

end

/-! ### The second join of two tables -/

section

attribute [local instance] Rounding.exact

local instance learningCosts : CostNum ℚ := CostNum.rational id

/-- `SELECT * FROM a JOIN b ON a.k = b.k`, with a draw that does not explore. -/
def joinedRequest (totalMs : ℚ) : DistributedRequest ℚ ℚ where
  stmt := ⟨[.wildcard], ⟨"a", none⟩, [⟨.inner, ⟨"b", none⟩, keyedCondition⟩], none, [], none, [],
    none⟩
  statsCatalog := ∅
  env := ⟨none, ⟨1 / 2, 1⟩, totalMs⟩

end

end SqlOptimizer
