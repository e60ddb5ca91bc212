import SqlOptimizer.Optimizer.CheapestOrder
import SqlOptimizer.Optimizer.CostModel
import SqlOptimizer.Optimizer.SearchInvariant
import SqlOptimizer.Physical.Planner

/-! The annotations of a physical plan: the planner gives each node the cost that its operator and
the annotations of its inputs make, so that the cost model recomputes it and no node costs less than
what it runs. -/

namespace SqlOptimizer

/-! ### The nodes of a plan -/

namespace PhysicalPlan

variable {R : Type}

/-- The inputs of a node. -/
def children : PhysicalPlan R → List (PhysicalPlan R)
  | filter _ _ input | hashAggregate _ _ _ input | project _ _ input | sort _ _ input
  | limit _ _ input => [input]
  | join _ _ _ _ left right => [left, right]
  | seqScan .. | indexScan .. | externalRows .. => []

/-- The inputs that a node runs: an index nested loop join probes its inner side through the
index. -/
def executedChildren : PhysicalPlan R → List (PhysicalPlan R)
  | join _ .indexNestedLoopJoin _ _ left _ => [left]
  | p => p.children

/-- A plan and all plans inside it. -/
def nodes : PhysicalPlan R → List (PhysicalPlan R)
  | filter ann predicate input => filter ann predicate input :: input.nodes
  | join ann kind joinType condition left right =>
    join ann kind joinType condition left right :: (left.nodes ++ right.nodes)
  | hashAggregate ann groupBy aggregates input =>
    hashAggregate ann groupBy aggregates input :: input.nodes
  | project ann expressions input => project ann expressions input :: input.nodes
  | sort ann orderBy input => sort ann orderBy input :: input.nodes
  | limit ann count input => limit ann count input :: input.nodes
  | p => [p]

theorem self_mem_nodes (p : PhysicalPlan R) : p ∈ p.nodes := by
  cases p <;> exact List.mem_cons_self

/-- What each node has when its inputs have it, every node of a plan has. -/
theorem nodes_forall {P Q : PhysicalPlan R → Prop}
    (hnode : ∀ p, Q p → (∀ c ∈ p.children, P c) → P p) {plan : PhysicalPlan R} (h : ∀ p ∈ plan.nodes, Q p) : ∀ p ∈ plan.nodes, P p := by
  induction plan with
  | seqScan | indexScan | externalRows =>
    intro p hp
    exact hnode p (h p hp) (List.mem_singleton.mp hp ▸ fun _ hc => nomatch hc)
  | join ann kind joinType condition left right ihl ihr =>
    obtain ⟨hself, hbelow⟩ := List.forall_mem_cons.mp h
    obtain ⟨hl, hr⟩ := List.forall_mem_append.mp hbelow
    have hchildren : ∀ c ∈ [left, right], P c := List.forall_mem_cons.mpr
      ⟨ihl hl left left.self_mem_nodes, List.forall_mem_singleton.mpr
        (ihr hr right right.self_mem_nodes)⟩
    exact List.forall_mem_cons.mpr ⟨hnode _ hself hchildren,
      List.forall_mem_append.mpr ⟨ihl hl, ihr hr⟩⟩
  | filter ann predicate input ih | hashAggregate ann groupBy aggregates input ih
  | project ann expressions input ih | sort ann orderBy input ih | limit ann count input ih =>
    obtain ⟨hself, hbelow⟩ := List.forall_mem_cons.mp h
    refine List.forall_mem_cons.mpr ⟨hnode _ hself ?_, ih hbelow⟩
    exact List.forall_mem_singleton.mpr (ih hbelow input input.self_mem_nodes)

end PhysicalPlan

/-! ### The annotations of the planner -/

section

variable {R : Type} [CostNum R] {catalog : Catalog} {stats : StatisticsCatalog R}

/-- A row count that the planner writes: a rounded estimate, or the tenth of an input. -/
def EstimatedRows (R : Type) [CostNum R] (rows : Nat) : Prop :=
  (∃ estimate : R, rows = rowsToSize estimate) ∨ ∃ input, rows = max (input / 10) 1

/-- The cost that the planner gives a node over inputs with their annotations. -/
def plannedCost (stats : StatisticsCatalog R) : PhysicalPlan R → Cost R
  | .seqScan ann tableName .. => Cost.seqScan ann.rows (pageCountOf stats tableName ann.rows)
  | .indexScan ann .. => Cost.indexScan ann.rows
  | .filter _ _ input => input.estimatedCost + Cost.filter input.estimatedRows
  | .join ann kind _ _ left right => joinCost kind left right ann.rows
  | .hashAggregate ann _ _ input => input.estimatedCost +
      Cost.hashAggregate input.estimatedRows ann.rows
  | .project _ _ input => input.estimatedCost + Cost.project input.estimatedRows
  | .sort _ _ input => input.estimatedCost + Cost.sort input.estimatedRows
  | .limit _ _ input => input.estimatedCost + Cost.limit input.estimatedRows
  | .externalRows .. => Cost.zero

/-- The annotation of a node is the planner's. -/
structure PlannedNode (stats : StatisticsCatalog R) (p : PhysicalPlan R) : Prop where
  rows : EstimatedRows R p.estimatedRows
  cost : p.estimatedCost = plannedCost stats p

def PlannedThroughout (stats : StatisticsCatalog R) (plan : PhysicalPlan R) : Prop :=
  ∀ p ∈ plan.nodes, PlannedNode stats p

theorem PlannedThroughout.of_children {p : PhysicalPlan R} (hnode : PlannedNode stats p)
    (h : ∀ c ∈ p.children, PlannedThroughout stats c) : PlannedThroughout stats p := by
  cases p with
  | seqScan | indexScan | externalRows => exact List.forall_mem_singleton.mpr hnode
  | join ann kind joinType condition left right =>
    obtain ⟨hl, hr⟩ := List.forall_mem_cons.mp h
    exact List.forall_mem_cons.mpr ⟨hnode, List.forall_mem_append.mpr
      ⟨hl, List.forall_mem_singleton.mp hr⟩⟩
  | filter | hashAggregate | project | sort | limit =>
    exact List.forall_mem_cons.mpr ⟨hnode, List.forall_mem_singleton.mp h⟩

/-- A node over one input. -/
theorem PlannedThroughout.over {p input : PhysicalPlan R} (h : PlannedThroughout stats input)
    (hchildren : p.children = [input]) (hrows : EstimatedRows R p.estimatedRows)
    (hcost : p.estimatedCost = plannedCost stats p) : PlannedThroughout stats p := by
  refine .of_children ⟨hrows, hcost⟩ ?_
  rw [hchildren]
  exact List.forall_mem_singleton.mpr h

theorem PlannedThroughout.join {ann : Annotation R} {kind : JoinKind} {joinType : JoinType}
    {condition : Expression} {left right : PhysicalPlan R} (hl : PlannedThroughout stats left)
    (hr : PlannedThroughout stats right) (hann : JoinAnnotated kind condition left right ann) :
    PlannedThroughout stats (.join ann kind joinType condition left right) :=
  .of_children ⟨.inl hann.rows, hann.cost⟩ (List.forall_mem_cons.mpr
    ⟨hl, List.forall_mem_singleton.mpr hr⟩)

/-- The filters of an access path round the estimate that they are given, which the node below
them has rounded already. -/
theorem planned_bestAccessPath (rel : Relation) :
    PlannedThroughout stats (bestAccessPath catalog stats rel) := by
  have hstate : ∃ rows : R, PlannedThroughout stats (bestAccessPath catalog stats rel) ∧
      (bestAccessPath catalog stats rel).estimatedRows = rowsToSize rows := by
    apply bestAccessPath_state
      (P := fun st => PlannedThroughout stats st.1 ∧ st.1.estimatedRows = rowsToSize st.2)
    · intro rows reasoning confidence
      exact ⟨.of_children ⟨.inl ⟨rows, rfl⟩, rfl⟩ (fun _ hc => nomatch hc), rfl⟩
    · intro rows reasoning confidence column lit
      exact ⟨.of_children ⟨.inl ⟨rows, rfl⟩, rfl⟩ (fun _ hc => nomatch hc), rfl⟩
    · intro scope st pred ⟨h, hrows⟩
      refine ⟨h.over rfl (.inl ⟨_, rfl⟩) ?_, rfl⟩
      show st.1.estimatedCost + Cost.filter (rowsToSize st.2) =
        st.1.estimatedCost + Cost.filter st.1.estimatedRows
      rw [hrows]
  obtain ⟨rows, h, -⟩ := hstate
  exact h

theorem planned_planJoinSearch {node : LogicalPlan} {plan : PhysicalPlan R}
    (h : planJoinSearch catalog stats node = .ok plan) : PlannedThroughout stats plan := by
  obtain ⟨extraction, -, h⟩ := Except.bind_eq_ok.mp h
  obtain ⟨best, hbest, h⟩ := Except.bind_eq_ok.mp h
  cases h
  apply List.foldlRecOn (motive := PlannedThroughout stats)
  · exact findBestPlan_forall planned_bestAccessPath
      (fun _ _ _ _ _ hann hl hr => hl.join hr hann) hbest
  · exact fun best h pred _ => h.over rfl (.inr ⟨_, rfl⟩) rfl

theorem planned_indexScanOf {predicate : Expression} {input : LogicalPlan} {plan : PhysicalPlan R}
    (h : indexScanOf catalog stats predicate input = some plan) : PlannedThroughout stats plan := by
  cases input with
  | scan tableName aliasName columns =>
    obtain ⟨rows, reasoning, confidence, t, column, lit, -, rfl⟩ := tryIndexScan_eq_some h
    exact .of_children ⟨.inl ⟨rows, rfl⟩, rfl⟩ fun _ hc => nomatch hc
  | _ => cases h

theorem planned_planNode {node : LogicalPlan} {plan : PhysicalPlan R}
    (h : planNode catalog stats node = .ok plan) : PlannedThroughout stats plan := by
  induction node generalizing plan with
  | scan tableName aliasName projectedColumns =>
    unfold planNode at h
    split at h
    case isTrue => exact planned_planJoinSearch h
    case isFalse =>
      cases h
      exact .of_children ⟨.inl ⟨_, rfl⟩, rfl⟩ fun _ hc => nomatch hc
  | filter predicate input ih =>
    unfold planNode at h
    split at h
    case isTrue => exact planned_planJoinSearch h
    case isFalse =>
      dsimp only at h
      split at h
      case h_1 hindex =>
        cases h
        exact planned_indexScanOf hindex
      case h_2 =>
        obtain ⟨inner, hinner, h⟩ := Except.bind_eq_ok.mp h
        cases h
        exact (ih hinner).over rfl (.inl ⟨_, rfl⟩) rfl
  | join joinType condition left right ihl ihr =>
    unfold planNode at h
    split at h
    case isTrue => exact planned_planJoinSearch h
    case isFalse =>
      obtain ⟨l, hl, h⟩ := Except.bind_eq_ok.mp h
      obtain ⟨r, hr, h⟩ := Except.bind_eq_ok.mp h
      cases h
      obtain ⟨ann, kind, hplan, hann⟩ := chooseJoinStrategy_eq stats joinType condition l r
        left right
      rw [hplan]
      exact (ihl hl).join (ihr hr) hann
  | aggregate groupBy aggregates input ih | project expressions input ih | sort orderBy input ih
  | limit count input ih =>
    simp only [planNode, isJoinSearchCandidate, LogicalPlan.unwrapFilters, Bool.false_eq_true,
      if_false] at h
    obtain ⟨inner, hinner, h⟩ := Except.bind_eq_ok.mp h
    cases h
    exact (ih hinner).over rfl (.inl ⟨_, rfl⟩) rfl

/-! ### The cost model -/

theorem pageCountOf_eq (hpages : ∀ t s, stats.get t = some s →
    CostNum.lt (CostNum.ofRat 0) s.pageCount = false) (tableName : String) (rows : Nat) :
    pageCountOf stats tableName rows = Cost.pagesFor rows 64 := by
  unfold pageCountOf
  split
  · next s hs => rw [hpages tableName s hs, if_neg Bool.false_ne_true]
  · rfl

/-- One node: the cost model composes the costs of the inputs as the planner does. -/
theorem estimateCost_eq_plannedCost (hpages : ∀ t s, stats.get t = some s →
    CostNum.lt (CostNum.ofRat 0) s.pageCount = false) {p : PhysicalPlan R}
    (h : ∀ c ∈ p.children, estimateCost c = c.estimatedCost) :
    estimateCost p = plannedCost stats p := by
  cases p with
  | seqScan ann tableName => rw [estimateCost, plannedCost, pageCountOf_eq hpages]
  | indexScan | externalRows => rfl
  | filter ann predicate input | hashAggregate ann groupBy aggregates input
  | project ann expressions input | sort ann orderBy input | limit ann count input =>
    rw [estimateCost, plannedCost, List.forall_mem_singleton.mp h]
  | join ann kind joinType condition left right =>
    obtain ⟨hl, hr⟩ := List.forall_mem_cons.mp h
    have hr := List.forall_mem_singleton.mp hr
    cases kind with
    | nestedLoopJoin => rw [estimateCost, plannedCost, joinCost, nestedLoopCost, hl, hr]
    | hashJoin => rw [estimateCost, plannedCost, joinCost, hl, hr]
    | indexNestedLoopJoin => rw [estimateCost, plannedCost, joinCost, hl]

/-- Without page counts in the statistics, the cost model recomputes the cost of every node of a
plan. -/
theorem estimateCost_generatePhysicalPlan (logical : LogicalPlan) (catalog : Catalog)
    (stats : StatisticsCatalog R) (plan : PhysicalPlan R)
    (hpages : ∀ t s, stats.get t = some s → CostNum.lt (CostNum.ofRat 0) s.pageCount = false)
    (h : generatePhysicalPlan logical catalog stats = .ok plan) :
    ∀ p ∈ plan.nodes, estimateCost p = p.estimatedCost := by
  refine PhysicalPlan.nodes_forall (fun p hp hchildren => ?_) (planned_planNode h)
  rw [estimateCost_eq_plannedCost hpages hchildren, hp.cost]

end

attribute [local instance] exactArithmetic

section Exact

variable [Logarithm]

/-! ### Sane annotations -/

/-- No component of a cost is negative. -/
structure Cost.Nonneg (c : Cost ℚ) : Prop where
  cpu : 0 ≤ c.cpu
  io : 0 ≤ c.io
  memory : 0 ≤ c.memory

namespace Cost.Nonneg

theorem add {a b : Cost ℚ} (ha : a.Nonneg) (hb : b.Nonneg) : (a + b).Nonneg :=
  ⟨add_nonneg ha.cpu hb.cpu, add_nonneg ha.io hb.io, add_nonneg ha.memory hb.memory⟩

theorem total {c : Cost ℚ} (h : c.Nonneg) : 0 ≤ c.total :=
  add_nonneg (add_nonneg h.cpu h.io) h.memory

theorem spillPenalty (rows : Nat) : 0 ≤ (Cost.spillPenalty rows : ℚ) := by
  rw [spillPenalty_eq]
  exact le_max_left _ _

theorem seqScan (rows : Nat) (pages : ℚ) : (Cost.seqScan rows pages).Nonneg where
  cpu := by
    show 0 ≤ (rows : ℚ) * (1 / 100)
    positivity
  io := by
    show 0 ≤ maxNum 1 pages * 1
    rw [maxNum_eq]
    positivity
  memory := le_rfl

theorem indexScan (rows : Nat) : (Cost.indexScan rows : Cost ℚ).Nonneg where
  cpu := by
    show 0 ≤ (rows : ℚ) * (1 / 100 + 5 / 1000)
    positivity
  io := by
    show 0 ≤ (rows : ℚ) * 4
    positivity
  memory := le_rfl

theorem filter (rows : Nat) : (Cost.filter rows : Cost ℚ).Nonneg where
  cpu := by
    show 0 ≤ (rows : ℚ) * (1 / 100)
    positivity
  io := le_rfl
  memory := le_rfl

theorem nestedLoopJoin (l r : Nat) : (Cost.nestedLoopJoin l r : Cost ℚ).Nonneg where
  cpu := by
    show 0 ≤ (l : ℚ) * r * (1 / 100) * (1 / 100)
    positivity
  io := le_rfl
  memory := le_rfl

theorem hashJoin (l r : Nat) : (Cost.hashJoin l r : Cost ℚ).Nonneg where
  cpu := by
    show 0 ≤ ((min l r : Nat) : ℚ) * (2 / 100) + ((max l r : Nat) : ℚ) * (1 / 100)
    positivity
  io := spillPenalty _
  memory := by
    show 0 ≤ ((min l r : Nat) : ℚ) * (1 / 1000)
    positivity

theorem indexNestedLoopJoin (outer out : Nat) :
    (Cost.indexNestedLoopJoin outer out : Cost ℚ).Nonneg where
  cpu := by
    show 0 ≤ (outer : ℚ) * (1 / 100 + 5 / 1000) + out * (1 / 100)
    positivity
  io := by
    show 0 ≤ (outer : ℚ) * 4
    positivity
  memory := le_rfl

theorem hashAggregate (rows groups : Nat) : (Cost.hashAggregate rows groups : Cost ℚ).Nonneg where
  cpu := by
    show 0 ≤ (rows : ℚ) * (2 / 100)
    positivity
  io := spillPenalty _
  memory := by
    show 0 ≤ (groups : ℚ) * (1 / 1000)
    positivity

theorem project (rows : Nat) : (Cost.project rows : Cost ℚ).Nonneg where
  cpu := by
    show 0 ≤ (rows : ℚ) * (1 / 100) * (1 / 10)
    positivity
  io := le_rfl
  memory := le_rfl

/-- A sort takes the logarithm of a number that is at least one. -/
theorem sort (hlog : ∀ q : ℚ, 1 ≤ q → 0 ≤ Logarithm.log2 q) (rows : Nat) :
    (Cost.sort rows : Cost ℚ).Nonneg where
  cpu := by
    have hone : (1 : ℚ) ≤ (max rows 1 : Nat) := Nat.one_le_cast.mpr (le_max_right rows 1)
    have hlog := hlog _ hone
    show 0 ≤ ((max rows 1 : Nat) : ℚ) * Logarithm.log2 (max rows 1 : Nat) * (1 / 100)
    positivity
  io := spillPenalty _
  memory := by
    show 0 ≤ ((max rows 1 : Nat) : ℚ) * (1 / 1000)
    positivity

theorem limit (rows : Nat) : (Cost.limit rows : Cost ℚ).Nonneg where
  cpu := by
    show 0 ≤ (rows : ℚ) * (1 / 100) * (1 / 100)
    positivity
  io := le_rfl
  memory := le_rfl

end Cost.Nonneg

theorem one_le_estimatedRows {rows : Nat} (h : EstimatedRows ℚ rows) : 1 ≤ rows := by
  rcases h with ⟨estimate, rfl⟩ | ⟨input, rfl⟩
  · show 1 ≤ (⌊maxNum 1 (CostNum.round estimate)⌋).toNat
    rw [maxNum_eq]
    have hone : (1 : ℤ) ≤ ⌊max 1 (CostNum.round estimate)⌋ := Int.le_floor.mpr (le_max_left _ _)
    omega
  · exact le_max_right _ _

/-- The annotation of a node is sane: it has a row, no negative cost, and costs no less than each
input that it runs. -/
structure Sane (p : PhysicalPlan ℚ) : Prop where
  rows : 1 ≤ p.estimatedRows
  cost : p.estimatedCost.Nonneg
  children : ∀ c ∈ p.executedChildren, c.total ≤ p.total

/-- A node that adds its own cost to that of its one input. -/
theorem Sane.over {p input : PhysicalPlan ℚ} {c : Cost ℚ} (h : Sane input) (hc : c.Nonneg)
    (hrows : 1 ≤ p.estimatedRows) (hchildren : p.executedChildren = [input])
    (hcost : p.estimatedCost = input.estimatedCost + c) : Sane p where
  rows := hrows
  cost := hcost ▸ h.cost.add hc
  children := by
    rw [hchildren, List.forall_mem_singleton, PhysicalPlan.total, PhysicalPlan.total, hcost,
      Cost.total_add]
    exact le_add_of_nonneg_right hc.total

/-- The inner side of a nested loop runs at least once, as the outer side has a row. -/
theorem sane_join {ann : Annotation ℚ} {kind : JoinKind} {joinType : JoinType}
    {condition : Expression} {left right : PhysicalPlan ℚ} (hl : Sane left) (hr : Sane right)
    (hrows : 1 ≤ ann.rows) (hcost : ann.cost = joinCost kind left right ann.rows) :
    Sane (.join ann kind joinType condition left right) := by
  cases kind with
  | nestedLoopJoin =>
    have hone : (1 : ℚ) ≤ left.estimatedRows := Nat.one_le_cast.mpr hl.rows
    have hlt : 0 ≤ left.total := hl.cost.total
    have hrt : 0 ≤ right.total := hr.cost.total
    have hloops : right.total ≤ left.estimatedRows * right.total := le_mul_of_one_le_left hrt hone
    have hpairs : (0 : ℚ) ≤ left.estimatedRows * right.estimatedRows / 10000 := by positivity
    refine ⟨hrows, ?_, ?_⟩
    · show ann.cost.Nonneg
      rw [hcost]
      refine Cost.Nonneg.add ⟨?_, hl.cost.io, hl.cost.memory⟩ (.nestedLoopJoin _ _)
      exact add_nonneg hl.cost.cpu (hrt.trans hloops)
    · have htotal : ann.cost.total = left.total + left.estimatedRows * right.total +
          left.estimatedRows * right.estimatedRows / 10000 := by
        rw [hcost]
        exact total_nestedLoopCost left right
      refine List.forall_mem_cons.mpr ⟨?_, List.forall_mem_singleton.mpr ?_⟩
      · show left.total ≤ ann.cost.total
        rw [htotal]
        linarith
      · show right.total ≤ ann.cost.total
        rw [htotal]
        linarith
  | hashJoin =>
    have hown : (Cost.hashJoin left.estimatedRows right.estimatedRows : Cost ℚ).Nonneg :=
      .hashJoin _ _
    have hlt : 0 ≤ left.total := hl.cost.total
    have hrt : 0 ≤ right.total := hr.cost.total
    have htotal : ann.cost.total = left.total + right.total +
        (Cost.hashJoin left.estimatedRows right.estimatedRows : Cost ℚ).total := by
      rw [hcost, joinCost, Cost.total_add, Cost.total_add]
      rfl
    refine ⟨hrows, ?_, ?_⟩
    · show ann.cost.Nonneg
      rw [hcost]
      exact (hl.cost.add hr.cost).add hown
    · refine List.forall_mem_cons.mpr ⟨?_, List.forall_mem_singleton.mpr ?_⟩
      · show left.total ≤ ann.cost.total
        rw [htotal]
        linarith [hown.total]
      · show right.total ≤ ann.cost.total
        rw [htotal]
        linarith [hown.total]
  | indexNestedLoopJoin => exact hl.over (.indexNestedLoopJoin _ _) hrows rfl hcost

/-- One node: the planner's annotation over sane inputs is sane. -/
theorem sane_of_planned (hlog : ∀ q : ℚ, 1 ≤ q → 0 ≤ Logarithm.log2 q)
    {stats : StatisticsCatalog ℚ} {p : PhysicalPlan ℚ} (hp : PlannedNode stats p)
    (h : ∀ c ∈ p.children, Sane c) : Sane p := by
  have hrows := one_le_estimatedRows hp.rows
  have hcost := hp.cost
  cases p with
  | seqScan => exact ⟨hrows, hcost ▸ .seqScan _ _, fun _ hc => nomatch hc⟩
  | indexScan => exact ⟨hrows, hcost ▸ .indexScan _, fun _ hc => nomatch hc⟩
  | externalRows => exact ⟨hrows, hcost ▸ ⟨le_rfl, le_rfl, le_rfl⟩, fun _ hc => nomatch hc⟩
  | join ann kind joinType condition left right =>
    obtain ⟨hl, hr⟩ := List.forall_mem_cons.mp h
    exact sane_join hl (List.forall_mem_singleton.mp hr) hrows hcost
  | filter ann predicate input =>
    exact (List.forall_mem_singleton.mp h).over (.filter _) hrows rfl hcost
  | hashAggregate ann groupBy aggregates input =>
    exact (List.forall_mem_singleton.mp h).over (.hashAggregate _ _) hrows rfl hcost
  | project ann expressions input =>
    exact (List.forall_mem_singleton.mp h).over (.project _) hrows rfl hcost
  | sort ann orderBy input =>
    exact (List.forall_mem_singleton.mp h).over (.sort hlog _) hrows rfl hcost
  | limit ann count input =>
    exact (List.forall_mem_singleton.mp h).over (.limit _) hrows rfl hcost

/-- Whatever the statistics say, even negative row counts, every node of a plan is sane. -/
theorem generatePhysicalPlan_sane (hlog : ∀ q : ℚ, 1 ≤ q → 0 ≤ Logarithm.log2 q)
    (logical : LogicalPlan) (catalog : Catalog) (stats : StatisticsCatalog ℚ)
    (plan : PhysicalPlan ℚ) (h : generatePhysicalPlan logical catalog stats = .ok plan) :
    ∀ p ∈ plan.nodes, Sane p :=
  PhysicalPlan.nodes_forall (fun _ => sane_of_planned hlog) (planned_planNode h)

end Exact

/-! ### A sorted outer join -/

/-- `users u LEFT JOIN orders o ON u.id = o.user_id ORDER BY u.id` -/
def usersByOrder : LogicalPlan :=
  .sort [⟨.column (some "u") "id", true⟩] (.join .left
    (.binaryOp (.column (some "u") "id") .eq (.column (some "o") "user_id"))
    (.scan "users" (some "u") []) (.scan "orders" (some "o") []))

/-- A table with a negative row count and no page count. -/
def withoutPages : StatisticsCatalog ℚ := (∅ : StatisticsCatalog ℚ).insert "users" ⟨-5, 0, ∅⟩

/-- The logarithm rounded down. -/
local instance floorLog : Logarithm := ⟨fun q => Nat.log 2 ⌊q⌋.toNat⟩

theorem estimateCost_generatePhysicalPlan_usersByOrder :
    ∃ plan, generatePhysicalPlan usersByOrder ∅ withoutPages = .ok plan ∧
      ∀ p ∈ plan.nodes, estimateCost p = p.estimatedCost := by
  refine ⟨_, rfl, estimateCost_generatePhysicalPlan usersByOrder ∅ withoutPages _ ?_ rfl⟩
  intro t s hs
  by_cases ht : t = "users"
  · subst ht
    cases (AList.lookup_insert _).symm.trans hs
    rfl
  · rw [StatisticsCatalog.get, withoutPages, AList.lookup_insert_ne ht] at hs
    cases hs

theorem generatePhysicalPlan_sane_usersByOrder :
    ∃ plan, generatePhysicalPlan usersByOrder ∅ withoutPages = .ok plan ∧
      ∀ p ∈ plan.nodes, Sane p :=
  ⟨_, rfl, generatePhysicalPlan_sane (fun _ _ => Nat.cast_nonneg _) usersByOrder ∅ withoutPages _
    rfl⟩

end SqlOptimizer
