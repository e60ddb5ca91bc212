import SqlOptimizer.Logical.ReorderConditions
import SqlOptimizer.Physical.HashJoins

/-! The subtrees of scans, filters and joins through the planner: which scans the physical plan of
one reads, and that each of its rows puts one row of each of them side by side. -/

namespace SqlOptimizer

/-! ### Logical plans -/

namespace LogicalPlan

/-- Scans, filters and joins only. -/
def joinTree : LogicalPlan → Bool
  | .scan _ _ _ => true
  | .filter _ input => input.joinTree
  | .join _ _ left right => left.joinTree && right.joinTree
  | _ => false

theorem joinTree_eq_all (p : LogicalPlan) : p.joinTree = (joinLeaves p).all joinTree := by
  induction p with
  | join joinType c l r ihl ihr => rw [joinTree, joinLeaves, List.all_append, ihl, ihr]
  | _ => simp [joinLeaves]

theorem joinTree_wrapFilters (p : LogicalPlan) (fs : List Expression) :
    (wrapFilters p fs).joinTree = p.joinTree := by
  induction fs generalizing p with
  | nil => rfl
  | cons f fs ih => exact ih _

theorem joinTree_pushPredicates (p : LogicalPlan) : (pushPredicates p).joinTree = p.joinTree := by
  induction p with
  | filter predicate input ih =>
    obtain ⟨joinType, condition, left, right, hinput, heq⟩ | heq :=
      pushPredicates_filter predicate input
    · rw [hinput] at ih
      rw [heq, pushIntoJoin, joinTree_wrapFilters]
      show ((wrapFilters left _).joinTree && (wrapFilters right _).joinTree) = _
      rw [joinTree_wrapFilters, joinTree_wrapFilters]
      exact ih
    · rw [heq]
      exact ih
  | join joinType condition left right ihl ihr =>
    rw [pushPredicates, joinTree, joinTree, ihl, ihr]
  | scan => rfl
  | _ => rfl

theorem joinTree_pushProjections (p : LogicalPlan) (needed : List String) :
    (pushProjections p needed).joinTree = p.joinTree := by
  induction p generalizing needed with
  | join joinType condition left right ihl ihr =>
    rw [pushProjections]
    exact congrArg₂ _ (ihl _) (ihr _)
  | filter predicate input ih => exact ih _
  | _ => rfl

theorem joinTree_reorderJoins (catalog : Catalog) (p : LogicalPlan) :
    (reorderJoins catalog p).joinTree = p.joinTree := by
  induction p with
  | join joinType c l r ihl ihr =>
    have hall : ∀ q : LogicalPlan, (reorderJoins catalog q).joinTree = q.joinTree →
        ((joinLeaves q).map (reorderJoins catalog)).all joinTree = q.joinTree := by
      intro q hq
      rw [← hq, joinTree_eq_all (reorderJoins catalog q)]
      exact ((joinLeaves_reorderJoins catalog q).all_eq).symm
    rw [joinTree_eq_all, (joinLeaves_reorderJoins catalog _).all_eq, joinLeaves, List.map_append,
      List.all_append, hall l ihl, hall r ihr, joinTree]
  | filter predicate input ih => exact ih
  | _ => rfl

/-- How many relations each join search is over: one search for each largest tree of inner joins. -/
def searches : LogicalPlan → List Nat
  | .scan _ _ _ => []
  | .filter _ input | .aggregate _ _ input | .project _ input | .sort _ input
  | .limit _ input => input.searches
  | .join joinType condition left right =>
    if (LogicalPlan.join joinType condition left right).allInner then
      [left.scans.length + right.scans.length]
    else left.searches ++ right.searches

theorem searches_le (p : LogicalPlan) : ∀ k ∈ p.searches, k ≤ p.scans.length := by
  induction p with
  | scan => nofun
  | join joinType condition left right ihl ihr =>
    intro k hk
    rw [searches] at hk
    rw [scans, List.length_append]
    split at hk
    · exact (List.mem_singleton.mp hk).le
    · rcases List.mem_append.mp hk with hk | hk
      · exact (ihl k hk).trans (Nat.le_add_right _ _)
      · exact (ihr k hk).trans (Nat.le_add_left _ _)
  | _ => assumption

theorem searches_of_candidate {node : LogicalPlan} (h : isJoinSearchCandidate node = true) :
    node.searches = [node.scans.length] := by
  induction node with
  | filter predicate input ih => exact ih h
  | join joinType condition left right =>
    have hinner : (LogicalPlan.join joinType condition left right).allInner = true := h
    rw [searches, if_pos hinner, scans, List.length_append]
  | _ => cases h

theorem allInner_pushProjections (p : LogicalPlan) (needed : List String) :
    (pushProjections p needed).allInner = p.allInner := by
  induction p generalizing needed with
  | join joinType condition left right ihl ihr =>
    rw [pushProjections, allInner, allInner, ihl, ihr]
  | _ => rfl

theorem searches_pushProjections (p : LogicalPlan) (needed : List String) :
    (pushProjections p needed).searches = p.searches := by
  induction p generalizing needed with
  | scan => rfl
  | join joinType condition left right ihl ihr =>
    have hinner := allInner_pushProjections (.join joinType condition left right) needed
    simp only [pushProjections] at hinner ⊢
    rw [searches, searches, hinner, ihl, ihr, scans_pushProjections, scans_pushProjections]
  | filter _ _ ih | aggregate _ _ _ ih | project _ _ ih | sort _ _ ih | limit _ _ ih => exact ih _

theorem allInner_of_reorderJoins {catalog : Catalog} {p : LogicalPlan}
    (h : (reorderJoins catalog p).allInner = true) : p.allInner = true := by
  induction p with
  | join joinType condition left right ihl ihr =>
    rw [reorderJoins] at h
    by_cases hinner : (LogicalPlan.join joinType condition (reorderJoins catalog left)
        (reorderJoins catalog right)).allInner = true
    · simp only [allInner, Bool.and_eq_true] at hinner ⊢
      exact ⟨⟨hinner.1.1, ihl hinner.1.2⟩, ihr hinner.2⟩
    · rw [reorderTree, if_neg hinner] at h
      exact absurd h hinner
  | _ => rfl

/-- A tree with an outer join stays as it is over its inputs. -/
theorem reorderJoins_outer (catalog : Catalog) {joinType : JoinType} {condition : Expression}
    {left right : LogicalPlan} (h : (join joinType condition left right).allInner = false) :
    reorderJoins catalog (.join joinType condition left right) =
        .join joinType condition (reorderJoins catalog left) (reorderJoins catalog right) ∧
      (join joinType condition (reorderJoins catalog left)
        (reorderJoins catalog right)).allInner = false := by
  have houter : (join joinType condition (reorderJoins catalog left)
      (reorderJoins catalog right)).allInner = false := by
    rw [← Bool.not_eq_true] at h ⊢
    refine mt (fun hinner => ?_) h
    simp only [allInner, Bool.and_eq_true] at hinner ⊢
    exact ⟨⟨hinner.1.1, allInner_of_reorderJoins hinner.1.2⟩, allInner_of_reorderJoins hinner.2⟩
  refine ⟨?_, houter⟩
  rw [reorderJoins, reorderTree, houter]
  rfl

/-- Reordering does not make a search larger. -/
theorem searches_reorderJoins (catalog : Catalog) (p : LogicalPlan) :
    ∀ k ∈ (reorderJoins catalog p).searches, ∃ m ∈ p.searches, k ≤ m := by
  induction p with
  | scan => nofun
  | join joinType condition left right ihl ihr =>
    intro k hk
    cases hall : (join joinType condition left right).allInner with
    | true =>
      have hle := searches_le _ k hk
      rw [(scans_reorderJoins catalog _).length_eq, scans, List.length_append] at hle
      exact ⟨_, by rw [searches, if_pos hall]; exact List.mem_singleton_self _, hle⟩
    | false =>
      obtain ⟨heq, houter⟩ := reorderJoins_outer catalog hall
      rw [heq, searches, houter, if_neg (by simp), List.mem_append] at hk
      rw [searches, hall, if_neg (by simp)]
      rcases hk with hk | hk
      · obtain ⟨m, hm, hle⟩ := ihl k hk
        exact ⟨m, List.mem_append_left _ hm, hle⟩
      · obtain ⟨m, hm, hle⟩ := ihr k hk
        exact ⟨m, List.mem_append_right _ hm, hle⟩
  | _ => assumption

theorem searches_join_eq_nil {joinType : JoinType} {condition : Expression}
    {left right : LogicalPlan} : (join joinType condition left right).searches = [] ↔
      (join joinType condition left right).allInner = false ∧ left.searches = [] ∧
        right.searches = [] := by
  rw [searches]
  split
  · next h => simp [h]
  · next h => simp [h]

/-- Without a search, the scans stay in their order. -/
theorem scans_reorderJoins_of_outer (catalog : Catalog) {p : LogicalPlan} (h : p.searches = []) :
    (reorderJoins catalog p).scans = p.scans := by
  induction p with
  | scan => rfl
  | join joinType condition left right ihl ihr =>
    obtain ⟨hall, hl, hr⟩ := searches_join_eq_nil.mp h
    rw [(reorderJoins_outer catalog hall).1, scans, scans, ihl hl, ihr hr]
  | filter _ _ ih | aggregate _ _ _ ih | project _ _ ih | sort _ _ ih | limit _ _ ih => exact ih h

end LogicalPlan

/-! ### Physical plans -/

namespace PhysicalPlan

variable {R : Type}

def joinTree : PhysicalPlan R → Bool
  | .seqScan _ _ _ _ | .indexScan _ _ _ _ _ _ => true
  | .filter _ _ input => input.joinTree
  | .join _ _ _ _ left right => left.joinTree && right.joinTree
  | _ => false

/-- The scans of a plan, left to right: the table and its alias. -/
def scans : PhysicalPlan R → List (String × Option String)
  | .seqScan _ tableName aliasName _ | .indexScan _ tableName aliasName _ _ _ =>
    [(tableName, aliasName)]
  | .externalRows _ _ _ _ _ _ => []
  | .filter _ _ input | .hashAggregate _ _ _ input | .project _ _ input | .sort _ _ input
  | .limit _ _ input => input.scans
  | .join _ _ _ _ left right => left.scans ++ right.scans

end PhysicalPlan

section Planner

variable {R : Type} [CostNum R] {catalog : Catalog} {stats : StatisticsCatalog R}

/-- A join tree over these scans. -/
def Reads (plan : PhysicalPlan R) (scans : List (String × Option String)) : Prop :=
  plan.joinTree = true ∧ plan.scans = scans

omit [CostNum R] in
theorem Reads.filter {plan : PhysicalPlan R} {scans : List (String × Option String)}
    (h : Reads plan scans) (ann : Annotation R) (p : Expression) :
    Reads (.filter ann p plan) scans := h

omit [CostNum R] in
theorem Reads.join {l r : PhysicalPlan R} {ls rs : List (String × Option String)}
    (hl : Reads l ls) (hr : Reads r rs) (ann : Annotation R) (kind : JoinKind)
    (joinType : JoinType) (c : Expression) :
    Reads (.join ann kind joinType c l r) (ls ++ rs) := by
  obtain ⟨hl, rfl⟩ := hl
  obtain ⟨hr, rfl⟩ := hr
  exact ⟨by rw [PhysicalPlan.joinTree, hl, hr]; rfl, rfl⟩

theorem Reads.addResiduals {scans : List (String × Option String)} (ps : List Expression)
    {plan : PhysicalPlan R} (h : Reads plan scans) : Reads (ps.foldl addResidual plan) scans := by
  induction ps generalizing plan with
  | nil => exact h
  | cons p ps ih => exact ih (h.filter _ _)

theorem reads_bestAccessPath (rel : Relation) :
    Reads (bestAccessPath catalog stats rel) [(rel.tableName, rel.aliasName)] := by
  have hseq : ∀ ann : Annotation R, Reads (.seqScan ann rel.tableName rel.aliasName [])
      [(rel.tableName, rel.aliasName)] := fun _ => ⟨rfl, rfl⟩
  have hindex : ∀ (ann : Annotation R) c l,
      Reads (.indexScan ann rel.tableName rel.aliasName [] c l)
        [(rel.tableName, rel.aliasName)] := fun _ _ _ => ⟨rfl, rfl⟩
  exact bestAccessPath_forall (P := fun plan => Reads plan [(rel.tableName, rel.aliasName)])
    (fun _ _ _ _ => hseq _) (fun _ _ _ _ _ => hindex _ _ _) fun _ _ _ h => h.filter _ _

omit [CostNum R] in
/-- The tree of a search reads the scans in its order. -/
theorem JoinedBy.reads {path : Nat → Option (PhysicalPlan R)} {edges : List JoinEdge}
    {scanAt : Nat → String × Option String}
    (hpath : ∀ i p, path i = some p → Reads p [scanAt i]) {π used : List Nat}
    {plan : PhysicalPlan R} (h : JoinedBy path edges π used plan) :
    Reads plan (π.map scanAt) := by
  induction h with
  | leaf hp => exact hpath _ _ hp
  | last hp hq hr hk hl hf ih =>
    rw [List.map_append]
    exact ih.join (hpath _ _ hq) _ _ _ _
  | first hp hq hr hk hl hf ih => exact (hpath _ _ hq).join ih _ _ _ _

theorem reads_planJoinSearch {node : LogicalPlan} {plan : PhysicalPlan R}
    (hwidth : node.scans.length ≤ 64) (h : planJoinSearch catalog stats node = .ok plan) :
    ∃ scans, Reads plan scans ∧ scans.Perm node.scans := by
  obtain ⟨π, used, best, hj, hπ, rfl⟩ := planJoinSearch_joinedBy hwidth h
  have hpath : ∀ i p, pathOf catalog stats node.joinGraph i = some p →
      Reads p [node.scanAt i] := by
    intro i p hp
    obtain ⟨rel, hrel, rfl⟩ := Option.map_eq_some_iff.mp hp
    obtain ⟨base, hbase, rfl⟩ : ∃ base, (baseRelations node)[i]? = some base ∧
        withLocals (baseRelations node) node.conjuncts base = rel := by
      simpa [LogicalPlan.joinGraph, List.getElem?_map, Option.map_eq_some_iff] using hrel
    have hlt : i < node.scans.length := by
      have hlen := (List.getElem?_eq_some_iff.mp hbase).1
      simpa [baseRelations] using hlen
    rw [baseRelations_getElem? hlt] at hbase
    cases hbase
    exact reads_bestAccessPath _
  refine ⟨_, (hj.reads hpath).addResiduals _, ?_⟩
  rw [scans_eq_map]
  exact hπ.map _

theorem reads_indexScanOf {predicate : Expression} {input : LogicalPlan} {plan : PhysicalPlan R}
    (h : indexScanOf catalog stats predicate input = some plan) : Reads plan input.scans := by
  cases input with
  | scan tableName aliasName columns =>
    obtain ⟨rows, reasoning, confidence, t, column, lit, -, rfl⟩ := tryIndexScan_eq_some h
    exact ⟨rfl, rfl⟩
  | _ => cases h

theorem reads_candidate {node : LogicalPlan} (hcandidate : isJoinSearchCandidate node = true)
    (hfit : ∀ k ∈ node.searches, k ≤ 64) {plan : PhysicalPlan R}
    (h : planJoinSearch catalog stats node = .ok plan) :
    ∃ scans, Reads plan scans ∧ scans.Perm node.scans ∧
      (node.searches = [] → scans = node.scans) := by
  rw [LogicalPlan.searches_of_candidate hcandidate] at hfit ⊢
  obtain ⟨scans, hreads, hperm⟩ := reads_planJoinSearch (hfit _ (List.mem_singleton_self _)) h
  exact ⟨scans, hreads, hperm, nofun⟩

/-- The physical plan of a join tree is one over the same scans, in the order that the searches
pick. -/
theorem reads_planNode {node : LogicalPlan} (htree : node.joinTree = true)
    (hfit : ∀ k ∈ node.searches, k ≤ 64) {plan : PhysicalPlan R}
    (h : planNode catalog stats node = .ok plan) :
    ∃ scans, Reads plan scans ∧ scans.Perm node.scans ∧
      (node.searches = [] → scans = node.scans) := by
  induction node generalizing plan with
  | scan tableName aliasName columns =>
    cases h
    exact ⟨_, ⟨rfl, rfl⟩, .refl _, fun _ => rfl⟩
  | filter predicate input ih =>
    unfold planNode at h
    split at h
    case isTrue hcandidate => exact reads_candidate hcandidate hfit h
    case isFalse =>
      dsimp only at h
      split at h
      case h_1 hindex =>
        cases h
        exact ⟨_, reads_indexScanOf hindex, .refl _, fun _ => rfl⟩
      case h_2 =>
        obtain ⟨inner, hinner, h⟩ := Except.bind_eq_ok.mp h
        cases h
        obtain ⟨scans, hreads, hperm⟩ := ih htree hfit hinner
        exact ⟨scans, hreads.filter _ _, hperm⟩
  | join joinType condition left right ihl ihr =>
    unfold planNode at h
    split at h
    case isTrue hcandidate => exact reads_candidate hcandidate hfit h
    case isFalse hcandidate =>
      have houter : (LogicalPlan.join joinType condition left right).allInner = false :=
        Bool.not_eq_true _ ▸ hcandidate
      obtain ⟨l, hl, h⟩ := Except.bind_eq_ok.mp h
      obtain ⟨r, hr, h⟩ := Except.bind_eq_ok.mp h
      cases h
      rw [LogicalPlan.joinTree, Bool.and_eq_true] at htree
      rw [LogicalPlan.searches, houter, if_neg (by simp)] at hfit ⊢
      obtain ⟨ls, hreadsl, hperml, hordl⟩ :=
        ihl htree.1 (fun k hk => hfit k (List.mem_append_left _ hk)) hl
      obtain ⟨rs, hreadsr, hpermr, hordr⟩ :=
        ihr htree.2 (fun k hk => hfit k (List.mem_append_right _ hk)) hr
      refine ⟨ls ++ rs, ?_, hperml.append hpermr, fun hnone => ?_⟩
      · obtain ⟨ann, kind, hplan, -⟩ := chooseJoinStrategy_eq stats joinType condition l r
          left right
        rw [hplan]
        exact hreadsl.join hreadsr _ _ _ _
      · obtain ⟨hnonel, hnoner⟩ := List.append_eq_nil_iff.mp hnone
        rw [hordl hnonel, hordr hnoner, LogicalPlan.scans]
  | _ => cases htree

/-- The physical plan of a join tree is a join tree, whatever the number of its scans. -/
theorem joinTree_findBestPlan {g : JoinGraph} {plan : PhysicalPlan R}
    (h : findBestPlan catalog stats g = .ok plan) : plan.joinTree = true := by
  refine findBestPlan_forall (P := fun p => p.joinTree = true)
    (fun rel => (reads_bestAccessPath rel).1) (fun ann kind condition outer inner _ ho hi => ?_) h
  rw [PhysicalPlan.joinTree, ho, hi]
  rfl

theorem joinTree_planJoinSearch {node : LogicalPlan} {plan : PhysicalPlan R}
    (h : planJoinSearch catalog stats node = .ok plan) : plan.joinTree = true := by
  obtain ⟨extraction, -, h⟩ := Except.bind_eq_ok.mp h
  obtain ⟨best, hbest, h⟩ := Except.bind_eq_ok.mp h
  cases h
  have hreads : Reads best best.scans := ⟨joinTree_findBestPlan hbest, rfl⟩
  exact (hreads.addResiduals extraction.residualFilters).1

theorem joinTree_planNode {node : LogicalPlan} (htree : node.joinTree = true)
    {plan : PhysicalPlan R} (h : planNode catalog stats node = .ok plan) :
    plan.joinTree = true := by
  induction node generalizing plan with
  | scan tableName aliasName columns =>
    cases h
    rfl
  | filter predicate input ih =>
    unfold planNode at h
    split at h
    case isTrue => exact joinTree_planJoinSearch h
    case isFalse =>
      dsimp only at h
      split at h
      case h_1 hindex =>
        cases h
        exact (reads_indexScanOf hindex).1
      case h_2 =>
        obtain ⟨inner, hinner, h⟩ := Except.bind_eq_ok.mp h
        cases h
        show inner.joinTree = true
        exact ih htree hinner
  | join joinType condition left right ihl ihr =>
    unfold planNode at h
    split at h
    case isTrue => exact joinTree_planJoinSearch h
    case isFalse =>
      obtain ⟨l, hl, h⟩ := Except.bind_eq_ok.mp h
      obtain ⟨r, hr, h⟩ := Except.bind_eq_ok.mp h
      cases h
      rw [LogicalPlan.joinTree, Bool.and_eq_true] at htree
      obtain ⟨ann, kind, hplan, -⟩ := chooseJoinStrategy_eq stats joinType condition l r
        left right
      rw [hplan, PhysicalPlan.joinTree, ihl htree.1 hl, ihr htree.2 hr]
      rfl
  | _ => cases htree

end Planner

/-! ### Rows -/

section Rows

variable {db : Database} {sets : ExternalRowSets}

/-- The columns of some scans, side by side. -/
def scansSchema (db : Database) (scans : List (String × Option String)) : RowSchema :=
  ⟨scans.flatMap fun s => (scanSchema (scanIdent s) (scanTable db s).columnNames).entries, []⟩

/-- One row of each scan, side by side. -/
def SideBySide (db : Database) (scans : List (String × Option String)) (row : Row) : Prop :=
  ∃ parts, List.Forall₂ (fun s part => part ∈ (scanTable db s).rows) scans parts ∧
    row = parts.flatten

theorem sideBySide_singleton {s : String × Option String} {row : Row}
    (h : row ∈ (scanTable db s).rows) : SideBySide db [s] row :=
  ⟨[row], .cons h .nil, by simp⟩

theorem SideBySide.append {ls rs : List (String × Option String)} {l r : Row}
    (hl : SideBySide db ls l) (hr : SideBySide db rs r) : SideBySide db (ls ++ rs) (l ++ r) := by
  obtain ⟨lparts, hl, rfl⟩ := hl
  obtain ⟨rparts, hr, rfl⟩ := hr
  exact ⟨lparts ++ rparts, List.rel_append hl hr, by rw [List.flatten_append]⟩

theorem scanTable_of_loaded {tableName : String} (aliasName : Option String) {table : Table}
    (h : loadedTable db tableName = .ok table) : scanTable db (tableName, aliasName) = table := by
  unfold loadedTable at h
  unfold scanTable
  split at h
  case h_1 t ht =>
    cases h
    simp [ht]
  case h_2 => cases h

variable [Rounding]

theorem mem_nestedLoopRows {condition : Expression} {schema : RowSchema} {left : Drain String Row}
    {right : List Row} {row : Row} (h : row ∈ (nestedLoopRows condition schema left right).rows) :
    ∃ l ∈ left.rows, ∃ r ∈ right, row = l ++ r := by
  obtain ⟨l, hl, bs, hbs, hrow⟩ := Drain.mem_flatMap (Drain.mem_filter h)
  cases hbs
  obtain ⟨r, hr, rfl⟩ := List.mem_map.mp hrow
  exact ⟨l, hl, r, hr, rfl⟩

theorem mem_hashJoinRows {rightKey leftKey : Expression} {rs ls : RowSchema}
    {build : List (String × Row)} {left : Drain String Row} {right : List Row} {row : Row}
    (hbuild : hashBuild rightKey rs right = .ok build)
    (h : row ∈ (hashJoinRows leftKey ls build left).rows) :
    ∃ l ∈ left.rows, ∃ r ∈ right, row = l ++ r := by
  obtain ⟨l, hl, bs, hbs, hrow⟩ := Drain.mem_flatMap h
  obtain ⟨key, -, hbs⟩ := Except.bind_eq_ok.mp hbs
  cases hbs
  obtain ⟨kr, hkr, rfl⟩ := List.mem_map.mp hrow
  obtain ⟨r, hr, hkey⟩ := Except.exists_of_mem_mapM hbuild (List.mem_of_mem_filter hkr)
  obtain ⟨v, -, hkey⟩ := Except.bind_eq_ok.mp hkey
  cases hkey
  exact ⟨l, hl, r, hr, rfl⟩

/-- The columns and the rows of a join tree. -/
theorem Reads.rows {R : Type} {plan : PhysicalPlan R} {scans : List (String × Option String)}
    (h : Reads plan scans) {e : Executor} (hbuild : buildExecutor plan db sets = .ok e) :
    e.schema = scansSchema db scans ∧
      ∀ d, e.drain = .ok d → ∀ row ∈ d.rows, SideBySide db scans row := by
  obtain ⟨htree, rfl⟩ := h
  induction plan generalizing e with
  | seqScan ann tableName aliasName columns =>
    obtain ⟨table, htable, hbuild⟩ := Except.bind_eq_ok.mp hbuild
    cases hbuild
    have hscan := scanTable_of_loaded aliasName htable
    constructor
    · simp [Executor.schema, scansSchema, PhysicalPlan.scans, hscan, scanIdent, scanSchema]
    · rintro d hd row hrow
      cases hd
      exact sideBySide_singleton (by rwa [hscan])
  | indexScan ann tableName aliasName columns indexColumn probe =>
    obtain ⟨table, htable, hbuild⟩ := Except.bind_eq_ok.mp hbuild
    cases hbuild
    have hscan := scanTable_of_loaded aliasName htable
    constructor
    · simp [Executor.schema, scansSchema, PhysicalPlan.scans, hscan, scanIdent, scanSchema]
    · intro d hd row hrow
      obtain ⟨probeValue, -, hd⟩ := Except.bind_eq_ok.mp hd
      split at hd
      · cases hd
      · cases hd
        exact sideBySide_singleton (by rw [hscan]; exact Drain.mem_filter hrow)
  | filter ann predicate input ih =>
    obtain ⟨i, hi, hbuild⟩ := Except.bind_eq_ok.mp hbuild
    cases hbuild
    obtain ⟨hschema, hrows⟩ := ih hi htree
    refine ⟨hschema, fun d hd row hrow => ?_⟩
    rw [Executor.drain] at hd
    obtain ⟨di, hdi, hd⟩ := Except.bind_eq_ok.mp hd
    cases hd
    exact hrows di hdi row (Drain.mem_filter hrow)
  | join ann kind joinType condition left right ihl ihr =>
    rw [PhysicalPlan.joinTree, Bool.and_eq_true] at htree
    obtain ⟨l, hl, hbuild⟩ := Except.bind_eq_ok.mp hbuild
    obtain ⟨r, hr, hbuild⟩ := Except.bind_eq_ok.mp hbuild
    obtain ⟨hls, hlrows⟩ := ihl hl htree.1
    obtain ⟨hrs, hrrows⟩ := ihr hr htree.2
    have hschema : l.schema.extend r.schema = scansSchema db (left.scans ++ right.scans) := by
      rw [hls, hrs]
      simp [scansSchema, RowSchema.extend]
    have hpair : ∀ {dl dr : Drain String Row}, l.drain = .ok dl → r.drain = .ok dr →
        ∀ {rows}, dr.collect = .ok rows → ∀ {row}, (∃ a ∈ dl.rows, ∃ b ∈ rows, row = a ++ b) →
          SideBySide db (left.scans ++ right.scans) row := by
      rintro dl dr hdl hdr rows hrows row ⟨a, ha, b, hb, rfl⟩
      rw [← (Drain.collect_eq_ok.mp hrows).1] at hb
      exact (hlrows dl hdl a ha).append (hrrows dr hdr b hb)
    cases kind with
    | nestedLoopJoin | indexNestedLoopJoin =>
      cases hbuild
      refine ⟨hschema, fun d hd row hrow => ?_⟩
      rw [Executor.drain] at hd
      obtain ⟨dl, hdl, hd⟩ := Except.bind_eq_ok.mp hd
      obtain ⟨dr, hdr, hd⟩ := Except.bind_eq_ok.mp hd
      obtain ⟨rows, hrows, hd⟩ := Except.bind_eq_ok.mp hd
      cases hd
      exact hpair hdl hdr hrows (mem_nestedLoopRows hrow)
    | hashJoin =>
      obtain ⟨keys, -, hbuild⟩ := Except.bind_eq_ok.mp hbuild
      cases hbuild
      refine ⟨hschema, fun d hd row hrow => ?_⟩
      rw [Executor.drain] at hd
      obtain ⟨dl, hdl, hd⟩ := Except.bind_eq_ok.mp hd
      obtain ⟨dr, hdr, hd⟩ := Except.bind_eq_ok.mp hd
      obtain ⟨rows, hrows, hd⟩ := Except.bind_eq_ok.mp hd
      obtain ⟨build, hbuild, hd⟩ := Except.bind_eq_ok.mp hd
      cases hd
      exact hpair hdl hdr hrows (mem_hashJoinRows hbuild hrow)
  | _ => cases htree

end Rows

end SqlOptimizer
