import SqlOptimizer.Library.Failure
import SqlOptimizer.Logical.Plan
import Mathlib.Data.List.Dedup

/-! `optimizer/join_graph.cpp`: the relations of a join subtree, and its predicates by the relations
that they mention. -/

namespace SqlOptimizer

/-- A base table of a join search and the predicates that mention no other table. -/
structure Relation where
  id : Nat
  tableName : String
  aliasName : Option String
  localFilters : List Expression

def Relation.ident (r : Relation) : String := r.aliasName.getD r.tableName

/-- A predicate that mentions exactly two relations. -/
structure JoinEdge where
  left : Nat
  right : Nat
  predicate : Expression

structure JoinGraph where
  relations : List Relation
  edges : List JoinEdge

/-- The first relation of that alias, or of that name when it has no alias. -/
def JoinGraph.findRelation (g : JoinGraph) (aliasOrName : String) : Option Nat :=
  (g.relations.find? fun r => r.ident == aliasOrName).map (·.id)

def isJoinSearchCandidate (node : LogicalPlan) : Bool :=
  match node.unwrapFilters with
  | .join joinType condition left right => (LogicalPlan.join joinType condition left right).allInner
  | _ => false

structure RawExtraction where
  relations : List Relation
  predicates : List Expression

/-- The scans of a subtree as relations, and the AND-conjuncts of its filters and joins. -/
def collect : LogicalPlan → RawExtraction → Except String RawExtraction
  | .scan tableName aliasName _, out =>
    .ok { out with relations := out.relations ++ [⟨out.relations.length, tableName, aliasName, []⟩] }
  | .filter predicate input, out =>
    collect input { out with predicates := out.predicates ++ splitAnd predicate }
  | .join _ condition left right, out => do
    let out ← collect left { out with predicates := out.predicates ++ splitAnd condition }
    collect right out
  | _, _ => .error "join_graph: unexpected node kind inside a join-search subtree"

/-- The relations that an expression mentions, or nothing when a column has no table or names one
that is not in the graph. -/
def referencedRelationIds (e : Expression) (g : JoinGraph) : Option (List Nat) :=
  Option.map List.dedup (e.columns.mapM fun (t, _) => Option.bind t g.findRelation)

structure JoinGraphExtraction where
  graph : JoinGraph
  residualFilters : List Expression

def JoinGraph.addLocalFilter (g : JoinGraph) (id : Nat) (pred : Expression) : JoinGraph :=
  { g with relations := g.relations.modify id fun r =>
      { r with localFilters := r.localFilters ++ [pred] } }

def JoinGraph.addEdge (g : JoinGraph) (a b : Nat) (pred : Expression) : JoinGraph :=
  { g with edges := g.edges ++ [⟨a, b, pred⟩] }

/-- One predicate goes to the relation that it mentions, to an edge, or to the residuals. -/
def classifyPredicate (ex : JoinGraphExtraction) (pred : Expression) : JoinGraphExtraction :=
  match referencedRelationIds pred ex.graph with
  | some [id] => { ex with graph := ex.graph.addLocalFilter id pred }
  | some [a, b] => { ex with graph := ex.graph.addEdge a b pred }
  | _ => { ex with residualFilters := ex.residualFilters ++ [pred] }

def buildJoinGraph (root : LogicalPlan) : Except String JoinGraphExtraction := do
  let raw ← collect root ⟨[], []⟩
  return raw.predicates.foldl classifyPredicate ⟨⟨raw.relations, []⟩, []⟩

/-! ### Candidates for the search -/

namespace LogicalPlan

/-- The types of the joins that `collect` visits. -/
def collectedJoins : LogicalPlan → List JoinType
  | .filter _ input => input.collectedJoins
  | .join joinType _ left right => joinType :: (left.collectedJoins ++ right.collectedJoins)
  | _ => []

def isScan : LogicalPlan → Bool
  | .scan _ _ _ => true
  | _ => false

/-- Where `is_join_search_candidate` stops, `collect` finds what it expects: each filter is over a
scan or over another candidate, and each other leaf of a join tree is a scan. -/
def seenThrough : LogicalPlan → Bool
  | .scan _ _ _ => true
  | .filter _ input =>
    (input.unwrapFilters.isScan || isJoinSearchCandidate input) && input.seenThrough
  | .join _ _ left right => left.seenThrough && right.seenThrough
  | _ => false

/-- The subtrees of scans, filters and inner joins. -/
def isFlat : LogicalPlan → Bool
  | .scan _ _ _ => true
  | .filter _ input => input.isFlat
  | .join joinType _ left right => joinType == .inner && left.isFlat && right.isFlat
  | _ => false

/-- `collect` reads these without an error and visits only inner joins. -/
theorem collects_inner_iff_isFlat (node : LogicalPlan) (out : RawExtraction) :
    ((∀ joinType ∈ node.collectedJoins, joinType = .inner) ∧ ∃ raw, collect node out = .ok raw) ↔
      node.isFlat = true := by
  induction node generalizing out with
  | scan tableName aliasName columns => simp [collectedJoins, collect, isFlat]
  | filter predicate input ih =>
    rw [isFlat, ← ih { out with predicates := out.predicates ++ splitAnd predicate }]
    rfl
  | join joinType condition left right ihl ihr =>
    have hl := ihl { out with predicates := out.predicates ++ splitAnd condition }
    simp only [isFlat, Bool.and_eq_true, beq_iff_eq, collectedJoins, List.forall_mem_cons,
      List.forall_mem_append, collect, Except.bind_eq_ok]
    constructor
    · rintro ⟨⟨hj, hjl, hjr⟩, raw, mid, hmid, hraw⟩
      exact ⟨⟨hj, hl.mp ⟨hjl, mid, hmid⟩⟩, (ihr mid).mp ⟨hjr, raw, hraw⟩⟩
    · rintro ⟨⟨hj, hfl⟩, hfr⟩
      obtain ⟨hjl, mid, hmid⟩ := hl.mpr hfl
      obtain ⟨hjr, raw, hraw⟩ := (ihr mid).mpr hfr
      exact ⟨⟨hj, hjl, hjr⟩, raw, mid, hmid, hraw⟩
  | aggregate groupBy aggregates input ih => simp [collect, isFlat]
  | project expressions input ih => simp [collect, isFlat]
  | sort orderBy input ih => simp [collect, isFlat]
  | limit count input ih => simp [collect, isFlat]

theorem allInner_of_isFlat {node : LogicalPlan} (h : node.isFlat = true) :
    node.allInner = true := by
  induction node with
  | join joinType condition left right ihl ihr =>
    simp only [isFlat, Bool.and_eq_true] at h
    simp only [allInner, Bool.and_eq_true]
    exact ⟨⟨h.1.1, ihl h.1.2⟩, ihr h.2⟩
  | _ => rfl

/-- Under its filters, a flat subtree is a scan or a candidate. -/
theorem isScan_or_candidate_of_isFlat {node : LogicalPlan} (h : node.isFlat = true) :
    (node.unwrapFilters.isScan || isJoinSearchCandidate node) = true := by
  induction node with
  | scan => rfl
  | filter predicate input ih => exact ih h
  | join joinType condition left right =>
    have hall := allInner_of_isFlat h
    simp [unwrapFilters, isScan, isJoinSearchCandidate, hall]
  | _ => simp [isFlat] at h

/-- A scan or a candidate passes `all_inner` where it stands. -/
theorem allInner_of_isScan_or_candidate {node : LogicalPlan}
    (h : (node.unwrapFilters.isScan || isJoinSearchCandidate node) = true) :
    node.allInner = true := by
  cases node with
  | join joinType condition left right =>
    simpa [unwrapFilters, isScan, isJoinSearchCandidate] using h
  | _ => rfl

/-- Below a node that passes `all_inner`. -/
theorem isFlat_iff_seenThrough {node : LogicalPlan} (h : node.allInner = true) :
    node.isFlat = true ↔ node.seenThrough = true := by
  induction node with
  | scan => simp [isFlat, seenThrough]
  | filter predicate input ih =>
    rw [isFlat, seenThrough, Bool.and_eq_true]
    constructor
    · intro hf
      exact ⟨isScan_or_candidate_of_isFlat hf, (ih (allInner_of_isFlat hf)).mp hf⟩
    · rintro ⟨hc, hs⟩
      exact (ih (allInner_of_isScan_or_candidate hc)).mpr hs
  | join joinType condition left right ihl ihr =>
    simp only [allInner, Bool.and_eq_true] at h
    obtain ⟨⟨hj, hl⟩, hr⟩ := h
    simp only [isFlat, seenThrough, Bool.and_eq_true, ihl hl, ihr hr, and_congr_left_iff]
    exact fun _ => and_iff_right hj
  | _ => simp [isFlat, seenThrough]

theorem allInner_of_candidate {node : LogicalPlan} (h : isJoinSearchCandidate node = true) :
    node.allInner = true :=
  allInner_of_isScan_or_candidate (by simp [h])

end LogicalPlan

/-- What the search does to a candidate: every join that is flattened is an inner join, and no node
is unexpected, exactly when the candidate test has seen through to every join. -/
theorem candidate_flattens_iff {node : LogicalPlan} (h : isJoinSearchCandidate node = true)
    (out : RawExtraction) :
    ((∀ joinType ∈ node.collectedJoins, joinType = .inner) ∧ ∃ raw, collect node out = .ok raw) ↔
      node.seenThrough = true := by
  rw [LogicalPlan.collects_inner_iff_isFlat,
    LogicalPlan.isFlat_iff_seenThrough (LogicalPlan.allInner_of_candidate h)]

/-- `a` and `b` joined, with a filter above, joined to `c`. -/
def filteredJoin (joinType : JoinType) : LogicalPlan :=
  .join .inner .trueLiteral
    (.filter .trueLiteral (.join joinType .trueLiteral (.scan "a" none []) (.scan "b" none [])))
    (.scan "c" none [])

theorem candidate_flattens_inner :
    isJoinSearchCandidate (filteredJoin .inner) = true ∧
      (∀ joinType ∈ (filteredJoin .inner).collectedJoins, joinType = .inner) ∧
      ∃ raw, collect (filteredJoin .inner) ⟨[], []⟩ = .ok raw :=
  ⟨rfl, (candidate_flattens_iff rfl ⟨[], []⟩).mpr rfl⟩

/-- The LEFT JOIN below the filter is not seen by the test and is flattened. -/
theorem candidate_flattens_left_join :
    isJoinSearchCandidate (filteredJoin .left) = true ∧
      (filteredJoin .left).collectedJoins = [.inner, .left] ∧
      (∃ raw, collect (filteredJoin .left) ⟨[], []⟩ = .ok raw) ∧
      ¬ ∀ joinType ∈ (filteredJoin .left).collectedJoins, joinType = .inner :=
  ⟨rfl, rfl, ⟨_, rfl⟩, by decide⟩

end SqlOptimizer
