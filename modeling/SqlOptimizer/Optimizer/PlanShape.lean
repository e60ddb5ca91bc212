import SqlOptimizer.Optimizer.JoinOrders
import Mathlib.Logic.Relation

/-! The shape of the plans in the memo of the join search. -/

namespace SqlOptimizer

variable {R : Type}

/-! ### Leaves -/

/-- A scan of the relation under filters, with the predicates that these and the probe of the index
enforce. -/
inductive AccessPathOf (rel : Relation) : PhysicalPlan R → List Expression → Prop
  | seqScan {ann : Annotation R} :
      AccessPathOf rel (.seqScan ann rel.tableName rel.aliasName []) []
  | indexScan {ann : Annotation R} {pred : Expression} {t : Option String} {column : String}
      {lit : Literal} (hpred : columnLiteral pred = some (t, column, lit)) :
      AccessPathOf rel (.indexScan ann rel.tableName rel.aliasName [] column (.literal lit)) [pred]
  | filter {ann : Annotation R} {pred : Expression} {plan : PhysicalPlan R} {preds : List Expression}
      (h : AccessPathOf rel plan preds) : AccessPathOf rel (.filter ann pred plan) (pred :: preds)

section

variable [CostNum R] {catalog : Catalog} {stats : StatisticsCatalog R}

theorem AccessPathOf.foldl_stackFilter {rel : Relation} {scope : LogicalPlan}
    {st : PhysicalPlan R × R} {preds : List Expression} (h : AccessPathOf rel st.1 preds)
    (filters : List Expression) :
    AccessPathOf rel (filters.foldl (stackFilter stats scope) st).1 (filters.reverse ++ preds) := by
  induction filters generalizing st preds with
  | nil => exact h
  | cons pred filters ih =>
    rw [List.reverse_cons, List.append_assoc]
    exact ih h.filter

/-- The access path of a relation enforces each of its local filters once, and no other. -/
theorem accessPathOf_bestAccessPath (rel : Relation) :
    ∃ preds, AccessPathOf rel (bestAccessPath catalog stats rel) preds ∧
      preds.Perm rel.localFilters := by
  rcases bestAccessPath_cases catalog stats rel with
    ⟨scope, rows, _, _, heq⟩ | ⟨i, pred, t, column, lit, hp, hpred, scope, rows, _, _, heq⟩
  · rw [heq]
    refine ⟨_, AccessPathOf.foldl_stackFilter .seqScan _, ?_⟩
    rw [List.append_nil]
    exact List.reverse_perm _
  · rw [heq]
    refine ⟨_, AccessPathOf.foldl_stackFilter (.indexScan hpred) _, ?_⟩
    obtain ⟨hi, hget⟩ := List.getElem?_eq_some_iff.mp hp
    have hperm := List.getElem_cons_eraseIdx_perm hi
    rw [hget] at hperm
    exact List.perm_append_singleton _ _ |>.trans
      (((List.reverse_perm _).cons pred).trans hperm)

end

/-! ### Trees -/

/-- An edge with one end in each of two sets. -/
def JoinEdge.Between (edge : JoinEdge) (is js : List Nat) : Prop :=
  (edge.left ∈ is ∧ edge.right ∈ js) ∨ (edge.left ∈ js ∧ edge.right ∈ is)

/-- A tree of joins over access paths, with the relations of its leaves and the edges of its joins. -/
inductive JoinTreeOf (g : JoinGraph) : PhysicalPlan R → List Nat → List JoinEdge → Prop
  | leaf {i : Nat} {rel : Relation} {plan : PhysicalPlan R} {preds : List Expression}
      (hrel : g.relations[i]? = some rel) (hpath : AccessPathOf rel plan preds)
      (hpreds : preds.Perm rel.localFilters) : JoinTreeOf g plan [i] []
  | join {ann : Annotation R} {kind : JoinKind} {edge : JoinEdge} {l r : PhysicalPlan R}
      {is js : List Nat} {es fs : List JoinEdge} (hl : JoinTreeOf g l is es)
      (hr : JoinTreeOf g r js fs) (hedge : edge ∈ g.edges) (hbetween : edge.Between is js) :
      JoinTreeOf g (.join ann kind .inner edge.predicate l r) (is ++ js) (edge :: (es ++ fs))

/-- Two relations that one of these edges joins. -/
def JoinedIn (edges : List JoinEdge) (i j : Nat) : Prop :=
  ∃ edge ∈ edges, (edge.left = i ∧ edge.right = j) ∨ (edge.left = j ∧ edge.right = i)

/-- The edges are inside the set and connect it, and are one fewer than its elements. -/
structure SpanningTree (is : List Nat) (edges : List JoinEdge) : Prop where
  inside : ∀ edge ∈ edges, edge.left ∈ is ∧ edge.right ∈ is
  connected : ∀ i ∈ is, ∀ j ∈ is, Relation.ReflTransGen (JoinedIn edges) i j
  count : edges.length + 1 = is.length

theorem JoinedIn.symm {edges : List JoinEdge} {i j : Nat} (h : JoinedIn edges i j) :
    JoinedIn edges j i := by
  obtain ⟨edge, hedge, hends⟩ := h
  exact ⟨edge, hedge, hends.symm⟩

theorem JoinedIn.reach_mono {edges edges' : List JoinEdge} (hsub : edges ⊆ edges') {i j : Nat}
    (h : Relation.ReflTransGen (JoinedIn edges) i j) : Relation.ReflTransGen (JoinedIn edges') i j :=
  Relation.ReflTransGen.mono (fun _ _ ⟨edge, hedge, hends⟩ => ⟨edge, hsub hedge, hends⟩) _ _ h

theorem SpanningTree.join {is js : List Nat} {es fs : List JoinEdge} {edge : JoinEdge}
    (hl : SpanningTree is es) (hr : SpanningTree js fs) (hbetween : edge.Between is js) :
    SpanningTree (is ++ js) (edge :: (es ++ fs)) where
  inside e he := by
    simp only [List.mem_append]
    rcases List.mem_cons.mp he with rfl | he
    · rcases hbetween with ⟨h1, h2⟩ | ⟨h1, h2⟩
      · exact ⟨.inl h1, .inr h2⟩
      · exact ⟨.inr h1, .inl h2⟩
    · rcases List.mem_append.mp he with he | he
      · exact ⟨.inl (hl.inside e he).1, .inl (hl.inside e he).2⟩
      · exact ⟨.inr (hr.inside e he).1, .inr (hr.inside e he).2⟩
  connected := by
    -- the ends of the new edge lead from one side to the other
    obtain ⟨a, b, ha, hb, hlink⟩ : ∃ a b, a ∈ is ∧ b ∈ js ∧ JoinedIn (edge :: (es ++ fs)) a b := by
      rcases hbetween with ⟨h1, h2⟩ | ⟨h1, h2⟩
      · exact ⟨_, _, h1, h2, edge, List.mem_cons_self, .inl ⟨rfl, rfl⟩⟩
      · exact ⟨_, _, h2, h1, edge, List.mem_cons_self, .inr ⟨rfl, rfl⟩⟩
    have hleft : ∀ i ∈ is, ∀ j ∈ is, Relation.ReflTransGen (JoinedIn (edge :: (es ++ fs))) i j :=
      fun i hi j hj => JoinedIn.reach_mono
        (fun _ h => List.mem_cons_of_mem _ (List.mem_append_left _ h)) (hl.connected i hi j hj)
    have hright : ∀ i ∈ js, ∀ j ∈ js, Relation.ReflTransGen (JoinedIn (edge :: (es ++ fs))) i j :=
      fun i hi j hj => JoinedIn.reach_mono
        (fun _ h => List.mem_cons_of_mem _ (List.mem_append_right _ h)) (hr.connected i hi j hj)
    intro i hi j hj
    rcases List.mem_append.mp hi with hi | hi <;> rcases List.mem_append.mp hj with hj | hj
    · exact hleft i hi j hj
    · exact ((hleft i hi a ha).tail hlink).trans (hright b hb j hj)
    · exact ((hright i hi b hb).tail hlink.symm).trans (hleft a ha j hj)
    · exact hright i hi j hj
  count := by
    have hcount := hl.count
    have hcount' := hr.count
    simp only [List.length_cons, List.length_append]
    omega

theorem JoinTreeOf.spanningTree {g : JoinGraph} {plan : PhysicalPlan R} {is : List Nat}
    {edges : List JoinEdge} (h : JoinTreeOf g plan is edges) : SpanningTree is edges := by
  induction h with
  | @leaf i rel plan preds hrel hpath hpreds =>
    refine ⟨(fun _ h => nomatch h), fun a ha b hb => ?_, rfl⟩
    rw [List.mem_singleton.mp ha, List.mem_singleton.mp hb]
  | join hl hr hedge hbetween ihl ihr => exact ihl.join ihr hbetween

/-- The number of join nodes. -/
def PhysicalPlan.joinNodes : PhysicalPlan R → Nat
  | .join _ _ _ _ left right => left.joinNodes + right.joinNodes + 1
  | .filter _ _ input | .hashAggregate _ _ _ input | .project _ _ input | .sort _ _ input
  | .limit _ _ input => input.joinNodes
  | _ => 0

theorem AccessPathOf.joinNodes_eq {rel : Relation} {plan : PhysicalPlan R} {preds : List Expression}
    (h : AccessPathOf rel plan preds) : plan.joinNodes = 0 := by
  induction h with
  | seqScan => rfl
  | indexScan hpred => rfl
  | filter h ih => exact ih

theorem JoinTreeOf.joinNodes_eq {g : JoinGraph} {plan : PhysicalPlan R} {is : List Nat}
    {edges : List JoinEdge} (h : JoinTreeOf g plan is edges) : plan.joinNodes = edges.length := by
  induction h with
  | leaf hrel hpath hpreds => exact hpath.joinNodes_eq
  | join hl hr hedge hbetween ihl ihr =>
    rw [PhysicalPlan.joinNodes, ihl, ihr, List.length_cons, List.length_append]

/-! ### The memo -/

/-- The plan joins the relations of the mask: one access path for each, and joins on edges that
form a spanning tree. -/
def HasShape (g : JoinGraph) (mask : RelationMask) (plan : PhysicalPlan R) : Prop :=
  ∃ is edges, JoinTreeOf g plan is edges ∧ is.Nodup ∧ (∀ i, i ∈ is ↔ mask.testBit i = true) ∧
    plan.joinNodes + 1 = popcount mask ∧ SpanningTree is edges

def MemoShaped (g : JoinGraph) (memo : Memo R) : Prop :=
  ∀ mask plan, memo mask = some plan → HasShape g mask plan

theorem JoinTreeOf.lt_length {g : JoinGraph} {plan : PhysicalPlan R} {is : List Nat}
    {edges : List JoinEdge} (h : JoinTreeOf g plan is edges) :
    ∀ i ∈ is, i < g.relations.length := by
  induction h with
  | leaf hrel hpath hpreds =>
    intro i hi
    rw [List.mem_singleton.mp hi]
    exact (List.getElem?_eq_some_iff.mp hrel).1
  | join hl hr hedge hbetween ihl ihr =>
    intro i hi
    rcases List.mem_append.mp hi with hi | hi
    · exact ihl i hi
    · exact ihr i hi

theorem JoinTreeOf.hasShape {g : JoinGraph} {plan : PhysicalPlan R} {is : List Nat}
    {edges : List JoinEdge} {mask : RelationMask} (hn : g.relations.length ≤ 63)
    (h : JoinTreeOf g plan is edges) (hnodup : is.Nodup)
    (hmask : ∀ i, i ∈ is ↔ mask.testBit i = true) : HasShape g mask plan := by
  have hbits : bitsOf mask = is.toFinset := by
    ext i
    rw [mem_bitsOf, List.mem_toFinset, ← hmask, and_iff_right_iff_imp]
    intro hi
    have hlt := h.lt_length i hi
    omega
  refine ⟨is, edges, h, hnodup, hmask, ?_, h.spanningTree⟩
  rw [h.joinNodes_eq, h.spanningTree.count, popcount_eq_card, hbits,
    List.toFinset_card_of_nodup hnodup]

section

variable [CostNum R] {catalog : Catalog} {stats : StatisticsCatalog R} {g : JoinGraph}
  {memo : Memo R}

/-- Whichever operator and side the search takes, a join of two trees is one. -/
theorem JoinTreeOf.generateBestCandidate {leftMask rightMask : RelationMask} {l r : PhysicalPlan R}
    {is js : List Nat} {es fs : List JoinEdge} {edge : JoinEdge} (hl : JoinTreeOf g l is es)
    (hr : JoinTreeOf g r js fs) (hedge : edge ∈ g.edges) (hbetween : edge.Between is js) :
    ∃ ks hs, JoinTreeOf g (generateBestCandidate catalog stats leftMask rightMask l r edge g) ks hs ∧
      ks.Perm (is ++ js) := by
  obtain ⟨ann, kind, hcase | hcase⟩ := @generateBestCandidate_cases R _ catalog stats g leftMask
    rightMask l r edge
  · rw [hcase]
    exact ⟨_, _, .join hl hr hedge hbetween, .refl _⟩
  · rw [hcase]
    exact ⟨_, _, .join hr hl hedge hbetween.symm, List.perm_append_comm⟩

/-- One join of the search keeps the shape. -/
theorem MemoShaped.candidateFor (h : MemoShaped g memo) (hn : g.relations.length ≤ 63)
    (hends : ∀ edge ∈ g.edges, edge.left < g.relations.length ∧ edge.right < g.relations.length)
    {subset r : Nat} (hsubset : subset < 2 ^ 64) (hr : r < g.relations.length)
    {plan : PhysicalPlan R} (hplan : candidateFor catalog stats g memo subset r = some plan) :
    HasShape g subset plan := by
  have hr64 : r < 64 := by omega
  obtain ⟨hbit, -, l, q, edge, hl, hq, hedge, rfl⟩ := candidateFor_eq_some.mp hplan
  obtain ⟨is, es, htree, hnodup, hmask, -, -⟩ := h _ _ hl
  obtain ⟨js, fs, htree', hnodup', hmask', -, -⟩ := h _ _ hq
  have hone : ∀ j, j ∈ js ↔ j = r := by
    intro j
    rw [hmask', testBit_relationBit hr64, decide_eq_true_iff, eq_comm]
  have hrest : ∀ i, i ∈ is ↔ subset.testBit i = true ∧ i ≠ r := fun i =>
    (hmask i).trans (testBit_without hsubset hr64 i)
  have hmem := List.mem_of_find?_eq_some hedge
  obtain ⟨hleft, hright⟩ := hends edge hmem
  have hbetween : edge.Between is js := by
    rcases (edgeConnects_iff_links hmask hr64 (by omega) (by omega)).mp
      (List.find?_some (p := fun e => edgeConnects e _ _) hedge) with ⟨h1, h2⟩ | ⟨h1, h2⟩
    · exact .inl ⟨h1, (hone _).mpr h2⟩
    · exact .inr ⟨(hone _).mpr h2, h1⟩
  obtain ⟨ks, hs, hjoined, hperm⟩ := htree.generateBestCandidate htree' hmem hbetween
  refine hjoined.hasShape hn (hperm.nodup_iff.mpr ?_) fun i => ?_
  · refine hnodup.append hnodup' fun i hi hj => ?_
    exact ((hrest i).mp hi).2 ((hone i).mp hj)
  · rw [hperm.mem_iff, List.mem_append, hrest, hone]
    by_cases hi : i = r
    · simp [hi, (and_relationBit_ne_zero hr64).mp hbit]
    · simp [hi]

/-- One subset of the search keeps the shape. -/
theorem MemoShaped.solveSubset (h : MemoShaped g memo) (hn : g.relations.length ≤ 63)
    (hends : ∀ edge ∈ g.edges, edge.left < g.relations.length ∧ edge.right < g.relations.length)
    {subset : Nat} (hsubset : subset < 2 ^ 64) :
    MemoShaped g (solveSubset catalog stats g memo subset) := by
  unfold SqlOptimizer.solveSubset
  dsimp only
  split
  · next best hbest =>
    intro mask plan hplan
    by_cases hmask : mask = subset
    · subst hmask
      rw [Function.update_self] at hplan
      cases hplan
      exact foldl_betterCandidate (fun r hr p hp =>
        h.candidateFor hn hends hsubset (List.mem_range.mp hr) hp) (by simp) hbest
    · rw [Function.update_of_ne hmask] at hplan
      exact h mask plan hplan
  · exact h

theorem baseMemo_shaped (hn : g.relations.length ≤ 63) :
    MemoShaped g (baseMemo catalog stats g) := by
  intro mask plan hplan
  by_cases hbase : ∃ r < g.relations.length, mask = relationBit r
  · obtain ⟨r, hr, rfl⟩ := hbase
    rw [baseMemo_relationBit (by omega) hr, pathOf, Option.map_eq_some_iff] at hplan
    obtain ⟨rel, hrel, rfl⟩ := hplan
    obtain ⟨preds, hpath, hpreds⟩ : ∃ preds, AccessPathOf rel (bestAccessPath catalog stats rel)
        preds ∧ preds.Perm rel.localFilters := accessPathOf_bestAccessPath rel
    refine (JoinTreeOf.leaf hrel hpath hpreds).hasShape hn (List.nodup_singleton r) fun i => ?_
    rw [List.mem_singleton, testBit_relationBit (by omega), decide_eq_true_iff, eq_comm]
  · have hnone : baseMemo catalog stats g mask = none := by
      refine foldl_putBase_of_ne fun ri hri heq => hbase ⟨ri.2, ?_, heq⟩
      exact (List.getElem?_eq_some_iff.mp (mem_zipIdx_relations (by omega) ri hri).2).1
    rw [hnone] at hplan
    cases hplan

/-- At every step of the search, each plan of the memo has the shape that its subset asks for. -/
theorem memo_shaped (hn : g.relations.length ≤ 63)
    (hends : ∀ edge ∈ g.edges, edge.left < g.relations.length ∧ edge.right < g.relations.length)
    (k : Nat) : MemoShaped g (((subsetOrder g.relations.length).take k).foldl
      (solveSubset catalog stats g) (baseMemo catalog stats g)) := by
  apply List.foldlRecOn (motive := MemoShaped g)
  · exact baseMemo_shaped hn
  · intro memo hmemo subset hsubset
    have hlt := ((mem_subsetOrder hn).mp (List.mem_of_mem_take hsubset)).1
    exact hmemo.solveSubset hn hends
      (hlt.trans_le (Nat.pow_le_pow_right (by decide) (by omega)))

end

local instance shapeCosts : CostNum ℚ := CostNum.rational id

/-- `customers c JOIN orders o ON c.id = o.customer_id` with a filter on `o`. -/
def customersOrders : JoinGraph where
  relations := [⟨0, "customers", some "c", []⟩,
    ⟨1, "orders", some "o", [.binaryOp (.column (some "o") "status") .eq (.literal (.str "open"))]⟩]
  edges := [⟨0, 1, .binaryOp (.column (some "c") "id") .eq (.column (some "o") "customer_id")⟩]

theorem memo_shaped_customers_orders : MemoShaped (R := ℚ) customersOrders
    (((subsetOrder 2).take 1).foldl (solveSubset ∅ ∅ customersOrders)
      (baseMemo ∅ ∅ customersOrders)) := by
  refine memo_shaped (by decide) ?_ 1
  intro edge hedge
  cases List.mem_singleton.mp hedge
  decide

end SqlOptimizer
