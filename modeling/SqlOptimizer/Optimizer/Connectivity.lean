import SqlOptimizer.Optimizer.JoinOrders
import Mathlib.Logic.Relation

/-! The join search finds a plan exactly for the connected graphs. -/

namespace SqlOptimizer

/-! ### Connected graphs -/

/-- Two relations of the graph with an edge between them. -/
def JoinGraph.Linked (g : JoinGraph) (i j : Nat) : Prop :=
  i < g.relations.length ∧ j < g.relations.length ∧
    ∃ edge ∈ g.edges, (edge.left = i ∧ edge.right = j) ∨ (edge.left = j ∧ edge.right = i)

def JoinGraph.Connected (g : JoinGraph) : Prop :=
  ∀ i j, i < g.relations.length → j < g.relations.length → Relation.ReflTransGen g.Linked i j

theorem JoinGraph.Linked.symm {g : JoinGraph} {i j : Nat} (h : g.Linked i j) : g.Linked j i := by
  obtain ⟨hi, hj, edge, hedge, hends⟩ := h
  exact ⟨hj, hi, edge, hedge, hends.symm⟩

/-- Links from one relation to each other one connect a graph. -/
theorem JoinGraph.connected_of_reach {g : JoinGraph}
    (h : ∀ i < g.relations.length, Relation.ReflTransGen g.Linked 0 i) : g.Connected := by
  intro i j hi hj
  have : Std.Symm g.Linked := ⟨fun _ _ => JoinGraph.Linked.symm⟩
  exact (Relation.ReflTransGen.stdSymm.symm _ _ (h i hi)).trans (h j hj)

section

variable {R : Type} [CostNum R] {catalog : Catalog} {stats : StatisticsCatalog R} {g : JoinGraph}

/-- A connected graph has an edge out of each set of relations that is not all of them. -/
theorem JoinGraph.Connected.exists_edge (h : g.Connected) {π : List Nat} {plan : PhysicalPlan R}
    (hn : g.relations.length ≤ 63) (hplan : OrderPlan catalog stats g π plan)
    (hlength : π.length < g.relations.length) :
    ∃ r edge, r < g.relations.length ∧ r ∉ π ∧
      findConnectingEdge (maskOf π) (relationBit r) g = some edge := by
  obtain ⟨i, hi⟩ := List.exists_mem_of_ne_nil _ hplan.ne_nil
  obtain ⟨j, hj, hjπ⟩ : ∃ j, j < g.relations.length ∧ j ∉ π := by
    by_contra hall
    push Not at hall
    have hsub : List.range g.relations.length ⊆ π := fun j hj => hall j (List.mem_range.mp hj)
    have hle := (List.nodup_range.subperm hsub).length_le
    rw [List.length_range] at hle
    omega
  obtain ⟨a, b, ha, hb, hlink⟩ : ∃ a b, a ∈ π ∧ b ∉ π ∧ g.Linked a b := by
    have hpath := h i j (hplan.lt_length i hi) hj
    clear hj
    induction hpath with
    | refl => exact absurd hi hjπ
    | @tail a b _ hlink ih =>
      by_cases ha : a ∈ π
      · exact ⟨a, b, ha, hjπ, hlink⟩
      · exact ih ha
  obtain ⟨ha', hb', edge, hedge, hends⟩ := hlink
  have hlt : ∀ i ∈ π, i < 64 := fun i hi => (hplan.lt_length i hi).trans_le (by omega)
  have hleft : maskOf π &&& relationBit a ≠ 0 :=
    (and_relationBit_ne_zero (hlt a ha)).mpr ((testBit_maskOf hlt a).mpr ha)
  have hright : relationBit b &&& relationBit b ≠ 0 := by
    rw [and_relationBit_ne_zero (by omega), testBit_relationBit (by omega)]
    exact decide_eq_true rfl
  have hconnects : edgeConnects edge (maskOf π) (relationBit b) = true := by
    rw [edgeConnects, Bool.or_eq_true, Bool.and_eq_true, Bool.and_eq_true]
    rcases hends with ⟨rfl, rfl⟩ | ⟨rfl, rfl⟩
    · exact .inl ⟨bne_iff_ne.mpr hleft, bne_iff_ne.mpr hright⟩
    · exact .inr ⟨bne_iff_ne.mpr hleft, bne_iff_ne.mpr hright⟩
  obtain ⟨found, hfound⟩ : ∃ found, findConnectingEdge (maskOf π) (relationBit b) g = some found :=
    Option.isSome_iff_exists.mp (List.find?_isSome.mpr ⟨edge, hedge, hconnects⟩)
  exact ⟨b, found, hb', hb, hfound⟩

/-- A connected graph has a plan in some order. -/
theorem JoinGraph.Connected.exists_orderPlan (h : g.Connected) (hne : g.relations ≠ [])
    (hn : g.relations.length ≤ 63) :
    ∃ π plan, OrderPlan catalog stats g π plan ∧ π.length = g.relations.length := by
  have hpos : 0 < g.relations.length := List.length_pos_iff.mpr hne
  suffices hall : ∀ k, k < g.relations.length →
      ∃ π plan, OrderPlan catalog stats g π plan ∧ π.length = k + 1 by
    obtain ⟨π, plan, hplan, hlength⟩ := hall (g.relations.length - 1) (by omega)
    exact ⟨π, plan, hplan, by omega⟩
  intro k
  induction k with
  | zero =>
    intro _
    exact ⟨[0], _, .first (List.getElem?_eq_getElem hpos), rfl⟩
  | succ k ih =>
    intro hk
    obtain ⟨π, plan, hplan, hlength⟩ := ih (by omega)
    obtain ⟨r, edge, hr, hnew, hedge⟩ := h.exists_edge hn hplan (by omega)
    exact ⟨r :: π, _, .next hplan (List.getElem?_eq_getElem hr) hnew hedge generateBestCandidate_mem,
      congrArg (· + 1) hlength⟩

/-- The relation that is added last, and those before it. -/
theorem maskOf_cons_parts (hn : g.relations.length ≤ 63) {π : List Nat} {plan : PhysicalPlan R}
    {r : Nat} (hplan : OrderPlan catalog stats g π plan) (hr : r < g.relations.length)
    (hnew : r ∉ π) :
    maskOf (r :: π) &&& complementMask (relationBit r) = maskOf π ∧
      maskOf (r :: π) &&& relationBit r ≠ 0 ∧ maskOf π ≠ 0 := by
  have hr64 : r < 64 := by omega
  have hlt : ∀ i ∈ π, i < 64 := fun i hi => (hplan.lt_length i hi).trans_le (by omega)
  have hltr : ∀ i ∈ r :: π, i < 64 := List.forall_mem_cons.mpr ⟨hr64, hlt⟩
  have hmask : maskOf (r :: π) < 2 ^ 64 := by
    refine Nat.lt_pow_two_of_testBit _ fun i hi => ?_
    rw [← Bool.not_eq_true, testBit_maskOf hltr]
    exact fun hmem => (hltr i hmem).not_ge hi
  refine ⟨Nat.eq_of_testBit_eq fun i => Bool.eq_iff_iff.mpr ?_, ?_, ?_⟩
  · rw [testBit_without hmask hr64, testBit_maskOf hltr, testBit_maskOf hlt, List.mem_cons]
    constructor
    · rintro ⟨hi, hne⟩
      exact hi.resolve_left hne
    · intro hi
      exact ⟨.inr hi, fun heq => hnew (heq ▸ hi)⟩
  · rw [and_relationBit_ne_zero hr64, testBit_maskOf hltr]
    exact List.mem_cons_self
  · intro hzero
    obtain ⟨i, hi⟩ := List.exists_mem_of_ne_nil _ hplan.ne_nil
    rw [← testBit_maskOf hlt, hzero, Nat.zero_testBit] at hi
    cases hi

/-! ### The result of the search -/

/-- The best of several is there when one of them is. -/
theorem foldl_betterCandidate_isSome {cand : Nat → Option (PhysicalPlan R)}
    {rs : List Nat} {best : Option (PhysicalPlan R)}
    (h : best.isSome ∨ ∃ r ∈ rs, (cand r).isSome) :
    (rs.foldl (fun best r => betterCandidate best (cand r)) best).isSome := by
  induction rs generalizing best with
  | nil => exact h.resolve_right fun ⟨r, hr, _⟩ => List.not_mem_nil hr
  | cons r rs ih =>
    refine ih ?_
    rcases h with hbest | ⟨r', hr', hc⟩
    · refine .inl ?_
      obtain ⟨b, rfl⟩ := Option.isSome_iff_exists.mp hbest
      beta_reduce
      cases cand r <;> rfl
    · rcases List.mem_cons.mp hr' with rfl | hr'
      · refine .inl ?_
        obtain ⟨c, hc⟩ := Option.isSome_iff_exists.mp hc
        beta_reduce
        rw [hc]
        cases best <;> rfl
      · exact .inr ⟨r', hr', hc⟩

namespace OrderPlan

variable {π : List Nat} {plan : PhysicalPlan R}

/-- The join that the search tries for the last relation of an order. -/
theorem candidateFor_next (hn : g.relations.length ≤ 63) {best : PhysicalPlan R} {r : Nat}
    {rel : Relation} {edge : JoinEdge} (hplan : OrderPlan catalog stats g π plan)
    (hr : g.relations[r]? = some rel) (hnew : r ∉ π)
    (hedge : findConnectingEdge (maskOf π) (relationBit r) g = some edge)
    (hbest : solveAll catalog stats g (maskOf π) = some best) :
    candidateFor catalog stats g (solveAll catalog stats g) (maskOf (r :: π)) r =
      some (generateBestCandidate catalog stats (maskOf π) (relationBit r) best
        (bestAccessPath catalog stats rel) edge g) := by
  have hlt := (List.getElem?_eq_some_iff.mp hr).1
  obtain ⟨hrest, hbit, hne⟩ := maskOf_cons_parts hn hplan hlt hnew
  rw [candidateFor_eq_some, hrest]
  refine ⟨hbit, hne, best, _, edge, hbest, ?_, hedge, rfl⟩
  rw [solveAll_relationBit hn hlt, pathOf, hr]
  rfl

/-- The entry of a set of two or more relations that an order builds. -/
theorem solveAll_eq_bestOf (h : OrderPlan catalog stats g π plan) (hn : g.relations.length ≤ 63)
    (hπ : 2 ≤ π.length) : solveAll catalog stats g (maskOf π) =
      bestOf catalog stats g (solveAll catalog stats g) (maskOf π) := by
  have hmask := h.mask_lt hn
  rw [← h.popcount_eq hn] at hπ
  exact solveAll_eq hn hmask hπ (popcount_le hmask)

/-- The search solves what an order builds. -/
theorem isSome (h : OrderPlan catalog stats g π plan) (hn : g.relations.length ≤ 63) :
    (solveAll catalog stats g (maskOf π)).isSome := by
  induction h with
  | @first r rel hr =>
    show (solveAll catalog stats g (0 ||| relationBit r)).isSome
    rw [Nat.zero_or, solveAll_relationBit hn (List.getElem?_eq_some_iff.mp hr).1, pathOf, hr]
    rfl
  | @next π plan joined r rel edge hplan hr hnew hedge hjoined ih =>
    obtain ⟨best, hbest⟩ := Option.isSome_iff_exists.mp ih
    have hpos : 0 < π.length := List.length_pos_iff.mpr hplan.ne_nil
    rw [(next hplan hr hnew hedge hjoined).solveAll_eq_bestOf hn (Nat.succ_le_succ hpos)]
    refine foldl_betterCandidate_isSome (.inr ⟨r, List.mem_range.mpr ?_, ?_⟩)
    · exact (List.getElem?_eq_some_iff.mp hr).1
    · rw [candidateFor_next hn hplan hr hnew hedge hbest]
      rfl

/-- The edge that adds a relation. -/
theorem links (h : OrderPlan catalog stats g π plan) (hn : g.relations.length ≤ 63)
    (hends : ∀ edge ∈ g.edges, edge.left < g.relations.length ∧ edge.right < g.relations.length)
    {r : Nat} {edge : JoinEdge} (hr : r < g.relations.length)
    (hedge : findConnectingEdge (maskOf π) (relationBit r) g = some edge) :
    edge ∈ g.edges ∧ edge.Links π r := by
  have hmem := List.mem_of_find?_eq_some hedge
  obtain ⟨hleft, hright⟩ := hends edge hmem
  have hlt : ∀ i ∈ π, i < 64 := fun i hi => (h.lt_length i hi).trans_le (by omega)
  refine ⟨hmem, (edgeConnects_iff_links (fun i => (testBit_maskOf hlt i).symm) (by omega) (by omega)
    (by omega)).mp ?_⟩
  exact List.find?_some (p := fun e => edgeConnects e _ _) hedge

/-- The relations of an order reach each other. -/
theorem reach (h : OrderPlan catalog stats g π plan) (hn : g.relations.length ≤ 63)
    (hends : ∀ edge ∈ g.edges, edge.left < g.relations.length ∧ edge.right < g.relations.length) :
    ∀ i ∈ π, ∀ j ∈ π, Relation.ReflTransGen g.Linked i j := by
  induction h with
  | first hr =>
    intro i hi j hj
    rw [List.mem_singleton.mp hi, List.mem_singleton.mp hj]
  | @next π plan joined r rel edge hplan hr hnew hedge hjoined ih =>
    have hlt := (List.getElem?_eq_some_iff.mp hr).1
    obtain ⟨hmem, hlinks⟩ := hplan.links hn hends hlt hedge
    obtain ⟨a, ha, hlink⟩ : ∃ a ∈ π, g.Linked a r := by
      rcases hlinks with ⟨ha, rfl⟩ | ⟨ha, rfl⟩
      · exact ⟨_, ha, hplan.lt_length _ ha, hlt, edge, hmem, .inl ⟨rfl, rfl⟩⟩
      · exact ⟨_, ha, hplan.lt_length _ ha, hlt, edge, hmem, .inr ⟨rfl, rfl⟩⟩
    intro i hi j hj
    rcases List.mem_cons.mp hi with rfl | hiπ <;> rcases List.mem_cons.mp hj with rfl | hjπ
    · exact .refl
    · exact .head hlink.symm (ih a ha j hjπ)
    · exact (ih i hiπ a ha).tail hlink
    · exact ih i hiπ j hjπ

/-- An order of all relations. -/
theorem perm_range (h : OrderPlan catalog stats g π plan) (hlength : π.length = g.relations.length) :
    π.Perm (List.range g.relations.length) := by
  have hsub : π.Subperm (List.range g.relations.length) :=
    h.nodup.subperm fun i hi => List.mem_range.mpr (h.lt_length i hi)
  exact hsub.perm_of_length_le (by rw [List.length_range, hlength])

theorem maskOf_eq_fullMask (h : OrderPlan catalog stats g π plan) (hn : g.relations.length ≤ 63)
    (hlength : π.length = g.relations.length) : maskOf π = fullMask g.relations.length := by
  have hlt : ∀ i ∈ π, i < 64 := fun i hi => (h.lt_length i hi).trans_le (by omega)
  refine Nat.eq_of_testBit_eq fun i => Bool.eq_iff_iff.mpr ?_
  rw [testBit_maskOf hlt, testBit_fullMask (by omega), (h.perm_range hlength).mem_iff,
    List.mem_range]

end OrderPlan

/-- The entry of the whole set is what is returned. -/
theorem findBestPlan_eq (hne : g.relations ≠ []) (hn : g.relations.length ≤ 63) :
    findBestPlan catalog stats g =
      match solveAll catalog stats g (fullMask g.relations.length) with
      | some plan => .ok plan
      | none => .error ("join_enumerator: relations are not fully connected by join predicates " ++
          "-- a cartesian product would be required, which this search refuses to generate") := by
  unfold findBestPlan
  split
  case h_1 h => exact absurd h hne
  case h_2 rel h =>
    have hone : solveAll catalog stats g (relationBit 0) = pathOf catalog stats g 0 :=
      solveAll_relationBit hn (List.length_pos_iff.mpr hne)
    have hsame : fullMask g.relations.length = relationBit 0 := by
      rw [h]
      rfl
    rw [hsame, hone, pathOf, h]
    rfl
  case h_3 => rfl

/-- The search solves the whole set when the graph is connected. -/
theorem solveAll_isSome_iff (hne : g.relations ≠ []) (hn : g.relations.length ≤ 63)
    (hends : ∀ edge ∈ g.edges, edge.left < g.relations.length ∧ edge.right < g.relations.length) :
    (solveAll catalog stats g (fullMask g.relations.length)).isSome ↔ g.Connected := by
  constructor
  · intro h
    obtain ⟨plan, hplan⟩ := Option.isSome_iff_exists.mp h
    have hpos : 0 < g.relations.length := List.length_pos_iff.mpr hne
    have hfull : fullMask g.relations.length < 2 ^ g.relations.length := by
      refine Nat.lt_pow_two_of_testBit _ fun i hi => ?_
      rw [← Bool.not_eq_true, testBit_fullMask (by omega)]
      exact hi.not_gt
    have hzero : fullMask g.relations.length ≠ 0 := by
      intro hzero
      have hbit := (testBit_fullMask (show g.relations.length ≤ 64 by omega) 0).mpr hpos
      rw [hzero, Nat.zero_testBit] at hbit
      cases hbit
    obtain ⟨π, hπ, hmask⟩ := solveAll_orderPlan hn hfull hzero hplan
    have hlt : ∀ i ∈ π, i < 64 := fun i hi => (hπ.lt_length i hi).trans_le (by omega)
    have hall : ∀ i < g.relations.length, i ∈ π := by
      intro i hi
      rwa [← testBit_maskOf hlt, hmask, testBit_fullMask (by omega)]
    exact fun i j hi hj => hπ.reach hn hends i (hall i hi) j (hall j hj)
  · intro h
    obtain ⟨π, plan, hplan, hlength⟩ : ∃ π plan, OrderPlan catalog stats g π plan ∧
        π.length = g.relations.length := h.exists_orderPlan hne hn
    rw [← hplan.maskOf_eq_fullMask hn hlength]
    exact hplan.isSome hn

/-- The search returns a plan when the graph is connected, and its error when it is not. -/
theorem findBestPlan_ok_iff_connected (hne : g.relations ≠ []) (hn : g.relations.length ≤ 63)
    (hends : ∀ edge ∈ g.edges, edge.left < g.relations.length ∧ edge.right < g.relations.length) :
    ((∃ plan, findBestPlan catalog stats g = .ok plan) ↔ g.Connected) ∧
      (¬ g.Connected → findBestPlan catalog stats g =
        .error ("join_enumerator: relations are not fully connected by join predicates " ++
          "-- a cartesian product would be required, which this search refuses to generate")) := by
  have hsome : (solveAll catalog stats g (fullMask g.relations.length)).isSome ↔ g.Connected :=
    solveAll_isSome_iff hne hn hends
  rw [findBestPlan_eq hne hn, ← hsome]
  cases solveAll catalog stats g (fullMask g.relations.length) <;> simp

end

local instance connectivityCosts : CostNum ℚ := CostNum.rational id

/-- Customers, their orders, and what these contain. -/
def customersOrdersItems : JoinGraph where
  relations := [⟨0, "customers", none, []⟩, ⟨1, "orders", none, []⟩, ⟨2, "items", none, []⟩]
  edges := [⟨0, 1, .binaryOp (.column (some "customers") "id") .eq
      (.column (some "orders") "customer_id")⟩,
    ⟨1, 2, .binaryOp (.column (some "orders") "id") .eq (.column (some "items") "order_id")⟩]

theorem findBestPlan_customers_orders :
    ((∃ plan : PhysicalPlan ℚ, findBestPlan ∅ ∅ customersOrdersItems = .ok plan) ↔
      customersOrdersItems.Connected) ∧
    (¬ customersOrdersItems.Connected → findBestPlan (R := ℚ) ∅ ∅ customersOrdersItems =
      .error ("join_enumerator: relations are not fully connected by join predicates " ++
        "-- a cartesian product would be required, which this search refuses to generate")) :=
  findBestPlan_ok_iff_connected (by decide) (by decide) (by decide)

end SqlOptimizer
