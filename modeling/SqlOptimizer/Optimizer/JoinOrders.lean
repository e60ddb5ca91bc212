import SqlOptimizer.Library.Table
import SqlOptimizer.Optimizer.JoinSearch
import Mathlib.Data.Finset.Card

/-! The join search as the filling of a table, and the plans that take the relations in an order. -/

namespace SqlOptimizer

/-! ### The memo as a table -/

section

variable {n mask mask' subset : Nat}

/-- The bits that a mask counts. -/
def bitsOf (mask : RelationMask) : Finset Nat :=
  ((List.range 64).filter fun i => mask.testBit i).toFinset

theorem mem_bitsOf {i : Nat} : i ∈ bitsOf mask ↔ i < 64 ∧ mask.testBit i = true := by
  rw [bitsOf, List.mem_toFinset, List.mem_filter, List.mem_range]

theorem popcount_eq_card (mask : RelationMask) : popcount mask = (bitsOf mask).card := by
  rw [popcount, List.countP_eq_length_filter, bitsOf,
    List.toFinset_card_of_nodup (List.nodup_range.filter _)]

theorem popcount_lt (hsub : bitsOf mask ⊆ bitsOf mask') {i : Nat} (hi : i ∈ bitsOf mask')
    (hnot : i ∉ bitsOf mask) : popcount mask < popcount mask' := by
  rw [popcount_eq_card, popcount_eq_card]
  exact Finset.card_lt_card (Finset.ssubset_iff_subset_ne.mpr
    ⟨hsub, fun heq => hnot (heq ▸ hi)⟩)

theorem bitsOf_relationBit {i : Nat} (hi : i < 64) : bitsOf (relationBit i) = {i} := by
  ext j
  rw [mem_bitsOf, testBit_relationBit hi, decide_eq_true_iff, Finset.mem_singleton]
  constructor
  · exact fun h => h.2.symm
  · rintro rfl
    exact ⟨hi, rfl⟩

theorem popcount_relationBit {i : Nat} (hi : i < 64) : popcount (relationBit i) = 1 := by
  rw [popcount_eq_card, bitsOf_relationBit hi, Finset.card_singleton]

/-- The relation that is joined last and the rest are smaller sets. -/
theorem popcount_parts {r : Nat} (hsubset : subset < 2 ^ 64) (hr : r < 64)
    (hbit : subset &&& relationBit r ≠ 0) (hrest : subset &&& complementMask (relationBit r) ≠ 0) :
    popcount (subset &&& complementMask (relationBit r)) < popcount subset ∧
      popcount (relationBit r) < popcount subset := by
  have hin : r ∈ bitsOf subset := mem_bitsOf.mpr ⟨hr, (and_relationBit_ne_zero hr).mp hbit⟩
  obtain ⟨i, hi⟩ : ∃ i, (subset &&& complementMask (relationBit r)).testBit i = true := by
    obtain ⟨i, hi⟩ := Nat.exists_testBit_of_ne_zero hrest
    exact ⟨i, hi⟩
  obtain ⟨hisubset, hne⟩ := (testBit_without hsubset hr i).mp hi
  have hi64 : i < 64 := by
    by_contra hge
    rw [Nat.testBit_lt_two_pow (hsubset.trans_le (Nat.pow_le_pow_right (by decide)
      (Nat.le_of_not_lt hge)))] at hisubset
    cases hisubset
  constructor
  · apply popcount_lt _ hin
    · rw [mem_bitsOf, testBit_without hsubset hr]
      exact fun h => h.2.2 rfl
    · intro j hj
      rw [mem_bitsOf, testBit_without hsubset hr] at hj
      exact mem_bitsOf.mpr ⟨hj.1, hj.2.1⟩
  · apply popcount_lt _ (mem_bitsOf.mpr ⟨hi64, hisubset⟩)
    · rw [bitsOf_relationBit hr, Finset.mem_singleton]
      exact hne
    · rw [bitsOf_relationBit hr, Finset.singleton_subset_iff]
      exact hin

/-- The subsets in the order of the search. -/
def subsetOrder (n : Nat) : List RelationMask := (List.range' 2 (n - 1)).flatMap (subsetsOfSize n)

theorem mem_subsetsOfSize {size : Nat} (hn : n ≤ 63) : subset ∈ subsetsOfSize n size ↔
    (0 < subset ∧ subset < 2 ^ n) ∧ popcount subset = size := by
  have hlimit : 1 + (relationBit n - 1) = 2 ^ n := by
    rw [relationBit, Nat.mod_eq_of_lt (by omega)]
    exact Nat.add_sub_of_le (Nat.two_pow_pos n)
  simp only [subsetsOfSize, if_neg (show ¬ n = 64 by omega), List.mem_filter, List.mem_range'_1,
    hlimit, Nat.succ_le_iff, beq_iff_eq]

theorem mem_subsetOrder (hn : n ≤ 63) : subset ∈ subsetOrder n ↔
    subset < 2 ^ n ∧ 2 ≤ popcount subset ∧ popcount subset ≤ n := by
  simp only [subsetOrder, List.mem_flatMap, mem_subsetsOfSize hn, List.mem_range'_1]
  constructor
  · rintro ⟨size, hsize, ⟨-, hlt⟩, rfl⟩
    omega
  · rintro ⟨hlt, hlow, hhigh⟩
    refine ⟨popcount subset, by omega, ⟨Nat.pos_of_ne_zero ?_, hlt⟩, rfl⟩
    rintro rfl
    exact absurd hlow (by decide)

/-- Each subset comes once, and after the smaller ones. -/
theorem subsetOrder_sorted (hn : n ≤ 63) :
    (subsetOrder n).Pairwise fun s s' => s ≠ s' ∧ popcount s ≤ popcount s' := by
  rw [subsetOrder, List.pairwise_flatMap]
  constructor
  · intro size _
    have hnodup : (subsetsOfSize n size).Nodup := (List.nodup_range' ..).filter _
    refine hnodup.imp_of_mem fun {s s'} hs hs' hne => ⟨hne, ?_⟩
    rw [((mem_subsetsOfSize hn).mp hs).2, ((mem_subsetsOfSize hn).mp hs').2]
  · refine (List.pairwise_lt_range' ..).imp fun {size size'} hlt s hs s' hs' => ?_
    rw [mem_subsetsOfSize hn] at hs hs'
    refine ⟨?_, by omega⟩
    rintro rfl
    omega

end

section

variable {R : Type} [CostNum R] {catalog : Catalog} {stats : StatisticsCatalog R} {g : JoinGraph}
  {memo memo' : Memo R} {subset r : Nat}

/-- The best of the joins that put one relation of the subset last. -/
def bestOf (catalog : Catalog) (stats : StatisticsCatalog R) (g : JoinGraph) (memo : Memo R)
    (subset : RelationMask) : Option (PhysicalPlan R) :=
  (List.range g.relations.length).foldl (fun best r =>
    betterCandidate best (candidateFor catalog stats g memo subset r)) none

theorem solveSubset_eq (h : memo subset = none) : solveSubset catalog stats g memo subset =
    Function.update memo subset (bestOf catalog stats g memo subset) := by
  unfold solveSubset
  rw [← bestOf]
  cases bestOf catalog stats g memo subset with
  | some plan => rfl
  | none => exact (Function.update_eq_self_iff.mpr h.symm).symm

/-- A join of a subset reads the entries of smaller subsets. -/
theorem candidateFor_congr (hsubset : subset < 2 ^ 64) (hr : r < 64)
    (h : ∀ mask, popcount mask < popcount subset → memo mask = memo' mask) :
    candidateFor catalog stats g memo subset r = candidateFor catalog stats g memo' subset r := by
  unfold candidateFor
  dsimp only
  split
  · rfl
  · split
    · rfl
    · next hbit hrest =>
      obtain ⟨hleft, hright⟩ := popcount_parts hsubset hr hbit hrest
      rw [h _ hleft, h _ hright]

theorem bestOf_congr (hn : g.relations.length ≤ 64) (hsubset : subset < 2 ^ 64)
    (h : ∀ mask, popcount mask < popcount subset → memo mask = memo' mask) :
    bestOf catalog stats g memo subset = bestOf catalog stats g memo' subset := by
  refine List.foldl_ext _ _ _ fun best r hr => ?_
  rw [candidateFor_congr hsubset ((List.mem_range.mp hr).trans_le hn) h]

theorem foldl_solveSubset {order : List RelationMask} (hnodup : order.Nodup)
    (hnone : ∀ subset ∈ order, memo subset = none) :
    order.foldl (solveSubset catalog stats g) memo = Table.fill (bestOf catalog stats g) order memo := by
  induction order generalizing memo with
  | nil => rfl
  | cons subset rest ih =>
    obtain ⟨hnot, hnodup⟩ := List.nodup_cons.mp hnodup
    rw [List.foldl_cons, solveSubset_eq (hnone subset List.mem_cons_self)]
    refine ih hnodup fun subset' hsubset' => ?_
    rw [Function.update_of_ne (ne_of_mem_of_not_mem hsubset' hnot)]
    exact hnone subset' (List.mem_cons_of_mem _ hsubset')

/-- One base case. -/
def putBase (catalog : Catalog) (stats : StatisticsCatalog R) (memo : Memo R) (ri : Relation × Nat) :
    Memo R :=
  Function.update memo (relationBit ri.2) (some (bestAccessPath catalog stats ri.1))

theorem foldl_putBase_of_ne {mask : RelationMask} {ris : List (Relation × Nat)}
    (h : ∀ ri ∈ ris, mask ≠ relationBit ri.2) :
    ris.foldl (putBase catalog stats) memo mask = memo mask := by
  induction ris generalizing memo with
  | nil => rfl
  | cons ri ris ih =>
    obtain ⟨hne, hrest⟩ := List.forall_mem_cons.mp h
    exact (ih hrest).trans (Function.update_of_ne hne _ _)

theorem relationBit_inj {i j : Nat} (hi : i < 64) (hj : j < 64) (h : relationBit i = relationBit j) :
    i = j := by
  have hbits := congrArg bitsOf h
  rw [bitsOf_relationBit hi, bitsOf_relationBit hj] at hbits
  exact Finset.singleton_injective hbits

theorem foldl_putBase {ris : List (Relation × Nat)}
    (h : ∀ ri ∈ ris, ri.2 < 64 ∧ g.relations[ri.2]? = some ri.1) (hr : r ∈ ris.map (·.2)) :
    ris.foldl (putBase catalog stats) memo (relationBit r) = pathOf catalog stats g r := by
  induction ris generalizing memo with
  | nil => cases hr
  | cons ri ris ih =>
    obtain ⟨⟨hlt, hget⟩, hrest⟩ := List.forall_mem_cons.mp h
    by_cases hlater : r ∈ ris.map (·.2)
    · exact ih hrest hlater
    · obtain rfl : r = ri.2 := (List.mem_cons.mp hr).resolve_right hlater
      rw [List.foldl_cons, foldl_putBase_of_ne, putBase, Function.update_self, pathOf, hget]
      · rfl
      · intro ri' hri' heq
        exact hlater (relationBit_inj hlt (hrest ri' hri').1 heq ▸ List.mem_map_of_mem hri')

theorem mem_zipIdx_relations (hn : g.relations.length ≤ 64) :
    ∀ ri ∈ g.relations.zipIdx, ri.2 < 64 ∧ g.relations[ri.2]? = some ri.1 := by
  intro ri hri
  have hget := List.mem_zipIdx_iff_getElem?.mp hri
  exact ⟨(List.getElem?_eq_some_iff.mp hget).1.trans_le hn, hget⟩

/-- The base cases fill the entries of the single relations. -/
theorem baseMemo_relationBit (hn : g.relations.length ≤ 64) (hr : r < g.relations.length) :
    baseMemo catalog stats g (relationBit r) = pathOf catalog stats g r := by
  refine foldl_putBase (mem_zipIdx_relations hn) (List.mem_map.mpr ⟨(g.relations[r], r), ?_, rfl⟩)
  exact List.mem_zipIdx_iff_getElem?.mpr (List.getElem?_eq_getElem hr)

theorem baseMemo_of_two_le (hn : g.relations.length ≤ 64) (hsubset : 2 ≤ popcount subset) :
    baseMemo catalog stats g subset = none := by
  refine foldl_putBase_of_ne fun ri hri heq => ?_
  rw [heq, popcount_relationBit (mem_zipIdx_relations hn ri hri).1] at hsubset
  omega

theorem solveAll_eq_fill (hn : g.relations.length ≤ 63) : solveAll catalog stats g =
    Table.fill (bestOf catalog stats g) (subsetOrder g.relations.length)
      (baseMemo catalog stats g) := by
  refine foldl_solveSubset ((subsetOrder_sorted hn).imp And.left) fun subset hmem => ?_
  exact baseMemo_of_two_le (by omega) ((mem_subsetOrder hn).mp hmem).2.1

/-- The memo at the end of the search: each entry is the best join of its subset by the memo. -/
theorem solveAll_eq (hn : g.relations.length ≤ 63) (hsubset : subset < 2 ^ g.relations.length)
    (hlow : 2 ≤ popcount subset) (hhigh : popcount subset ≤ g.relations.length) :
    solveAll catalog stats g subset = bestOf catalog stats g (solveAll catalog stats g) subset := by
  rw [solveAll_eq_fill hn]
  refine Table.fill_eq (subsetOrder_sorted hn) (fun subset hmem t t' h => ?_)
    ((mem_subsetOrder hn).mpr ⟨hsubset, hlow, hhigh⟩)
  have hlt := ((mem_subsetOrder hn).mp hmem).1
  exact bestOf_congr (by omega) (hlt.trans_le (Nat.pow_le_pow_right (by decide) (by omega))) h

theorem solveAll_relationBit (hn : g.relations.length ≤ 63) (hr : r < g.relations.length) :
    solveAll catalog stats g (relationBit r) = pathOf catalog stats g r := by
  rw [solveAll_eq_fill hn, Table.fill_of_notMem, baseMemo_relationBit (by omega) hr]
  rw [mem_subsetOrder hn, popcount_relationBit (by omega)]
  omega

/-! ### Orders of the relations -/

def maskOf (π : List Nat) : RelationMask := π.foldr (fun r mask => mask ||| relationBit r) 0

theorem testBit_maskOf {π : List Nat} (hπ : ∀ i ∈ π, i < 64) (i : Nat) :
    (maskOf π).testBit i = true ↔ i ∈ π := by
  induction π with
  | nil => simp [maskOf]
  | cons r π ih =>
    obtain ⟨hr, hπ⟩ := List.forall_mem_cons.mp hπ
    have hcons : maskOf (r :: π) = maskOf π ||| relationBit r := rfl
    rw [hcons, Nat.testBit_or, Bool.or_eq_true, ih hπ, testBit_relationBit hr, decide_eq_true_iff,
      List.mem_cons, or_comm, eq_comm]

theorem maskOf_perm {π π' : List Nat} (h : π.Perm π') : maskOf π = maskOf π' := by
  apply h.foldr_eq'
  intro a _ b _ mask
  rw [Nat.or_assoc, Nat.or_comm (relationBit _), ← Nat.or_assoc]

/-- The candidates of one join. -/
def joinCandidates (catalog : Catalog) (stats : StatisticsCatalog R) (leftMask rightMask : RelationMask)
    (leftPlan rightPlan : PhysicalPlan R) (edge : JoinEdge) (g : JoinGraph) :
    List (PhysicalPlan R) :=
  let est := estimateJoin stats (CostNum.ofSize leftPlan.estimatedRows)
    (CostNum.ofSize rightPlan.estimatedRows) edge.predicate (syntheticScopeForMask leftMask g)
    (syntheticScopeForMask rightMask g)
  let outRows := rowsToSize est.rows
  .join ⟨nestedLoopCost leftPlan rightPlan, outRows, est.reasoning, est.confidence⟩ .nestedLoopJoin
    .inner edge.predicate leftPlan rightPlan ::
      otherCandidates catalog leftMask rightMask leftPlan rightPlan edge g outRows est

theorem generateBestCandidate_mem {leftMask rightMask : RelationMask} {l q : PhysicalPlan R}
    {edge : JoinEdge} : generateBestCandidate catalog stats leftMask rightMask l q edge g ∈
      joinCandidates catalog stats leftMask rightMask l q edge g :=
  foldl_cheaper_mem _ _

/-- The plans that start from the access path of one relation and add one relation at a time by the
first edge to those before it, with any of the candidates; the last relation is listed first. -/
inductive OrderPlan (catalog : Catalog) (stats : StatisticsCatalog R) (g : JoinGraph) :
    List Nat → PhysicalPlan R → Prop
  | first {r : Nat} {rel : Relation} (hr : g.relations[r]? = some rel) :
      OrderPlan catalog stats g [r] (bestAccessPath catalog stats rel)
  | next {π : List Nat} {plan joined : PhysicalPlan R} {r : Nat} {rel : Relation} {edge : JoinEdge}
      (hplan : OrderPlan catalog stats g π plan) (hr : g.relations[r]? = some rel) (hnew : r ∉ π)
      (hedge : findConnectingEdge (maskOf π) (relationBit r) g = some edge)
      (hjoined : joined ∈ joinCandidates catalog stats (maskOf π) (relationBit r) plan
        (bestAccessPath catalog stats rel) edge g) :
      OrderPlan catalog stats g (r :: π) joined

namespace OrderPlan

variable {π : List Nat} {plan : PhysicalPlan R}

theorem nodup (h : OrderPlan catalog stats g π plan) : π.Nodup := by
  induction h with
  | first hr => exact List.nodup_singleton _
  | next hplan hr hnew hedge hjoined ih => exact List.nodup_cons.mpr ⟨hnew, ih⟩

theorem lt_length (h : OrderPlan catalog stats g π plan) : ∀ i ∈ π, i < g.relations.length := by
  induction h with
  | first hr =>
    intro i hi
    rw [List.mem_singleton.mp hi]
    exact (List.getElem?_eq_some_iff.mp hr).1
  | next hplan hr hnew hedge hjoined ih =>
    exact List.forall_mem_cons.mpr ⟨(List.getElem?_eq_some_iff.mp hr).1, ih⟩

theorem ne_nil (h : OrderPlan catalog stats g π plan) : π ≠ [] := by
  cases h <;> exact List.cons_ne_nil _ _

theorem bitsOf_eq (h : OrderPlan catalog stats g π plan) (hn : g.relations.length ≤ 63) :
    bitsOf (maskOf π) = π.toFinset := by
  have hlt : ∀ i ∈ π, i < 64 := fun i hi => (h.lt_length i hi).trans_le (by omega)
  ext i
  rw [mem_bitsOf, testBit_maskOf hlt, List.mem_toFinset, and_iff_right_iff_imp]
  exact hlt i

theorem popcount_eq (h : OrderPlan catalog stats g π plan) (hn : g.relations.length ≤ 63) :
    popcount (maskOf π) = π.length := by
  rw [popcount_eq_card, h.bitsOf_eq hn, List.toFinset_card_of_nodup h.nodup]

theorem mask_lt (h : OrderPlan catalog stats g π plan) (hn : g.relations.length ≤ 63) :
    maskOf π < 2 ^ g.relations.length := by
  have hlt : ∀ i ∈ π, i < 64 := fun i hi => (h.lt_length i hi).trans_le (by omega)
  refine Nat.lt_pow_two_of_testBit _ fun i hi => ?_
  rw [← Bool.not_eq_true, testBit_maskOf hlt]
  exact fun hmem => (h.lt_length i hmem).not_ge hi

end OrderPlan

theorem bitsOf_inj {mask mask' : Nat} (hmask : mask < 2 ^ 64) (hmask' : mask' < 2 ^ 64)
    (h : bitsOf mask = bitsOf mask') : mask = mask' := by
  refine Nat.eq_of_testBit_eq fun i => ?_
  by_cases hi : i < 64
  · have hmem := congrArg (i ∈ ·) h
    simp only [mem_bitsOf, hi, true_and, eq_iff_iff] at hmem
    exact Bool.eq_iff_iff.mpr hmem
  · have hpow : 2 ^ 64 ≤ 2 ^ i := Nat.pow_le_pow_right (by decide) (Nat.le_of_not_lt hi)
    rw [Nat.testBit_lt_two_pow (hmask.trans_le hpow), Nat.testBit_lt_two_pow (hmask'.trans_le hpow)]

theorem popcount_le {n mask : Nat} (hmask : mask < 2 ^ n) : popcount mask ≤ n := by
  have hsub : bitsOf mask ⊆ Finset.range n := by
    intro i hi
    rw [Finset.mem_range]
    by_contra hge
    have hbit := (mem_bitsOf.mp hi).2
    rw [Nat.testBit_lt_two_pow (hmask.trans_le (Nat.pow_le_pow_right (by decide)
      (Nat.le_of_not_lt hge)))] at hbit
    cases hbit
  rw [popcount_eq_card]
  exact (Finset.card_le_card hsub).trans_eq (Finset.card_range n)

/-- What `candidateFor` joins. -/
theorem candidateFor_eq_some {plan : PhysicalPlan R} :
    candidateFor catalog stats g memo subset r = some plan ↔
      subset &&& relationBit r ≠ 0 ∧ subset &&& complementMask (relationBit r) ≠ 0 ∧
        ∃ l q edge, memo (subset &&& complementMask (relationBit r)) = some l ∧
          memo (relationBit r) = some q ∧
          findConnectingEdge (subset &&& complementMask (relationBit r)) (relationBit r) g =
            some edge ∧
          generateBestCandidate catalog stats (subset &&& complementMask (relationBit r))
            (relationBit r) l q edge g = plan := by
  unfold candidateFor
  dsimp only
  split
  · simp [*]
  · split
    · simp [*]
    · simp [*, Option.bind_eq_some_iff]

/-- Each entry of the memo is a plan of some order of its relations. -/
theorem solveAll_orderPlan (hn : g.relations.length ≤ 63) {mask : Nat}
    (hmask : mask < 2 ^ g.relations.length) (hne : mask ≠ 0) {plan : PhysicalPlan R}
    (h : solveAll catalog stats g mask = some plan) :
    ∃ π, OrderPlan catalog stats g π plan ∧ maskOf π = mask := by
  have hpow : 2 ^ g.relations.length ≤ 2 ^ 64 := Nat.pow_le_pow_right (by decide) (by omega)
  induction hk : popcount mask using Nat.strong_induction_on generalizing mask plan with
  | _ k ih =>
    obtain ⟨i, hbit⟩ := Nat.exists_testBit_of_ne_zero hne
    have hi : i < g.relations.length := by
      by_contra hge
      rw [Nat.testBit_lt_two_pow (hmask.trans_le (Nat.pow_le_pow_right (by decide)
        (Nat.le_of_not_lt hge)))] at hbit
      cases hbit
    have hmem : i ∈ bitsOf mask := mem_bitsOf.mpr ⟨by omega, hbit⟩
    by_cases hone : popcount mask = 1
    · -- a single relation
      rw [popcount_eq_card, Finset.card_eq_one] at hone
      obtain ⟨j, hj⟩ := hone
      obtain rfl : i = j := by
        rw [hj] at hmem
        exact Finset.mem_singleton.mp hmem
      obtain rfl : mask = relationBit i := by
        refine bitsOf_inj (hmask.trans_le hpow) ?_ (hj.trans (bitsOf_relationBit (by omega)).symm)
        rw [relationBit, Nat.mod_eq_of_lt (by omega)]
        exact Nat.pow_lt_pow_right (by decide) (by omega)
      rw [solveAll_relationBit hn hi, pathOf, Option.map_eq_some_iff] at h
      obtain ⟨rel, hrel, rfl⟩ := h
      exact ⟨[i], .first hrel, by rw [maskOf, List.foldr_cons, List.foldr_nil, Nat.zero_or]⟩
    · have htwo : 2 ≤ popcount mask := by
        have hpos : 0 < popcount mask := by
          rw [popcount_eq_card]
          exact Finset.card_pos.mpr ⟨i, hmem⟩
        omega
      rw [solveAll_eq hn hmask htwo (popcount_le hmask)] at h
      refine foldl_betterCandidate (P := fun plan => ∃ π, OrderPlan catalog stats g π plan ∧
        maskOf π = mask) (fun r hr p hp => ?_) (by simp) h
      obtain ⟨hbit, hrest, l, q, edge, hl, hq, hedge, rfl⟩ := candidateFor_eq_some.mp hp
      have hr : r < g.relations.length := List.mem_range.mp hr
      have hsmall := (popcount_parts (hmask.trans_le hpow) (by omega) hbit hrest).1
      have hlt : mask &&& complementMask (relationBit r) < 2 ^ g.relations.length :=
        Nat.and_le_left.trans_lt hmask
      obtain ⟨π, hπ, hmaskπ⟩ := ih _ (hk ▸ hsmall) hlt hrest hl rfl
      rw [solveAll_relationBit hn hr, pathOf, Option.map_eq_some_iff] at hq
      obtain ⟨rel, hrel, rfl⟩ := hq
      have hlt64 : ∀ i ∈ π, i < 64 := fun i hi => (hπ.lt_length i hi).trans_le (by omega)
      have hparts := testBit_without (hmask.trans_le hpow) (show r < 64 by omega)
      refine ⟨r :: π, .next hπ hrel (fun hmem => ?_) (hmaskπ ▸ hedge) (hmaskπ ▸
        generateBestCandidate_mem), Nat.eq_of_testBit_eq fun i => Bool.eq_iff_iff.mpr ?_⟩
      · rw [← testBit_maskOf hlt64, hmaskπ, hparts] at hmem
        exact hmem.2 rfl
      · rw [testBit_maskOf (List.forall_mem_cons.mpr ⟨by omega, hlt64⟩), List.mem_cons,
          ← testBit_maskOf hlt64, hmaskπ, hparts]
        by_cases hir : i = r
        · simp [hir, (and_relationBit_ne_zero (show r < 64 by omega)).mp hbit]
        · simp [hir]

end

end SqlOptimizer
