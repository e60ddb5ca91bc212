import SqlOptimizer.Optimizer.Connectivity
import Mathlib.Algebra.Order.Field.Basic
import Mathlib.Tactic.GCongr
import Mathlib.Tactic.Linarith
import Mathlib.Tactic.Positivity

/-! Whether the join search returns a cheapest left-deep plan.  It keeps one plan for each subset,
so that it depends on the cheapest plan of a subset being a best start for the rest. -/

namespace SqlOptimizer

/-! ### Exact costs -/

/-- The logarithm, which exact arithmetic leaves open; joins do not use it. -/
class Logarithm where
  log2 : ℚ → ℚ

local instance exactArithmetic [Logarithm] : CostNum ℚ := CostNum.rational Logarithm.log2

section

variable [Logarithm] {catalog : Catalog} {stats : StatisticsCatalog ℚ} {g : JoinGraph}

/-- The total cost of a plan, as a number. -/
def PhysicalPlan.total (p : PhysicalPlan ℚ) : ℚ := p.estimatedCost.total

theorem Cost.total_add (a b : Cost ℚ) : (a + b).total = a.total + b.total := by
  show a.cpu + b.cpu + (a.io + b.io) + (a.memory + b.memory) =
    a.cpu + a.io + a.memory + (b.cpu + b.io + b.memory)
  ring

theorem total_nestedLoopCost (outer inner : PhysicalPlan ℚ) : (nestedLoopCost outer inner).total =
    outer.total + outer.estimatedRows * inner.total +
      outer.estimatedRows * inner.estimatedRows / 10000 := by
  rw [nestedLoopCost, Cost.total_add]
  show outer.estimatedCost.cpu + outer.estimatedRows * inner.total + outer.estimatedCost.io +
      outer.estimatedCost.memory + (outer.estimatedRows * inner.estimatedRows * (1 / 100) * (1 / 100) +
        0 + 0) = outer.estimatedCost.cpu + outer.estimatedCost.io + outer.estimatedCost.memory +
      outer.estimatedRows * inner.total + outer.estimatedRows * inner.estimatedRows / 10000
  ring

theorem spillPenalty_eq (rows : Nat) :
    Cost.spillPenalty rows = max 0 (((rows : ℚ) - 100000) * (5 / 100)) := by
  show (if decide ((rows : ℚ) ≤ 100000) = true then (0 : ℚ) else (rows - 100000) * (5 / 100)) = _
  simp only [decide_eq_true_iff]
  split
  · next h => rw [max_eq_left (by linarith)]
  · next h => rw [max_eq_right (by linarith)]

theorem total_hashJoin (l r : Nat) : (Cost.hashJoin l r).total =
    (min l r : Nat) * (21 / 1000) + (max l r : Nat) * (1 / 100) +
      max 0 ((((min l r : Nat) : ℚ) - 100000) * (5 / 100)) := by
  rw [← spillPenalty_eq]
  show ((min l r : Nat) : ℚ) * (2 / 100) + (max l r : Nat) * (1 / 100) + Cost.spillPenalty (min l r) +
    (min l r : Nat) * (1 / 1000) = _
  ring

theorem total_indexNestedLoopJoin (outer out : Nat) :
    (Cost.indexNestedLoopJoin outer out : Cost ℚ).total =
      outer * (4015 / 1000) + out * (1 / 100) := by
  show (outer : ℚ) * (1 / 100 + 5 / 1000) + out * (1 / 100) + outer * 4 + 0 = _
  ring

theorem maxNum_eq (a b : ℚ) : maxNum a b = max a b := by
  show (if decide (a < b) = true then b else a) = max a b
  simp only [decide_eq_true_iff]
  split
  · next h => rw [max_eq_right h.le]
  · next h => rw [max_eq_left (not_lt.mp h)]

theorem rowsToSize_eq {x : ℚ} (hx : 0 ≤ x) : rowsToSize x = (max 1 ⌊x + 1 / 2⌋).toNat := by
  show (⌊maxNum (1 : ℚ) (if x < 0 then -(⌊-x + 1 / 2⌋ : ℚ) else ⌊x + 1 / 2⌋)⌋).toNat = _
  rw [maxNum_eq, if_neg (not_lt.mpr hx), ← Int.cast_one, ← Int.cast_max, Int.floor_intCast]

/-- The estimate of a join is the product of the inputs over a number that does not depend on
them. -/
theorem estimateJoin_rows (stats : StatisticsCatalog ℚ) (condition : Expression) (leftScope rightScope : LogicalPlan) :
    ∃ d : ℚ, 0 < d ∧ ∀ l r : ℚ,
      (estimateJoin stats l r condition leftScope rightScope).rows = max 1 (l * r / d) := by
  have hten : (0 : ℚ) < 10 := by norm_num
  unfold estimateJoin
  cases resolveSingleTable leftScope with
  | none => exact ⟨10, hten, fun l r => maxNum_eq _ _⟩
  | some left =>
    cases resolveSingleTable rightScope with
    | none => exact ⟨10, hten, fun l r => maxNum_eq _ _⟩
    | some right =>
      simp only [Option.bind_eq_bind, Option.bind_some]
      cases joinColumns condition left.2 right.2 with
      | none => exact ⟨10, hten, fun l r => maxNum_eq _ _⟩
      | some cols =>
        simp only [Option.bind_some]
        cases StatisticsCatalog.get stats left.1 with
        | none => exact ⟨10, hten, fun l r => maxNum_eq _ _⟩
        | some lt =>
          simp only [Option.bind_some]
          cases lt.getColumn cols.1 with
          | none => exact ⟨10, hten, fun l r => maxNum_eq _ _⟩
          | some ls =>
            simp only [Option.bind_some]
            cases StatisticsCatalog.get stats right.1 with
            | none => exact ⟨10, hten, fun l r => maxNum_eq _ _⟩
            | some rt =>
              simp only [Option.bind_some]
              cases rt.getColumn cols.2 with
              | none => exact ⟨10, hten, fun l r => maxNum_eq _ _⟩
              | some rs =>
                simp only [Option.bind_some]
                split
                · exact ⟨10, hten, fun l r => maxNum_eq _ _⟩
                · next hpos =>
                  refine ⟨max ls.distinctCount rs.distinctCount, ?_, fun l r => ?_⟩
                  · have hleft : ¬ ls.distinctCount ≤ 0 := fun h =>
                      hpos (Bool.or_eq_true_iff.mpr (.inl (decide_eq_true h)))
                    exact lt_max_of_lt_left (not_le.mp hleft)
                  · rw [← maxNum_eq ls.distinctCount]
                    exact maxNum_eq _ _

/-- The estimated rows of a join. -/
def joinRows (stats : StatisticsCatalog ℚ) (l r : Nat) (condition : Expression)
    (leftScope rightScope : LogicalPlan) : Nat :=
  rowsToSize (estimateJoin stats (CostNum.ofSize l) (CostNum.ofSize r) condition leftScope
    rightScope).rows

theorem joinRows_mono (stats : StatisticsCatalog ℚ) {l l' : Nat} (h : l ≤ l') (r : Nat)
    (condition : Expression) (leftScope rightScope : LogicalPlan) :
    joinRows stats l r condition leftScope rightScope ≤
      joinRows stats l' r condition leftScope rightScope := by
  obtain ⟨d, hd, hrows⟩ := estimateJoin_rows stats condition leftScope rightScope
  have hle : max 1 ((l : ℚ) * r / d) ≤ max 1 ((l' : ℚ) * r / d) := by
    gcongr
  have hpos : 0 ≤ max 1 ((l : ℚ) * r / d) := zero_le_one.trans (le_max_left _ _)
  have heq : ∀ l : Nat, joinRows stats l r condition leftScope rightScope =
      rowsToSize (max 1 ((l : ℚ) * r / d)) := fun l => congrArg rowsToSize (hrows l r)
  rw [heq, heq, rowsToSize_eq hpos, rowsToSize_eq (hpos.trans hle)]
  exact Int.toNat_le_toNat (max_le_max le_rfl (Int.floor_le_floor (by linarith)))

theorem total_hashJoin_mono {l l' : Nat} (h : l ≤ l') (r : Nat) :
    (Cost.hashJoin l r : Cost ℚ).total ≤ (Cost.hashJoin l' r).total := by
  have hmin : ((min l r : Nat) : ℚ) ≤ (min l' r : Nat) := Nat.cast_le.mpr (min_le_min_right r h)
  have hmax : ((max l r : Nat) : ℚ) ≤ (max l' r : Nat) := Nat.cast_le.mpr (max_le_max_right r h)
  rw [total_hashJoin, total_hashJoin]
  gcongr

/-- A cheaper left plan with fewer rows makes each candidate cheaper. -/
theorem joinCandidates_mono {leftMask rightMask : RelationMask} {l l' q : PhysicalPlan ℚ}
    {edge : JoinEdge} (hcost : l.total ≤ l'.total) (hrows : l.estimatedRows ≤ l'.estimatedRows)
    (hq : 0 ≤ q.total) :
    List.Forall₂ (fun c c' : PhysicalPlan ℚ => c.total ≤ c'.total)
      (joinCandidates catalog stats leftMask rightMask l q edge g)
      (joinCandidates catalog stats leftMask rightMask l' q edge g) := by
  have hout := joinRows_mono stats hrows q.estimatedRows edge.predicate
    (syntheticScopeForMask leftMask g) (syntheticScopeForMask rightMask g)
  have hcast : (l.estimatedRows : ℚ) ≤ l'.estimatedRows := Nat.cast_le.mpr hrows
  have hlooped : (nestedLoopCost l q).total ≤ (nestedLoopCost l' q).total := by
    rw [total_nestedLoopCost, total_nestedLoopCost]
    gcongr
  have hflipped : (nestedLoopCost q l).total ≤ (nestedLoopCost q l').total := by
    rw [total_nestedLoopCost, total_nestedLoopCost]
    gcongr
  unfold joinCandidates otherCandidates
  refine .cons hlooped ?_
  split
  · refine .cons hflipped (.cons ?_ ?_)
    · show (l.estimatedCost + q.estimatedCost + Cost.hashJoin l.estimatedRows q.estimatedRows).total ≤
        (l'.estimatedCost + q.estimatedCost + Cost.hashJoin l'.estimatedRows q.estimatedRows).total
      rw [Cost.total_add, Cost.total_add, Cost.total_add, Cost.total_add]
      exact add_le_add (add_le_add_left hcost _) (total_hashJoin_mono hrows _)
    · unfold tryIndexNestedLoop
      dsimp only
      split
      · refine .cons ?_ .nil
        show (l.estimatedCost + Cost.indexNestedLoopJoin l.estimatedRows _).total ≤
          (l'.estimatedCost + Cost.indexNestedLoopJoin l'.estimatedRows _).total
        rw [Cost.total_add, Cost.total_add, total_indexNestedLoopJoin, total_indexNestedLoopJoin]
        refine add_le_add hcost (add_le_add ?_ ?_)
        · gcongr
        · gcongr
          exact hout
      · split
        · refine .cons ?_ .nil
          show (q.estimatedCost + Cost.indexNestedLoopJoin q.estimatedRows _).total ≤
            (q.estimatedCost + Cost.indexNestedLoopJoin q.estimatedRows _).total
          rw [Cost.total_add, Cost.total_add, total_indexNestedLoopJoin, total_indexNestedLoopJoin]
          gcongr
          exact hout
        · exact .nil
  · exact .cons hflipped .nil

/-! ### The cheapest of several -/

theorem total_cheaper_le (best candidate : PhysicalPlan ℚ) :
    (cheaper best candidate).total ≤ best.total ∧
      (cheaper best candidate).total ≤ candidate.total := by
  have hlt : CostNum.lt candidate.estimatedCost.total best.estimatedCost.total = true ↔
      candidate.total < best.total := decide_eq_true_iff
  unfold cheaper
  split
  · next h => exact ⟨(hlt.mp h).le, le_rfl⟩
  · next h => exact ⟨le_rfl, not_lt.mp (mt hlt.mpr h)⟩

theorem total_foldl_cheaper_le (cs : List (PhysicalPlan ℚ)) (c : PhysicalPlan ℚ) :
    ∀ d ∈ c :: cs, (cs.foldl cheaper c).total ≤ d.total := by
  induction cs generalizing c with
  | nil =>
    intro d hd
    rw [List.mem_singleton.mp hd]
    rfl
  | cons e cs ih =>
    obtain ⟨hfirst, hrest⟩ := List.forall_mem_cons.mp (ih (cheaper c e))
    obtain ⟨hc, he⟩ := total_cheaper_le c e
    exact List.forall_mem_cons.mpr ⟨hfirst.trans hc, List.forall_mem_cons.mpr
      ⟨hfirst.trans he, hrest⟩⟩

/-- A join over a cheaper left plan with fewer rows costs no more than any candidate. -/
theorem total_generateBestCandidate_le {leftMask rightMask : RelationMask}
    {l l' q c : PhysicalPlan ℚ} {edge : JoinEdge} (hcost : l.total ≤ l'.total)
    (hrows : l.estimatedRows ≤ l'.estimatedRows) (hq : 0 ≤ q.total)
    (hc : c ∈ joinCandidates catalog stats leftMask rightMask l' q edge g) :
    (generateBestCandidate catalog stats leftMask rightMask l q edge g).total ≤ c.total := by
  obtain ⟨i, hi, rfl⟩ := List.mem_iff_getElem.mp hc
  have hmono : List.Forall₂ (fun c c' : PhysicalPlan ℚ => c.total ≤ c'.total)
      (joinCandidates catalog stats leftMask rightMask l q edge g)
      (joinCandidates catalog stats leftMask rightMask l' q edge g) :=
    joinCandidates_mono hcost hrows hq
  have hlength := hmono.length_eq
  have hle := hmono.get (hlength ▸ hi) hi
  exact (total_foldl_cheaper_le _ _ _ (List.get_mem _ _)).trans hle

/-- The best of several is there when one is, and costs no more. -/
theorem total_foldl_betterCandidate_le {cand : Nat → Option (PhysicalPlan ℚ)} {rs : List Nat}
    {best : Option (PhysicalPlan ℚ)} {c : PhysicalPlan ℚ}
    (h : best = some c ∨ ∃ r ∈ rs, cand r = some c) :
    ∃ b, rs.foldl (fun best r => betterCandidate best (cand r)) best = some b ∧
      b.total ≤ c.total := by
  induction rs generalizing best c with
  | nil =>
    obtain rfl : best = some c := h.resolve_right fun ⟨r, hr, _⟩ => absurd hr List.not_mem_nil
    exact ⟨c, rfl, le_rfl⟩
  | cons r rs ih =>
    have hnext : (∃ d, betterCandidate best (cand r) = some d ∧ d.total ≤ c.total) ∨
        ∃ r ∈ rs, cand r = some c := by
      rcases h with rfl | ⟨r', hr', hc⟩
      · refine .inl ?_
        cases cand r with
        | none => exact ⟨c, rfl, le_rfl⟩
        | some d => exact ⟨_, rfl, (total_cheaper_le c d).1⟩
      · rcases List.mem_cons.mp hr' with rfl | hr'
        · refine .inl ?_
          rw [hc]
          cases best with
          | none => exact ⟨c, rfl, le_rfl⟩
          | some b => exact ⟨_, rfl, (total_cheaper_le b c).2⟩
        · exact .inr ⟨r', hr', hc⟩
    rcases hnext with ⟨d, hd, hle⟩ | hlater
    · obtain ⟨b, hb, hbd⟩ := ih (.inl hd)
      exact ⟨b, hb, hbd.trans hle⟩
    · exact ih (.inr hlater)

/-! ### Access paths -/

theorem total_stackFilter_nonneg (scope : LogicalPlan) (st : PhysicalPlan ℚ × ℚ) (pred : Expression)
    (h : 0 ≤ st.1.total) : 0 ≤ (stackFilter stats scope st pred).1.total := by
  have hfilter : (Cost.filter (rowsToSize st.2) : Cost ℚ).total =
      ((rowsToSize st.2 : Nat) : ℚ) * (1 / 100) + 0 + 0 := rfl
  show 0 ≤ (st.1.estimatedCost + Cost.filter (rowsToSize st.2)).total
  rw [Cost.total_add, hfilter]
  have h : 0 ≤ st.1.estimatedCost.total := h
  positivity

theorem total_bestAccessPath_nonneg (rel : Relation) :
    0 ≤ (bestAccessPath catalog stats rel).total := by
  apply bestAccessPath_forall (P := fun p => 0 ≤ p.total)
  · intro rows pages reasoning confidence
    show 0 ≤ (rows : ℚ) * (1 / 100) + maxNum 1 pages * 1 + 0
    rw [maxNum_eq]
    positivity
  · intro rows reasoning confidence column lit
    show 0 ≤ (rows : ℚ) * (1 / 100 + 5 / 1000) + rows * 4 + 0
    positivity
  · exact total_stackFilter_nonneg

/-! ### The result of the search -/

/-- Of the plans of some but not all relations, a cheapest one has the fewest rows. -/
def CheapestIsSmallest (catalog : Catalog) (stats : StatisticsCatalog ℚ) (g : JoinGraph) : Prop :=
  ∀ π plan, OrderPlan catalog stats g π plan → π.length < g.relations.length →
    (∀ π' plan', OrderPlan catalog stats g π' plan' → π'.Perm π → plan.total ≤ plan'.total) →
    ∀ π' plan', OrderPlan catalog stats g π' plan' → π'.Perm π →
      plan.estimatedRows ≤ plan'.estimatedRows

/-- One relation more. -/
theorem solveAll_next_le (hn : g.relations.length ≤ 63) {π : List Nat}
    {best plan joined : PhysicalPlan ℚ} {r : Nat} {rel : Relation} {edge : JoinEdge}
    (hplan : OrderPlan catalog stats g π plan) (hr : g.relations[r]? = some rel) (hnew : r ∉ π)
    (hedge : findConnectingEdge (maskOf π) (relationBit r) g = some edge)
    (hjoined : joined ∈ joinCandidates catalog stats (maskOf π) (relationBit r) plan
      (bestAccessPath catalog stats rel) edge g)
    (hbest : solveAll catalog stats g (maskOf π) = some best) (hcost : best.total ≤ plan.total)
    (hrows : best.estimatedRows ≤ plan.estimatedRows) :
    ∃ best, solveAll catalog stats g (maskOf (r :: π)) = some best ∧ best.total ≤ joined.total := by
  have hlt := (List.getElem?_eq_some_iff.mp hr).1
  have hpos : 0 < π.length := List.length_pos_iff.mpr hplan.ne_nil
  rw [(OrderPlan.next hplan hr hnew hedge hjoined).solveAll_eq_bestOf hn (Nat.succ_le_succ hpos)]
  have hcandidate := hplan.candidateFor_next hn hr hnew hedge hbest
  obtain ⟨b, hb, hle⟩ : ∃ b, bestOf catalog stats g (solveAll catalog stats g) (maskOf (r :: π)) =
      some b ∧ b.total ≤ _ :=
    total_foldl_betterCandidate_le (.inr ⟨r, List.mem_range.mpr hlt, hcandidate⟩)
  exact ⟨b, hb, hle.trans (total_generateBestCandidate_le hcost hrows
    (total_bestAccessPath_nonneg rel) hjoined)⟩

/-- The memo has a cheapest plan of each connected set of relations. -/
theorem solveAll_le (hn : g.relations.length ≤ 63) (hsmall : CheapestIsSmallest catalog stats g)
    {π : List Nat} {plan : PhysicalPlan ℚ} (h : OrderPlan catalog stats g π plan) :
    ∃ best, solveAll catalog stats g (maskOf π) = some best ∧ best.total ≤ plan.total := by
  induction hk : π.length using Nat.strong_induction_on generalizing π plan with
  | _ k ih =>
    cases h with
    | first hr =>
      refine ⟨_, ?_, le_rfl⟩
      show solveAll catalog stats g (0 ||| relationBit _) = _
      rw [Nat.zero_or, solveAll_relationBit hn (List.getElem?_eq_some_iff.mp hr).1, pathOf, hr]
      rfl
    | @next π before _ r rel edge hplan hr hnew hedge hjoined =>
      rw [List.length_cons] at hk
      obtain ⟨best, hbest, hcost⟩ := ih _ (by omega) hplan rfl
      refine solveAll_next_le hn hplan hr hnew hedge hjoined hbest hcost ?_
      -- the plan of the memo is a cheapest one of its relations
      obtain ⟨_, -, hne⟩ := maskOf_cons_parts hn hplan (List.getElem?_eq_some_iff.mp hr).1 hnew
      obtain ⟨ρ, hρ, hmask⟩ := solveAll_orderPlan hn (hplan.mask_lt hn) hne hbest
      have hperm : ρ.Perm π := by
        refine (List.perm_ext_iff_of_nodup hρ.nodup hplan.nodup).mpr fun i => ?_
        rw [← List.mem_toFinset, ← hρ.bitsOf_eq hn, hmask, hplan.bitsOf_eq hn, List.mem_toFinset]
      have hlength : (r :: π).length ≤ g.relations.length := by
        have hall := OrderPlan.next hplan hr hnew hedge hjoined
        rw [← hall.popcount_eq hn]
        exact popcount_le (hall.mask_lt hn)
      rw [List.length_cons] at hlength
      refine hsmall ρ best hρ (by rw [hperm.length_eq]; omega) (fun π' plan' h' hperm' => ?_) π before
        hplan hperm.symm
      obtain ⟨best', hbest', hcost'⟩ := ih _ (by rw [(hperm'.trans hperm).length_eq]; omega) h' rfl
      rw [maskOf_perm (hperm'.trans hperm), hbest] at hbest'
      cases hbest'
      exact hcost'

/-- The search returns a plan that costs no more than any plan of all relations in any order. -/
theorem findBestPlan_cheapest (hne : g.relations ≠ []) (hn : g.relations.length ≤ 63)
    (hconnected : g.Connected) (hsmall : CheapestIsSmallest catalog stats g) :
    ∃ best, findBestPlan catalog stats g = .ok best ∧
      ∀ π plan, OrderPlan catalog stats g π plan → π.length = g.relations.length →
        best.total ≤ plan.total := by
  obtain ⟨π₀, plan₀, hplan₀, hlength₀⟩ : ∃ π plan, OrderPlan catalog stats g π plan ∧
      π.length = g.relations.length :=
    hconnected.exists_orderPlan hne hn
  obtain ⟨best, hbest, -⟩ := solveAll_le hn hsmall hplan₀
  rw [hplan₀.maskOf_eq_fullMask hn hlength₀] at hbest
  have hmin : ∀ π plan, OrderPlan catalog stats g π plan → π.length = g.relations.length →
      best.total ≤ plan.total := by
    intro π plan hplan hlength
    obtain ⟨best', hbest', hle⟩ := solveAll_le hn hsmall hplan
    rw [hplan.maskOf_eq_fullMask hn hlength, hbest] at hbest'
    cases hbest'
    exact hle
  refine ⟨best, ?_, hmin⟩
  rw [findBestPlan_eq hne hn, hbest]

/-- A single relation has one plan. -/
theorem cheapestIsSmallest_of_length_le (h : g.relations.length ≤ 2) :
    CheapestIsSmallest catalog stats g := by
  intro π plan hplan hlength _ π' plan' hplan' hperm
  have hone : π.length = 1 := by
    have hpos : 0 < π.length := List.length_pos_iff.mpr hplan.ne_nil
    omega
  obtain ⟨r, rfl⟩ := List.length_eq_one_iff.mp hone
  obtain rfl := List.perm_singleton.mp hperm
  cases hplan with
  | first hr =>
    cases hplan' with
    | first hr' =>
      rw [hr] at hr'
      cases hr'
      exact le_rfl
    | next hplan' => exact absurd rfl hplan'.ne_nil
  | next hplan => exact absurd rfl hplan.ne_nil

end

/-! Four tables in a chain: `a` and `b` joined by `x`, `b` and `c` by `k`, `c` and `d` by an order.
Only the distinct counts of `x` are known, and `b` has an index on `k`. -/

local instance : Logarithm := ⟨id⟩

def comparison (op : BinaryOperator) (l r column : String) : Expression :=
  .binaryOp (.column (some l) column) op (.column (some r) column)

def chain : JoinGraph where
  relations := [⟨0, "a", none, []⟩, ⟨1, "b", none, []⟩, ⟨2, "c", none, []⟩, ⟨3, "d", none, []⟩]
  edges := [⟨0, 1, comparison .eq "a" "b" "x"⟩, ⟨1, 2, comparison .eq "b" "c" "k"⟩,
    ⟨2, 3, comparison .lt "c" "d" "u"⟩]

def chainTable (rows pages : ℚ) : TableStats ℚ :=
  ⟨rows, pages, AList.singleton "x" ⟨rows, 0, none, none, none⟩⟩

def chainStats : StatisticsCatalog ℚ :=
  (((AList.singleton "a" (chainTable 1 1)).insert "b" (chainTable 1000 5000)).insert "c"
    (chainTable 100 1)).insert "d" (chainTable 10000 100)

def chainCatalog : Catalog := AList.singleton "b" ⟨[], ⟨0, 0⟩, ["k"]⟩

/-- The first two relations alone. -/
def chainPair : JoinGraph := ⟨chain.relations.take 2, chain.edges.take 1⟩

theorem findBestPlan_cheapest_pair : ∃ best, findBestPlan chainCatalog chainStats chainPair = .ok best ∧
    ∀ π plan, OrderPlan chainCatalog chainStats chainPair π plan → π.length = 2 →
      best.total ≤ plan.total := by
  refine findBestPlan_cheapest (by decide) (by decide) (JoinGraph.connected_of_reach fun i hi => ?_)
    (cheapestIsSmallest_of_length_le (by decide))
  have hlink : chainPair.Linked 0 1 := ⟨by decide, by decide, _, List.mem_cons_self, .inl ⟨rfl, rfl⟩⟩
  have hi : i < 2 := hi
  obtain rfl | rfl : i = 0 ∨ i = 1 := by omega
  · exact .refl
  · exact .single hlink

theorem chain_connected : chain.Connected := by
  refine JoinGraph.connected_of_reach fun i hi => ?_
  have h01 : chain.Linked 0 1 := ⟨by decide, by decide, _, List.mem_cons_self, .inl ⟨rfl, rfl⟩⟩
  have h12 : chain.Linked 1 2 :=
    ⟨by decide, by decide, _, List.mem_cons_of_mem _ List.mem_cons_self, .inl ⟨rfl, rfl⟩⟩
  have h23 : chain.Linked 2 3 := ⟨by decide, by decide, _,
    List.mem_cons_of_mem _ (List.mem_cons_of_mem _ List.mem_cons_self), .inl ⟨rfl, rfl⟩⟩
  have hi : i < 4 := hi
  obtain rfl | rfl | rfl | rfl : i = 0 ∨ i = 1 ∨ i = 2 ∨ i = 3 := by omega
  · exact .refl
  · exact .single h01
  · exact (Relation.ReflTransGen.single h01).tail h12
  · exact ((Relation.ReflTransGen.single h01).tail h12).tail h23

/-- The join of `r` to the plan of the relations `π`. -/
def chainJoin (π : List Nat) (r : Nat) (plan : PhysicalPlan ℚ) : PhysicalPlan ℚ :=
  match chain.relations[r]?, findConnectingEdge (maskOf π) (relationBit r) chain with
  | some rel, some edge => generateBestCandidate chainCatalog chainStats (maskOf π) (relationBit r)
      plan (bestAccessPath chainCatalog chainStats rel) edge chain
  | _, _ => plan

theorem OrderPlan.chainJoin {π : List Nat} {r : Nat} {rel : Relation} {edge : JoinEdge}
    {plan : PhysicalPlan ℚ} (h : OrderPlan chainCatalog chainStats chain π plan) (hnew : r ∉ π)
    (hr : chain.relations[r]? = some rel)
    (hedge : findConnectingEdge (maskOf π) (relationBit r) chain = some edge) :
    OrderPlan chainCatalog chainStats chain (r :: π) (chainJoin π r plan) := by
  rw [SqlOptimizer.chainJoin, hr, hedge]
  exact .next h hr hnew hedge generateBestCandidate_mem

/-- `a`, `b`, `c`, `d` in this order. -/
def chainInOrder : PhysicalPlan ℚ :=
  chainJoin [2, 1, 0] 3 (chainJoin [1, 0] 2 (chainJoin [0] 1
    (bestAccessPath chainCatalog chainStats ⟨0, "a", none, []⟩)))

theorem chainInOrder_orderPlan :
    OrderPlan chainCatalog chainStats chain [3, 2, 1, 0] chainInOrder := by
  have ha : OrderPlan chainCatalog chainStats chain [0] _ := .first rfl
  have hb := ha.chainJoin (r := 1) (by decide) rfl rfl
  have hc := hb.chainJoin (r := 2) (by decide) rfl rfl
  exact hc.chainJoin (r := 3) (by decide) rfl rfl

/-- From `c` through the index to `b` is the cheaper start but gives more rows than from `a`. -/
theorem findBestPlan_not_cheapest : chain.Connected ∧
    ¬ ∃ best, findBestPlan chainCatalog chainStats chain = .ok best ∧
      ∀ π plan, OrderPlan chainCatalog chainStats chain π plan → π.length = 4 →
        best.total ≤ plan.total := by
  refine ⟨chain_connected, ?_⟩
  rintro ⟨best, hbest, hmin⟩
  have hsearch : (findBestPlan chainCatalog chainStats chain).toOption.map PhysicalPlan.total =
      some (2713401 / 100) := by
    decide +kernel
  have horder : chainInOrder.total = 175578 / 25 := by decide +kernel
  have hle := hmin _ _ chainInOrder_orderPlan rfl
  rw [hbest] at hsearch
  have hcost : best.total = 2713401 / 100 := Option.some.inj hsearch
  rw [hcost, horder] at hle
  norm_num at hle

end SqlOptimizer
