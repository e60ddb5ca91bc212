import SqlOptimizer.Library.Contraction
import SqlOptimizer.Logical.Pushdown
import Mathlib.Tactic.Abel
import Mathlib.Algebra.Order.Group.Multiset

/-! The greedy loop of `reorder_joins`: it takes one condition for each merge of two nodes, and the
conditions that are left at the end are forgotten. -/

namespace SqlOptimizer

/-! ### Conjuncts -/

def isTrueLiteral : Expression → Bool
  | .literal (.boolean true) => true
  | _ => false

/-- The conjuncts of an expression other than literal TRUE. -/
def realConjuncts (e : Expression) : List Expression := (splitAnd e).filter (!isTrueLiteral ·)

/-- A condition that says something. -/
def isLive (e : Expression) : Bool := !(realConjuncts e).isEmpty

def LogicalPlan.realConjuncts (p : LogicalPlan) : List Expression :=
  p.conjuncts.filter (!isTrueLiteral ·)

theorem columns_eq_nil_of_isTrueLiteral {e : Expression} (h : isTrueLiteral e = true) :
    e.columns = [] := by
  unfold isTrueLiteral at h
  split at h
  · rfl
  · cases h

theorem mem_columns_splitAnd {e : Expression} {tc : Option String × String}
    (h : tc ∈ e.columns) : ∃ c ∈ splitAnd e, tc ∈ c.columns := by
  fun_induction splitAnd e with
  | case1 l r ihl ihr =>
    rcases List.mem_append.mp h with h | h
    · obtain ⟨c, hc, htc⟩ := ihl h
      exact ⟨c, List.mem_append_left _ hc, htc⟩
    · obtain ⟨c, hc, htc⟩ := ihr h
      exact ⟨c, List.mem_append_right _ hc, htc⟩
  | case2 e => exact ⟨e, by simp, h⟩

/-- A condition that mentions a table is not made of TRUE alone. -/
theorem isLive_of_mentions {e : Expression} {aliases : List String}
    (h : mentions e aliases = true) : isLive e = true := by
  obtain ⟨t, ht, -⟩ := List.any_eq_true.mp h
  obtain ⟨tc, htc, -⟩ := List.mem_filterMap.mp ht
  obtain ⟨c, hc, hcol⟩ := mem_columns_splitAnd htc
  have hreal : c ∈ realConjuncts e := by
    refine List.mem_filter.mpr ⟨hc, ?_⟩
    by_contra htrue
    rw [columns_eq_nil_of_isTrueLiteral (by simpa using htrue)] at hcol
    cases hcol
  cases hr : realConjuncts e with
  | nil => simp [hr] at hreal
  | cons _ _ => simp [isLive, hr]

/-! ### Join trees -/

namespace LogicalPlan

/-- Every join of the plan is INNER. -/
def innerOnly : LogicalPlan → Prop
  | .join joinType _ l r => joinType = .inner ∧ l.innerOnly ∧ r.innerOnly
  | .scan _ _ _ => True
  | .filter _ input | .aggregate _ _ input | .project _ input | .sort _ input
  | .limit _ input => input.innerOnly

theorem innerOnly.allInner {p : LogicalPlan} (h : p.innerOnly) : p.allInner = true := by
  induction p with
  | join joinType c l r ihl ihr => simp [LogicalPlan.allInner, h.1, ihl h.2.1, ihr h.2.2]
  | _ => rfl

/-- `P` holds of the tree under each join of the plan. -/
def everyJoin (P : LogicalPlan → Prop) : LogicalPlan → Prop
  | .join joinType c l r => P (.join joinType c l r) ∧ l.everyJoin P ∧ r.everyJoin P
  | .scan _ _ _ => True
  | .filter _ input | .aggregate _ _ input | .project _ input | .sort _ input
  | .limit _ input => input.everyJoin P

end LogicalPlan

theorem joinLeaves_ne_nil (p : LogicalPlan) : joinLeaves p ≠ [] := by
  induction p with
  | join joinType c l r ihl ihr => simp [joinLeaves, ihl]
  | _ => simp [joinLeaves]

/-- A tree of one leaf is that leaf. -/
theorem joinLeaves_singleton {p q : LogicalPlan} (h : joinLeaves p = [q]) :
    p = q ∧ joinConditions p = [] := by
  cases p with
  | join joinType c l r =>
    have hlen := congrArg List.length h
    have hl := List.length_pos_iff.mpr (joinLeaves_ne_nil l)
    have hr := List.length_pos_iff.mpr (joinLeaves_ne_nil r)
    simp only [joinLeaves, List.length_append, List.length_singleton] at hlen
    omega
  | _ =>
    cases h
    exact ⟨rfl, rfl⟩

theorem scans_eq_flatMap (p : LogicalPlan) : p.scans = (joinLeaves p).flatMap (·.scans) := by
  induction p with
  | join joinType c l r ihl ihr => simp [LogicalPlan.scans, joinLeaves, ← ihl, ← ihr]
  | _ => simp [joinLeaves]

/-- The conjuncts of a tree are those of its live conditions and those of its leaves. -/
theorem realConjuncts_perm (p : LogicalPlan) :
    p.realConjuncts.Perm (((joinConditions p).filter isLive).flatMap realConjuncts ++
      (joinLeaves p).flatMap (·.realConjuncts)) := by
  have hlive : ∀ cs : List Expression,
      (cs.filter isLive).flatMap realConjuncts = cs.flatMap realConjuncts := by
    intro cs
    induction cs with
    | nil => rfl
    | cons c cs ih =>
      by_cases hc : isLive c = true
      · simp [hc, ih]
      · have hnil : realConjuncts c = [] := by simpa [isLive] using hc
        simp [hc, ih, hnil]
  rw [hlive]
  induction p with
  | join joinType c l r ihl ihr =>
    have hsplit : (LogicalPlan.join joinType c l r).realConjuncts =
        realConjuncts c ++ (l.realConjuncts ++ r.realConjuncts) := by
      simp [LogicalPlan.realConjuncts, LogicalPlan.conjuncts, SqlOptimizer.realConjuncts]
    rw [hsplit]
    refine ((ihl.append ihr).append_left _).trans ?_
    simp only [joinLeaves, joinConditions, List.flatMap_cons, List.flatMap_append]
    rw [← Multiset.coe_eq_coe]
    simp only [← Multiset.coe_add]
    abel
  | _ => simp [joinConditions, joinLeaves]

/-! ### One turn of the greedy loop -/

/-- A condition touches a plan when it mentions one of its scans. -/
def touches (c : Expression) (p : LogicalPlan) : Bool := mentions c p.scanAliases

theorem touches_join (joinType : JoinType) (c : Expression) (l r : LogicalPlan) :
    Contraction.Merges touches l r (.join joinType c l r) := by
  intro d
  simp only [touches, mentions, LogicalPlan.scanAliases]
  rw [Bool.eq_iff_iff]
  simp only [Bool.or_eq_true, List.any_eq_true, decide_eq_true_iff, List.mem_append, and_or_left,
    exists_or]

theorem estimateJoinRows_lt (l r : UInt64) : estimateJoinRows l r < .ofNat (2 ^ 64 - 1) := by
  have hdiv : (l * r / 10).toNat ≤ (2 ^ 64 - 1) / 10 := by
    have hlt := (l * r).toNat_lt
    simp only [UInt64.toNat_div, UInt64.reduceToNat]
    omega
  have hmax : (UInt64.ofNat (2 ^ 64 - 1)).toNat = 2 ^ 64 - 1 := by decide
  simp only [estimateJoinRows, Max.max]
  split
  · decide
  · rw [UInt64.lt_iff_toNat_lt]
    omega

theorem mem_positionPairs {n i j : Nat} : (i, j) ∈ positionPairs n ↔ i < j ∧ j < n := by
  simp only [positionPairs, List.mem_flatMap, List.mem_map, List.mem_filter, List.mem_range,
    decide_eq_true_iff, Prod.mk.injEq]
  constructor
  · rintro ⟨i', hi', j', ⟨hj', hlt⟩, rfl, rfl⟩
    exact ⟨hlt, hj'⟩
  · rintro ⟨hlt, hj⟩
    exact ⟨i, by omega, j, ⟨hj, hlt⟩, rfl, rfl⟩

/-- What `best_pair` knows after some pairs of positions: a pair that a condition links, or that no
condition links any of them. -/
def PairingFor (nodes : List (LogicalPlan × UInt64)) (conds : List Expression)
    (seen : List (Nat × Nat)) (best : Pairing) : Prop :=
  match best.cond with
  | some k => ∃ l r c, best.i < best.j ∧ nodes[best.i]? = some l ∧ nodes[best.j]? = some r ∧
      conds[k]? = some c ∧ touches c l.1 = true ∧ touches c r.1 = true
  | none => best.i = 0 ∧ best.j = 1 ∧ best.cost = .ofNat (2 ^ 64 - 1) ∧
      ∀ ij ∈ seen, ∀ l r, nodes[ij.1]? = some l → nodes[ij.2]? = some r →
        ∀ c ∈ conds, ¬ (touches c l.1 = true ∧ touches c r.1 = true)

theorem linkingCondition_eq_some {conds : List Expression} {l r : LogicalPlan} {k : Nat}
    (h : linkingCondition conds l r = some k) :
    ∃ c, conds[k]? = some c ∧ touches c l = true ∧ touches c r = true := by
  obtain ⟨hk, hc, -⟩ := List.findIdx?_eq_some_iff_getElem.mp h
  exact ⟨conds[k], List.getElem?_eq_getElem hk, by simpa [touches] using hc⟩

theorem betterPair_pairingFor {nodes : List (LogicalPlan × UInt64)} {conds : List Expression}
    {seen : List (Nat × Nat)} {best : Pairing} {ij : Nat × Nat} (hij : ij.1 < ij.2)
    (h : PairingFor nodes conds seen best) :
    PairingFor nodes conds (seen ++ [ij]) (betterPair nodes conds best ij) := by
  -- an old pair stays good; an old failure stays one unless the new pair is linked
  have hkeep : (∀ l r, nodes[ij.1]? = some l → nodes[ij.2]? = some r →
      linkingCondition conds l.1 r.1 = none) → PairingFor nodes conds (seen ++ [ij]) best := by
    intro hnone
    unfold PairingFor at h ⊢
    split
    case h_1 k hk => simpa [hk] using h
    case h_2 hk =>
      simp only [hk] at h
      refine ⟨h.1, h.2.1, h.2.2.1, fun ij' hij' l r hl hr c hc => ?_⟩
      rcases List.mem_append.mp hij' with hold | hnew
      · exact h.2.2.2 ij' hold l r hl hr c hc
      · rw [List.mem_singleton.mp hnew] at hl hr
        have hidx := List.findIdx?_eq_none_iff.mp (hnone l r hl hr) c hc
        simpa [touches] using hidx
  unfold betterPair
  cases hl : nodes[ij.1]? with
  | none => exact hkeep fun l r h1 _ => by simp [hl] at h1
  | some l =>
    cases hr : nodes[ij.2]? with
    | none => exact hkeep fun l r _ h2 => by simp [hr] at h2
    | some r =>
      simp only
      cases hk : linkingCondition conds l.1 r.1 with
      | none =>
        refine hkeep fun l' r' h1 h2 => ?_
        cases hl.symm.trans h1
        cases hr.symm.trans h2
        exact hk
      | some k =>
        obtain ⟨c, hc, htl, htr⟩ := linkingCondition_eq_some hk
        simp only
        split
        · exact ⟨l, r, c, hij, hl, hr, hc, htl, htr⟩
        · next hcost =>
          unfold PairingFor at h ⊢
          split
          · next k' hk' => simpa [hk'] using h
          · next hk' =>
            simp only [hk'] at h
            exact absurd (h.2.2.1 ▸ estimateJoinRows_lt l.2 r.2) hcost

theorem bestPair_pairingFor (nodes : List (LogicalPlan × UInt64)) (conds : List Expression) :
    PairingFor nodes conds (positionPairs nodes.length) (bestPair nodes conds) := by
  have hfold : ∀ (pairs seen : List (Nat × Nat)) (best : Pairing), (∀ ij ∈ pairs, ij.1 < ij.2) →
      PairingFor nodes conds seen best →
        PairingFor nodes conds (seen ++ pairs) (pairs.foldl (betterPair nodes conds) best) := by
    intro pairs
    induction pairs with
    | nil => exact fun seen best _ h => by simpa using h
    | cons ij pairs ih =>
      intro seen best hlt h
      have hnext := ih (seen ++ [ij]) _ (fun x hx => hlt x (by simp [hx]))
        (betterPair_pairingFor (hlt ij (by simp)) h)
      simpa using hnext
  exact hfold (positionPairs nodes.length) [] _
    (fun ij hij => (mem_positionPairs.mp hij).1) ⟨rfl, rfl, rfl, by simp⟩

/-- An element that satisfies `p` at two positions is counted twice. -/
theorem countP_le_one {α : Type} {p : α → Bool} {l : List α}
    (h : ∀ i j : Nat, i < j → ∀ a b, l[i]? = some a → l[j]? = some b → ¬ (p a = true ∧ p b = true)) :
    l.countP p ≤ 1 := by
  induction l with
  | nil => simp
  | cons a l ih =>
    have htail : l.countP p ≤ 1 := ih fun i j hij x y hx hy =>
      h (i + 1) (j + 1) (by omega) x y (by simpa using hx) (by simpa using hy)
    by_cases ha : p a = true
    · have hzero : l.countP p = 0 := by
        rw [List.countP_eq_zero]
        intro b hb hpb
        obtain ⟨j, hj⟩ := List.mem_iff_getElem?.mp hb
        exact h 0 (j + 1) (by omega) a b (by simp) (by simpa using hj) ⟨ha, hpb⟩
      simp [ha, hzero]
    · simpa [ha] using htail

theorem perm_two_of_getElem? {α : Type} {l : List α} {i j : Nat} {a b : α} (hij : i < j)
    (hi : l[i]? = some a) (hj : l[j]? = some b) :
    l.Perm (a :: b :: (l.eraseIdx j).eraseIdx i) := by
  obtain ⟨hjlt, rfl⟩ := List.getElem?_eq_some_iff.mp hj
  obtain ⟨hilt, rfl⟩ := List.getElem?_eq_some_iff.mp hi
  have hlt : i < (l.eraseIdx j).length := by
    rw [List.length_eraseIdx_of_lt hjlt]
    omega
  have hget : (l.eraseIdx j)[i] = l[i] := List.getElem_eraseIdx_of_lt hlt hij
  calc l.Perm (l[j] :: l.eraseIdx j) := (List.getElem_cons_eraseIdx_perm hjlt).symm
    List.Perm _ (l[j] :: l[i] :: (l.eraseIdx j).eraseIdx i) := by
        rw [← hget]
        exact ((List.getElem_cons_eraseIdx_perm hlt).symm).cons _
    List.Perm _ _ := List.Perm.swap _ _ _

/-- One turn: two nodes become one by a condition that touches both, or by TRUE when no condition
touches two nodes. -/
theorem greedyStep_cases (catalog : Catalog) {nodes : List (LogicalPlan × UInt64)}
    (conds : List Expression) (h : 1 < nodes.length) :
    ∃ l r rest, (nodes.map (·.1)).Perm (l :: r :: rest) ∧
      ((∃ c, conds.Perm (c :: (greedyStep catalog nodes conds).2) ∧ touches c l = true ∧
          touches c r = true ∧
          ((greedyStep catalog nodes conds).1.map (·.1)).Perm (.join .inner c l r :: rest)) ∨
        ((greedyStep catalog nodes conds).2 = conds ∧
          (∀ c ∈ conds, Contraction.degree touches c (nodes.map (·.1)) ≤ 1) ∧
          ((greedyStep catalog nodes conds).1.map (·.1)).Perm
            (.join .inner .trueLiteral l r :: rest))) := by
  have hbest := bestPair_pairingFor nodes conds
  unfold PairingFor at hbest
  split at hbest
  case h_1 k hk =>
    obtain ⟨l, r, c, hij, hl, hr, hc, htl, htr⟩ := hbest
    obtain ⟨hklt, rfl⟩ := List.getElem?_eq_some_iff.mp hc
    refine ⟨l.1, r.1, _, ((perm_two_of_getElem? hij hl hr).map _), .inl ⟨conds[k], ?_⟩⟩
    simp only [greedyStep, hl, hr, hk, Option.bind_some, hc, Option.getD_some]
    refine ⟨(List.getElem_cons_eraseIdx_perm hklt).symm, htl, htr, ?_⟩
    simp
  case h_2 hk =>
    obtain ⟨hi, hj, -, hnone⟩ := hbest
    obtain ⟨l, hl⟩ : ∃ l, nodes[0]? = some l := ⟨_, List.getElem?_eq_getElem (by omega)⟩
    obtain ⟨r, hr⟩ : ∃ r, nodes[1]? = some r := ⟨_, List.getElem?_eq_getElem h⟩
    refine ⟨l.1, r.1, _, ((perm_two_of_getElem? (by omega) hl hr).map _), .inr ?_⟩
    simp only [greedyStep, hi, hj, hl, hr, hk, Option.bind_none, Option.getD_none]
    refine ⟨trivial, fun c hc => ?_, ?_⟩
    · apply countP_le_one
      intro i j hij a b ha hb
      rw [List.getElem?_map, Option.map_eq_some_iff] at ha hb
      obtain ⟨x, hx, rfl⟩ := ha
      obtain ⟨y, hy, rfl⟩ := hb
      exact hnone (i, j) (mem_positionPairs.mpr ⟨hij, (List.getElem?_eq_some_iff.mp hy).1⟩) x y hx
        hy c hc
    · simp

/-! ### The greedy loop -/

/-- What a run of the loop makes of its nodes and conditions: one tree over their leaves, with the
conditions that are not left over. -/
structure Reordered (plans : List LogicalPlan) (conds : List Expression) (tree : LogicalPlan)
    (left : List Expression) : Prop where
  leaves : (joinLeaves tree).Perm (plans.flatMap joinLeaves)
  conditions : ((joinConditions tree).filter isLive ++ left.filter isLive).Perm
    ((plans.flatMap joinConditions).filter isLive ++ conds.filter isLive)
  inner : (∀ p ∈ plans, p.innerOnly) → tree.innerOnly
  kept : Contraction.Acyclic touches (conds.filter isLive) plans → left.filter isLive = []
  spread : left.filter isLive = [] → Contraction.Spread touches (conds.filter isLive) plans

theorem isLive_trueLiteral : isLive .trueLiteral = false := rfl

theorem acyclic_nil (plans : List LogicalPlan) : Contraction.Acyclic touches [] plans := by
  refine ⟨by simp, fun S hS hne => absurd (List.subperm_nil.mp hS) hne⟩

/-- A run after one turn that used condition `c`. -/
theorem Reordered.of_contract {plans rest plans' : List LogicalPlan} {l r tree : LogicalPlan}
    {c : Expression} {conds conds' left : List Expression} (hp : plans.Perm (l :: r :: rest))
    (hc : conds.Perm (c :: conds')) (hl : touches c l = true) (hr : touches c r = true)
    (hp' : plans'.Perm (.join .inner c l r :: rest)) (h : Reordered plans' conds' tree left) :
    Reordered plans conds tree left := by
  have hlive : (conds.filter isLive).Perm (c :: conds'.filter isLive) := by
    have := hc.filter isLive
    rwa [List.filter_cons_of_pos (isLive_of_mentions hl)] at this
  constructor
  · refine h.leaves.trans ((hp'.flatMap_right _).trans ?_)
    refine List.Perm.trans ?_ (hp.flatMap_right _).symm
    simp [joinLeaves]
  · have hconds : (plans'.flatMap joinConditions).Perm (c :: plans.flatMap joinConditions) := by
      refine (hp'.flatMap_right _).trans ?_
      have hsame : (LogicalPlan.join .inner c l r :: rest).flatMap joinConditions =
          c :: (l :: r :: rest).flatMap joinConditions := by
        simp [joinConditions]
      rw [hsame]
      exact ((hp.flatMap_right _).symm).cons c
    have hfilter := hconds.filter isLive
    rw [List.filter_cons_of_pos (isLive_of_mentions hl)] at hfilter
    refine h.conditions.trans ((hfilter.append_right _).trans ?_)
    exact List.perm_middle.symm.trans (hlive.symm.append_left _)
  · intro hinner
    apply h.inner
    intro p hpmem
    rcases List.mem_cons.mp (hp'.mem_iff.mp hpmem) with rfl | hpmem
    · exact ⟨rfl, hinner l (hp.mem_iff.mpr (by simp)), hinner r (hp.mem_iff.mpr (by simp))⟩
    · exact hinner p (hp.mem_iff.mpr (by simp [hpmem]))
  · intro hacyclic
    exact h.kept (((hacyclic.perm hlive hp).contract ⟨hl, hr⟩ (touches_join .inner c l r)).perm
      (.refl _) hp'.symm)
  · intro hleft
    exact (((h.spread hleft).perm (.refl _) hp').of_contract ⟨hl, hr⟩
      (touches_join .inner c l r)).perm hlive.symm hp.symm

/-- A run after one turn in which no condition touched two nodes. -/
theorem Reordered.of_merge {plans rest plans' : List LogicalPlan} {l r tree : LogicalPlan}
    {conds left : List Expression} (hp : plans.Perm (l :: r :: rest))
    (hone : ∀ c ∈ conds, Contraction.degree touches c plans ≤ 1)
    (hp' : plans'.Perm (.join .inner .trueLiteral l r :: rest))
    (h : Reordered plans' conds tree left) : Reordered plans conds tree left := by
  constructor
  · refine h.leaves.trans ((hp'.flatMap_right _).trans ?_)
    refine List.Perm.trans ?_ (hp.flatMap_right _).symm
    simp [joinLeaves]
  · have hconds : ((plans'.flatMap joinConditions).filter isLive).Perm
        ((plans.flatMap joinConditions).filter isLive) := by
      refine ((hp'.flatMap_right _).filter _).trans ?_
      refine List.Perm.trans ?_ ((hp.flatMap_right _).filter _).symm
      simp [joinConditions, isLive_trueLiteral]
    exact h.conditions.trans (hconds.append_right _)
  · intro hinner
    apply h.inner
    intro p hpmem
    rcases List.mem_cons.mp (hp'.mem_iff.mp hpmem) with rfl | hpmem
    · exact ⟨rfl, hinner l (hp.mem_iff.mpr (by simp)), hinner r (hp.mem_iff.mpr (by simp))⟩
    · exact hinner p (hp.mem_iff.mpr (by simp [hpmem]))
  · intro hacyclic
    -- a forest has no condition that touches one node only
    have hnil : conds.filter isLive = [] := by
      rw [List.eq_nil_iff_forall_not_mem]
      intro c hc
      have := hacyclic.1 c hc
      have := hone c (List.mem_of_mem_filter hc)
      omega
    apply h.kept
    rw [hnil]
    exact acyclic_nil _
  · intro hleft
    exact (((h.spread hleft).perm (.refl _) hp').of_merge (touches_join .inner .trueLiteral l r)).perm
      (.refl _) hp.symm

theorem greedyStep_length (catalog : Catalog) {nodes : List (LogicalPlan × UInt64)}
    (conds : List Expression) (h : 1 < nodes.length) :
    (greedyStep catalog nodes conds).1.length + 1 = nodes.length := by
  obtain ⟨l, r, rest, hp, ⟨c, -, -, -, hp'⟩ | ⟨-, -, hp'⟩⟩ := greedyStep_cases catalog conds h
  · have h1 := hp.length_eq
    have h2 := hp'.length_eq
    simp only [List.length_map, List.length_cons] at h1 h2
    omega
  · have h1 := hp.length_eq
    have h2 := hp'.length_eq
    simp only [List.length_map, List.length_cons] at h1 h2
    omega

/-- One node is its own tree, and every condition is left. -/
theorem Reordered.single (node : LogicalPlan) (conds : List Expression) :
    Reordered [node] conds node conds := by
  constructor
  · simp
  · simp
  · simp
  · intro hacyclic
    rw [List.eq_nil_iff_forall_not_mem]
    intro c hc
    have h1 := hacyclic.1 c hc
    have h2 : Contraction.degree touches c [node] ≤ 1 := List.countP_le_length
    omega
  · intro hleft
    rw [hleft]
    exact fun S hS hne => absurd (List.subperm_nil.mp hS) hne

theorem greedyLoop_reordered (catalog : Catalog) (fuel : Nat)
    (nodes : List (LogicalPlan × UInt64)) (conds : List Expression) (hne : nodes ≠ [])
    (hfuel : nodes.length ≤ fuel + 1) :
    ∃ node left, greedyLoop catalog fuel nodes conds = [node] ∧
      Reordered (nodes.map (·.1)) conds node.1 left := by
  have hone : ∀ {ns : List (LogicalPlan × UInt64)} (cs : List Expression), ns ≠ [] →
      ¬ 1 < ns.length → ∃ node left, ns = [node] ∧ Reordered (ns.map (·.1)) cs node.1 left := by
    intro ns cs hne hlen
    have hpos := List.length_pos_iff.mpr hne
    obtain ⟨node, rfl⟩ := List.length_eq_one_iff.mp (show ns.length = 1 by omega)
    exact ⟨node, cs, rfl, .single node.1 cs⟩
  induction fuel generalizing nodes conds with
  | zero =>
    unfold greedyLoop
    exact hone conds hne (by omega)
  | succ fuel ih =>
    unfold greedyLoop
    split
    case isFalse h => exact hone conds hne h
    case isTrue h =>
      have hlen := greedyStep_length catalog conds h
      obtain ⟨node, left, hloop, hrun⟩ := ih (greedyStep catalog nodes conds).1
        (greedyStep catalog nodes conds).2 (List.length_pos_iff.mp (by omega)) (by omega)
      refine ⟨node, left, hloop, ?_⟩
      obtain ⟨l, r, rest, hp, ⟨c, hc, hl, hr, hp'⟩ | ⟨hc, hnone, hp'⟩⟩ :=
        greedyStep_cases catalog conds h
      · exact hrun.of_contract hp hc hl hr hp'
      · rw [hc] at hrun
        exact hrun.of_merge hp hnone hp'

end SqlOptimizer
