import SqlOptimizer.Logical.Optimizer
import Mathlib.Algebra.Order.Group.Multiset
import Mathlib.Tactic.Abel

/-! What predicate and projection pushdown leave alone: the scans of a plan, its join tree and its
conjuncts. -/

namespace SqlOptimizer

theorem scanAliases_eq_map (p : LogicalPlan) :
    p.scanAliases = p.scans.map fun s => s.2.getD s.1 := by
  induction p with
  | join joinType c l r ihl ihr => simp only [LogicalPlan.scanAliases, LogicalPlan.scans, ihl, ihr,
      List.map_append]
  | scan => rfl
  | _ => assumption

/-! ### Filters on a plan -/

theorem wrapFilters_cons (plan : LogicalPlan) (f : Expression) (fs : List Expression) :
    wrapFilters plan (f :: fs) = wrapFilters (.filter f plan) fs := rfl

@[simp] theorem scans_wrapFilters (plan : LogicalPlan) (fs : List Expression) :
    (wrapFilters plan fs).scans = plan.scans := by
  induction fs generalizing plan with
  | nil => rfl
  | cons f fs ih => rw [wrapFilters_cons, ih, LogicalPlan.scans]

theorem conjuncts_wrapFilters (plan : LogicalPlan) (fs : List Expression) :
    (wrapFilters plan fs).conjuncts.Perm (fs.flatMap splitAnd ++ plan.conjuncts) := by
  induction fs generalizing plan with
  | nil => exact .refl _
  | cons f fs ih =>
    rw [wrapFilters_cons, List.flatMap_cons]
    refine (ih (.filter f plan)).trans ?_
    rw [LogicalPlan.conjuncts, ← List.append_assoc]
    exact List.perm_append_comm.append_right _

theorem splitAnd_of_mem {e c : Expression} (h : c ∈ splitAnd e) : splitAnd c = [c] := by
  fun_induction splitAnd e with
  | case1 l r ihl ihr => exact (List.mem_append.mp h).elim ihl ihr
  | case2 e he =>
    rw [List.mem_singleton.mp h]
    exact splitAnd.eq_2 e he

theorem flatMap_splitAnd {e : Expression} {cs : List Expression} (h : cs ⊆ splitAnd e) :
    cs.flatMap splitAnd = cs := by
  rw [List.flatMap_congr fun c hc => splitAnd_of_mem (h hc)]
  simp

/-- Each conjunct goes to one of the three places. -/
theorem classifyConjuncts_perm (leftAliases rightAliases : List String)
    (conjuncts : List Expression) :
    ((classifyConjuncts leftAliases rightAliases conjuncts).1 ++
      ((classifyConjuncts leftAliases rightAliases conjuncts).2.1 ++
        (classifyConjuncts leftAliases rightAliases conjuncts).2.2)).Perm conjuncts := by
  induction conjuncts with
  | nil => exact .refl _
  | cons e es ih =>
    have hstay : ∀ A B C : List Expression, (A ++ (B ++ e :: C)).Perm (e :: (A ++ (B ++ C))) :=
      fun A B C => (List.perm_middle.append_left A).trans List.perm_middle
    simp only [classifyConjuncts, List.filter_cons] at ih ⊢
    cases mentions e leftAliases with
    | false =>
      cases mentions e rightAliases with
      | false => exact (hstay _ _ _).trans (ih.cons e)
      | true => exact List.perm_middle.trans (ih.cons e)
    | true =>
      cases mentions e rightAliases with
      | false => exact ih.cons e
      | true => exact (hstay _ _ _).trans (ih.cons e)

theorem classifyConjuncts_subset (leftAliases rightAliases : List String)
    (conjuncts : List Expression) :
    (classifyConjuncts leftAliases rightAliases conjuncts).1 ⊆ conjuncts ∧
      (classifyConjuncts leftAliases rightAliases conjuncts).2.1 ⊆ conjuncts ∧
        (classifyConjuncts leftAliases rightAliases conjuncts).2.2 ⊆ conjuncts :=
  ⟨List.filter_subset_self _, List.filter_subset_self _, List.filter_subset_self _⟩

/-! ### Predicate pushdown -/

/-- What a filter over a join moves to its left input, to its right input, and keeps. -/
def movedParts (predicate : Expression) (left right : LogicalPlan) :
    List Expression × List Expression × List Expression :=
  classifyConjuncts left.scanAliases right.scanAliases (splitAnd predicate)

/-- A filter over a join whose inputs are pushed already. -/
def pushIntoJoin (predicate : Expression) (joinType : JoinType) (condition : Expression)
    (left right : LogicalPlan) : LogicalPlan :=
  wrapFilters (.join joinType condition (wrapFilters left (movedParts predicate left right).1)
    (wrapFilters right (movedParts predicate left right).2.1)) (movedParts predicate left right).2.2

/-- A filter lands on the two sides of a join, or stays where it is. -/
theorem pushPredicates_filter (predicate : Expression) (input : LogicalPlan) :
    (∃ joinType condition left right,
      pushPredicates input = .join joinType condition left right ∧
        pushPredicates (.filter predicate input) =
          pushIntoJoin predicate joinType condition left right) ∨
      pushPredicates (.filter predicate input) = .filter predicate (pushPredicates input) := by
  rw [pushPredicates]
  cases pushPredicates input with
  | join joinType condition left right => exact .inl ⟨joinType, condition, left, right, rfl, rfl⟩
  | _ => exact .inr rfl

theorem scans_pushPredicates (p : LogicalPlan) : (pushPredicates p).scans = p.scans := by
  induction p with
  | filter predicate input ih =>
    obtain ⟨joinType, condition, left, right, hinput, heq⟩ | heq :=
      pushPredicates_filter predicate input
    · rw [hinput] at ih
      rw [heq, pushIntoJoin, scans_wrapFilters]
      simpa [LogicalPlan.scans] using ih
    · rw [heq]
      exact ih
  | join joinType condition left right ihl ihr =>
    simp only [pushPredicates, LogicalPlan.scans, ihl, ihr]
  | scan => rfl
  | _ => assumption

theorem scanAliases_pushPredicates (p : LogicalPlan) :
    (pushPredicates p).scanAliases = p.scanAliases := by
  rw [scanAliases_eq_map, scanAliases_eq_map, scans_pushPredicates]

theorem conjuncts_pushIntoJoin (predicate : Expression) (joinType : JoinType)
    (condition : Expression) (left right : LogicalPlan) :
    (pushIntoJoin predicate joinType condition left right).conjuncts.Perm
      (splitAnd predicate ++ (LogicalPlan.join joinType condition left right).conjuncts) := by
  obtain ⟨hsubL, hsubR, hsubT⟩ :=
    classifyConjuncts_subset left.scanAliases right.scanAliases (splitAnd predicate)
  have hparts := classifyConjuncts_perm left.scanAliases right.scanAliases (splitAnd predicate)
  unfold pushIntoJoin movedParts
  generalize classifyConjuncts left.scanAliases right.scanAliases (splitAnd predicate) = parts at *
  have hL := conjuncts_wrapFilters left parts.1
  have hR := conjuncts_wrapFilters right parts.2.1
  rw [flatMap_splitAnd hsubL] at hL
  rw [flatMap_splitAnd hsubR] at hR
  refine (conjuncts_wrapFilters _ parts.2.2).trans ?_
  rw [flatMap_splitAnd hsubT]
  refine List.Perm.trans ?_ (hparts.append_right _)
  simp only [LogicalPlan.conjuncts]
  refine (((hL.append hR).append_left (splitAnd condition)).append_left _).trans ?_
  rw [← Multiset.coe_eq_coe]
  simp only [← Multiset.coe_add]
  abel

theorem conjuncts_pushPredicates (p : LogicalPlan) :
    (pushPredicates p).conjuncts.Perm p.conjuncts := by
  induction p with
  | filter predicate input ih =>
    obtain ⟨joinType, condition, left, right, hinput, heq⟩ | heq :=
      pushPredicates_filter predicate input
    · rw [hinput] at ih
      rw [heq]
      exact (conjuncts_pushIntoJoin predicate joinType condition left right).trans
        (ih.append_left _)
    · rw [heq]
      exact ih.append_left _
  | join joinType condition left right ihl ihr => exact (ihl.append ihr).append_left _
  | scan => exact .refl _
  | _ => assumption

/-! ### Projection pushdown -/

section

attribute [local simp] pushProjections LogicalPlan.scans LogicalPlan.conjuncts joinConditions
  joinLeaves LogicalPlan.scanAliases

@[simp] theorem scans_pushProjections (p : LogicalPlan) (needed : List String) :
    (pushProjections p needed).scans = p.scans := by
  induction p generalizing needed with
  | join joinType condition left right ihl ihr => simp [ihl, ihr]
  | scan => rfl
  | _ => simp_all

@[simp] theorem scanAliases_pushProjections (p : LogicalPlan) (needed : List String) :
    (pushProjections p needed).scanAliases = p.scanAliases := by
  rw [scanAliases_eq_map, scanAliases_eq_map, scans_pushProjections]

@[simp] theorem conjuncts_pushProjections (p : LogicalPlan) (needed : List String) :
    (pushProjections p needed).conjuncts = p.conjuncts := by
  induction p generalizing needed with
  | join joinType condition left right ihl ihr => simp [ihl, ihr]
  | scan => rfl
  | _ => simp_all

@[simp] theorem joinConditions_pushProjections (p : LogicalPlan) (needed : List String) :
    joinConditions (pushProjections p needed) = joinConditions p := by
  induction p generalizing needed with
  | join joinType condition left right ihl ihr => simp [ihl, ihr]
  | _ => rfl

@[simp] theorem joinLeaves_pushProjections (p : LogicalPlan) (needed : List String) :
    (joinLeaves (pushProjections p needed)).map (·.scanAliases) =
      (joinLeaves p).map (·.scanAliases) := by
  induction p generalizing needed with
  | join joinType condition left right ihl ihr => simp [ihl, ihr]
  | scan => rfl
  | _ => simp

end

end SqlOptimizer
