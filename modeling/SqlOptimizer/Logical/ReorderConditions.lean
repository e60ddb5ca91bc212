import SqlOptimizer.Logical.GreedyOrder
import Mathlib.Tactic.Abel
import Mathlib.Algebra.Order.Group.Multiset

/-! Which conditions survive the logical optimizer.  Pushdown keeps every conjunct.  Reordering a
tree of three inputs or more loses the conditions that the greedy loop leaves over. -/

namespace SqlOptimizer

/-! ### Reordering a plan -/

theorem joinLeaves_of_mem {p q : LogicalPlan} (h : q ∈ joinLeaves p) :
    joinLeaves q = [q] ∧ joinConditions q = [] := by
  induction p with
  | join joinType c l r ihl ihr => exact (List.mem_append.mp h).elim ihl ihr
  | _ =>
    cases List.mem_singleton.mp h
    exact ⟨rfl, rfl⟩

theorem flatMap_joinLeaves (p : LogicalPlan) : (joinLeaves p).flatMap joinLeaves = joinLeaves p := by
  rw [List.flatMap_congr fun q hq => (joinLeaves_of_mem hq).1]
  simp

theorem flatMap_joinConditions (p : LogicalPlan) : (joinLeaves p).flatMap joinConditions = [] := by
  rw [List.flatMap_congr fun q hq => (joinLeaves_of_mem hq).2]
  simp

theorem innerOnly_of_mem_joinLeaves {p q : LogicalPlan} (hp : p.innerOnly)
    (h : q ∈ joinLeaves p) : q.innerOnly := by
  induction p with
  | join joinType c l r ihl ihr =>
    exact (List.mem_append.mp h).elim (ihl hp.2.1) (ihr hp.2.2)
  | _ =>
    cases List.mem_singleton.mp h
    exact hp

theorem reorderTree_reordered (catalog : Catalog) {joined : LogicalPlan}
    (hinner : joined.allInner = true) (hthree : 3 ≤ (joinLeaves joined).length) :
    ∃ left, Reordered (joinLeaves joined) (joinConditions joined) (reorderTree catalog joined)
      left := by
  unfold reorderTree
  rw [if_pos hinner]
  split
  case h_1 hnil => exact absurd hnil (joinLeaves_ne_nil joined)
  case h_2 leaf leaves hleaves =>
    have hlen : 2 ≤ leaves.length := by
      simp only [hleaves, List.length_cons] at hthree
      omega
    obtain ⟨node, left, hloop, hrun⟩ := greedyLoop_reordered catalog (leaves.length + 1)
      ((leaf :: leaves).map fun p => (p, estimateRows catalog p)) (joinConditions joined) (by simp)
      (by simp)
    refine ⟨left, ?_⟩
    simp only [if_pos hlen, greedyJoinOrder, List.length_map, List.length_cons, hloop]
    simpa [hleaves, Function.comp_def] using hrun

/-- A join of two leaves stays as it is. -/
theorem reorderTree_two (catalog : Catalog) (joinType : JoinType) (c : Expression)
    (l r : LogicalPlan) (htwo : ¬ 3 ≤ (joinLeaves (.join joinType c l r)).length) :
    reorderTree catalog (.join joinType c l r) = .join joinType c l r := by
  have hl := List.length_pos_iff.mpr (joinLeaves_ne_nil l)
  have hr := List.length_pos_iff.mpr (joinLeaves_ne_nil r)
  simp only [joinLeaves, List.length_append] at htwo
  obtain ⟨l', hl'⟩ := List.length_eq_one_iff.mp (show (joinLeaves l).length = 1 by omega)
  obtain ⟨r', hr'⟩ := List.length_eq_one_iff.mp (show (joinLeaves r).length = 1 by omega)
  obtain ⟨rfl, hcl⟩ := joinLeaves_singleton hl'
  obtain ⟨rfl, hcr⟩ := joinLeaves_singleton hr'
  unfold reorderTree
  split
  case isFalse => rfl
  case isTrue hinner =>
    have htype : joinType = .inner := by
      simp only [LogicalPlan.allInner, Bool.and_eq_true, beq_iff_eq] at hinner
      exact hinner.1.1
    simp [joinLeaves, joinConditions, hl', hr', hcl, hcr, rebuildJoinTree, htype]

theorem joinLeaves_reorderTree (catalog : Catalog) (joinType : JoinType) (c : Expression)
    (l r : LogicalPlan) :
    (joinLeaves (reorderTree catalog (.join joinType c l r))).Perm
      (joinLeaves l ++ joinLeaves r) := by
  by_cases hthree : 3 ≤ (joinLeaves (.join joinType c l r)).length
  · cases hinner : (LogicalPlan.join joinType c l r).allInner with
    | true =>
      obtain ⟨left, hrun⟩ := reorderTree_reordered catalog hinner hthree
      have hleaves := hrun.leaves
      rwa [flatMap_joinLeaves] at hleaves
    | false => simp [reorderTree, hinner, joinLeaves]
  · rw [reorderTree_two catalog joinType c l r hthree]
    simp [joinLeaves]

section Reorder

variable (catalog : Catalog)

theorem joinLeaves_reorderJoins (p : LogicalPlan) :
    (joinLeaves (reorderJoins catalog p)).Perm ((joinLeaves p).map (reorderJoins catalog)) := by
  induction p with
  | join joinType c l r ihl ihr =>
    refine (joinLeaves_reorderTree catalog joinType c _ _).trans ?_
    rw [joinLeaves, List.map_append]
    exact ihl.append ihr
  | _ => simp [reorderJoins, joinLeaves]

theorem scans_reorderJoins (p : LogicalPlan) : (reorderJoins catalog p).scans.Perm p.scans := by
  induction p with
  | join joinType c l r ihl ihr =>
    rw [reorderJoins, scans_eq_flatMap]
    refine ((joinLeaves_reorderTree catalog joinType c _ _).flatMap_right _).trans ?_
    rw [List.flatMap_append, ← scans_eq_flatMap, ← scans_eq_flatMap]
    exact ihl.append ihr
  | scan => exact .refl _
  | _ => assumption

theorem scanAliases_reorderJoins (p : LogicalPlan) :
    (reorderJoins catalog p).scanAliases.Perm p.scanAliases := by
  rw [scanAliases_eq_map, scanAliases_eq_map]
  exact (scans_reorderJoins catalog p).map _

theorem touches_reorderJoins (c : Expression) (p : LogicalPlan) :
    touches c (reorderJoins catalog p) = touches c p := by
  simp only [touches, mentions, (scanAliases_reorderJoins catalog p).mem_iff]

end Reorder

/-! ### What reordering loses -/

/-- The conditions of a join tree that say something. -/
def liveConditions (p : LogicalPlan) : List Expression := (joinConditions p).filter isLive

/-- In each join tree of three inputs or more, every condition links two inputs or more, and the
conditions and the inputs that they mention form a forest. -/
def acyclicJoins (p : LogicalPlan) : Prop :=
  p.everyJoin fun q => 3 ≤ (joinLeaves q).length →
    Contraction.Acyclic touches (liveConditions q) (joinLeaves q)

/-- In each join tree of three inputs or more, any number of conditions mention more inputs than
they are. -/
def spreadJoins (p : LogicalPlan) : Prop :=
  p.everyJoin fun q => 3 ≤ (joinLeaves q).length →
    Contraction.Spread touches (liveConditions q) (joinLeaves q)

/-- `q` is `p` reordered, and `lost` are the conditions of `p` that `q` does not have. -/
structure LosesOnly (p q : LogicalPlan) (lost : List Expression) : Prop where
  live : ∀ c ∈ lost, isLive c = true
  inner : q.innerOnly
  conjuncts : (q.realConjuncts ++ lost.flatMap realConjuncts).Perm p.realConjuncts
  conditions : lost = [] → (liveConditions q).Perm (liveConditions p)
  acyclic : acyclicJoins p → lost = []
  spread : lost = [] → spreadJoins p

theorem realConjuncts_filter (e : Expression) (p : LogicalPlan) :
    (LogicalPlan.filter e p).realConjuncts = realConjuncts e ++ p.realConjuncts := by
  simp [LogicalPlan.realConjuncts, LogicalPlan.conjuncts, realConjuncts]

theorem realConjuncts_join (joinType : JoinType) (c : Expression) (l r : LogicalPlan) :
    (LogicalPlan.join joinType c l r).realConjuncts =
      realConjuncts c ++ (l.realConjuncts ++ r.realConjuncts) := by
  simp [LogicalPlan.realConjuncts, LogicalPlan.conjuncts, realConjuncts]

theorem Reordered.realConjuncts_perm {p tree : LogicalPlan} {left : List Expression}
    (h : Reordered (joinLeaves p) (joinConditions p) tree left) :
    (tree.realConjuncts ++ (left.filter isLive).flatMap realConjuncts).Perm p.realConjuncts := by
  have hconds := h.conditions
  have hleaves := h.leaves
  rw [flatMap_joinConditions, List.filter_nil, List.nil_append] at hconds
  rw [flatMap_joinLeaves] at hleaves
  have hc := hconds.flatMap_right realConjuncts
  rw [List.flatMap_append] at hc
  refine ((SqlOptimizer.realConjuncts_perm tree).append_right _).trans ?_
  refine List.Perm.trans ?_ (SqlOptimizer.realConjuncts_perm p).symm
  refine List.Perm.trans ?_ (hc.append (hleaves.flatMap_right _))
  simp only [List.append_assoc]
  exact List.perm_append_comm.append_left _

section Reorder

variable (catalog : Catalog)

/-- The condition of a join and those that its reordered inputs still have. -/
theorem liveConditions_join_reordered {c : Expression} {l r l' r' : LogicalPlan}
    (hl : (liveConditions l').Perm (liveConditions l))
    (hr : (liveConditions r').Perm (liveConditions r)) :
    (liveConditions (.join .inner c l' r')).Perm (liveConditions (.join .inner c l r)) := by
  simp only [liveConditions, joinConditions, List.filter_cons, List.filter_append] at hl hr ⊢
  split
  · exact (hl.append hr).cons c
  · exact hl.append hr

theorem joinLeaves_join_reorderJoins (joinType : JoinType) (c : Expression) (l r : LogicalPlan) :
    (joinLeaves (.join joinType c (reorderJoins catalog l) (reorderJoins catalog r))).Perm
      ((joinLeaves (.join joinType c l r)).map (reorderJoins catalog)) := by
  simp only [joinLeaves, List.map_append]
  exact (joinLeaves_reorderJoins catalog l).append (joinLeaves_reorderJoins catalog r)

theorem reorderJoins_losesOnly {p : LogicalPlan} (hp : p.innerOnly) :
    ∃ lost, LosesOnly p (reorderJoins catalog p) lost := by
  induction p with
  | scan tableName aliasName projectedColumns =>
    refine ⟨[], by simp, trivial, ?_, fun _ => .refl _, fun _ => rfl, fun _ => trivial⟩
    simp [reorderJoins]
  | filter e input ih =>
    obtain ⟨lost, h⟩ := ih hp
    refine ⟨lost, h.live, h.inner, ?_, fun _ => .refl _, h.acyclic, h.spread⟩
    simp only [reorderJoins, realConjuncts_filter, List.append_assoc]
    exact h.conjuncts.append_left _
  | aggregate groupBy aggregates input ih =>
    obtain ⟨lost, h⟩ := ih hp
    exact ⟨lost, h.live, h.inner, h.conjuncts, fun _ => .refl _, h.acyclic, h.spread⟩
  | project expressions input ih =>
    obtain ⟨lost, h⟩ := ih hp
    exact ⟨lost, h.live, h.inner, h.conjuncts, fun _ => .refl _, h.acyclic, h.spread⟩
  | sort orderBy input ih =>
    obtain ⟨lost, h⟩ := ih hp
    exact ⟨lost, h.live, h.inner, h.conjuncts, fun _ => .refl _, h.acyclic, h.spread⟩
  | limit count input ih =>
    obtain ⟨lost, h⟩ := ih hp
    exact ⟨lost, h.live, h.inner, h.conjuncts, fun _ => .refl _, h.acyclic, h.spread⟩
  | join joinType c l r ihl ihr =>
    obtain ⟨rfl, hpl, hpr⟩ := hp
    obtain ⟨lostL, hl⟩ := ihl hpl
    obtain ⟨lostR, hr⟩ := ihr hpr
    have hleaves := joinLeaves_join_reorderJoins catalog .inner c l r
    have hlen := hleaves.length_eq
    rw [List.length_map] at hlen
    have hinner : (LogicalPlan.join .inner c (reorderJoins catalog l)
        (reorderJoins catalog r)).innerOnly := ⟨rfl, hl.inner, hr.inner⟩
    -- what the inputs lose is lost before this join is looked at
    have hbelow : ((LogicalPlan.join .inner c (reorderJoins catalog l)
          (reorderJoins catalog r)).realConjuncts ++ (lostL ++ lostR).flatMap realConjuncts).Perm
        (LogicalPlan.join .inner c l r).realConjuncts := by
      have hboth := (hl.conjuncts.append hr.conjuncts).append_left (realConjuncts c)
      simp only [realConjuncts_join, List.flatMap_append]
      refine List.Perm.trans ?_ hboth
      rw [← Multiset.coe_eq_coe]
      simp only [← Multiset.coe_add]
      abel
    have hconds : lostL = [] → lostR = [] → (liveConditions (.join .inner c
        (reorderJoins catalog l) (reorderJoins catalog r))).Perm
          (liveConditions (.join .inner c l r)) := fun hL hR =>
      liveConditions_join_reordered (hl.conditions hL) (hr.conditions hR)
    rw [reorderJoins]
    by_cases hthree : 3 ≤ (joinLeaves (LogicalPlan.join .inner c l r)).length
    · obtain ⟨left, hrun⟩ := reorderTree_reordered catalog hinner.allInner (by omega)
      refine ⟨left.filter isLive ++ (lostL ++ lostR), ?_, ?_, ?_, ?_, ?_, ?_⟩
      · intro d hd
        rcases List.mem_append.mp hd with hd | hd
        · exact (List.mem_filter.mp hd).2
        · exact (List.mem_append.mp hd).elim (hl.live d) (hr.live d)
      · exact hrun.inner fun q hq => innerOnly_of_mem_joinLeaves hinner hq
      · rw [List.flatMap_append, ← List.append_assoc]
        exact (hrun.realConjuncts_perm.append_right _).trans hbelow
      · intro hnil
        obtain ⟨hleft, hL, hR⟩ := by simpa only [List.append_eq_nil_iff] using hnil
        have hkeep := hrun.conditions
        rw [flatMap_joinConditions, hleft, List.append_nil, List.filter_nil, List.nil_append] at hkeep
        exact hkeep.trans (hconds hL hR)
      · rintro ⟨htop, haccL, haccR⟩
        have hL := hl.acyclic haccL
        have hR := hr.acyclic haccR
        have hmap := (Contraction.acyclic_map_iff (touches_reorderJoins catalog)).mpr (htop hthree)
        rw [hrun.kept (hmap.perm (hconds hL hR).symm hleaves.symm), hL, hR]
        rfl
      · intro hnil
        obtain ⟨hleft, hL, hR⟩ := by simpa only [List.append_eq_nil_iff] using hnil
        have hspread := (hrun.spread hleft).perm (hconds hL hR) hleaves
        exact ⟨fun _ => (Contraction.spread_map_iff (touches_reorderJoins catalog)).mp hspread,
          hl.spread hL, hr.spread hR⟩
    · rw [reorderTree_two catalog .inner c _ _ (by omega)]
      refine ⟨lostL ++ lostR, ?_, hinner, hbelow, ?_, ?_, ?_⟩
      · exact fun d hd => (List.mem_append.mp hd).elim (hl.live d) (hr.live d)
      · intro hnil
        obtain ⟨hL, hR⟩ := List.append_eq_nil_iff.mp hnil
        exact hconds hL hR
      · rintro ⟨-, haccL, haccR⟩
        rw [hl.acyclic haccL, hr.acyclic haccR]
        rfl
      · intro hnil
        obtain ⟨hL, hR⟩ := List.append_eq_nil_iff.mp hnil
        exact ⟨fun h => absurd h hthree, hl.spread hL, hr.spread hR⟩

end Reorder

/-- Nothing is lost exactly when the conjuncts are the same. -/
theorem LosesOnly.eq_nil_iff {p q : LogicalPlan} {lost : List Expression} (h : LosesOnly p q lost) :
    lost = [] ↔ q.realConjuncts.Perm p.realConjuncts := by
  constructor
  · rintro rfl
    simpa using h.conjuncts
  · intro hsame
    have hlen := h.conjuncts.length_eq
    rw [List.length_append, hsame.length_eq] at hlen
    rw [List.eq_nil_iff_forall_not_mem]
    intro c hc
    have hnone : lost.flatMap realConjuncts = [] := List.length_eq_zero_iff.mp (by omega)
    have hempty := List.flatMap_eq_nil_iff.mp hnone c hc
    have hlive := h.live c hc
    simp [isLive, hempty] at hlive

/-! ### The whole optimizer -/

namespace LogicalPlan

theorem innerOnly_wrapFilters {p : LogicalPlan} (h : p.innerOnly) (fs : List Expression) :
    (wrapFilters p fs).innerOnly := by
  induction fs generalizing p with
  | nil => exact h
  | cons f fs ih => exact ih (p := .filter f p) h

theorem innerOnly_pushPredicates {p : LogicalPlan} (h : p.innerOnly) :
    (pushPredicates p).innerOnly := by
  induction p with
  | filter predicate input ih =>
    obtain ⟨joinType, condition, left, right, hinput, heq⟩ | heq :=
      pushPredicates_filter predicate input
    · have hjoin := ih h
      rw [hinput] at hjoin
      rw [heq]
      refine innerOnly_wrapFilters ?_ _
      exact ⟨hjoin.1, innerOnly_wrapFilters hjoin.2.1 _, innerOnly_wrapFilters hjoin.2.2 _⟩
    · rw [heq]
      exact ih h
  | join joinType condition left right ihl ihr => exact ⟨h.1, ihl h.2.1, ihr h.2.2⟩
  | scan => trivial
  | aggregate _ _ _ ih => exact ih h
  | project _ _ ih => exact ih h
  | sort _ _ ih => exact ih h
  | limit _ _ ih => exact ih h

theorem innerOnly_pushProjections {p : LogicalPlan} (h : p.innerOnly) (needed : List String) :
    (pushProjections p needed).innerOnly := by
  induction p generalizing needed with
  | join joinType condition left right ihl ihr => exact ⟨h.1, ihl h.2.1 _, ihr h.2.2 _⟩
  | scan => trivial
  | filter _ _ ih => exact ih h _
  | aggregate _ _ _ ih => exact ih h _
  | project _ _ ih => exact ih h _
  | sort _ _ ih => exact ih h _
  | limit _ _ ih => exact ih h _

/-- Projection pushdown leaves the joins alone. -/
theorem everyJoin_pushProjections {P : LogicalPlan → Prop}
    (hP : ∀ q needed, P (pushProjections q needed) ↔ P q) (p : LogicalPlan)
    (needed : List String) : (pushProjections p needed).everyJoin P ↔ p.everyJoin P := by
  induction p generalizing needed with
  | join joinType condition left right ihl ihr =>
    exact and_congr (hP (.join joinType condition left right) needed)
      (and_congr (ihl _) (ihr _))
  | scan => exact Iff.rfl
  | filter _ _ ih => exact ih _
  | aggregate _ _ _ ih => exact ih _
  | project _ _ ih => exact ih _
  | sort _ _ ih => exact ih _
  | limit _ _ ih => exact ih _

theorem everyJoin.mono {P Q : LogicalPlan → Prop} (hPQ : ∀ q, P q → Q q) {p : LogicalPlan}
    (h : p.everyJoin P) : p.everyJoin Q := by
  induction p with
  | join joinType condition left right ihl ihr =>
    exact ⟨hPQ _ h.1, ihl h.2.1, ihr h.2.2⟩
  | scan => trivial
  | filter _ _ ih => exact ih h
  | aggregate _ _ _ ih => exact ih h
  | project _ _ ih => exact ih h
  | sort _ _ ih => exact ih h
  | limit _ _ ih => exact ih h

theorem everyJoin.and {P Q : LogicalPlan → Prop} {p : LogicalPlan} (hP : p.everyJoin P)
    (hQ : p.everyJoin Q) : p.everyJoin fun q => P q ∧ Q q := by
  induction p with
  | join joinType condition left right ihl ihr =>
    exact ⟨⟨hP.1, hQ.1⟩, ihl hP.2.1 hQ.2.1, ihr hP.2.2 hQ.2.2⟩
  | scan => trivial
  | filter _ _ ih => exact ih hP hQ
  | aggregate _ _ _ ih => exact ih hP hQ
  | project _ _ ih => exact ih hP hQ
  | sort _ _ ih => exact ih hP hQ
  | limit _ _ ih => exact ih hP hQ

end LogicalPlan

theorem length_joinLeaves_pushProjections (q : LogicalPlan) (needed : List String) :
    (joinLeaves (pushProjections q needed)).length = (joinLeaves q).length := by
  have h := congrArg List.length (joinLeaves_pushProjections q needed)
  rwa [List.length_map, List.length_map] at h

theorem acyclicJoins_pushProjections (p : LogicalPlan) (needed : List String) :
    acyclicJoins (pushProjections p needed) ↔ acyclicJoins p := by
  apply LogicalPlan.everyJoin_pushProjections
  intro q needed
  have hmap : ∀ cs ns, Contraction.Acyclic mentions cs (ns.map LogicalPlan.scanAliases) ↔
      Contraction.Acyclic touches cs ns := fun _ _ => Contraction.acyclic_map_iff fun _ _ => rfl
  rw [length_joinLeaves_pushProjections, liveConditions, joinConditions_pushProjections, ← hmap,
    joinLeaves_pushProjections, hmap, ← liveConditions]

theorem spreadJoins_pushProjections (p : LogicalPlan) (needed : List String) :
    spreadJoins (pushProjections p needed) ↔ spreadJoins p := by
  apply LogicalPlan.everyJoin_pushProjections
  intro q needed
  have hmap : ∀ cs ns, Contraction.Spread mentions cs (ns.map LogicalPlan.scanAliases) ↔
      Contraction.Spread touches cs ns := fun _ _ => Contraction.spread_map_iff fun _ _ => rfl
  rw [length_joinLeaves_pushProjections, liveConditions, joinConditions_pushProjections, ← hmap,
    joinLeaves_pushProjections, hmap, ← liveConditions]

/-- In each join tree of three inputs or more, no condition mentions three of them. -/
def binaryJoins (p : LogicalPlan) : Prop :=
  p.everyJoin fun q => 3 ≤ (joinLeaves q).length →
    ∀ c ∈ liveConditions q, Contraction.degree touches c (joinLeaves q) ≤ 2

theorem spreadJoins.acyclicJoins {p : LogicalPlan} (h : spreadJoins p) (htwo : binaryJoins p) :
    acyclicJoins p :=
  LogicalPlan.everyJoin.mono (fun _ hq hthree => (hq.1 hthree).acyclic (hq.2 hthree))
    (LogicalPlan.everyJoin.and h htwo)

/-- Every scan survives the optimizer.  The conjuncts survive when the conditions of each join tree
that `reorder_joins` is given form a forest over its inputs, and only when any number of them
mention more inputs than they are; the two are the same when no condition mentions three inputs. -/
theorem optimize_keeps_conjuncts (catalog : Catalog) (plan : LogicalPlan)
    (hinner : plan.innerOnly) :
    (optimize catalog plan).scans.Perm plan.scans ∧
      (acyclicJoins (pushPredicates plan) →
        (optimize catalog plan).realConjuncts.Perm plan.realConjuncts) ∧
      ((optimize catalog plan).realConjuncts.Perm plan.realConjuncts →
        spreadJoins (pushPredicates plan)) ∧
      (binaryJoins (pushPredicates plan) →
        ((optimize catalog plan).realConjuncts.Perm plan.realConjuncts ↔
          spreadJoins (pushPredicates plan))) := by
  have hpushed := LogicalPlan.innerOnly_pushProjections
    (LogicalPlan.innerOnly_pushPredicates hinner) []
  obtain ⟨lost, hlost⟩ := reorderJoins_losesOnly catalog hpushed
  have hsame : (pushProjections (pushPredicates plan) []).realConjuncts.Perm plan.realConjuncts := by
    simp only [LogicalPlan.realConjuncts, conjuncts_pushProjections]
    exact (conjuncts_pushPredicates plan).filter _
  have hkept : (optimize catalog plan).realConjuncts.Perm plan.realConjuncts ↔ lost = [] := by
    rw [hlost.eq_nil_iff]
    exact ⟨fun h => h.trans hsame.symm, fun h => h.trans hsame⟩
  have henough : acyclicJoins (pushPredicates plan) → lost = [] := fun h =>
    hlost.acyclic ((acyclicJoins_pushProjections _ _).mpr h)
  have hneeded : lost = [] → spreadJoins (pushPredicates plan) := fun h =>
    (spreadJoins_pushProjections _ _).mp (hlost.spread h)
  refine ⟨?_, fun h => hkept.mpr (henough h), fun h => hneeded (hkept.mp h), fun htwo => ?_⟩
  · have hscans := scans_reorderJoins catalog (pushProjections (pushPredicates plan) [])
    rwa [scans_pushProjections, scans_pushPredicates] at hscans
  · rw [hkept]
    exact ⟨hneeded, fun h => henough (h.acyclicJoins htwo)⟩

/-- `a JOIN b ON a.x = b.x JOIN c ON condition`. -/
def threeTables (condition : Expression) : LogicalPlan :=
  .join .inner condition
    (.join .inner (.binaryOp (.column (some "a") "x") .eq (.column (some "b") "x"))
      (.scan "a" none []) (.scan "b" none []))
    (.scan "c" none [])

/-- A chain of three tables. -/
theorem optimize_keeps_conjuncts_chain :
    let plan := threeTables (.binaryOp (.column (some "b") "y") .eq (.column (some "c") "y"))
    plan.innerOnly ∧ acyclicJoins (pushPredicates plan) ∧
      (optimize ∅ plan).realConjuncts.Perm plan.realConjuncts := by
  intro plan
  have hinner : plan.innerOnly := ⟨rfl, ⟨rfl, trivial, trivial⟩, trivial⟩
  have hacyclic : acyclicJoins (pushPredicates plan) := by
    refine ⟨fun _ => by decide, ⟨fun h => absurd h (by decide), trivial, trivial⟩, trivial⟩
  exact ⟨hinner, hacyclic, (optimize_keeps_conjuncts ∅ plan hinner).2.1 hacyclic⟩

/-- A condition on one table, written in an ON clause, is dropped. -/
theorem optimize_loses_conjunct :
    let plan := threeTables (.binaryOp (.column (some "c") "z") .eq (.literal (.integer 1)))
    plan.innerOnly ∧ ¬ (optimize ∅ plan).realConjuncts.Perm plan.realConjuncts := by
  refine ⟨⟨rfl, ⟨rfl, trivial, trivial⟩, trivial⟩, fun h => ?_⟩
  exact absurd h.length_eq (by decide)

end SqlOptimizer
