import SqlOptimizer.Physical.StatementPlan
import SqlOptimizer.Physical.TreeRows

/-! A subtree of scans, filters and inner joins after the rewriting: its plan answers the subtree as
it was. -/

namespace SqlOptimizer

theorem LogicalPlan.isFlat_iff (p : LogicalPlan) :
    p.isFlat = true ↔ p.joinTree = true ∧ p.innerOnly := by
  induction p with
  | scan => simp [isFlat, joinTree, innerOnly]
  | filter predicate input ih => exact ih
  | join joinType condition left right ihl ihr =>
    simp only [isFlat, joinTree, innerOnly, Bool.and_eq_true, beq_iff_eq, ihl, ihr]
    tauto
  | _ => simp [isFlat, joinTree]

/-! ### The same scans and conjuncts in another order -/

namespace Renumbers

variable {σ : Nat → Nat} {node' node : LogicalPlan} {db : Database}

theorem mem_conjuncts (hreal : node'.realConjuncts.Perm node.realConjuncts) {p : Expression}
    (hp : p ∈ node'.conjuncts) : isTrueLiteral p = true ∨ p ∈ node.conjuncts := by
  cases htrue : isTrueLiteral p with
  | true => exact .inl rfl
  | false =>
    have hmem : p ∈ node'.realConjuncts := List.mem_filter.mpr ⟨hp, by rw [htrue]; rfl⟩
    exact .inr (List.mem_of_mem_filter (hreal.mem_iff.mp hmem))

theorem links_realConjuncts (p : LogicalPlan) :
    p.links = p.realConjuncts.filterMap (SqlOptimizer.edgeOf (baseRelations p)) := by
  have hnone : ∀ c, isTrueLiteral c = true → SqlOptimizer.edgeOf (baseRelations p) c = none := by
    intro c hc
    have hrefs : SqlOptimizer.refsIn (baseRelations p) c = some [] := by
      simp [SqlOptimizer.refsIn, referencedRelationIds, columns_eq_nil_of_isTrueLiteral hc]
    rw [SqlOptimizer.edgeOf, hrefs]
  rw [LogicalPlan.links, LogicalPlan.realConjuncts, List.filterMap_filter]
  refine List.filterMap_congr fun c _ => ?_
  cases hc : isTrueLiteral c with
  | true => exact hnone c hc
  | false => rfl

variable (h : Renumbers σ node' node) (hw : node.WellFormed db)
  (hreal : node'.realConjuncts.Perm node.realConjuncts)
include h hw hreal

theorem links : (node'.links.map fun edge => (⟨σ edge.left, σ edge.right, edge.predicate⟩ :
    JoinEdge)).Perm node.links := by
  rw [links_realConjuncts, links_realConjuncts, List.map_filterMap]
  refine List.Perm.trans ?_ (hreal.filterMap _)
  exact List.Perm.of_eq (List.filterMap_congr fun p _ => (h.edgeOf hw.blocks p).symm)

theorem wellFormed : node'.WellFormed db where
  loaded s hs := hw.loaded s (h.scans.mem_iff.mp hs)
  distinct := (h.scans.map _).nodup_iff.mpr hw.distinct
  names s hs := hw.names s (h.scans.mem_iff.mp hs)
  owned p hp t c htc := by
    rcases mem_conjuncts hreal hp with htrue | hp
    · rw [columns_eq_nil_of_isTrueLiteral htrue] at htc
      cases htc
    · obtain ⟨s, hs, howned⟩ := hw.owned p hp t c htc
      exact ⟨s, h.scans.mem_iff.mpr hs, howned⟩
  width := h.scans.length_eq ▸ hw.width
  tree := by
    have hlen := (h.links hw hreal).length_eq
    rw [List.length_map] at hlen
    rw [hlen, h.scans.length_eq]
    exact hw.tree

variable [Rounding]

omit hreal in
/-- A choice for the one plan is a choice for the other, with the same values. -/
theorem exists_picks {p : Expression} {e' : Nat → Row} (he' : node'.Picks db p e') :
    ∃ e, node.Picks db p e ∧ ∀ x,
      evaluate x (node'.combinedRow e') (node'.combinedSchema db) =
        evaluate x (node.combinedRow e) (node.combinedSchema db) := by
  obtain ⟨τ, hτ⟩ := h.injective.hasLeftInverse
  have hcomp : (e' ∘ τ) ∘ σ = e' := funext fun i => congrArg e' (hτ i)
  have hmem : ∀ i ∈ node.scanIds, ∃ j ∈ node'.scanIds, σ j = i := fun i hi =>
    List.mem_map.mp (h.ids.mem_iff.mpr hi)
  have hfit : (node.blocks db).Fits node.scanIds (e' ∘ τ) := by
    intro i hi
    obtain ⟨j, hj, rfl⟩ := hmem i hi
    rw [Function.comp, hτ, he'.1 j hj]
    simp only [LogicalPlan.blocks, h.scanAt]
  refine ⟨e' ∘ τ, ⟨hfit, fun i hi hm => ?_⟩, fun x => ?_⟩
  · obtain ⟨j, hj, rfl⟩ := hmem i hi
    have hrow := he'.2 j hj (by rwa [h.ident])
    rw [h.tableRows] at hrow
    rw [Function.comp, hτ]
    exact hrow
  · rw [LogicalPlan.combinedRow, LogicalPlan.combinedSchema, h.layoutSchema, ← hcomp, layout, hcomp]
    exact Blocks.evaluate_layout_perm h.ids hw.blocks hfit x

theorem evaluates (he : node.Evaluates db) : node'.Evaluates db := by
  have hedge : ∀ edge ∈ node'.links, ∃ edge' ∈ node.links, edge'.predicate = edge.predicate :=
    fun edge hedge => ⟨_, (h.links hw hreal).mem_iff.mp (List.mem_map_of_mem hedge), rfl⟩
  constructor
  · intro p hp e' he'
    rcases mem_conjuncts hreal hp with htrue | hp
    · unfold isTrueLiteral at htrue
      split at htrue
      · exact ⟨true, rfl⟩
      · cases htrue
    · obtain ⟨e, hpicks, hvalue⟩ := h.exists_picks hw he'
      rw [passes, hvalue]
      exact he.truth p hp e hpicks
  · intro edge hlink x y hxy
    obtain ⟨edge', hlink', heq⟩ := hedge edge hlink
    exact he.columns edge' hlink' x y (heq.trans hxy)
  · intro edge hlink x y hxy e' he' v w hv hvw
    obtain ⟨edge', hlink', heq⟩ := hedge edge hlink
    rw [← heq] at he'
    obtain ⟨e, hpicks, hvalue⟩ := h.exists_picks hw he'
    rw [hvalue] at hv hvw
    exact he.keys edge' hlink' x y (heq.trans hxy) e hpicks v w hv hvw

variable {R : Type} {plan : PhysicalPlan R} {sets : ExternalRowSets}

theorem answersTree (ha : AnswersTree node' db plan sets) : AnswersTree node db plan sets := by
  obtain ⟨e, π, rows, hbuild, hπ, hschema, hrun, hrows⟩ := ha
  exact ⟨e, π.map σ, rows, hbuild, (hπ.map σ).trans h.ids, hschema.trans (h.layoutSchema π), hrun,
    hrows.trans (h.satisfying_perm hw.blocks hreal π)⟩

end Renumbers

/-! ### The rewriting -/

section

variable {catalog : Catalog} {node : LogicalPlan}

theorem isFlat_rewritten (hflat : node.isFlat = true) (needed : List String) :
    (reorderJoins catalog (pushProjections (pushPredicates node) needed)).isFlat = true := by
  obtain ⟨htree, hinner⟩ := node.isFlat_iff.mp hflat
  have hpushed := LogicalPlan.innerOnly_pushProjections
    (LogicalPlan.innerOnly_pushPredicates hinner) needed
  obtain ⟨lost, hlost⟩ := reorderJoins_losesOnly catalog hpushed
  refine (LogicalPlan.isFlat_iff _).mpr ⟨?_, hlost.inner⟩
  rw [LogicalPlan.joinTree_reorderJoins, LogicalPlan.joinTree_pushProjections,
    LogicalPlan.joinTree_pushPredicates, htree]

theorem realConjuncts_rewritten (hflat : node.isFlat = true)
    (hacyclic : acyclicJoins (pushPredicates node)) (needed : List String) :
    (reorderJoins catalog (pushProjections (pushPredicates node) needed)).realConjuncts.Perm
      node.realConjuncts := by
  have hpushed := LogicalPlan.innerOnly_pushProjections
    (LogicalPlan.innerOnly_pushPredicates (node.isFlat_iff.mp hflat).2) needed
  obtain ⟨lost, hlost⟩ := reorderJoins_losesOnly catalog hpushed
  refine (hlost.eq_nil_iff.mp (hlost.acyclic ?_)).trans ?_
  · exact (acyclicJoins_pushProjections _ _).mpr hacyclic
  · simp only [LogicalPlan.realConjuncts, conjuncts_pushProjections]
    exact (conjuncts_pushPredicates node).filter _

variable {R : Type} [CostNum R] [Rounding] {stats : StatisticsCatalog R} {db : Database}
  {plan : PhysicalPlan R} {e : Executor}

/-- A plan of the rewritten subtree answers the subtree. -/
theorem answersTree_rewritten {sets : ExternalRowSets} (hflat : node.isFlat = true)
    (hw : node.WellFormed db) (he : node.Evaluates db)
    (hacyclic : acyclicJoins (pushPredicates node)) {needed : List String}
    (hplan : planNode catalog stats
      (reorderJoins catalog (pushProjections (pushPredicates node) needed)) = .ok plan) :
    AnswersTree node db plan sets := by
  have hscans := scans_reorderJoins catalog (pushProjections (pushPredicates node) needed)
  rw [scans_pushProjections, scans_pushPredicates] at hscans
  obtain ⟨σ, hσ⟩ := exists_renumbers hscans
  have hreal : (reorderJoins catalog (pushProjections (pushPredicates node) needed)).realConjuncts.Perm
      node.realConjuncts := realConjuncts_rewritten hflat hacyclic needed
  exact hσ.answersTree hw hreal (answersTree_planNode (isFlat_rewritten hflat needed)
    (hσ.wellFormed hw hreal) (hσ.evaluates hw hreal he) hplan)

/-- The executor of a subtree of scans, filters and inner joins. -/
theorem Implements.answersTree (h : Implements catalog stats db node plan e)
    (hflat : node.isFlat = true) (hw : node.WellFormed db) (he : node.Evaluates db)
    (hacyclic : acyclicJoins (pushPredicates node)) : ∃ π rows, π.Perm node.scanIds ∧
      e.schema = (node.blocks db).layoutSchema π ∧ e.run = .ok rows ∧
        rows.Perm ((node.satisfying db).map (Blocks.layout π)) := by
  obtain ⟨⟨needed, hplan⟩, hbuild⟩ := h
  obtain ⟨e', π, rows, hbuild', h⟩ : AnswersTree node db plan ∅ :=
    answersTree_rewritten hflat hw he hacyclic hplan
  rw [hbuild] at hbuild'
  cases hbuild'
  exact ⟨π, rows, h⟩

end

end SqlOptimizer
