import SqlOptimizer.Logical.ReorderConditions
import SqlOptimizer.Logical.PushdownRows
import SqlOptimizer.Optimizer.JoinSearchRows

/-! Two plans over the same scans in different orders.  The number of a scan in the one gives its
number in the other, and with it the references of a predicate, the links and the rows. -/

namespace SqlOptimizer

/-- `σ` takes the number of each scan of `node'` to its number in `node`. -/
structure Renumbers (σ : Nat → Nat) (node' node : LogicalPlan) : Prop where
  injective : Function.Injective σ
  scanAt : ∀ i, node'.scanAt i = node.scanAt (σ i)
  ids : (node'.scanIds.map σ).Perm node.scanIds

theorem exists_renumbers {node' node : LogicalPlan} (h : node'.scans.Perm node.scans) :
    ∃ σ, Renumbers σ node' node := by
  have hlen : node'.scans.length = node.scans.length := h.length_eq
  obtain ⟨π, hscans, hπ⟩ : ∃ π : List Nat, node'.scans = π.map node.scanAt ∧
      π.Perm node.scanIds := by
    have hcomp := congrFun (congrFun (List.eq_map_comp_perm node.scanAt) node'.scans) node.scanIds
    exact hcomp.mpr (by rwa [← scans_eq_map])
  have hπlen : π.length = node.scans.length := by
    rw [hπ.length_eq, LogicalPlan.scanIds, List.length_range]
  have hlt : ∀ {i}, (hi : i < π.length) → π[i] < π.length := fun hi => by
    have hmem := hπ.mem_iff.mp (List.getElem_mem hi)
    rwa [LogicalPlan.scanIds, List.mem_range, ← hπlen] at hmem
  have hnodup : π.Nodup := hπ.nodup_iff.mpr List.nodup_range
  -- numbers past the end stay, where both plans have no scan
  refine ⟨fun i => (π[i]?).getD i, ?_, fun i => ?_, ?_⟩
  · intro i j hij
    dsimp only at hij
    by_cases hi : i < π.length <;> by_cases hj : j < π.length
    · rw [List.getElem?_eq_getElem hi, List.getElem?_eq_getElem hj] at hij
      exact (List.Nodup.getElem_inj_iff hnodup).mp hij
    · rw [List.getElem?_eq_getElem hi, List.getElem?_eq_none (by omega)] at hij
      have hlt := hlt hi
      simp only [Option.getD_some, Option.getD_none] at hij
      omega
    · rw [List.getElem?_eq_getElem hj, List.getElem?_eq_none (by omega)] at hij
      have hlt := hlt hj
      simp only [Option.getD_some, Option.getD_none] at hij
      omega
    · rw [List.getElem?_eq_none (by omega), List.getElem?_eq_none (by omega)] at hij
      exact hij
  · by_cases hi : i < π.length
    · rw [LogicalPlan.scanAt, hscans, List.getD_eq_getElem?_getD, List.getElem?_map,
        List.getElem?_eq_getElem hi]
      rfl
    · rw [List.getElem?_eq_none (by omega), Option.getD_none, LogicalPlan.scanAt,
        LogicalPlan.scanAt, List.getD_eq_getElem?_getD, List.getD_eq_getElem?_getD,
        List.getElem?_eq_none (by omega), List.getElem?_eq_none (by omega)]
  · have hmap : node'.scanIds.map (fun i => (π[i]?).getD i) = π := by
      refine List.ext_getElem (by simp [LogicalPlan.scanIds, hlen, hπlen]) fun i hi hi' => ?_
      simp [LogicalPlan.scanIds, List.getElem?_eq_getElem hi']
    rw [hmap]
    exact hπ

namespace Renumbers

variable {σ : Nat → Nat} {node' node : LogicalPlan} {db : Database}

section

variable (h : Renumbers σ node' node)
include h

theorem scans : node'.scans.Perm node.scans := by
  rw [scans_eq_map, scans_eq_map, funext h.scanAt]
  exact (List.map_map (f := σ) (g := node.scanAt) ▸ h.ids.map node.scanAt :)

theorem ident (i : Nat) : (node'.blocks db).ident i = (node.blocks db).ident (σ i) :=
  congrArg scanIdent (h.scanAt i)

theorem schemaOf (i : Nat) : (node'.blocks db).schemaOf i = (node.blocks db).schemaOf (σ i) := by
  simp only [Blocks.schemaOf, LogicalPlan.blocks, h.scanAt]

theorem layoutSchema (π : List Nat) :
    (node'.blocks db).layoutSchema π = (node.blocks db).layoutSchema (π.map σ) := by
  simp only [Blocks.layoutSchema, List.flatMap_map, h.schemaOf]

theorem tableRows : node'.tableRows db = node.tableRows db ∘ σ :=
  funext fun i => by rw [LogicalPlan.tableRows, h.scanAt]; rfl

theorem mem_scanIds {i : Nat} : σ i ∈ node.scanIds ↔ i ∈ node'.scanIds := by
  rw [← h.ids.mem_iff, List.mem_map_of_injective h.injective]

theorem lt_length {i : Nat} : σ i < node.scans.length ↔ i < node'.scans.length := by
  have hmem := h.mem_scanIds (i := i)
  rwa [LogicalPlan.scanIds, LogicalPlan.scanIds, List.mem_range, List.mem_range] at hmem

end

theorem layout (π : List Nat) (e : Nat → Row) :
    Blocks.layout π (e ∘ σ) = Blocks.layout (π.map σ) e := by
  simp only [Blocks.layout, List.flatMap_map, Function.comp_def]

/-! ### References -/

/-- With distinct aliases an alias names one scan. -/
theorem findRelation_baseRelations (hdistinct : (node.blocks db).Distinct node.scanIds) {q : String}
    {i : Nat} : JoinGraph.findRelation ⟨baseRelations node, []⟩ q = some i ↔
      i ∈ node.scanIds ∧ (node.blocks db).ident i = q := by
  have hsome : ∀ {j}, JoinGraph.findRelation ⟨baseRelations node, []⟩ q = some j →
      j ∈ node.scanIds ∧ (node.blocks db).ident j = q := by
    intro j hj
    obtain ⟨r, hr, hident, rfl⟩ := findRelation_eq_some hj
    obtain ⟨hlt, hrident⟩ := mem_baseRelations db hr
    exact ⟨List.mem_range.mpr hlt, hrident.symm.trans hident⟩
  refine ⟨hsome, fun ⟨hi, hq⟩ => ?_⟩
  have hrel : (⟨i, (node.scanAt i).1, (node.scanAt i).2, []⟩ : Relation) ∈ baseRelations node :=
    List.mem_of_getElem? (baseRelations_getElem? (List.mem_range.mp hi))
  have hfound : ((baseRelations node).find? fun r => r.ident == q).isSome := by
    rw [List.find?_isSome]
    exact ⟨_, hrel, beq_iff_eq.mpr hq⟩
  obtain ⟨r, hr⟩ := Option.isSome_iff_exists.mp hfound
  have hj : JoinGraph.findRelation ⟨baseRelations node, []⟩ q = some r.id := by
    rw [JoinGraph.findRelation, hr, Option.map_some]
  obtain ⟨hid, hident⟩ := hsome hj
  rw [hj, hdistinct.eq_of_ident hid hi (hident.trans hq.symm)]

theorem mapM_map_comp {α β γ : Type} {f : α → Option β} {g : β → γ} (as : List α) :
    (as.mapM fun a => (f a).map g) = (as.mapM f).map (List.map g) := by
  induction as with
  | nil => rfl
  | cons a as ih =>
    rw [List.mapM_cons, List.mapM_cons, ih]
    cases f a with
    | none => rfl
    | some b => cases as.mapM f <;> rfl

section

variable (h : Renumbers σ node' node) (hdistinct : (node.blocks db).Distinct node.scanIds)
include h hdistinct

theorem distinct : (node'.blocks db).Distinct node'.scanIds := by
  have hmap := (h.ids.map (node.blocks db).ident).nodup_iff.mpr hdistinct
  rw [List.map_map] at hmap
  rwa [Blocks.Distinct, funext h.ident]

theorem findRelation (q : String) :
    JoinGraph.findRelation ⟨baseRelations node, []⟩ q =
      (JoinGraph.findRelation ⟨baseRelations node', []⟩ q).map σ := by
  refine Option.ext fun i => ?_
  rw [Option.map_eq_some_iff, findRelation_baseRelations hdistinct, ← h.ids.mem_iff, List.mem_map]
  simp only [findRelation_baseRelations (h.distinct hdistinct), h.ident]
  constructor
  · rintro ⟨⟨j, hj, rfl⟩, hq⟩
    exact ⟨j, ⟨hj, hq⟩, rfl⟩
  · rintro ⟨j, ⟨hj, hq⟩, rfl⟩
    exact ⟨⟨j, hj, rfl⟩, hq⟩

theorem refsIn (p : Expression) : SqlOptimizer.refsIn (baseRelations node) p =
    (SqlOptimizer.refsIn (baseRelations node') p).map (List.map σ) := by
  have hbind : ∀ t : Option String, (t.bind fun q => (JoinGraph.findRelation
      ⟨baseRelations node', []⟩ q).map σ) =
        (t.bind (JoinGraph.findRelation ⟨baseRelations node', []⟩)).map σ := fun t => by
    rw [Option.map_bind]
    rfl
  simp only [SqlOptimizer.refsIn, referencedRelationIds]
  rw [funext (h.findRelation hdistinct)]
  simp only [hbind]
  rw [mapM_map_comp, Option.map_map, Option.map_map]
  refine congrArg (Option.map · _) (funext fun ids => ?_)
  exact List.dedup_map_of_injective h.injective ids

/-- An edge of the one plan as an edge of the other. -/
theorem edgeOf (p : Expression) : SqlOptimizer.edgeOf (baseRelations node) p =
    (SqlOptimizer.edgeOf (baseRelations node') p).map fun edge =>
      ⟨σ edge.left, σ edge.right, edge.predicate⟩ := by
  unfold SqlOptimizer.edgeOf
  rw [h.refsIn hdistinct]
  rcases SqlOptimizer.refsIn (baseRelations node') p with _ | _ | ⟨a, _ | ⟨b, _ | ⟨c, ids⟩⟩⟩ <;> rfl

end

/-! ### Rows -/

variable [Rounding]

/-- A literal TRUE among the conjuncts holds everywhere. -/
theorem all_realConjuncts (p : LogicalPlan) (row : Row) (s : RowSchema) :
    (p.realConjuncts.all fun c => holds c row s) = p.conjuncts.all fun c => holds c row s := by
  rw [LogicalPlan.realConjuncts, List.all_filter]
  refine Assignment.all_congr_mem fun c _ => ?_
  cases hc : isTrueLiteral c with
  | false => rfl
  | true =>
    unfold isTrueLiteral at hc
    split at hc
    · rfl
    · cases hc

/-- The rows of the plan over the scans in the other order. -/
theorem satisfying_perm (h : Renumbers σ node' node)
    (hdistinct : (node.blocks db).Distinct node.scanIds)
    (hreal : node'.realConjuncts.Perm node.realConjuncts) (π : List Nat) :
    ((node'.satisfying db).map (Blocks.layout π)).Perm
      ((node.satisfying db).map (Blocks.layout (π.map σ))) := by
  have hchoices : choices (node'.tableRows db) node'.scanIds =
      (choices (node.tableRows db) (node'.scanIds.map σ)).map (· ∘ σ) := by
    rw [h.tableRows, choices, choices, Assignment.all_map h.injective]
    rfl
  rw [LogicalPlan.satisfying, LogicalPlan.satisfying, hchoices, List.filter_map, List.map_map]
  have hlayout : Blocks.layout π ∘ (· ∘ σ) = Blocks.layout (π.map σ) := funext (layout π)
  rw [hlayout]
  refine List.Perm.map _ (List.Perm.trans (List.Perm.of_eq ?_)
    ((Assignment.all_perm h.ids (h.ids.nodup_iff.mpr hdistinct.nodup)).filter _))
  apply List.filter_congr
  intro e he
  have hfit : (node.blocks db).Fits node.scanIds e := fun i hi =>
    (scanTable db (node.scanAt i)).width _
      (Assignment.mem_dom_of_mem_all he (h.ids.mem_iff.mpr hi))
  rw [Function.comp, ← all_realConjuncts, ← all_realConjuncts, hreal.all_eq, layout, h.layoutSchema]
  exact Assignment.all_congr_mem fun p _ => holds_conjunct_perm h.ids hdistinct hfit

end Renumbers

end SqlOptimizer
