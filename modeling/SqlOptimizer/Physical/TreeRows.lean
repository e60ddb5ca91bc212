import SqlOptimizer.Optimizer.Renumbering
import SqlOptimizer.Physical.JoinRuns

/-! The rows of a subtree of scans, filters and inner joins.  Whatever the statistics choose, its plan
runs and returns the choices of one row for each scan that satisfy every conjunct, provided that the
conjuncts can be evaluated and that the links between the scans form a tree. -/

namespace SqlOptimizer

namespace LogicalPlan

/-- Scans of loaded tables with different aliases, conjuncts over their columns, with or without the
table's name, and one link less than there are scans. -/
structure WellFormed (node : LogicalPlan) (db : Database) : Prop where
  loaded : ∀ s ∈ node.scans, (db.get s.1).isSome = true
  distinct : (node.scans.map scanIdent).Nodup
  names : ∀ s ∈ node.scans, (scanTable db s).columnNames.Nodup
  owned : ∀ p ∈ node.conjuncts, ∀ t c, (t, c) ∈ p.columns →
    ∃ s ∈ node.scans, qualifierMatches t (scanIdent s) = true ∧ c ∈ (scanTable db s).columnNames
  width : node.scans.length ≤ 64
  tree : node.links.length + 1 = node.scans.length

/-- Whether a column of `p` may be one of the scan: it has its name, or no table's. -/
def couldRead (p : Expression) (ident : String) : Bool :=
  p.columns.any fun tc => qualifierMatches tc.1 ident

/-- One row for each scan, from its table when `p` could read the scan. -/
def Picks (node : LogicalPlan) (db : Database) (p : Expression) (e : Nat → Row) : Prop :=
  (node.blocks db).Fits node.scanIds e ∧
    ∀ i ∈ node.scanIds, couldRead p ((node.blocks db).ident i) = true → e i ∈ node.tableRows db i

/-- The combined row of a choice, and its columns. -/
abbrev combinedRow (node : LogicalPlan) (e : Nat → Row) : Row := Blocks.layout node.scanIds e

abbrev combinedSchema (node : LogicalPlan) (db : Database) : RowSchema :=
  (node.blocks db).layoutSchema node.scanIds

/-- Each conjunct has a truth value on all rows of the scans that it could read.  An equality of two scans
compares two columns, whose values print alike only when they are equal. -/
structure Evaluates [Rounding] (node : LogicalPlan) (db : Database) : Prop where
  truth : ∀ p ∈ node.conjuncts, ∀ e, node.Picks db p e →
    ∃ b, passes p (node.combinedRow e) (node.combinedSchema db) = .ok b
  columns : ∀ edge ∈ node.links, ∀ x y, edge.predicate = .binaryOp x .eq y →
    ∃ t c t' c', x = .column t c ∧ y = .column t' c'
  keys : ∀ edge ∈ node.links, ∀ x y, edge.predicate = .binaryOp x .eq y →
    ∀ e, node.Picks db edge.predicate e → ∀ v w,
      evaluate x (node.combinedRow e) (node.combinedSchema db) = .ok v →
        evaluate y (node.combinedRow e) (node.combinedSchema db) = .ok w → keysAgree v w

end LogicalPlan

section

variable {node : LogicalPlan} {db : Database}

theorem LogicalPlan.couldRead_of_mem {p : Expression} {t : Option String} {c ident : String}
    (h : (t, c) ∈ p.columns) (hmatch : qualifierMatches t ident = true) :
    LogicalPlan.couldRead p ident = true :=
  List.any_eq_true.mpr ⟨_, h, hmatch⟩

namespace LogicalPlan.WellFormed

variable (hw : node.WellFormed db)
include hw

theorem blocks : (node.blocks db).Distinct node.scanIds := blocks_distinct hw.distinct

theorem distinct_of_subset {ρ : List Nat} (hnodup : ρ.Nodup) (hρ : ∀ i ∈ ρ, i ∈ node.scanIds) :
    (node.blocks db).Distinct ρ :=
  hnodup.map_on fun _ hi _ hj hij => hw.blocks.eq_of_ident (hρ _ hi) (hρ _ hj) hij

/-- A column of a conjunct belongs to a scan. -/
theorem exists_scan {p : Expression} (hp : p ∈ node.conjuncts) {t : Option String} {c : String}
    (htc : (t, c) ∈ p.columns) : ∃ i ∈ node.scanIds,
      qualifierMatches t ((node.blocks db).ident i) = true ∧ c ∈ (node.blocks db).columns i := by
  obtain ⟨s, hs, ht, hc⟩ := hw.owned p hp t c htc
  rw [scans_eq_map, List.mem_map] at hs
  obtain ⟨i, hi, rfl⟩ := hs
  exact ⟨i, hi, ht, hc⟩

/-- A choice for the scans that a conjunct could read extends to all scans. -/
theorem exists_picks [Rounding] {p : Expression} (hp : p ∈ node.conjuncts) {ρ : List Nat}
    (hnodup : ρ.Nodup) (hρ : ∀ i ∈ ρ, i ∈ node.scanIds) {e : Nat → Row}
    (he : ∀ i ∈ ρ, e i ∈ node.tableRows db i)
    (hnames : ∀ i ∈ node.scanIds, couldRead p ((node.blocks db).ident i) = true → i ∈ ρ) :
    ∃ f, node.Picks db p f ∧ ∀ x : Expression, x.columns ⊆ p.columns →
      evaluate x (Blocks.layout ρ e) ((node.blocks db).layoutSchema ρ) =
        evaluate x (node.combinedRow f) (node.combinedSchema db) := by
  let f : Nat → Row := fun i =>
    if i ∈ ρ then e i else List.replicate ((node.blocks db).columns i).length .null
  have hsame : ∀ i ∈ ρ, f i = e i := fun i hi => if_pos hi
  have hwidth : ∀ {i row}, row ∈ node.tableRows db i →
      row.length = ((node.blocks db).columns i).length := fun hrow =>
    (scanTable db (node.scanAt _)).width _ hrow
  have hfit : (node.blocks db).Fits node.scanIds f := by
    intro i _
    by_cases hi : i ∈ ρ
    · rw [hsame i hi, hwidth (he i hi)]
    · simp only [f, if_neg hi, List.length_replicate]
  refine ⟨f, ⟨hfit, fun i hi hm => ?_⟩, fun x hx => ?_⟩
  · have hiρ := hnames i hi hm
    rw [hsame i hiρ]
    exact he i hiρ
  · by_cases hbare : ∃ c, (none, c) ∈ p.columns
    · -- a column without a table could read every scan, so that the choice is for all of them
      obtain ⟨c, hc⟩ := hbare
      have hperm : ρ.Perm node.scanIds :=
        (List.perm_ext_iff_of_nodup hnodup hw.blocks.nodup).mpr fun i =>
          ⟨hρ i, fun hi => hnames i hi (couldRead_of_mem hc rfl)⟩
      have hlayout : Blocks.layout ρ e = Blocks.layout ρ f :=
        List.flatMap_congr fun i hi => (hsame i hi).symm
      rw [hlayout]
      exact Blocks.evaluate_layout_perm hperm hw.blocks hfit x
    · refine Blocks.evaluate_layout_congr (hw.distinct_of_subset hnodup hρ) hw.blocks
        (fun i hi => hwidth (he i hi)) hfit fun t c htc => ?_
      obtain ⟨i, hi, ht, -⟩ := hw.exists_scan hp (hx htc)
      have hiρ := hnames i hi (couldRead_of_mem (hx htc) ht)
      cases t with
      | none => exact absurd ⟨c, hx htc⟩ hbare
      | some q =>
        obtain rfl : q = (node.blocks db).ident i := by simpa [qualifierMatches] using ht
        exact ⟨_, rfl, .inl ⟨i, hiρ, hi, rfl, (hsame i hiρ).symm⟩⟩

/-- The scans that a conjunct could read are those that it refers to. -/
theorem mem_refs {p : Expression} {ids : List Nat}
    (hrefs : refsIn (baseRelations node) p = some ids) {i : Nat} (hi : i ∈ node.scanIds)
    (hm : couldRead p ((node.blocks db).ident i) = true) : i ∈ ids := by
  obtain ⟨⟨t, c⟩, htc, hmatch⟩ := List.any_eq_true.mp hm
  obtain ⟨j, hj, rfl⟩ := (refsIn_baseRelations db hrefs).2 t c htc
  have hjid : j ∈ node.scanIds := List.mem_range.mpr ((refsIn_baseRelations db hrefs).1 j hj)
  have hji : (node.blocks db).ident j = (node.blocks db).ident i := by
    simpa [qualifierMatches] using hmatch
  rw [hw.blocks.eq_of_ident hi hjid hji.symm]
  exact hj

end LogicalPlan.WellFormed

end

/-! ### The parts of a search -/

section

variable [Rounding] {R : Type} [CostNum R] {catalog : Catalog} {stats : StatisticsCatalog R}
  {node : LogicalPlan} {db : Database} {sets : ExternalRowSets}

namespace LogicalPlan.WellFormed

variable (hw : node.WellFormed db)
include hw

omit [Rounding] [CostNum R] in
theorem get_scan {i : Nat} (hi : i ∈ node.scanIds) :
    db.get (node.scanAt i).1 = some (scanTable db (node.scanAt i)) := by
  have hmem : node.scanAt i ∈ node.scans :=
    List.mem_of_getElem? (scans_getElem? (List.mem_range.mp hi))
  obtain ⟨table, htable⟩ := Option.isSome_iff_exists.mp (hw.loaded _ hmem)
  rw [scanTable, htable, Option.getD_some]

omit [Rounding] in
theorem indexColumnsLoaded : IndexColumnsLoaded catalog stats node db := by
  intro i hi c hc
  obtain ⟨p, hp, t, l, hcol⟩ := exists_filter_of_probedColumn hc
  obtain ⟨hp, hlocal⟩ := List.mem_filter.mp hp
  have hrefs : refsIn (baseRelations node) p = some [i] := by simpa [localTo] using hlocal
  obtain ⟨j, hj, hmatch, hcj⟩ := hw.exists_scan hp (mem_columns_of_columnLiteral hcol)
  rw [List.mem_singleton.mp (hw.mem_refs hrefs hj (couldRead_of_mem
    (mem_columns_of_columnLiteral hcol) hmatch))] at hcj
  exact List.count_eq_one_of_mem (hw.names _ (List.mem_of_getElem? (scans_getElem?
    (List.mem_range.mp hi)))) hcj

/-- The filters of a scan have truth values in its rows. -/
theorem scansCleanly (he : node.Evaluates db) {i : Nat} (hi : i ∈ node.scanIds) :
    ScansCleanly (scanTable db (node.scanAt i)) (scanIdent (node.scanAt i))
      (node.conjuncts.filter (localTo (baseRelations node) i)) where
  distinct := hw.names _ (List.mem_of_getElem? (scans_getElem? (List.mem_range.mp hi)))
  own p hp t c htc := by
    obtain ⟨hp, hlocal⟩ := List.mem_filter.mp hp
    obtain ⟨j, hj, hmatch, hc⟩ := hw.exists_scan hp htc
    have hrefs : refsIn (baseRelations node) p = some [i] := by simpa [localTo] using hlocal
    have hji := List.mem_singleton.mp (hw.mem_refs hrefs hj (couldRead_of_mem htc hmatch))
    rw [hji] at hmatch hc
    exact ⟨hmatch, hc⟩
  clean row hrow p hp := by
    obtain ⟨hp, hlocal⟩ := List.mem_filter.mp hp
    have hrefs : refsIn (baseRelations node) p = some [i] := by simpa [localTo] using hlocal
    obtain ⟨f, hf, hvalue⟩ := hw.exists_picks hp (List.nodup_singleton i)
      (fun j hj => List.mem_singleton.mp hj ▸ hi) (e := fun _ => row)
      (fun j hj => List.mem_singleton.mp hj ▸ hrow) fun j hj => hw.mem_refs hrefs hj
    obtain ⟨b, hb⟩ := he.truth p hp f hf
    have hrow : Blocks.layout [i] (fun _ => row) = row := by simp [Blocks.layout]
    rw [passes, ← hvalue p (List.Subset.refl _), Blocks.layoutSchema_singleton, hrow] at hb
    exact ⟨b, hb⟩

theorem pathsRun (he : node.Evaluates db) : PathsRun (node.blocks db)
    (pathOf catalog stats node.joinGraph) (node.localRows db) db sets := by
  intro i p hp
  obtain ⟨hi, rfl⟩ := pathOf_joinGraph hp
  obtain ⟨preds, hpath, hperm⟩ : ∃ preds, AccessPathOf (node.filteredScan i)
      (bestAccessPath catalog stats (node.filteredScan i)) preds ∧
      preds.Perm (node.filteredScan i).localFilters := accessPathOf_bestAccessPath _
  obtain ⟨e, hbuild, hschema, hrun⟩ := hpath.buildExecutor_run sets (hw.get_scan hi)
    ((hw.scansCleanly he hi).perm hperm)
  refine ⟨e, hbuild, hschema, ?_⟩
  rw [hrun, rowsWhere_perm hperm]
  rfl

omit [Rounding] in
/-- The scans that a link refers to. -/
theorem mem_of_link {edge : JoinEdge} (hedge : edge ∈ node.links) {ρ : List Nat}
    (hleft : edge.left ∈ ρ) (hright : edge.right ∈ ρ) {i : Nat} (hi : i ∈ node.scanIds)
    (hm : couldRead edge.predicate ((node.blocks db).ident i) = true) : i ∈ ρ := by
  obtain ⟨p, -, hp⟩ := List.mem_filterMap.mp hedge
  obtain ⟨hrefs, rfl⟩ := edgeOf_eq_some hp
  have hmem := hw.mem_refs hrefs hi hm
  simp only [List.mem_cons, List.not_mem_nil, or_false] at hmem
  rcases hmem with rfl | rfl
  · exact hleft
  · exact hright

theorem linksDecided (he : node.Evaluates db) : LinksDecided (node.blocks db) node.links
    (pathOf catalog stats node.joinGraph) (node.localRows db) := by
  have hpicks : ∀ edge ∈ node.links, ∀ ρ e, (node.blocks db).Distinct ρ → edge.left ∈ ρ →
      edge.right ∈ ρ → Chosen (pathOf catalog stats node.joinGraph) (node.localRows db) ρ e →
        ∃ f, node.Picks db edge.predicate f ∧ ∀ x : Expression, x.columns ⊆ edge.predicate.columns →
          evaluate x (Blocks.layout ρ e) ((node.blocks db).layoutSchema ρ) =
            evaluate x (node.combinedRow f) (node.combinedSchema db) := by
    intro edge hedge ρ e hρ hleft hright hchosen
    refine hw.exists_picks (link_mem_conjuncts hedge) hρ.nodup (fun i hi => ?_) (fun i hi => ?_)
      fun i hi => hw.mem_of_link hedge hleft hright hi
    · obtain ⟨⟨p, hp⟩, -⟩ := hchosen i hi
      exact (pathOf_joinGraph hp).1
    · exact List.mem_of_mem_filter (hchosen i hi).2
  constructor
  · intro edge hedge ρ e hρ hleft hright hchosen
    obtain ⟨f, hf, hvalue⟩ := hpicks edge hedge ρ e hρ hleft hright hchosen
    rw [passes, hvalue _ (List.Subset.refl _)]
    exact he.truth _ (link_mem_conjuncts hedge) f hf
  · intro edge hedge x y hxy ρ e hρ hleft hright hchosen v w hv hvw
    obtain ⟨f, hf, hvalue⟩ := hpicks edge hedge ρ e hρ hleft hright hchosen
    rw [hvalue x (by rw [hxy]; exact List.subset_append_left _ _)] at hv
    rw [hvalue y (by rw [hxy]; exact List.subset_append_right _ _)] at hvw
    exact he.keys edge hedge x y hxy f hf v w hv hvw

omit [Rounding] in
/-- The two scans of an equality of columns. -/
theorem qualifiers_of_refs {t t' : Option String} {c c' : String} {a b : Nat}
    (h : refsIn (baseRelations node) (.binaryOp (.column t c) .eq (.column t' c')) = some [a, b]) :
    t = some ((node.blocks db).ident a) ∧ t' = some ((node.blocks db).ident b) := by
  have hfound : ∀ {t : Option String} {i : Nat},
      (∃ q, t = some q ∧ JoinGraph.findRelation ⟨baseRelations node, []⟩ q = some i) →
        t = some ((node.blocks db).ident i) := by
    rintro t i ⟨q, rfl, hq⟩
    rw [((Renumbers.findRelation_baseRelations hw.blocks).mp hq).2]
  obtain ⟨ids, hids, hdedup⟩ := Option.map_eq_some_iff.mp h
  simp only [Expression.columns, List.singleton_append, List.mapM_cons, List.mapM_nil,
    Option.bind_eq_bind, Option.bind_eq_some_iff, Option.pure_def, Option.some.injEq] at hids
  obtain ⟨i, hi, _, ⟨j, hj, _, rfl, rfl⟩, rfl⟩ := hids
  by_cases hij : i = j
  · rw [hij] at hdedup
    simp at hdedup
  · rw [List.dedup_cons_of_notMem (by simpa using hij)] at hdedup
    have hlast : [j].dedup = [j] := rfl
    rw [hlast] at hdedup
    cases hdedup
    exact ⟨hfound hi, hfound hj⟩

/-- An equality of columns of two scans passes the test of the hash join. -/
theorem linksAccepted (he : node.Evaluates db) :
    SqlOptimizer.linksAccepted (node.blocks db) node.links := by
  intro k edge hk _ heq
  have hedge := List.mem_of_getElem? hk
  obtain ⟨x, y, hxy⟩ : ∃ x y, edge.predicate = .binaryOp x .eq y := by
    unfold isEquality at heq
    split at heq
    · exact ⟨_, _, by assumption⟩
    · cases heq
  obtain ⟨t, c, t', c', rfl, rfl⟩ := he.columns edge hedge x y hxy
  have hp := link_mem_conjuncts hedge
  obtain ⟨p, -, hlink⟩ := List.mem_filterMap.mp hedge
  obtain ⟨hrefs, rfl⟩ := edgeOf_eq_some hlink
  rw [hxy] at hrefs hp ⊢
  have hlt := (refsIn_baseRelations db hrefs).1
  obtain ⟨rfl, rfl⟩ := hw.qualifiers_of_refs hrefs
  have hcolumn : ∀ {i : Nat} {c : String}, i ∈ node.scanIds →
      (∃ p ∈ node.conjuncts, (some ((node.blocks db).ident i), c) ∈ p.columns) →
        isColumnOf (.column (some ((node.blocks db).ident i)) c) ((node.blocks db).schemaOf i) =
          true := by
    rintro i c hi ⟨p, hp, htc⟩
    obtain ⟨j, hj, hmatch, hc⟩ := hw.exists_scan hp htc
    rw [← hw.blocks.eq_of_ident hi hj (by simpa [qualifierMatches] using hmatch)] at hc
    rw [isColumnOf, Blocks.schemaOf_resolve, if_pos rfl, List.findIdx?_isSome, List.any_eq_true]
    exact ⟨c, hc, beq_self_eq_true c⟩
  exact hashJoinKeys_ok_of (.inl rfl)
    (hcolumn (List.mem_range.mpr (hlt _ (by simp))) ⟨_, hp, by simp [Expression.columns]⟩)
    (hcolumn (List.mem_range.mpr (hlt _ (by simp))) ⟨_, hp, by simp [Expression.columns]⟩)

end LogicalPlan.WellFormed

/-! ### The rows of a search -/

/-- The executor of a plan returns the rows of a subtree, with its scans in some order. -/
def AnswersTree (node : LogicalPlan) (db : Database) (plan : PhysicalPlan R)
    (sets : ExternalRowSets) : Prop :=
  ∃ e π rows, buildExecutor plan db sets = .ok e ∧ π.Perm node.scanIds ∧
    e.schema = (node.blocks db).layoutSchema π ∧ e.run = .ok rows ∧
      rows.Perm ((node.satisfying db).map (Blocks.layout π))

theorem runs_addResidual (ps : List Expression) {plan : PhysicalPlan R} {e : Executor}
    {rows : List Row} (hbuild : buildExecutor plan db sets = .ok e) (hrun : e.run = .ok rows)
    (hps : ∀ p ∈ ps, ∀ row ∈ rows, ∃ b, passes p row e.schema = .ok b) :
    ∃ e', buildExecutor (ps.foldl addResidual plan) db sets = .ok e' ∧ e'.schema = e.schema ∧
      e'.run = .ok (rows.filter fun row => ps.all fun p => holds p row e.schema) := by
  induction ps generalizing plan e rows with
  | nil => exact ⟨e, hbuild, rfl, by simpa using hrun⟩
  | cons p ps ih =>
    have hfilter : buildExecutor (addResidual plan p) db sets = .ok (.filter p e) := by
      simp [addResidual, buildExecutor, hbuild]
    obtain ⟨e', hbuild', hschema', hrun'⟩ := ih hfilter
      (Executor.run_filter hrun fun row hrow => hps p (by simp) row hrow)
      fun q hq row hrow => hps q (by simp [hq]) row (List.mem_of_mem_filter hrow)
    refine ⟨e', hbuild', hschema', ?_⟩
    rw [hrun', List.filter_filter]
    simp [Executor.schema, Bool.and_comm]

/-- In the order of the search a choice passes its local filters, the links and the residuals when it
satisfies every conjunct. -/
theorem LogicalPlan.WellFormed.conjuncts_search (hw : node.WellFormed db) {π used : List Nat}
    {best : PhysicalPlan R} {e : Nat → Row}
    (hj : JoinedBy (pathOf catalog stats node.joinGraph) node.links π used best)
    (hperm : π.Perm node.scanIds) (hfit : (node.blocks db).Fits node.scanIds e) :
    (node.conjuncts.all fun p => holds p (node.combinedRow e) (node.combinedSchema db)) =
      ((π.all fun i => (node.conjuncts.filter (localTo (baseRelations node) i)).all fun p =>
          holds p (e i) ((node.blocks db).schemaOf i)) &&
        (edgesHold (node.blocks db) node.links π used e &&
          (node.conjuncts.filter (isResidual (baseRelations node))).all fun p =>
            holds p (Blocks.layout π e) ((node.blocks db).layoutSchema π))) := by
  have hreorder : ∀ p, holds p (Blocks.layout π e) ((node.blocks db).layoutSchema π) =
      holds p (node.combinedRow e) (node.combinedSchema db) := fun p =>
    holds_conjunct_perm hperm hw.blocks hfit
  rw [conjuncts_all, edgesHold_links hj hperm hw.tree, ← hperm.all_eq]
  congr 1
  · exact Assignment.all_congr_mem fun i hi => Assignment.all_congr_mem fun p hp =>
      (holds_local (hperm.mem_iff.mp hi) hw.blocks hfit (List.mem_filter.mp hp).2).symm
  congr 1
  · exact Assignment.all_congr_mem fun edge _ => (hreorder _).symm
  · exact Assignment.all_congr_mem fun p _ => (hreorder p).symm

/-- The rows that a search keeps are those that satisfy every conjunct. -/
theorem LogicalPlan.WellFormed.satisfying_search (hw : node.WellFormed db) {π used : List Nat}
    {best : PhysicalPlan R}
    (hj : JoinedBy (pathOf catalog stats node.joinGraph) node.links π used best)
    (hperm : π.Perm node.scanIds) :
    ((((choices (node.localRows db) π).filter
        (edgesHold (node.blocks db) node.links π used)).map (Blocks.layout π)).filter fun row =>
      (node.conjuncts.filter (isResidual (baseRelations node))).all fun p =>
        holds p row ((node.blocks db).layoutSchema π)).Perm
      ((node.satisfying db).map (Blocks.layout π)) := by
  have hlocal : choices (node.localRows db) π = (choices (node.tableRows db) π).filter fun e =>
      π.all fun i => (node.conjuncts.filter (localTo (baseRelations node) i)).all fun p =>
        holds p (e i) ((node.blocks db).schemaOf i) :=
    Assignment.all_filter _ hj.nodup
  rw [List.filter_map, hlocal, List.filter_filter, List.filter_filter, LogicalPlan.satisfying]
  refine List.Perm.map _ (List.Perm.trans (List.Perm.of_eq ?_)
    ((Assignment.all_perm hperm hj.nodup).filter _))
  refine List.filter_congr fun e he => ?_
  have hfit : (node.blocks db).Fits node.scanIds e := fun i hi =>
    (scanTable db (node.scanAt i)).width _
      (Assignment.mem_dom_of_mem_all he (hperm.mem_iff.mpr hi))
  rw [hw.conjuncts_search hj hperm hfit, Bool.and_comm, Function.comp, Bool.and_comm (edgesHold ..)]

theorem answersTree_planJoinSearch (hw : node.WellFormed db) (he : node.Evaluates db)
    {plan : PhysicalPlan R} (h : planJoinSearch catalog stats node = .ok plan) :
    AnswersTree node db plan sets := by
  obtain ⟨ex, hex, h⟩ := Except.bind_eq_ok.mp h
  obtain ⟨best, hbest, h⟩ := Except.bind_eq_ok.mp h
  cases h
  rw [buildJoinGraph_eq_ok hex] at hbest ⊢
  obtain ⟨π, used, hj, hids⟩ := findBestPlan_joinedBy (joinGraph_fitsMask hw.width) hbest
  have hperm : π.Perm node.scanIds := by
    simpa [LogicalPlan.scanIds, LogicalPlan.joinGraph, baseRelations] using hids
  have hπ : (node.blocks db).Distinct π := (hperm.map _).nodup_iff.mpr hw.blocks
  have hreturn : PathsReturn (node.blocks db) (pathOf catalog stats node.joinGraph)
      (node.localRows db) db sets := pathOf_joinGraph_pathsReturn hw.loaded hw.indexColumnsLoaded
  obtain ⟨e, rows, rows', hbuild, hschema, hrun, hrel, hsame⟩ := hj.runsAs hreturn
    (hw.pathsRun he) links_edgeColumns hπ (hw.linksAccepted he) (hw.linksDecided he)
    (equiHashed_findBestPlan hbest)
  have hchoice := hj.exists_choice hreturn links_edgeColumns hπ hrel
  obtain ⟨rows'', hrel', hchosen⟩ := hj.relational_eq hreturn links_edgeColumns hπ
  rw [hrel] at hrel'
  cases hrel'
  have hresidual : ∀ p ∈ node.conjuncts.filter (isResidual (baseRelations node)), ∀ row ∈ rows,
      ∃ b, passes p row e.schema = .ok b := by
    intro p hp row hrow
    have hp := List.mem_of_mem_filter hp
    obtain ⟨f, hf, rfl⟩ := hchoice row (hsame.mem_iff.mp hrow)
    obtain ⟨g, hg, hvalue⟩ := hw.exists_picks hp hπ.nodup (fun i hi => hperm.mem_iff.mp hi)
      (fun i hi => List.mem_of_mem_filter (hf i hi).2) fun i hi _ => hperm.mem_iff.mpr hi
    rw [hschema, passes, hvalue p (List.Subset.refl _)]
    exact he.truth p hp g hg
  obtain ⟨e', hbuild', hschema', hrun'⟩ := runs_addResidual _ hbuild hrun hresidual
  refine ⟨e', π, _, hbuild', hperm, hschema'.trans hschema, hrun', ?_⟩
  rw [hschema]
  exact ((hsame.trans hchosen).filter _).trans (hw.satisfying_search hj hperm)

/-! ### One table -/

theorem holds_and (a b : Expression) (row : Row) (s : RowSchema) :
    holds (.binaryOp a .and b) row s = (holds a row s && holds b row s) := by
  simp only [holds, passes, evaluate, evaluateBinary]
  cases evaluate a row s with
  | error e => rfl
  | ok va =>
    cases evaluate b row s with
    | error e => cases va with
      | boolean t => cases t <;> rfl
      | _ => rfl
    | ok vb => cases va with
      | boolean t => cases vb with
        | boolean u => cases t <;> rfl
        | _ => cases t <;> rfl
      | _ => rfl

theorem holds_eq_all_splitAnd (p : Expression) (row : Row) (s : RowSchema) :
    holds p row s = (splitAnd p).all (holds · row s) :=
  eq_all_splitAnd (p := fun e => holds e row s) (fun a b => holds_and a b row s) p

/-- A predicate whose conjuncts have truth values has one. -/
theorem passes_of_splitAnd {p : Expression} {row : Row} {s : RowSchema}
    (h : ∀ c ∈ splitAnd p, ∃ b, passes c row s = .ok b) : ∃ b, passes p row s = .ok b := by
  fun_induction splitAnd p with
  | case1 l r ihl ihr =>
    obtain ⟨bl, hl⟩ := ihl fun c hc => h c (List.mem_append_left _ hc)
    obtain ⟨br, hr⟩ := ihr fun c hc => h c (List.mem_append_right _ hc)
    obtain ⟨vl, hvl, htl⟩ := Except.bind_eq_ok.mp hl
    obtain ⟨vr, hvr, htr⟩ := Except.bind_eq_ok.mp hr
    refine ⟨bl && br, ?_⟩
    have hvalue : evaluate (.binaryOp l .and r) row s = .ok (.boolean (bl && br)) := by
      rw [evaluate, hvl, hvr]
      simp only [Except.ok_bind, evaluateBinary, htl, htr]
      cases bl <;> rfl
    rw [passes, hvalue]
    rfl
  | case2 e => exact h e (List.mem_singleton_self e)

omit [Rounding] in
theorem splitAnd_of_columnLiteral {p : Expression} {t : Option String} {c : String} {lit : Literal}
    (h : columnLiteral p = some (t, c, lit)) : splitAnd p = [p] := by
  unfold columnLiteral at h
  split at h <;> cases h <;> rfl

/-- The plan of filters over a scan. -/
theorem runs_filteredScan {tableName : String} {aliasName : Option String} {cols : List String}
    {table : Table} (htable : db.get tableName = some table) {plan : PhysicalPlan R}
    (hscan : node.unwrapFilters = .scan tableName aliasName cols)
    (hclean : ScansCleanly table (aliasName.getD tableName) node.conjuncts)
    (h : planNode catalog stats node = .ok plan) :
    ∃ e, buildExecutor plan db sets = .ok e ∧
      e.schema = scanSchema (aliasName.getD tableName) table.columnNames ∧
      e.run = .ok (rowsWhere table (aliasName.getD tableName) node.conjuncts) := by
  have hload := loadedTable_of_get htable
  induction node generalizing plan with
  | scan =>
    cases hscan
    cases h
    refine ⟨.seqScan tableName (scanSchema (aliasName.getD tableName) table.columnNames) table,
      by simp [planScan, buildExecutor, hload], rfl, ?_⟩
    rw [Executor.run_eq_ok, Executor.drain, rowsWhere]
    simp only [LogicalPlan.conjuncts, List.all_nil, List.filter_true]
  | filter p input ih =>
    have hcandidate : isJoinSearchCandidate (.filter p input) = false := by
      rw [isJoinSearchCandidate, hscan]
    rw [LogicalPlan.unwrapFilters] at hscan
    rw [planNode, hcandidate] at h
    simp only [Bool.false_eq_true, if_false] at h
    have hinput : ScansCleanly table (aliasName.getD tableName) input.conjuncts :=
      ⟨hclean.distinct, fun q hq => hclean.own q (List.mem_append_right _ hq),
        fun row hrow q hq => hclean.clean row hrow q (List.mem_append_right _ hq)⟩
    split at h
    case h_1 indexed hindexed =>
      cases h
      cases input with
      | scan name alias' cols' =>
        cases hscan
        obtain ⟨rows, reasoning, confidence, t, column, lit, hlit, rfl⟩ :=
          tryIndexScan_eq_some hindexed
        rw [LogicalPlan.conjuncts, splitAnd_of_columnLiteral hlit] at hclean ⊢
        refine ⟨.indexScan tableName (scanSchema (aliasName.getD tableName) table.columnNames) table
          column (.literal lit), by simp [buildExecutor, hload], rfl, ?_⟩
        rw [Executor.run_eq_ok, Executor.drain]
        obtain ⟨ht, hc⟩ := hclean.probe hlit
        exact indexScanRows_eq ht hc hlit
      | _ => cases hindexed
    case h_2 =>
      obtain ⟨inner, hinner, h⟩ := Except.bind_eq_ok.mp h
      cases h
      obtain ⟨e, hbuild, hschema, hrun⟩ := ih hscan hinput hinner
      refine ⟨.filter p e, by simp [buildExecutor, hbuild], hschema, ?_⟩
      rw [Executor.run_filter hrun]
      · rw [hschema, LogicalPlan.conjuncts, rowsWhere, rowsWhere, List.filter_filter]
        congr 1
        refine List.filter_congr fun row _ => ?_
        rw [List.all_append, holds_eq_all_splitAnd]
      · intro row hrow
        rw [hschema]
        exact passes_of_splitAnd fun c hc =>
          hclean.clean row (List.mem_of_mem_filter hrow) c (List.mem_append_left _ hc)
  | _ => cases hscan

omit [Rounding] in
theorem scans_unwrapFilters (p : LogicalPlan) : p.unwrapFilters.scans = p.scans := by
  induction p with
  | filter predicate input ih => exact ih
  | _ => rfl

omit [Rounding] in
theorem scanAt_of_scans_singleton {s : String × Option String} (h : node.scans = [s]) :
    node.scanIds = [0] ∧ node.scanAt 0 = s := by
  rw [LogicalPlan.scanIds, LogicalPlan.scanAt, h]
  exact ⟨rfl, rfl⟩

/-- The rows of one scan that satisfy every conjunct. -/
theorem satisfying_singleton {s : String × Option String} (h : node.scans = [s]) :
    (node.satisfying db).map (Blocks.layout [0]) =
      rowsWhere (scanTable db s) (scanIdent s) node.conjuncts := by
  obtain ⟨hids, hscan⟩ := scanAt_of_scans_singleton h
  have hrow : ∀ row : Row, Blocks.layout [0] (Function.update (fun _ => []) 0 row) = row := by
    intro row
    simp [Blocks.layout]
  rw [LogicalPlan.satisfying, hids, Blocks.layoutSchema_singleton, choices, Assignment.all_cons,
    List.filter_flatMap, List.map_flatMap, rowsWhere, Blocks.schemaOf, LogicalPlan.tableRows]
  simp only [Assignment.all, List.map_cons, List.map_nil, LogicalPlan.blocks, hscan]
  induction (scanTable db s).rows with
  | nil => rfl
  | cons row rows ih =>
    rw [List.flatMap_cons, ih, List.filter_cons, List.filter_cons, hrow]
    split
    · simp [hrow]
    · simp

theorem LogicalPlan.WellFormed.scansCleanly_singleton (hw : node.WellFormed db)
    (he : node.Evaluates db) {s : String × Option String} (h : node.scans = [s]) :
    ScansCleanly (scanTable db s) (scanIdent s) node.conjuncts := by
  obtain ⟨hids, hscan⟩ := scanAt_of_scans_singleton h
  have hmem : 0 ∈ node.scanIds := by rw [hids]; exact List.mem_singleton_self 0
  have hrow : ∀ row : Row, Blocks.layout [0] (fun _ => row) = row := by
    intro row
    simp [Blocks.layout]
  constructor
  · exact hw.names s (by rw [h]; exact List.mem_singleton_self s)
  · intro p hp t c htc
    obtain ⟨s', hs', hmatch, hc⟩ := hw.owned p hp t c htc
    rw [h, List.mem_singleton] at hs'
    rw [hs'] at hmatch hc
    exact ⟨hmatch, hc⟩
  · intro row hrows p hp
    obtain ⟨f, hf, hvalue⟩ := hw.exists_picks hp (List.nodup_singleton 0)
      (fun i hi => hids ▸ hi) (e := fun _ => row)
      (fun i hi => by rwa [List.mem_singleton.mp hi, LogicalPlan.tableRows, hscan])
      fun i hi _ => hids ▸ hi
    obtain ⟨b, hb⟩ := he.truth p hp f hf
    rw [passes, ← hvalue p (List.Subset.refl _), Blocks.layoutSchema_singleton, hrow] at hb
    rw [← hscan]
    exact ⟨b, hb⟩

/-- The plan of a subtree of scans, filters and inner joins answers it. -/
theorem answersTree_planNode (hflat : node.isFlat = true) (hw : node.WellFormed db)
    (he : node.Evaluates db) {plan : PhysicalPlan R} (h : planNode catalog stats node = .ok plan) :
    AnswersTree node db plan sets := by
  cases hcandidate : isJoinSearchCandidate node with
  | true =>
    rw [planNode.eq_def, if_pos hcandidate] at h
    exact answersTree_planJoinSearch hw he h
  | false =>
    have hscan := LogicalPlan.isScan_or_candidate_of_isFlat hflat
    rw [hcandidate, Bool.or_false] at hscan
    obtain ⟨tableName, aliasName, cols, hunwrap⟩ :
        ∃ tableName aliasName cols, node.unwrapFilters = .scan tableName aliasName cols := by
      unfold LogicalPlan.isScan at hscan
      split at hscan
      · exact ⟨_, _, _, by assumption⟩
      · cases hscan
    have hscans : node.scans = [(tableName, aliasName)] := by
      rw [← scans_unwrapFilters, hunwrap, LogicalPlan.scans]
    obtain ⟨hids, hat⟩ := scanAt_of_scans_singleton hscans
    have hget := hw.get_scan (hids ▸ List.mem_singleton_self 0)
    rw [hat] at hget
    have hclean := hw.scansCleanly_singleton he hscans
    obtain ⟨e, hbuild, hschema, hrun⟩ : ∃ e, buildExecutor plan db sets = .ok e ∧ _ ∧ _ :=
      runs_filteredScan hget hunwrap hclean h
    refine ⟨e, [0], _, hbuild, by rw [hids], ?_, hrun, ?_⟩
    · rw [hschema, Blocks.layoutSchema_singleton]
      simp only [Blocks.schemaOf, LogicalPlan.blocks, hat]
      rfl
    · rw [satisfying_singleton hscans]
      exact .refl _

end

end SqlOptimizer
