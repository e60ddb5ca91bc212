import SqlOptimizer.Execution.Layout
import SqlOptimizer.Execution.Relational
import SqlOptimizer.Library.Assignment
import SqlOptimizer.Optimizer.JoinSearch

/-! The rows of a join search.  A tree of the search returns the choices of one row for each
relation that satisfy the local filters and the edges that it uses.  It uses one edge for each join,
so it uses all of them exactly when the graph has one edge less than it has relations. -/

namespace SqlOptimizer

theorem all_eq_and_all_eraseIdx {α : Type} {l : List α} {i : Nat} {a : α} (h : l[i]? = some a)
    (f : α → Bool) : l.all f = (f a && (l.eraseIdx i).all f) := by
  obtain ⟨hi, rfl⟩ := List.getElem?_eq_some_iff.mp h
  rw [← (List.getElem_cons_eraseIdx_perm hi).all_eq]
  rfl

/-! ### Access paths -/

section AccessPath

variable [Rounding] {R : Type} [CostNum R] {db : Database} {sets : ExternalRowSets}

theorem relational_stackFilter {stats : StatisticsCatalog R} {scope : LogicalPlan}
    (ps : List Expression) {st : PhysicalPlan R × R} {s : RowSchema} {l : List Row}
    (h : relational st.1 db sets = .ok (s, l)) :
    relational (ps.foldl (stackFilter stats scope) st).1 db sets =
      .ok (s, l.filter fun row => ps.all fun p => holds p row s) := by
  induction ps generalizing st l with
  | nil => simpa using h
  | cons p ps ih =>
    have hstep : relational (stackFilter stats scope st p).1 db sets =
        .ok (s, l.filter fun row => holds p row s) := by
      simp [stackFilter, relational, h]
    rw [List.foldl_cons, ih hstep, List.filter_filter]
    simp [Bool.and_comm]

/-- An equality of a column and a literal is true when the column's value equals the literal. -/
theorem passes_columnLiteral {p : Expression} {t : Option String} {c : String} {l v : Literal}
    {s : RowSchema} {idx : Nat} {row : Row} (hp : columnLiteral p = some (t, c, l))
    (hs : s.resolve t c = some idx) (hv : row[idx]? = some v) :
    passes p row s = .ok (literalEqual v l) := by
  have hcol : evaluate (.column t c) row s = .ok v := by
    rw [evaluate_column hs, rowAt_eq_ok, hv]
  unfold columnLiteral at hp
  split at hp
  · cases hp
    simp [passes, evaluate, hs, rowAt_eq_ok.mpr hv, evaluateBinary, literalTruthy]
  · cases hp
    simp [passes, evaluate, hs, rowAt_eq_ok.mpr hv, evaluateBinary, literalTruthy,
      literalEqual_symm]
  · cases hp

theorem holds_columnLiteral {p : Expression} {t : Option String} {c : String} {l v : Literal}
    {s : RowSchema} {idx : Nat} {row : Row} (hp : columnLiteral p = some (t, c, l))
    (hs : s.resolve t c = some idx) (hv : row[idx]? = some v) :
    holds p row s = literalEqual v l := by
  rw [holds, passes_columnLiteral hp hs hv]

/-- The rows of the index scan of an equality: those that satisfy it. -/
theorem indexScanMeaning_eq {q c : String} {table : Table} {lit : Literal} {p : Expression}
    (hp : columnLiteral p = some (some q, c, lit)) (hc : table.columnNames.count c = 1) :
    indexScanMeaning (scanSchema q table.columnNames) table.rows c (.literal lit) =
      .ok (table.rows.filter fun row => holds p row (scanSchema q table.columnNames)) := by
  obtain ⟨idx, hidx⟩ : ∃ idx, table.columnNames.findIdx? (· == c) = some idx := by
    rw [← Option.isSome_iff_exists, List.findIdx?_isSome, List.any_eq_true]
    exact ⟨c, List.count_pos_iff.mp (by omega), by simp⟩
  simp only [indexScanMeaning, evaluate, Except.ok_bind, scanSchema_resolve_none hc, hidx,
    Except.pure_eq_ok]
  congr 1
  apply List.filter_congr
  intro row hrow
  have hlt : idx < row.length := by
    rw [table.width row hrow]
    exact (List.findIdx?_eq_some_iff_getElem.mp hidx).1
  have hv : row[idx]? = some row[idx] := List.getElem?_eq_getElem hlt
  rw [holds_columnLiteral hp (scanSchema_resolve_some.trans hidx) hv, hv]
  rfl

/-- An access path returns the rows of its table that satisfy the local filters, if these name the
relation's alias and a column that it probes is in the loaded table once. -/
theorem relational_bestAccessPath {catalog : Catalog} {stats : StatisticsCatalog R}
    {rel : Relation} {table : Table} (ht : db.get rel.tableName = some table)
    (hown : ∀ p ∈ rel.localFilters, ∀ t c l, columnLiteral p = some (t, c, l) → t = some rel.ident)
    (hprobe : ∀ c, (bestAccessPath catalog stats rel).probedColumn = some c →
      table.columnNames.count c = 1) :
    relational (bestAccessPath catalog stats rel) db sets =
      .ok (scanSchema rel.ident table.columnNames, table.rows.filter fun row =>
        rel.localFilters.all fun p => holds p row (scanSchema rel.ident table.columnNames)) := by
  have hload : loadedTable db rel.tableName = .ok table := by simp [loadedTable, ht]
  rcases bestAccessPath_cases catalog stats rel with
    ⟨scope, rows, _, _, heq⟩ | ⟨i, pred, t, column, lit, hp, hcol, scope, rows, _, _, heq⟩
  · rw [heq]
    apply relational_stackFilter
    simp [relational, hload, Relation.ident]
  · rw [heq, probedColumn_stackFilter] at hprobe
    have hcount := hprobe column rfl
    obtain rfl := hown pred (List.mem_of_getElem? hp) t column lit hcol
    rw [heq, relational_stackFilter (s := scanSchema rel.ident table.columnNames)
      (l := table.rows.filter fun row =>
        holds pred row (scanSchema rel.ident table.columnNames))]
    · rw [List.filter_filter]
      congr 2
      apply List.filter_congr
      intro row _
      rw [all_eq_and_all_eraseIdx hp, Bool.and_comm]
    · have hident : rel.aliasName.getD rel.tableName = rel.ident := rfl
      simp only [relational, hload, Except.ok_bind, hident, indexScanMeaning_eq hcol hcount,
        Except.pure_eq_ok]

end AccessPath

/-! ### Trees -/

section Trees

variable [Rounding] {R : Type} {db : Database} {sets : ExternalRowSets}

/-- The edges at the positions `used` hold in the row that lays out `e` in the order `π`. -/
def edgesHold (B : Blocks) (edges : List JoinEdge) (π used : List Nat) (e : Nat → Row) : Bool :=
  used.all fun k => edges[k]?.all fun edge =>
    holds edge.predicate (Blocks.layout π e) (B.layoutSchema π)

/-- The columns of each edge are qualified by the alias of one of its ends. -/
def EdgeColumns (B : Blocks) (edges : List JoinEdge) : Prop :=
  ∀ edge ∈ edges, ∀ t c, (t, c) ∈ edge.predicate.columns →
    t = some (B.ident edge.left) ∨ t = some (B.ident edge.right)

variable {B : Blocks} {edges : List JoinEdge} {path : Nat → Option (PhysicalPlan R)}
  {dom : Nat → List Row}

/-- The edges of a tree hold alike in every layout that has its relations. -/
theorem edgesHold_congr {π ρ used : List Nat} {e f : Nat → Row} (hB : EdgeColumns B edges)
    (hπ : B.Distinct π) (hρ : B.Distinct ρ) (hfe : B.Fits π e) (hff : B.Fits ρ f)
    (hsub : ∀ i ∈ π, i ∈ ρ ∧ e i = f i)
    (hends : ∀ k ∈ used, ∃ edge, edges[k]? = some edge ∧ edge.left ∈ π ∧ edge.right ∈ π) :
    edgesHold B edges ρ used f = edgesHold B edges π used e := by
  unfold edgesHold
  rw [Bool.eq_iff_iff, List.all_eq_true, List.all_eq_true]
  refine forall₂_congr fun k hk => ?_
  obtain ⟨edge, hedge, hleft, hright⟩ := hends k hk
  have hcols : ∀ t c, (t, c) ∈ edge.predicate.columns → ∃ q, t = some q ∧
      ((∃ i ∈ π, i ∈ ρ ∧ B.ident i = q ∧ e i = f i) ∨
        ((∀ i ∈ π, B.ident i ≠ q) ∧ ∀ i ∈ ρ, B.ident i ≠ q)) := by
    intro t c htc
    rcases hB edge (List.mem_of_getElem? hedge) t c htc with rfl | rfl
    · exact ⟨_, rfl, .inl ⟨_, hleft, (hsub _ hleft).1, rfl, (hsub _ hleft).2⟩⟩
    · exact ⟨_, rfl, .inl ⟨_, hright, (hsub _ hright).1, rfl, (hsub _ hright).2⟩⟩
  rw [hedge, Option.all_some, Option.all_some,
    Blocks.holds_layout_congr hπ hρ hfe hff hcols]

/-- The plans of the relations return their rows. -/
structure PathsReturn (B : Blocks) (path : Nat → Option (PhysicalPlan R)) (dom : Nat → List Row)
    (db : Database) (sets : ExternalRowSets) : Prop where
  rows : ∀ i p, path i = some p → relational p db sets = .ok (B.schemaOf i, dom i)
  width : ∀ i p, path i = some p → ∀ row ∈ dom i, row.length = (B.columns i).length

/-- The assignments of one row to each relation of `π`. -/
abbrev choices (dom : Nat → List Row) (π : List Nat) : List (Nat → Row) :=
  Assignment.all (fun _ => []) dom π

theorem PathsReturn.fits (hd : PathsReturn B path dom db sets) {π used : List Nat}
    {plan : PhysicalPlan R} (h : JoinedBy path edges π used plan) {e : Nat → Row}
    (he : e ∈ choices dom π) : B.Fits π e := by
  intro i hi
  obtain ⟨p, hp⟩ := h.path_isSome i hi
  exact hd.width i p hp (e i) (Assignment.mem_dom_of_mem_all he hi)

/-- The edges of a tree that takes in relation `r` by `edge`. -/
theorem edgesHold_update {π ρ used : List Nat} {r k : Nat} {edge : JoinEdge} {e : Nat → Row}
    {a : Row} (hB : EdgeColumns B edges) (hρ : B.Distinct ρ) (hperm : (r :: π).Perm ρ)
    (hr : r ∉ π) (hk : edges[k]? = some edge)
    (hends : ∀ k ∈ used, ∃ edge, edges[k]? = some edge ∧ edge.left ∈ π ∧ edge.right ∈ π)
    (hfe : B.Fits π e) (ha : a.length = (B.columns r).length) :
    edgesHold B edges ρ (k :: used) (Function.update e r a) =
      (edgesHold B edges π used e && holds edge.predicate
        (Blocks.layout ρ (Function.update e r a)) (B.layoutSchema ρ)) := by
  have hπ : B.Distinct π := ((hperm.map B.ident).nodup_iff.mpr hρ).of_cons
  have hff : B.Fits ρ (Function.update e r a) := by
    intro i hi
    rcases List.mem_cons.mp (hperm.mem_iff.mpr hi) with rfl | hi
    · rw [Function.update_self, ha]
    · rw [Function.update_of_ne (ne_of_mem_of_not_mem hi hr)]
      exact hfe i hi
  have hsub : ∀ i ∈ π, i ∈ ρ ∧ e i = Function.update e r a i := fun i hi =>
    ⟨hperm.mem_iff.mp (List.mem_cons_of_mem r hi),
      (Function.update_of_ne (ne_of_mem_of_not_mem hi hr) a e).symm⟩
  rw [← edgesHold_congr hB hπ hρ hfe hff hsub hends, edgesHold, List.all_cons, hk,
    Option.all_some, Bool.and_comm]
  rfl

/-- A tree returns the choices that satisfy its edges, laid out in its order. -/
theorem JoinedBy.relational_eq {π used : List Nat} {plan : PhysicalPlan R}
    (h : JoinedBy path edges π used plan) (hd : PathsReturn B path dom db sets)
    (hB : EdgeColumns B edges) (hπ : B.Distinct π) :
    ∃ rows, relational plan db sets = .ok (B.layoutSchema π, rows) ∧
      rows.Perm (((choices dom π).filter (edgesHold B edges π used)).map (Blocks.layout π)) := by
  induction h with
  | @leaf i p hp =>
    refine ⟨dom i, by rw [hd.rows i p hp, Blocks.layoutSchema_singleton], ?_⟩
    have hone : ((choices dom [i]).filter (edgesHold B edges [i] [])).map (Blocks.layout [i]) =
        dom i := by
      have htrue : edgesHold B edges [i] [] = fun _ => true := rfl
      rw [htrue, List.filter_true]
      simp [choices, Assignment.all, Blocks.layout, List.map_flatMap]
    rw [hone]
  | @last π used p q r k edge ann kind hp hq hr hk hl hf ih =>
    have hswap : (r :: π).Perm (π ++ [r]) := (List.perm_append_singleton r π).symm
    have hπ' : B.Distinct (r :: π) := (hswap.map B.ident).nodup_iff.mpr hπ
    obtain ⟨rows, hrows, hperm⟩ := ih hπ'.of_cons
    have hschema : B.layoutSchema (π ++ [r]) = (B.layoutSchema π).extend (B.schemaOf r) := by
      rw [Blocks.layoutSchema_append, Blocks.layoutSchema_singleton]
    have hlay : ∀ (a : Row) (e : Nat → Row),
        Blocks.layout (π ++ [r]) (Function.update e r a) = Blocks.layout π e ++ a := by
      intro a e
      rw [Blocks.layout_append, Blocks.layout_update_of_not_mem hr]
      simp [Blocks.layout]
    refine ⟨_, by rw [relational_join hrows (hd.rows r q hq), hschema], ?_⟩
    refine (Pairs.joinBy_perm_left _ _ _ hperm).trans ((Pairs.joinBy_swap _ _ _ _).trans ?_)
    rw [Assignment.joinBy_all (q := edgesHold B edges (π ++ [r]) (k :: used))
      (w := Blocks.layout (π ++ [r])) (fun a _ e _ => hlay a e)]
    · exact ((Assignment.all_perm hswap hπ'.nodup).filter _).map _
    · intro a ha e he
      rw [edgesHold_update hB hπ hswap hr hk hp.ends_mem (hd.fits hp he) (hd.width r q hq a ha),
        hlay, hschema]
  | @first π used p q r k edge ann kind hp hq hr hk hl hf ih =>
    obtain ⟨rows, hrows, hperm⟩ := ih hπ.of_cons
    have hlay : ∀ (a : Row) (e : Nat → Row),
        Blocks.layout (r :: π) (Function.update e r a) = a ++ Blocks.layout π e := by
      intro a e
      rw [← Blocks.layout_update_of_not_mem hr e a]
      simp [Blocks.layout]
    refine ⟨_, by rw [relational_join (hd.rows r q hq) hrows, Blocks.layoutSchema_cons], ?_⟩
    refine (Pairs.joinBy_perm_right _ _ _ hperm).trans ?_
    rw [Assignment.joinBy_all (q := edgesHold B edges (r :: π) (k :: used))
      (w := Blocks.layout (r :: π)) (fun a _ e _ => hlay a e)]
    intro a ha e he
    rw [edgesHold_update hB hπ (.refl _) hr hk hp.ends_mem (hd.fits hp he) (hd.width r q hq a ha),
      hlay, Blocks.layoutSchema_cons]

end Trees

/-! ### The subtree -/

def scanIdent (s : String × Option String) : String := s.2.getD s.1

/-- The table of a scan, empty when it is not loaded. -/
def scanTable (db : Database) (s : String × Option String) : Table :=
  (db.get s.1).getD ⟨[], [], by simp⟩

/-- Scan `i` of a subtree. -/
def LogicalPlan.scanAt (node : LogicalPlan) (i : Nat) : String × Option String :=
  node.scans.getD i ("", none)

def LogicalPlan.blocks (node : LogicalPlan) (db : Database) : Blocks where
  ident i := scanIdent (node.scanAt i)
  columns i := (scanTable db (node.scanAt i)).columnNames

/-- The rows of the table of scan `i`. -/
def LogicalPlan.tableRows (node : LogicalPlan) (db : Database) (i : Nat) : List Row :=
  (scanTable db (node.scanAt i)).rows

/-- The numbers of the scans of a subtree. -/
def LogicalPlan.scanIds (node : LogicalPlan) : List Nat := List.range node.scans.length

/-- The conjuncts of a subtree that mention exactly two of its scans: the edges of its graph. -/
def LogicalPlan.links (node : LogicalPlan) : List JoinEdge :=
  node.conjuncts.filterMap (edgeOf (baseRelations node))

/-- A scan with the conjuncts that mention it alone. -/
def LogicalPlan.filteredScan (node : LogicalPlan) (i : Nat) : Relation :=
  ⟨i, (node.scanAt i).1, (node.scanAt i).2, node.conjuncts.filter (localTo (baseRelations node) i)⟩

/-- Where the access path of a scan is an index scan, its column occurs once in the loaded table. -/
def IndexColumnsLoaded {R : Type} [CostNum R] (catalog : Catalog) (stats : StatisticsCatalog R)
    (node : LogicalPlan) (db : Database) : Prop :=
  ∀ i ∈ node.scanIds, ∀ c,
    (bestAccessPath catalog stats (node.filteredScan i)).probedColumn = some c →
      (scanTable db (node.scanAt i)).columnNames.count c = 1

section

variable {node : LogicalPlan} {db : Database}

theorem scans_getElem? {i : Nat} (hi : i < node.scans.length) :
    node.scans[i]? = some (node.scanAt i) := by
  simp [LogicalPlan.scanAt, List.getD_eq_getElem?_getD, List.getElem?_eq_getElem hi]

theorem scans_eq_map (node : LogicalPlan) : node.scans = node.scanIds.map node.scanAt := by
  apply List.ext_getElem?
  intro i
  simp only [LogicalPlan.scanIds, List.getElem?_map]
  by_cases hi : i < node.scans.length
  · rw [List.getElem?_range hi, scans_getElem? hi]
    rfl
  · rw [List.getElem?_eq_none (by simpa using hi), List.getElem?_eq_none (by simpa using hi)]
    rfl

theorem blocks_distinct (h : (node.scans.map scanIdent).Nodup) :
    (node.blocks db).Distinct node.scanIds := by
  rw [scans_eq_map, List.map_map] at h
  exact h

theorem baseRelations_getElem? {i : Nat} (hi : i < node.scans.length) :
    (baseRelations node)[i]? = some ⟨i, (node.scanAt i).1, (node.scanAt i).2, []⟩ := by
  simp [baseRelations, List.getElem?_mapIdx, scans_getElem? hi]

theorem mem_baseRelations (db : Database) {r : Relation} (hr : r ∈ baseRelations node) :
    r.id < node.scans.length ∧ r.ident = (node.blocks db).ident r.id := by
  obtain ⟨i, hi⟩ := List.mem_iff_getElem?.mp hr
  have hlt : i < node.scans.length := by
    have := (List.getElem?_eq_some_iff.mp hi).1
    simpa [baseRelations] using this
  rw [baseRelations_getElem? hlt] at hi
  cases hi
  exact ⟨hlt, rfl⟩

/-- The references of a predicate are scans, and its columns are qualified by their aliases. -/
theorem refsIn_baseRelations (db : Database) {p : Expression} {ids : List Nat}
    (h : refsIn (baseRelations node) p = some ids) :
    (∀ i ∈ ids, i < node.scans.length) ∧
      ∀ t c, (t, c) ∈ p.columns → ∃ i ∈ ids, t = some ((node.blocks db).ident i) := by
  obtain ⟨hcols, hids, -⟩ := refsIn_eq_some h
  constructor
  · intro i hi
    obtain ⟨r, hr, rfl⟩ := hids i hi
    exact (mem_baseRelations db hr).1
  · intro t c htc
    obtain ⟨r, hr, rfl, hid⟩ := hcols t c htc
    exact ⟨r.id, hid, congrArg some (mem_baseRelations db hr).2⟩

theorem edgeOf_eq_some {rels : List Relation} {p : Expression} {edge : JoinEdge}
    (h : edgeOf rels p = some edge) :
    refsIn rels p = some [edge.left, edge.right] ∧ edge.predicate = p := by
  unfold edgeOf at h
  split at h
  · next a b hrefs =>
    cases h
    exact ⟨hrefs, rfl⟩
  · cases h

theorem link_mem_conjuncts {edge : JoinEdge} (h : edge ∈ node.links) :
    edge.predicate ∈ node.conjuncts := by
  obtain ⟨p, hp, hpe⟩ := List.mem_filterMap.mp h
  rw [(edgeOf_eq_some hpe).2]
  exact hp

theorem links_edgeColumns : EdgeColumns (node.blocks db) node.links := by
  intro edge hedge t c htc
  obtain ⟨p, -, hp⟩ := List.mem_filterMap.mp hedge
  obtain ⟨hrefs, rfl⟩ := edgeOf_eq_some hp
  obtain ⟨i, hi, rfl⟩ := (refsIn_baseRelations db hrefs).2 t c htc
  simp only [List.mem_cons, List.not_mem_nil, or_false] at hi
  rcases hi with rfl | rfl
  · exact .inl rfl
  · exact .inr rfl

/-- The conjuncts of a subtree are its local filters, its links and its residuals. -/
theorem conjuncts_all (f : Expression → Bool) :
    node.conjuncts.all f =
      ((node.scanIds.all fun i => (node.conjuncts.filter (localTo (baseRelations node) i)).all f) &&
        ((node.links.all fun edge => f edge.predicate) &&
          (node.conjuncts.filter (isResidual (baseRelations node))).all f)) := by
  rw [Bool.eq_iff_iff]
  simp only [Bool.and_eq_true, List.all_eq_true, List.mem_filter, and_imp]
  constructor
  · intro h
    refine ⟨fun i _ p hp _ => h p hp, fun edge hedge => ?_, fun p hp _ => h p hp⟩
    exact h _ (link_mem_conjuncts hedge)
  · rintro ⟨hlocal, hedge, hres⟩ p hp
    by_cases hr : isResidual (baseRelations node) p = true
    · exact hres p hp hr
    · unfold isResidual at hr
      split at hr
      case h_1 i hrefs =>
        have hlt := (refsIn_baseRelations ∅ hrefs).1 i (by simp)
        exact hlocal i (List.mem_range.mpr hlt) p hp (by simp [localTo, hrefs])
      case h_2 a b hrefs =>
        exact hedge ⟨a, b, p⟩ (List.mem_filterMap.mpr ⟨p, hp, by simp [edgeOf, hrefs]⟩)
      case h_3 => exact absurd rfl hr

/-- The graph of a subtree. -/
def LogicalPlan.joinGraph (node : LogicalPlan) : JoinGraph :=
  ⟨(baseRelations node).map (withLocals (baseRelations node) node.conjuncts), node.links⟩

theorem joinGraph_fitsMask (hwidth : node.scans.length ≤ 64) : node.joinGraph.FitsMask where
  width := by simpa [LogicalPlan.joinGraph, baseRelations] using hwidth
  ends := by
    intro edge hedge
    obtain ⟨p, -, hp⟩ := List.mem_filterMap.mp hedge
    have hlt := (refsIn_baseRelations ∅ (edgeOf_eq_some hp).1).1
    simp only [LogicalPlan.joinGraph, List.length_map, baseRelations, List.length_mapIdx]
    exact ⟨hlt _ (by simp), hlt _ (by simp)⟩

end

/-! ### The plan of the search -/

/-- What the search returns: a tree over all scans, under the residuals. -/
theorem planJoinSearch_joinedBy {R : Type} [CostNum R] {catalog : Catalog}
    {stats : StatisticsCatalog R} {node : LogicalPlan} {plan : PhysicalPlan R}
    (hwidth : node.scans.length ≤ 64) (h : planJoinSearch catalog stats node = .ok plan) :
    ∃ π used best, JoinedBy (pathOf catalog stats node.joinGraph) node.links π used best ∧
      π.Perm node.scanIds ∧
      plan = (node.conjuncts.filter (isResidual (baseRelations node))).foldl addResidual best := by
  obtain ⟨ex, hex, h⟩ := Except.bind_eq_ok.mp h
  obtain ⟨best, hbest, h⟩ := Except.bind_eq_ok.mp h
  cases h
  rw [buildJoinGraph_eq_ok hex] at hbest ⊢
  obtain ⟨π, used, hj, hperm⟩ := findBestPlan_joinedBy (joinGraph_fitsMask hwidth) hbest
  refine ⟨π, used, best, hj, ?_, rfl⟩
  simpa [LogicalPlan.scanIds, LogicalPlan.joinGraph, baseRelations] using hperm

section Search

variable [Rounding] {R : Type} [CostNum R] {catalog : Catalog} {stats : StatisticsCatalog R}
  {node : LogicalPlan} {db : Database} {sets : ExternalRowSets}

/-- The rows of scan `i` that satisfy its local filters. -/
def LogicalPlan.localRows (node : LogicalPlan) (db : Database) (i : Nat) : List Row :=
  (node.tableRows db i).filter fun row =>
    (node.conjuncts.filter (localTo (baseRelations node) i)).all fun p =>
      holds p row ((node.blocks db).schemaOf i)

omit [Rounding] in
theorem pathOf_joinGraph {i : Nat} {p : PhysicalPlan R}
    (h : pathOf catalog stats node.joinGraph i = some p) :
    i ∈ node.scanIds ∧ p = bestAccessPath catalog stats (node.filteredScan i) := by
  simp only [pathOf, LogicalPlan.joinGraph, List.getElem?_map, Option.map_map,
    Option.map_eq_some_iff] at h
  obtain ⟨r, hr, rfl⟩ := h
  have hlt : i < node.scans.length := by
    simpa [baseRelations] using (List.getElem?_eq_some_iff.mp hr).1
  rw [baseRelations_getElem? hlt] at hr
  cases hr
  exact ⟨List.mem_range.mpr hlt, by simp [withLocals, LogicalPlan.filteredScan]⟩

theorem pathOf_joinGraph_pathsReturn (hdb : ∀ s ∈ node.scans, (db.get s.1).isSome = true)
    (hindex : IndexColumnsLoaded catalog stats node db) :
    PathsReturn (node.blocks db) (pathOf catalog stats node.joinGraph) (node.localRows db) db
      sets := by
  constructor
  · intro i p hp
    obtain ⟨hi, rfl⟩ := pathOf_joinGraph hp
    have hmem : node.scanAt i ∈ node.scans :=
      List.mem_of_getElem? (scans_getElem? (List.mem_range.mp hi))
    obtain ⟨table, htable⟩ := Option.isSome_iff_exists.mp (hdb _ hmem)
    have hscan : scanTable db (node.scanAt i) = table := by simp [scanTable, htable]
    have hident : (node.filteredScan i).ident = (node.blocks db).ident i := rfl
    rw [relational_bestAccessPath
      (show db.get (node.filteredScan i).tableName = some table from htable)]
    · simp only [LogicalPlan.localRows, LogicalPlan.tableRows, Blocks.schemaOf, hident,
        LogicalPlan.blocks, hscan]
      rfl
    · intro p hp t c l hcol
      obtain ⟨-, hlocal⟩ := List.mem_filter.mp hp
      have hrefs : refsIn (baseRelations node) p = some [i] := by simpa [localTo] using hlocal
      obtain ⟨j, hj, rfl⟩ := (refsIn_baseRelations db hrefs).2 t c (mem_columns_of_columnLiteral hcol)
      rw [List.mem_singleton.mp hj, hident]
    · intro c hc
      rw [← hscan]
      exact hindex i hi c hc
  · intro i p hp row hrow
    exact (scanTable db (node.scanAt i)).width row (List.mem_of_mem_filter hrow)

theorem relational_addResidual (ps : List Expression) {plan : PhysicalPlan R} {s : RowSchema}
    {rows : List Row} (h : relational plan db sets = .ok (s, rows)) :
    relational (ps.foldl addResidual plan) db sets =
      .ok (s, rows.filter fun row => ps.all fun p => holds p row s) := by
  induction ps generalizing plan rows with
  | nil => simpa using h
  | cons p ps ih =>
    have hstep : relational (addResidual plan p) db sets =
        .ok (s, rows.filter fun row => holds p row s) := by
      simp [addResidual, relational, h]
    rw [List.foldl_cons, ih hstep, List.filter_filter]
    simp [Bool.and_comm]

/-- The choices of one row for each scan whose combined row satisfies every conjunct. -/
def LogicalPlan.satisfying (node : LogicalPlan) (db : Database) : List (Nat → Row) :=
  (choices (node.tableRows db) node.scanIds).filter fun e => node.conjuncts.all fun p =>
    holds p (Blocks.layout node.scanIds e) ((node.blocks db).layoutSchema node.scanIds)

/-- A conjunct holds alike in every order of the scans. -/
theorem holds_conjunct_perm {π : List Nat} {e : Nat → Row} {p : Expression}
    (hperm : π.Perm node.scanIds) (hρ : (node.blocks db).Distinct node.scanIds)
    (hfit : (node.blocks db).Fits node.scanIds e) :
    holds p (Blocks.layout π e) ((node.blocks db).layoutSchema π) =
      holds p (Blocks.layout node.scanIds e) ((node.blocks db).layoutSchema node.scanIds) := by
  simp only [holds, passes, Blocks.evaluate_layout_perm hperm hρ hfit]

/-- A local filter holds in the combined row when it holds in the row of its scan. -/
theorem holds_local {i : Nat} {e : Nat → Row} {p : Expression} (hi : i ∈ node.scanIds)
    (hρ : (node.blocks db).Distinct node.scanIds) (hfit : (node.blocks db).Fits node.scanIds e)
    (hp : localTo (baseRelations node) i p = true) :
    holds p (e i) ((node.blocks db).schemaOf i) =
      holds p (Blocks.layout node.scanIds e) ((node.blocks db).layoutSchema node.scanIds) := by
  have hrefs : refsIn (baseRelations node) p = some [i] := by simpa [localTo] using hp
  have hone : (node.blocks db).Distinct [i] := by simp [Blocks.Distinct]
  have hcongr := Blocks.holds_layout_congr hone hρ (p := p)
    (fun j hj => List.mem_singleton.mp hj ▸ hfit i hi) hfit fun t c htc => by
      obtain ⟨j, hj, rfl⟩ := (refsIn_baseRelations db hrefs).2 t c htc
      rw [List.mem_singleton.mp hj]
      exact ⟨_, rfl, .inl ⟨i, by simp, hi, rfl, rfl⟩⟩
  rw [← hcongr, Blocks.layoutSchema_singleton]
  simp [Blocks.layout]

/-- A tree with one link less than there are scans uses every link. -/
theorem edgesHold_links {π used : List Nat} {best : PhysicalPlan R} {e : Nat → Row}
    (hj : JoinedBy (pathOf catalog stats node.joinGraph) node.links π used best)
    (hperm : π.Perm node.scanIds) (htree : node.links.length + 1 = node.scans.length) :
    edgesHold (node.blocks db) node.links π used e = node.links.all fun edge =>
      holds edge.predicate (Blocks.layout π e) ((node.blocks db).layoutSchema π) := by
  have hlen : used.length = node.links.length := by
    have h1 := hj.length_used
    have h2 : π.length = node.scans.length := by simpa [LogicalPlan.scanIds] using hperm.length_eq
    omega
  have hused : used.Perm (List.range node.links.length) :=
    (List.subperm_of_subset hj.used_nodup hj.used_subset).perm_of_length_le (by simp [hlen])
  rw [edgesHold, hused.all_eq, Bool.eq_iff_iff]
  simp only [List.all_eq_true, List.mem_range]
  constructor
  · intro h edge hedge
    obtain ⟨k, hk, rfl⟩ := List.mem_iff_getElem.mp hedge
    simpa [List.getElem?_eq_getElem hk] using h k hk
  · intro h k hk
    rw [List.getElem?_eq_getElem hk]
    exact h _ (List.getElem_mem hk)

/-- With one link less than there are scans, the plan of a search returns the rows of the cross
product that satisfy every conjunct, with the columns of the scans in some order. -/
theorem planJoinSearch_rows {plan : PhysicalPlan R}
    (hplan : planJoinSearch catalog stats node = .ok plan)
    (hdistinct : (node.scans.map scanIdent).Nodup)
    (hdb : ∀ s ∈ node.scans, (db.get s.1).isSome = true) (hwidth : node.scans.length ≤ 64)
    (htree : node.links.length + 1 = node.scans.length)
    (hindex : IndexColumnsLoaded catalog stats node db) :
    ∃ π rows, π.Perm node.scanIds ∧
      relational plan db sets = .ok ((node.blocks db).layoutSchema π, rows) ∧
      rows.Perm ((node.satisfying db).map (Blocks.layout π)) := by
  obtain ⟨π, used, best, hj, hperm, rfl⟩ := planJoinSearch_joinedBy hwidth hplan
  have hρ : (node.blocks db).Distinct node.scanIds := blocks_distinct hdistinct
  have hπ : (node.blocks db).Distinct π := (hperm.map _).nodup_iff.mpr hρ
  have hpaths : PathsReturn (node.blocks db) (pathOf catalog stats node.joinGraph)
      (node.localRows db) db sets := pathOf_joinGraph_pathsReturn hdb hindex
  obtain ⟨rows, hrows, hrperm⟩ := hj.relational_eq hpaths links_edgeColumns hπ
  refine ⟨π, _, hperm, relational_addResidual _ hrows, ?_⟩
  refine (hrperm.filter _).trans ?_
  have hlocal : choices (node.localRows db) π = (choices (node.tableRows db) π).filter fun e =>
      π.all fun i => (node.conjuncts.filter (localTo (baseRelations node) i)).all fun p =>
        holds p (e i) ((node.blocks db).schemaOf i) :=
    Assignment.all_filter _ hj.nodup
  rw [List.filter_map, hlocal, List.filter_filter, List.filter_filter, LogicalPlan.satisfying]
  refine List.Perm.map _ (List.Perm.trans (List.Perm.of_eq ?_)
    ((Assignment.all_perm hperm hj.nodup).filter _))
  apply List.filter_congr
  intro e he
  have hfit : (node.blocks db).Fits node.scanIds e := fun i hi =>
    (scanTable db (node.scanAt i)).width _
      (Assignment.mem_dom_of_mem_all he (hperm.mem_iff.mpr hi))
  -- every conjunct is read in the combined row of the scans in their own order
  let reads : Expression → Bool := fun p =>
    holds p (Blocks.layout node.scanIds e) ((node.blocks db).layoutSchema node.scanIds)
  have hany : ∀ p, holds p (Blocks.layout π e) ((node.blocks db).layoutSchema π) = reads p :=
    fun p => holds_conjunct_perm hperm hρ hfit
  have hres : ((node.conjuncts.filter (isResidual (baseRelations node))).all fun p =>
      holds p (Blocks.layout π e) ((node.blocks db).layoutSchema π)) =
        (node.conjuncts.filter (isResidual (baseRelations node))).all reads :=
    Assignment.all_congr_mem fun p _ => hany p
  have hedge : edgesHold (node.blocks db) node.links π used e =
      node.links.all fun edge => reads edge.predicate := by
    rw [edgesHold_links hj hperm htree]
    exact Assignment.all_congr_mem fun edge _ => hany _
  have hloc : (π.all fun i => (node.conjuncts.filter (localTo (baseRelations node) i)).all fun p =>
      holds p (e i) ((node.blocks db).schemaOf i)) = node.scanIds.all fun i =>
        (node.conjuncts.filter (localTo (baseRelations node) i)).all reads := by
    rw [hperm.all_eq]
    exact Assignment.all_congr_mem fun i hi => Assignment.all_congr_mem fun p hp =>
      holds_local hi hρ hfit (List.mem_filter.mp hp).2
  rw [Function.comp, hres, hedge, hloc, conjuncts_all, Bool.and_comm]
  exact congrArg _ (Bool.and_comm _ _)

omit [Rounding] in
/-- A link that the search leaves out: with more links than joins, some link is on no join of the
plan. -/
theorem planJoinSearch_leaves_link {plan : PhysicalPlan R} (hwidth : node.scans.length ≤ 64)
    (h : planJoinSearch catalog stats node = .ok plan)
    (hmore : node.links.length + 1 ≠ node.scans.length) :
    ∃ π used best, JoinedBy (pathOf catalog stats node.joinGraph) node.links π used best ∧
      plan = (node.conjuncts.filter (isResidual (baseRelations node))).foldl addResidual best ∧
      ∃ k < node.links.length, k ∉ used := by
  obtain ⟨π, used, best, hj, hperm, hplan⟩ := planJoinSearch_joinedBy hwidth h
  refine ⟨π, used, best, hj, hplan, ?_⟩
  by_contra hall
  push Not at hall
  have h1 := hj.length_used
  have h2 : π.length = node.scans.length := by simpa [LogicalPlan.scanIds] using hperm.length_eq
  have hsup : List.range node.links.length ⊆ used := fun k hk => hall k (List.mem_range.mp hk)
  have h3 := (List.subperm_of_subset hj.used_nodup hj.used_subset).length_le
  have h4 := (List.subperm_of_subset List.nodup_range hsup).length_le
  simp only [List.length_range] at h3 h4
  omega

end Search

/-! Two tables with the columns `x` and `y`. -/

def pairTable (rows : List (Literal × Literal)) : Table where
  columnNames := ["x", "y"]
  rows := rows.map fun p => [p.1, p.2]
  width := by
    intro row hrow
    obtain ⟨p, -, rfl⟩ := List.mem_map.mp hrow
    rfl

/-- One row in each table: they agree on `x` and differ on `y`. -/
def pairDatabase : Database :=
  AList.insert "b" (pairTable [(.integer 1, .integer 2)])
    (AList.insert "a" (pairTable [(.integer 1, .integer 1)]) ∅)

def columnsEqual (c : String) : Expression :=
  .binaryOp (.column (some "a") c) .eq (.column (some "b") c)

/-- The join of `a` and `b` under `condition`. -/
def pairJoin (condition : Expression) : LogicalPlan :=
  .join .inner condition (.scan "a" none []) (.scan "b" none [])

/-- Exact costs; the join search never takes a logarithm. -/
@[reducible] def exactCosts : CostNum ℚ := CostNum.rational id

theorem planJoinSearch_rows_one_link :
    ∃ plan π rows, @planJoinSearch ℚ exactCosts ∅ ∅ (pairJoin (columnsEqual "x")) = .ok plan ∧
      π.Perm [0, 1] ∧
      @relational .exact ℚ plan pairDatabase ∅ =
        .ok (((pairJoin (columnsEqual "x")).blocks pairDatabase).layoutSchema π, rows) ∧
      rows.Perm ((@LogicalPlan.satisfying .exact (pairJoin (columnsEqual "x")) pairDatabase).map
        (Blocks.layout π)) := by
  obtain ⟨plan, hplan⟩ : ∃ plan,
      @planJoinSearch ℚ exactCosts ∅ ∅ (pairJoin (columnsEqual "x")) = .ok plan := ⟨_, rfl⟩
  obtain ⟨π, rows, h1, h2, h3⟩ := @planJoinSearch_rows .exact ℚ exactCosts ∅ ∅
    (pairJoin (columnsEqual "x")) pairDatabase ∅ plan hplan (by decide)
    (by decide) (by decide) (by decide) (by
      intro i hi c hc
      rcases List.mem_pair.mp hi with rfl | rfl <;> cases hc)
  exact ⟨plan, π, rows, hplan, h1, h2, h3⟩

/-- Two conjuncts between the same tables: the second one is lost, and the pair of rows that it
excludes is returned. -/
theorem planJoinSearch_loses_second_link :
    isJoinSearchCandidate (pairJoin (.binaryOp (columnsEqual "x") .and (columnsEqual "y"))) = true ∧
      (@planJoinSearch ℚ exactCosts ∅ ∅
          (pairJoin (.binaryOp (columnsEqual "x") .and (columnsEqual "y"))) >>= fun plan =>
        (@relational .exact ℚ plan pairDatabase ∅).map fun sr => (sr.1.qualifiedNames, sr.2)) =
          .ok (["b.x", "b.y", "a.x", "a.y"], [[.integer 1, .integer 2, .integer 1, .integer 1]]) ∧
      (@LogicalPlan.satisfying .exact (pairJoin (.binaryOp (columnsEqual "x") .and
        (columnsEqual "y"))) pairDatabase).length = 0 := by
  decide +kernel

end SqlOptimizer
