import SqlOptimizer.Execution.Aggregation
import SqlOptimizer.Physical.StatementPlan

/-! What a SELECT list asks of a result row, item by item, and which rows the pipeline returns. -/

namespace SqlOptimizer

/-! ### The values of a SELECT list -/

namespace SelectStatement

/-- Table `i` of FROM and JOIN. -/
def tableAt (stmt : SelectStatement) (i : Nat) : String × Option String :=
  stmt.tables.getD i ("", none)

/-- The columns of table `i`. -/
def columnsAt (stmt : SelectStatement) (db : Database) (i : Nat) : List String :=
  (scanTable db (stmt.tableAt i)).columnNames

/-- One row of each table, by position. -/
def IsTuple (stmt : SelectStatement) (db : Database) (t : Nat → Row) : Prop :=
  ∀ i < stmt.tables.length, t i ∈ (scanTable db (stmt.tableAt i)).rows

/-- FROM, JOIN and WHERE, and HAVING when nothing is grouped, after predicate pushdown. -/
def pushed (stmt : SelectStatement) : LogicalPlan := pushPredicates stmt.core

/-- The orders in which the tables may be read: the textual one, and any other when joins are
searched. -/
def MayRead (stmt : SelectStatement) (π : List Nat) : Prop :=
  π.Perm (List.range stmt.tables.length) ∧
    (stmt.pushed.searches = [] → π = List.range stmt.tables.length)

/-- The tables in the order in which the scans of a plan read them. -/
def IsOrder {R : Type} (stmt : SelectStatement) (plan : PhysicalPlan R) (π : List Nat) : Prop :=
  π.Perm (List.range stmt.tables.length) ∧ plan.scans = π.map stmt.tableAt

/-- The columns of a joined row with the tables in the order `π`. -/
def joinedSchema (stmt : SelectStatement) (db : Database) (π : List Nat) : RowSchema :=
  scansSchema db (π.map stmt.tableAt)

end SelectStatement

/-- The aggregate call that an item is, if it is one. -/
def SelectItem.call : SelectItem → Option AggregateExpr
  | .expression e a => aggregateCall e a
  | _ => none

section Values

variable [Rounding]

/-- The value of an aggregate over joined rows. -/
def aggregateValues (agg : AggregateExpr) (schema : RowSchema) (rows : List Row) : Row :=
  if rows.isEmpty then emptyAggregateRow [agg] else groupRow [] [agg] schema rows

variable (stmt : SelectStatement) (db : Database) (π : List Nat)

/-- The values of an item over a group of tuples: an aggregate over all of them, any other item in
the first one.  An expression is evaluated in the joined row in the order `π`; `*` has the columns
of all tables in textual order, and `q.*` those of the table `q`. -/
def SelectItem.values (group : List (Nat → Row)) (item : SelectItem) : Except String Row :=
  match item.call, group with
  | some agg, _ =>
    .ok (aggregateValues agg (stmt.joinedSchema db π) (group.map (Blocks.layout π)))
  | none, [] => .error "no row"
  | none, t :: _ =>
    match item with
    | .expression e _ => do
      return [← evaluate e (Blocks.layout π t) (stmt.joinedSchema db π)]
    | .wildcard => .ok (Blocks.layout (List.range stmt.tables.length) t)
    | .qualifiedWildcard q =>
      match stmt.tables.findIdx? fun s => scanIdent s == q with
      | some i => .ok (t i)
      | none => .error "no such table"

def listValues (items : List SelectItem) (group : List (Nat → Row)) : Except String Row := do
  return (← items.mapM (SelectItem.values stmt db π group)).flatten

/-- The tuples that one result row stands for: one, or those of a group. -/
structure SelectStatement.IsSource (group : List (Nat → Row)) : Prop where
  tuples : ∀ t ∈ group, stmt.IsTuple db t
  single : stmt.isGrouped = false → group.length = 1
  nonempty : group = [] → stmt.groupBy = []
  sameKey : ∀ t ∈ group, ∀ t' ∈ group,
    groupText stmt.groupBy (stmt.joinedSchema db π) (Blocks.layout π t) =
      groupText stmt.groupBy (stmt.joinedSchema db π) (Blocks.layout π t')

/-- A result row has the values of the SELECT list, in its order. -/
def SelectStatement.Follows (row : Row) : Prop :=
  ∃ group, stmt.IsSource db π group ∧ listValues stmt db π stmt.columns group = .ok row

/-! ### How many values -/

/-- How many values an item has. -/
def SelectItem.width : SelectItem → Nat
  | .expression _ _ => 1
  | .wildcard => ((List.range stmt.tables.length).map fun i => (stmt.columnsAt db i).length).sum
  | .qualifiedWildcard q =>
    match stmt.tables.findIdx? fun s => scanIdent s == q with
    | some i => (stmt.columnsAt db i).length
    | none => 0

def SelectStatement.listWidth : Nat := (stmt.columns.map (SelectItem.width stmt db)).sum

/-- How many values the rows of the pipeline have. -/
def SelectStatement.rowWidth : Nat :=
  if stmt.isProjected then stmt.plain.length
  else if stmt.isGrouped then stmt.groupBy.length + stmt.aggregates.length
  else ((List.range stmt.tables.length).map fun i => (stmt.columnsAt db i).length).sum

variable {stmt db π}

omit [Rounding] in
theorem length_layout {t : Nat → Row} (ht : stmt.IsTuple db t) {is : List Nat}
    (his : ∀ i ∈ is, i < stmt.tables.length) :
    (Blocks.layout is t).length = (is.map fun i => (stmt.columnsAt db i).length).sum := by
  rw [Blocks.layout, List.length_flatMap]
  congr 1
  refine List.map_congr_left fun i hi => ?_
  exact (scanTable db (stmt.tableAt i)).width _ (ht i (his i hi))

omit [Rounding] in
/-- A planned order has all tables. -/
theorem length_layout_order {t : Nat → Row} (ht : stmt.IsTuple db t)
    (hπ : π.Perm (List.range stmt.tables.length)) : (Blocks.layout π t).length =
      ((List.range stmt.tables.length).map fun i => (stmt.columnsAt db i).length).sum := by
  rw [length_layout ht fun i hi => List.mem_range.mp (hπ.mem_iff.mp hi)]
  exact (hπ.map _).sum_eq

theorem length_aggregateValues (agg : AggregateExpr) (schema : RowSchema) (rows : List Row) :
    (aggregateValues agg schema rows).length = 1 := by
  unfold aggregateValues
  split
  · rfl
  · have hkey : ∀ row : Row, groupKeyOf [] schema row = [] := fun _ => rfl
    unfold groupRow
    cases rows.head? with
    | none => rfl
    | some row => simp [hkey]

theorem length_values {group : List (Nat → Row)} (hgroup : ∀ t ∈ group, stmt.IsTuple db t)
    {item : SelectItem} {row : Row} (h : item.values stmt db π group = .ok row) :
    row.length = item.width stmt db := by
  unfold SelectItem.values at h
  split at h
  case h_1 agg _ hcall =>
    cases h
    cases item with
    | expression e a => exact length_aggregateValues _ _ _
    | _ => cases hcall
  case h_2 => cases h
  case h_3 t rest _ =>
    have ht : stmt.IsTuple db t := hgroup t List.mem_cons_self
    split at h
    case h_1 =>
      obtain ⟨v, -, h⟩ := Except.bind_eq_ok.mp h
      cases h
      rfl
    case h_2 =>
      cases h
      exact length_layout ht fun i hi => List.mem_range.mp hi
    case h_3 q =>
      split at h
      case h_1 i hi =>
        cases h
        have hlt : i < stmt.tables.length := (List.findIdx?_eq_some_iff_getElem.mp hi).1
        simp only [SelectItem.width, hi]
        exact (scanTable db (stmt.tableAt i)).width _ (ht i hlt)
      case h_2 => cases h

theorem listValues_cons (item : SelectItem) (items : List SelectItem) (group : List (Nat → Row)) :
    listValues stmt db π (item :: items) group = (do
      let row ← item.values stmt db π group
      let rest ← listValues stmt db π items group
      return row ++ rest) := by
  simp only [listValues, List.mapM_cons, bind_assoc, Except.pure_eq_ok, Except.ok_bind,
    List.flatten_cons]

theorem length_listValues {group : List (Nat → Row)} (hgroup : ∀ t ∈ group, stmt.IsTuple db t)
    {items : List SelectItem} {row : Row} (h : listValues stmt db π items group = .ok row) :
    row.length = (items.map (SelectItem.width stmt db)).sum := by
  induction items generalizing row with
  | nil =>
    cases h
    rfl
  | cons item items ih =>
    rw [listValues_cons] at h
    obtain ⟨first, hfirst, h⟩ := Except.bind_eq_ok.mp h
    obtain ⟨rest, hrest, h⟩ := Except.bind_eq_ok.mp h
    cases h
    rw [List.length_append, length_values hgroup hfirst, ih hrest, List.map_cons, List.sum_cons]

/-- A row that follows the list has as many values as the list. -/
theorem SelectStatement.Follows.length_eq {row : Row} (h : stmt.Follows db π row) :
    row.length = stmt.listWidth db := by
  obtain ⟨group, hsource, hvalues⟩ := h
  exact length_listValues hsource.tuples hvalues

/-! ### The values of parts of a list -/

theorem listValues_append {items items' : List SelectItem} {group : List (Nat → Row)}
    {row row' : Row} (h : listValues stmt db π items group = .ok row)
    (h' : listValues stmt db π items' group = .ok row') :
    listValues stmt db π (items ++ items') group = .ok (row ++ row') := by
  induction items generalizing row with
  | nil =>
    cases h
    exact h'
  | cons item items ih =>
    rw [listValues_cons] at h
    obtain ⟨first, hfirst, h⟩ := Except.bind_eq_ok.mp h
    obtain ⟨rest, hrest, h⟩ := Except.bind_eq_ok.mp h
    cases h
    rw [List.cons_append, listValues_cons, hfirst, Except.ok_bind, ih hrest, Except.ok_bind,
      List.append_assoc]
    rfl

/-- The aggregate calls of a list. -/
theorem listValues_calls {items : List SelectItem} (h : ∀ item ∈ items, item.call.isSome = true)
    (group : List (Nat → Row)) : listValues stmt db π items group =
      .ok ((items.filterMap SelectItem.call).flatMap fun agg =>
        aggregateValues agg (stmt.joinedSchema db π) (group.map (Blocks.layout π))) := by
  induction items with
  | nil => rfl
  | cons item items ih =>
    obtain ⟨agg, hagg⟩ := Option.isSome_iff_exists.mp (h item List.mem_cons_self)
    have hitem : item.values stmt db π group =
        .ok (aggregateValues agg (stmt.joinedSchema db π) (group.map (Blocks.layout π))) := by
      unfold SelectItem.values
      rw [hagg]
    rw [listValues_cons, hitem, Except.ok_bind, ih fun i hi => h i (List.mem_cons_of_mem _ hi),
      Except.ok_bind, List.filterMap_cons_some hagg, List.flatMap_cons]
    rfl

/-- Without aggregate calls, the first tuple of a group decides. -/
theorem listValues_first {items : List SelectItem} (h : ∀ item ∈ items, item.call = none)
    (t : Nat → Row) (group : List (Nat → Row)) :
    listValues stmt db π items (t :: group) = listValues stmt db π items [t] := by
  induction items with
  | nil => rfl
  | cons item items ih =>
    have hitem : item.values stmt db π (t :: group) = item.values stmt db π [t] := by
      unfold SelectItem.values
      rw [h item List.mem_cons_self]
    rw [listValues_cons, listValues_cons, hitem, ih fun i hi => h i (List.mem_cons_of_mem _ hi)]

theorem values_expression {e : Expression} {a : Option String} (h : aggregateCall e a = none)
    (t : Nat → Row) (group : List (Nat → Row)) :
    SelectItem.values stmt db π (t :: group) (.expression e a) = (do
      return [← evaluate e (Blocks.layout π t) (stmt.joinedSchema db π)]) := by
  have hnone : (SelectItem.expression e a).call = none := h
  unfold SelectItem.values
  rw [hnone]

/-- Plain expressions are evaluated in the first tuple. -/
theorem listValues_plain {items : List SelectItem} (hcall : ∀ item ∈ items, item.call = none)
    (hplain : ∀ item ∈ items, item.isWildcard = false) (t : Nat → Row) (group : List (Nat → Row)) :
    listValues stmt db π items (t :: group) = (splitSelectList items).1.mapM fun p =>
      evaluate p.1 (Blocks.layout π t) (stmt.joinedSchema db π) := by
  induction items with
  | nil => rfl
  | cons item items ih =>
    have hrest := ih (fun i hi => hcall i (List.mem_cons_of_mem _ hi))
      fun i hi => hplain i (List.mem_cons_of_mem _ hi)
    cases item with
    | expression e a =>
      have hnone : aggregateCall e a = none := hcall _ List.mem_cons_self
      have hsplit : (splitSelectList (.expression e a :: items)).1 =
          (e, a) :: (splitSelectList items).1 := by
        simp [splitSelectList, hnone]
      rw [listValues_cons, values_expression hnone, hrest, hsplit, List.mapM_cons]
      simp only [bind_assoc, Except.pure_eq_ok, Except.ok_bind, List.singleton_append]
    | wildcard => cases hplain _ List.mem_cons_self
    | qualifiedWildcard q => cases hplain _ List.mem_cons_self

end Values

/-! ### The rows of the pipeline -/

section Tuples

variable {stmt : SelectStatement} {db : Database} {π : List Nat}

theorem tables_eq_map (stmt : SelectStatement) :
    stmt.tables = (List.range stmt.tables.length).map stmt.tableAt := by
  refine List.ext_getElem (by simp) fun i hi _ => ?_
  simp [SelectStatement.tableAt, List.getD_eq_getElem?_getD, List.getElem?_eq_getElem hi]

theorem exists_order {R : Type} {plan : PhysicalPlan R} (h : plan.scans.Perm stmt.tables)
    (htextual : stmt.pushed.searches = [] → plan.scans = stmt.tables) :
    ∃ π, stmt.IsOrder plan π ∧ stmt.MayRead π := by
  by_cases hnone : stmt.pushed.searches = []
  · have hscans : plan.scans = (List.range stmt.tables.length).map stmt.tableAt := by
      rw [htextual hnone, ← tables_eq_map]
    exact ⟨_, ⟨.refl _, hscans⟩, .refl _, fun _ => rfl⟩
  rw [tables_eq_map] at h
  obtain ⟨π, hscans, hπ⟩ : ∃ π : List Nat, plan.scans = π.map stmt.tableAt ∧
      π.Perm (List.range stmt.tables.length) := by
    have hcomp := congrFun (congrFun (List.eq_map_comp_perm stmt.tableAt) plan.scans)
      (List.range stmt.tables.length)
    exact hcomp.mpr h
  exact ⟨π, ⟨hπ, hscans⟩, hπ, fun h => absurd h hnone⟩

/-- Rows side by side are the joined row of a tuple. -/
theorem exists_tuple (hπ : π.Perm (List.range stmt.tables.length)) {row : Row}
    (h : SideBySide db (π.map stmt.tableAt) row) :
    ∃ t, stmt.IsTuple db t ∧ row = Blocks.layout π t := by
  obtain ⟨parts, hparts, rfl⟩ := h
  have hnodup : π.Nodup := hπ.nodup_iff.mpr List.nodup_range
  have hall : ∀ {is : List Nat}, is.Nodup → ∀ {parts : List Row},
      List.Forall₂ (fun s part => part ∈ (scanTable db s).rows) (is.map stmt.tableAt) parts →
        ∃ t : Nat → Row, (∀ i ∈ is, t i ∈ (scanTable db (stmt.tableAt i)).rows) ∧
          parts.flatten = Blocks.layout is t := by
    intro is his
    induction is with
    | nil =>
      rintro _ ⟨⟩
      exact ⟨fun _ => [], by simp, rfl⟩
    | cons i is ih =>
      rintro _ (_ | ⟨hpart, hrest⟩)
      rename_i part rest
      obtain ⟨hi, his⟩ := List.nodup_cons.mp his
      obtain ⟨t, ht, hflat⟩ := ih his hrest
      refine ⟨Function.update t i part, fun j hj => ?_, ?_⟩
      · by_cases hji : j = i
        · subst hji
          rwa [Function.update_self]
        · rw [Function.update_of_ne hji]
          exact ht j ((List.mem_cons.mp hj).resolve_left hji)
      · rw [List.flatten_cons, hflat, ← Blocks.layout_update_of_not_mem hi t part]
        simp [Blocks.layout]
  obtain ⟨t, ht, hflat⟩ := hall hnodup hparts
  exact ⟨t, fun i hi => ht i (hπ.mem_iff.mpr (List.mem_range.mpr hi)), hflat⟩

theorem exists_tuples (hπ : π.Perm (List.range stmt.tables.length)) {rows : List Row}
    (h : ∀ row ∈ rows, SideBySide db (π.map stmt.tableAt) row) :
    ∃ group : List (Nat → Row), (∀ t ∈ group, stmt.IsTuple db t) ∧
      group.map (Blocks.layout π) = rows := by
  induction rows with
  | nil => exact ⟨[], by simp, rfl⟩
  | cons row rows ih =>
    obtain ⟨t, ht, rfl⟩ := exists_tuple hπ (h row List.mem_cons_self)
    obtain ⟨group, hgroup, rfl⟩ := ih fun r hr => h r (List.mem_cons_of_mem _ hr)
    refine ⟨t :: group, fun t' ht' => ?_, rfl⟩
    rcases List.mem_cons.mp ht' with rfl | ht'
    · exact ht
    · exact hgroup t' ht'

end Tuples

section Pipeline

variable [Rounding] {stmt : SelectStatement} {db : Database} {π : List Nat}

/-- A row under the `Project`, with the tuples that it stands for. -/
def SelectStatement.IsCoreRow (stmt : SelectStatement) (db : Database) (π : List Nat)
    (group : List (Nat → Row)) (row : Row) : Prop :=
  stmt.IsSource db π group ∧
    if stmt.isGrouped then
      (group = [] ∧ row = emptyAggregateRow stmt.aggregates) ∨
        (group ≠ [] ∧
          (∀ t ∈ group, ∃ key, (stmt.groupBy.mapM fun g =>
            evaluate g (Blocks.layout π t) (stmt.joinedSchema db π)) = .ok key) ∧
          row = groupRow stmt.groupBy stmt.aggregates (stmt.joinedSchema db π)
            (group.map (Blocks.layout π)))
    else ∃ t, group = [t] ∧ row = Blocks.layout π t

omit [Rounding] in
theorem func_mem_of_aggregates {agg : AggregateExpr} (h : agg ∈ stmt.aggregates) :
    agg.func ∈ aggregateFunctions := by
  have hnames : ∀ name ∈ kAggregateFunctions, name ∈ aggregateFunctions := by decide
  obtain ⟨item, -, hitem⟩ := List.mem_filterMap.mp h
  cases item with
  | expression e a =>
    cases e with
    | function name args =>
      simp only [aggregateCall] at hitem
      split at hitem
      case isTrue hname =>
        cases hitem
        exact hnames _ hname
      case isFalse => cases hitem
    | _ => cases hitem
  | _ => cases hitem

/-- The rows of an aggregation are those of groups of tuples. -/
theorem isCoreRow_aggregate (hgrouped : stmt.isGrouped = true)
    (hπ : π.Perm (List.range stmt.tables.length)) {rows out : List Row}
    (hrows : ∀ row ∈ rows, SideBySide db (π.map stmt.tableAt) row)
    (h : hashAggregateRows stmt.groupBy stmt.aggregates (stmt.joinedSchema db π) rows = .ok out)
    {row : Row} (hrow : row ∈ out) : ∃ group, stmt.IsCoreRow db π group row := by
  obtain ⟨hagg, hempty, hkeys⟩ := hashAggregateRows_eq_ok (fun _ => func_mem_of_aggregates) h
  by_cases hnone : stmt.groupBy = [] ∧ rows = []
  · rw [hempty hnone.1 hnone.2] at hrow
    refine ⟨[], ⟨by simp, by simp [hgrouped], fun _ => hnone.1, by simp⟩, ?_⟩
    rw [if_pos hgrouped]
    exact .inl ⟨rfl, List.mem_singleton.mp hrow⟩
  · obtain ⟨keys, -, hmem, rfl⟩ := hkeys hnone
    obtain ⟨k, hk, rfl⟩ := List.mem_map.mp hrow
    have hsub : ∀ r ∈ groupMembers stmt.groupBy (stmt.joinedSchema db π) rows k, r ∈ rows ∧
        groupText stmt.groupBy (stmt.joinedSchema db π) r = k := by
      intro r hr
      have hr := List.mem_filter.mp hr
      exact ⟨hr.1, by simpa using hr.2⟩
    obtain ⟨group, hgroup, hmembers⟩ := exists_tuples hπ fun r hr => hrows r (hsub r hr).1
    have hlayout : ∀ t ∈ group, Blocks.layout π t ∈ rows ∧
        groupText stmt.groupBy (stmt.joinedSchema db π) (Blocks.layout π t) = k := fun t ht =>
      hsub _ (hmembers ▸ List.mem_map_of_mem ht)
    have hne : group ≠ [] := by
      rintro rfl
      obtain ⟨r, hr, hrk⟩ := (hmem k).mp hk
      have hr' : r ∈ groupMembers stmt.groupBy (stmt.joinedSchema db π) rows k :=
        List.mem_filter.mpr ⟨hr, by simp [hrk]⟩
      rw [← hmembers] at hr'
      cases hr'
    refine ⟨group, ⟨hgroup, by simp [hgrouped], fun h => absurd h hne, fun t ht t' ht' => ?_⟩, ?_⟩
    · rw [(hlayout t ht).2, (hlayout t' ht').2]
    · rw [if_pos hgrouped]
      exact .inr ⟨hne, fun t ht => hagg.keys _ (hlayout t ht).1, by rw [hmembers]⟩

/-- The columns under the `Project`. -/
def SelectStatement.coreSchema (stmt : SelectStatement) (db : Database) (π : List Nat) :
    RowSchema :=
  if stmt.isGrouped then aggregateSchema stmt.groupBy stmt.aggregates else stmt.joinedSchema db π

variable {R : Type} [CostNum R] {catalog : Catalog} {stats : StatisticsCatalog R}
  {plan : PhysicalPlan R} {e : Executor}

theorem core_rows (h : Implements catalog stats db stmt.core plan e)
    (hfit : ∀ k ∈ stmt.pushed.searches, k ≤ 64) :
    (plan.scans.Perm stmt.tables ∧ (stmt.pushed.searches = [] → plan.scans = stmt.tables)) ∧
    ∀ π, stmt.IsOrder plan π →
      e.schema = stmt.coreSchema db π ∧ ∀ d, e.drain = .ok d → ∀ row ∈ d.rows,
        ∃ group, stmt.IsCoreRow db π group row := by
  cases hgrouped : stmt.isGrouped with
  | false =>
    obtain ⟨htree, hscans⟩ := SelectStatement.joinTree_core hgrouped
    obtain ⟨hread, hschema, hrows⟩ := h.rows htree hfit
    rw [hscans] at hread
    refine ⟨hread, fun π hπ => ⟨?_, fun d hd row hrow => ?_⟩⟩
    · rw [hschema, hπ.2, SelectStatement.coreSchema, hgrouped]
      rfl
    · have hside := hrows d hd row hrow
      rw [hπ.2] at hside
      obtain ⟨t, ht, rfl⟩ := exists_tuple hπ.1 hside
      refine ⟨[t], ⟨by simpa using ht, fun _ => rfl, by simp, by simp⟩, ?_⟩
      rw [hgrouped]
      exact ⟨t, rfl, rfl⟩
  | true =>
    have hcore : stmt.core = .aggregate stmt.groupBy stmt.aggregates stmt.fromWhere := by
      rw [SelectStatement.core, hgrouped, if_pos rfl]
    have hpushed : stmt.pushed.searches = (pushPredicates stmt.fromWhere).searches := by
      rw [SelectStatement.pushed, hcore]
      rfl
    rw [hpushed] at hfit ⊢
    rw [hcore] at h
    obtain ⟨inner, i, hscans, rfl, hinner⟩ := h.input (.aggregate _ _)
    obtain ⟨htree, htables⟩ := stmt.joinTree_fromWhere
    obtain ⟨hread, hschema, hrows⟩ := hinner.rows htree hfit
    rw [htables, ← hscans] at hread
    refine ⟨hread, fun π hπ => ⟨?_, fun d hd row hrow => ?_⟩⟩
    · rw [SelectStatement.coreSchema, hgrouped]
      rfl
    · rw [← hscans, hπ.2] at hschema hrows
      rw [Executor.drain] at hd
      obtain ⟨di, hdi, hd⟩ := Except.bind_eq_ok.mp hd
      obtain ⟨rows, hcollect, hd⟩ := Except.bind_eq_ok.mp hd
      obtain ⟨out, hout, hd⟩ := Except.bind_eq_ok.mp hd
      cases hd
      rw [hschema] at hout
      rw [← (Drain.collect_eq_ok.mp hcollect).1] at hout
      exact isCoreRow_aggregate hgrouped hπ.1 (hrows di hdi) hout hrow

/-- A result row is a core row, or what the `Project` makes of one. -/
def SelectStatement.IsResultRow (stmt : SelectStatement) (db : Database) (π : List Nat)
    (group : List (Nat → Row)) (row : Row) : Prop :=
  ∃ core, stmt.IsCoreRow db π group core ∧
    if stmt.isProjected then
      (stmt.plain.mapM fun p => evaluate p.1 core (stmt.coreSchema db π)) = .ok row
    else row = core

theorem result_rows (hfit : ∀ k ∈ stmt.pushed.searches, k ≤ 64)
    (hplan : generatePhysicalPlan (optimize catalog (planStatement stmt)) catalog stats = .ok plan)
    {result : ExecutionResult} (hrun : executePlan plan db ∅ = .ok result) :
    ∃ π, stmt.MayRead π ∧ ∀ row ∈ result.rows, ∃ group, stmt.IsResultRow db π group row := by
  obtain ⟨e, hbuild, hrun⟩ := Except.bind_eq_ok.mp hrun
  obtain ⟨rows, hrows, hrun⟩ := Except.bind_eq_ok.mp hrun
  cases hrun
  obtain ⟨kplan, kept, hscans, ⟨inner, i, hscans', hcore, hamong⟩, rfl⟩ :=
    Implements.statement ⟨⟨[], hplan⟩, hbuild⟩
  obtain ⟨⟨hperm, htextual⟩, hall⟩ := core_rows hcore hfit
  obtain ⟨π, hπ, hread⟩ := exists_order hperm htextual
  refine ⟨π, hread, fun row hrow => ?_⟩
  obtain ⟨hschema, hcores⟩ := hall π hπ
  obtain ⟨d, hd, hcollect⟩ := Except.bind_eq_ok.mp hrows
  obtain ⟨rfl, -⟩ := Drain.collect_eq_ok.mp hcollect
  cases hprojected : stmt.isProjected with
  | false =>
    rw [hprojected] at hd
    obtain ⟨d', hd', hsub⟩ := hamong.rows d hd
    obtain ⟨group, hgroup⟩ := hcores d' hd' row (hsub row hrow)
    refine ⟨group, row, hgroup, ?_⟩
    rw [hprojected]
    rfl
  | true =>
    rw [hprojected, if_pos rfl] at hd
    obtain ⟨dk, hdk, hd⟩ := Except.bind_eq_ok.mp hd
    cases hd
    obtain ⟨r, hr, hmap⟩ := Drain.mem_map hrow
    obtain ⟨d', hd', hsub⟩ := hamong.rows dk hdk
    obtain ⟨group, hgroup⟩ := hcores d' hd' r (hsub r hr)
    refine ⟨group, r, hgroup, ?_⟩
    rw [hprojected, if_pos rfl, ← hschema, ← hamong.schema]
    exact hmap

end Pipeline

end SqlOptimizer
