import SqlOptimizer.Execution.SelectList
import SqlOptimizer.Optimizer.JoinSearchRows

/-! Which statements get result rows that follow their SELECT list. -/

namespace SqlOptimizer

/-! ### The condition -/

/-- The tables whose columns a wildcard stands for. -/
def SelectItem.named (stmt : SelectStatement) : SelectItem → Option (List Nat)
  | .expression _ _ => none
  | .wildcard => some (List.range stmt.tables.length)
  | .qualifiedWildcard q => (stmt.tables.findIdx? fun s => scanIdent s == q).map ([·])

namespace SelectStatement

/-- A list of expressions only. -/
def NoWildcards (stmt : SelectStatement) : Prop :=
  stmt.columns ≠ [] ∧ ∀ item ∈ stmt.columns, item.isWildcard = false

section

variable [Rounding] (stmt : SelectStatement) (db : Database) (π : List Nat)

/-- The GROUP BY values of a tuple. -/
def keyOf (t : Nat → Row) : Except String Row :=
  stmt.groupBy.mapM fun g => evaluate g (Blocks.layout π t) (stmt.joinedSchema db π)

/-- In every tuple, these items have the GROUP BY values, in their order. -/
def ListsKey (items : List SelectItem) : Prop :=
  ∀ t, stmt.IsTuple db t → ∀ key, stmt.keyOf db π t = .ok key →
    listValues stmt db π items [t] = .ok key

/-- In every tuple, the plain expressions have the values that they have in its GROUP BY values. -/
def ReadsKey : Prop :=
  ∀ t, stmt.IsTuple db t → ∀ key, stmt.keyOf db π t = .ok key → ∀ p ∈ stmt.plain, ∀ v,
    evaluate p.1 key (aggregateSchema stmt.groupBy []) = .ok v →
      evaluate p.1 (Blocks.layout π t) (stmt.joinedSchema db π) = .ok v

/-- With an aggregate call: the calls come last, after items that have the GROUP BY values.  With
GROUP BY alone: expressions over the GROUP BY values, or wildcards that have them.  Else:
expressions, or wildcards that name the tables in the order in which they are read. -/
def ListedIn : Prop :=
  if stmt.aggregates ≠ [] then
    stmt.columns.filter (·.call.isNone) ++ stmt.columns.filter (·.call.isSome) = stmt.columns ∧
      (stmt.groupBy = [] → ∀ item ∈ stmt.columns, item.call.isSome = true) ∧
      stmt.ListsKey db π (stmt.columns.filter (·.call.isNone))
  else if stmt.groupBy ≠ [] then
    stmt.NoWildcards ∧ stmt.ReadsKey db π ∨
      (∀ item ∈ stmt.columns, item.isWildcard = true) ∧ stmt.ListsKey db π stmt.columns
  else stmt.NoWildcards ∨ (stmt.columns.mapM (SelectItem.named stmt)).map List.flatten = some π

/-- The list is one of those, in whatever order the tables may be read. -/
def Listed : Prop := ∀ π, stmt.MayRead π → stmt.ListedIn db π

/-- An expression or a call in the place of a GROUP BY value that it never has. -/
def Displaced : Prop :=
  stmt.aggregates ≠ [] ∧ ∃ before e a after g,
    stmt.columns = before ++ .expression e a :: after ∧
    stmt.groupBy[(before.map (SelectItem.width stmt db)).sum]? = some g ∧
    ∀ π π' : List Nat, π.Perm (List.range stmt.tables.length) →
      π'.Perm (List.range stmt.tables.length) → ∀ t, stmt.IsTuple db t → ∀ v,
        evaluate g (Blocks.layout π t) (stmt.joinedSchema db π) = .ok v →
        ∀ group, stmt.IsSource db π' group →
          SelectItem.values stmt db π' group (.expression e a) ≠ .ok [v]

/-- The rows of a result follow the SELECT list, with one order of the tables in which names are
looked up. -/
def RowsFollow (rows : List Row) : Prop :=
  ∃ π : List Nat, π.Perm (List.range stmt.tables.length) ∧ ∀ row ∈ rows, stmt.Follows db π row

end

end SelectStatement

section

variable [Rounding] {stmt : SelectStatement} {db : Database} {π : List Nat}

/-! ### How many values a result row has -/

omit [Rounding] in
theorem length_mapM {α : Type} {f : α → Except String Literal} {as : List α} {out : Row}
    (h : as.mapM f = .ok out) : out.length = as.length :=
  (Except.mapM_eq_ok.mp h).length_eq.symm

theorem groupRow_cons {t : Nat → Row} {group : List (Nat → Row)} {key : Row}
    (hkey : stmt.keyOf db π t = .ok key) :
    groupRow stmt.groupBy stmt.aggregates (stmt.joinedSchema db π)
      ((t :: group).map (Blocks.layout π)) =
        key ++ stmt.aggregates.map fun agg => outputOf agg.func
          (valuesOf (stmt.joinedSchema db π) agg ((t :: group).map (Blocks.layout π))) := by
  have hof : groupKeyOf stmt.groupBy (stmt.joinedSchema db π) (Blocks.layout π t) = key := by
    unfold SelectStatement.keyOf at hkey
    rw [groupKeyOf, hkey]
    rfl
  simp only [groupRow, List.map_cons, List.head?_cons, Option.map_some, Option.getD_some, hof]

theorem length_coreRow (hπ : π.Perm (List.range stmt.tables.length)) {group : List (Nat → Row)}
    {row : Row} (h : stmt.IsCoreRow db π group row) : row.length =
      if stmt.isGrouped then stmt.groupBy.length + stmt.aggregates.length
      else ((List.range stmt.tables.length).map fun i => (stmt.columnsAt db i).length).sum := by
  obtain ⟨hsource, hrow⟩ := h
  cases hgrouped : stmt.isGrouped with
  | false =>
    rw [hgrouped] at hrow
    obtain ⟨t, rfl, rfl⟩ := hrow
    exact length_layout_order (hsource.tuples t (by simp)) hπ
  | true =>
    rw [hgrouped, if_pos rfl] at hrow
    rw [if_pos rfl]
    obtain ⟨rfl, rfl⟩ | ⟨hne, hkeys, rfl⟩ := hrow
    · rw [hsource.nonempty rfl]
      simp [emptyAggregateRow]
    · cases group with
      | nil => exact absurd rfl hne
      | cons t group =>
        obtain ⟨key, hkey⟩ := hkeys t List.mem_cons_self
        rw [groupRow_cons hkey, List.length_append, length_mapM hkey, List.length_map]

theorem length_resultRow (hπ : π.Perm (List.range stmt.tables.length))
    {group : List (Nat → Row)} {row : Row} (h : stmt.IsResultRow db π group row) :
    row.length = stmt.rowWidth db := by
  obtain ⟨core, hcore, hrow⟩ := h
  unfold SelectStatement.rowWidth
  cases hprojected : stmt.isProjected with
  | true =>
    rw [hprojected, if_pos rfl] at hrow
    exact length_mapM hrow
  | false =>
    rw [hprojected] at hrow
    obtain rfl : row = core := hrow
    exact length_coreRow hπ hcore

/-! ### The three kinds of statements -/

omit [Rounding] in
theorem aggregates_eq (stmt : SelectStatement) :
    stmt.aggregates = stmt.columns.filterMap SelectItem.call := by
  unfold SelectStatement.aggregates splitSelectList
  congr 1

omit [Rounding] in
theorem call_eq_none (h : stmt.aggregates = []) : ∀ item ∈ stmt.columns, item.call = none := by
  rw [aggregates_eq] at h
  exact List.filterMap_eq_nil_iff.mp h

omit [Rounding] in
theorem isProjected_of_noWildcards (haggs : stmt.aggregates = []) (h : stmt.NoWildcards) :
    stmt.isProjected = true := by
  obtain ⟨item, hitem⟩ := List.exists_mem_of_ne_nil _ h.1
  simp only [SelectStatement.isProjected, haggs, List.isEmpty_nil, Bool.and_true,
    Bool.not_eq_true', List.all_eq_false]
  exact ⟨item, hitem, by simp [h.2 item hitem]⟩

omit [Rounding] in
theorem isProjected_of_wildcards (h : ∀ item ∈ stmt.columns, item.isWildcard = true) :
    stmt.isProjected = false := by
  have hall : stmt.columns.all SelectItem.isWildcard = true := List.all_eq_true.mpr h
  rw [SelectStatement.isProjected, hall]
  rfl

/-- A core row over at least one tuple has the GROUP BY values of the first one. -/
theorem exists_key {group : List (Nat → Row)} {row : Row} (hgrouped : stmt.isGrouped = true)
    (h : stmt.IsCoreRow db π group row) (hne : group ≠ []) :
    ∃ t rest key, group = t :: rest ∧ stmt.keyOf db π t = .ok key ∧
      row = key ++ stmt.aggregates.flatMap fun agg =>
        aggregateValues agg (stmt.joinedSchema db π) (group.map (Blocks.layout π)) := by
  obtain ⟨hsource, hrow⟩ := h
  rw [hgrouped, if_pos rfl] at hrow
  obtain ⟨hnil, -⟩ | ⟨-, hkeys, hrow⟩ := hrow
  · exact absurd hnil hne
  · cases group with
    | nil => exact absurd rfl hne
    | cons t rest =>
      obtain ⟨key, hkey⟩ := hkeys t List.mem_cons_self
      refine ⟨t, rest, key, rfl, hkey, ?_⟩
      rw [hrow, groupRow_cons hkey, List.map_cons, List.map_eq_flatMap]
      rfl

theorem follows_aggregates {group : List (Nat → Row)} {row : Row}
    (haggs : stmt.aggregates ≠ []) (hlisted : stmt.ListedIn db π)
    (h : stmt.IsResultRow db π group row) : stmt.Follows db π row := by
  obtain ⟨core, hcore, hrow⟩ := h
  have hprojected : stmt.isProjected = false := by
    simp [SelectStatement.isProjected, haggs]
  have hgrouped : stmt.isGrouped = true := by
    simp [SelectStatement.isGrouped, haggs]
  rw [hprojected] at hrow
  obtain rfl : row = core := hrow
  rw [SelectStatement.ListedIn, if_pos haggs] at hlisted
  obtain ⟨hsplit, hcalls, hkeys⟩ := hlisted
  refine ⟨group, hcore.1, ?_⟩
  by_cases hne : group = []
  · -- no row at all: every item is an aggregate call
    have hgroup : stmt.groupBy = [] := hcore.1.nonempty hne
    have hcore := hcore.2
    rw [hgrouped, if_pos rfl] at hcore
    obtain ⟨-, hempty⟩ | ⟨hsome, -⟩ := hcore
    · rw [listValues_calls (hcalls hgroup), ← aggregates_eq, hempty, hne]
      exact congrArg Except.ok (List.map_eq_flatMap ..).symm
    · exact absurd hne hsome
  · obtain ⟨t, rest, key, rfl, hkey, rfl⟩ := exists_key hgrouped hcore hne
    have hfirst : listValues stmt db π (stmt.columns.filter (·.call.isNone)) (t :: rest) =
        .ok key := by
      rw [listValues_first (fun item hitem => by simpa using (List.mem_filter.mp hitem).2)]
      exact hkeys t (hcore.1.tuples t List.mem_cons_self) key hkey
    have hlast : listValues stmt db π (stmt.columns.filter (·.call.isSome)) (t :: rest) =
        .ok (stmt.aggregates.flatMap fun agg =>
          aggregateValues agg (stmt.joinedSchema db π) ((t :: rest).map (Blocks.layout π))) := by
      rw [listValues_calls (fun item hitem => (List.mem_filter.mp hitem).2), aggregates_eq,
        List.filterMap_filter]
      congr 3
      funext item
      cases item.call <;> rfl
    rw [← hsplit]
    exact listValues_append hfirst hlast

theorem follows_grouped {group : List (Nat → Row)} {row : Row} (haggs : stmt.aggregates = [])
    (hgroup : stmt.groupBy ≠ []) (hlisted : stmt.ListedIn db π)
    (h : stmt.IsResultRow db π group row) : stmt.Follows db π row := by
  obtain ⟨core, hcore, hrow⟩ := h
  have hgrouped : stmt.isGrouped = true := by
    simp [SelectStatement.isGrouped, hgroup]
  have hne : group ≠ [] := fun hnil => hgroup (hcore.1.nonempty hnil)
  obtain ⟨t, rest, key, rfl, hkey, rfl⟩ := exists_key hgrouped hcore hne
  have ht : stmt.IsTuple db t := hcore.1.tuples t List.mem_cons_self
  rw [haggs, List.flatMap_nil, List.append_nil] at hrow
  rw [SelectStatement.ListedIn, if_neg (not_not.mpr haggs), if_pos hgroup] at hlisted
  refine ⟨t :: rest, hcore.1, ?_⟩
  obtain ⟨hitems, hreads⟩ | ⟨hwild, hkeys⟩ := hlisted
  · rw [isProjected_of_noWildcards haggs hitems, if_pos rfl, SelectStatement.coreSchema,
      if_pos hgrouped, haggs] at hrow
    rw [listValues_plain (call_eq_none haggs) hitems.2]
    exact Except.mapM_eq_ok_of_imp hrow fun p hp v hv => hreads t ht key hkey p hp v hv
  · rw [isProjected_of_wildcards hwild] at hrow
    obtain rfl : row = key := hrow
    rw [listValues_first (call_eq_none haggs)]
    exact hkeys t ht row hkey

/-- Items that repeat the GROUP BY expressions have their values. -/
theorem listsKey_of_groupBy {items : List SelectItem} (h : List.Forall₂ (fun item g =>
    ∃ a, item = .expression g a ∧ aggregateCall g a = none) items stmt.groupBy) :
    stmt.ListsKey db π items := by
  intro t _ key hkey
  unfold SelectStatement.keyOf at hkey
  generalize stmt.groupBy = groupBy at h hkey
  induction h generalizing key with
  | nil =>
    cases hkey
    rfl
  | cons hitem _ ih =>
    obtain ⟨a, rfl, hcall⟩ := hitem
    obtain ⟨v, rest, hv, hrest, rfl⟩ := Except.mapM_cons_eq_ok.mp hkey
    rw [listValues_cons, values_expression hcall, hv, ih rest hrest]
    rfl

omit [Rounding] in
theorem isWildcard_of_named {items : List SelectItem} {named : List (List Nat)}
    (h : items.mapM (SelectItem.named stmt) = some named) :
    ∀ item ∈ items, item.isWildcard = true := by
  intro item hitem
  obtain ⟨is, -, his⟩ := (Option.mapM_eq_some h).1 item hitem
  cases item with
  | expression e a => cases his
  | wildcard => rfl
  | qualifiedWildcard q => rfl

/-- Wildcards have the columns of the tables that they name. -/
theorem listValues_named {items : List SelectItem} {named : List (List Nat)}
    (h : items.mapM (SelectItem.named stmt) = some named) (t : Nat → Row) :
    listValues stmt db π items [t] = .ok (Blocks.layout named.flatten t) := by
  induction items generalizing named with
  | nil =>
    cases h
    rfl
  | cons item items ih =>
    rw [List.mapM_cons] at h
    obtain ⟨first, hfirst, h⟩ := Option.bind_eq_some_iff.mp h
    obtain ⟨rest, hrest, h⟩ := Option.bind_eq_some_iff.mp h
    cases h
    have hitem : item.values stmt db π [t] = .ok (Blocks.layout first t) := by
      cases item with
      | expression e a => cases hfirst
      | wildcard =>
        cases hfirst
        rfl
      | qualifiedWildcard q =>
        obtain ⟨i, hi, rfl⟩ := Option.map_eq_some_iff.mp hfirst
        simp only [SelectItem.values, SelectItem.call, hi, Blocks.layout, List.flatMap_cons,
          List.flatMap_nil, List.append_nil]
    rw [listValues_cons, hitem, Except.ok_bind, ih hrest, Except.ok_bind, List.flatten_cons,
      Blocks.layout, Blocks.layout, Blocks.layout, List.flatMap_append]
    rfl

theorem follows_ungrouped {group : List (Nat → Row)} {row : Row} (haggs : stmt.aggregates = [])
    (hgroup : stmt.groupBy = []) (hlisted : stmt.ListedIn db π)
    (h : stmt.IsResultRow db π group row) : stmt.Follows db π row := by
  obtain ⟨core, ⟨hsource, hcore⟩, hrow⟩ := h
  have hgrouped : stmt.isGrouped = false := by
    simp [SelectStatement.isGrouped, haggs, hgroup]
  rw [hgrouped] at hcore
  obtain ⟨t, rfl, rfl⟩ := hcore
  rw [SelectStatement.ListedIn, if_neg (not_not.mpr haggs), if_neg (not_not.mpr hgroup)] at hlisted
  refine ⟨[t], hsource, ?_⟩
  obtain hitems | hnamed := hlisted
  · rw [isProjected_of_noWildcards haggs hitems, if_pos rfl, SelectStatement.coreSchema,
      hgrouped] at hrow
    rw [listValues_plain (call_eq_none haggs) hitems.2]
    exact hrow
  · obtain ⟨named, hnames, rfl⟩ := Option.map_eq_some_iff.mp hnamed
    have hwild := isWildcard_of_named hnames
    rw [isProjected_of_wildcards hwild] at hrow
    obtain rfl := hrow
    exact listValues_named hnames t

theorem follows_listed {group : List (Nat → Row)} {row : Row} (hlisted : stmt.ListedIn db π)
    (h : stmt.IsResultRow db π group row) : stmt.Follows db π row := by
  by_cases haggs : stmt.aggregates = []
  · by_cases hgroup : stmt.groupBy = []
    · exact follows_ungrouped haggs hgroup hlisted h
    · exact follows_grouped haggs hgroup hlisted h
  · exact follows_aggregates haggs hlisted h

/-! ### Items out of place -/

/-- The values of the items before, of an item, and of the items after it. -/
theorem listValues_split {before after : List SelectItem} {item : SelectItem}
    {group : List (Nat → Row)} {row : Row}
    (h : listValues stmt db π (before ++ item :: after) group = .ok row) :
    ∃ first mid rest, listValues stmt db π before group = .ok first ∧
      item.values stmt db π group = .ok mid ∧ row = first ++ mid ++ rest := by
  induction before generalizing row with
  | nil =>
    rw [List.nil_append, listValues_cons] at h
    obtain ⟨mid, hmid, h⟩ := Except.bind_eq_ok.mp h
    obtain ⟨rest, -, h⟩ := Except.bind_eq_ok.mp h
    cases h
    exact ⟨[], mid, rest, rfl, hmid, rfl⟩
  | cons b before ih =>
    rw [List.cons_append, listValues_cons] at h
    obtain ⟨start, hstart, h⟩ := Except.bind_eq_ok.mp h
    obtain ⟨tail, htail, h⟩ := Except.bind_eq_ok.mp h
    cases h
    obtain ⟨first, mid, rest, hfirst, hmid, rfl⟩ := ih htail
    refine ⟨start ++ first, mid, rest, ?_, hmid, by simp⟩
    rw [listValues_cons, hstart, Except.ok_bind, hfirst]
    rfl

/-- What stands in the place of a GROUP BY value is that value. -/
theorem not_follows_displaced (h : stmt.Displaced db) {π' : List Nat}
    (hπ : π.Perm (List.range stmt.tables.length)) (hπ' : π'.Perm (List.range stmt.tables.length))
    {group : List (Nat → Row)} {row : Row} (hrow : stmt.IsResultRow db π group row) :
    ¬ stmt.Follows db π' row := by
  rintro ⟨group', hsource', hvalues⟩
  obtain ⟨haggs, before, e, a, after, g, hcolumns, hg, hnever⟩ := h
  obtain ⟨core, hcore, hrow⟩ := hrow
  have hprojected : stmt.isProjected = false := by
    simp [SelectStatement.isProjected, haggs]
  have hgrouped : stmt.isGrouped = true := by
    simp [SelectStatement.isGrouped, haggs]
  rw [hprojected] at hrow
  obtain rfl : row = core := hrow
  have hgroup : stmt.groupBy ≠ [] := by
    intro hnil
    rw [hnil] at hg
    cases hg
  obtain ⟨t, rest, key, rfl, hkey, rfl⟩ :=
    exists_key hgrouped hcore fun hnil => hgroup (hcore.1.nonempty hnil)
  -- the GROUP BY value at that place
  have hkeys := Except.mapM_eq_ok.mp hkey
  obtain ⟨hlt, hgi⟩ := List.getElem?_eq_some_iff.mp hg
  have hlt' := hkeys.length_eq ▸ hlt
  have hv := List.forall₂_iff_get.mp hkeys |>.2 _ hlt hlt'
  simp only [List.get_eq_getElem, hgi] at hv
  -- the value of the item
  rw [hcolumns] at hvalues
  obtain ⟨first, mid, more, hfirst, hmid, hsplit⟩ := listValues_split hvalues
  have hlength := length_listValues hsource'.tuples hfirst
  have hone : mid.length = 1 := length_values hsource'.tuples hmid
  obtain ⟨w, rfl⟩ := List.length_eq_one_iff.mp hone
  have hat : key[first.length]? = some w := by
    rw [← List.getElem?_append_left (by rwa [hlength]), hsplit, List.append_assoc,
      List.getElem?_append_right le_rfl, Nat.sub_self]
    rfl
  have hw := (List.getElem?_eq_some_iff.mp hat).2
  refine hnever π π' hπ hπ' t (hcore.1.tuples t List.mem_cons_self) _ hv group' hsource' ?_
  simp only [hmid, ← hlength, hw]

/-! ### Result rows -/

variable {R : Type} [CostNum R] {catalog : Catalog} {stats : StatisticsCatalog R}
  {plan : PhysicalPlan R}

end

/-- A call of COUNT in front of a GROUP BY value that is never an INT. -/
theorem displaced_count [Rounding] {stmt : SelectStatement} {db : Database} {args : List Expression}
    {name : Option String} {after : List SelectItem} {g : Expression} {groupBy : List Expression}
    (hcolumns : stmt.columns = .expression (.function "COUNT" args) name :: after)
    (hgroup : stmt.groupBy = g :: groupBy)
    (hkind : ∀ π : List Nat, π.Perm (List.range stmt.tables.length) → ∀ t, stmt.IsTuple db t →
      ∀ n, evaluate g (Blocks.layout π t) (stmt.joinedSchema db π) ≠ .ok (.integer n)) :
    stmt.Displaced db := by
  have hupper : toUpper "COUNT" = "COUNT" := by decide
  have hcall : SelectItem.call (.expression (.function "COUNT" args) name) =
      some ⟨"COUNT", args.head?.getD .wildcard, name⟩ := by
    simp only [SelectItem.call, aggregateCall, hupper]
    exact if_pos (by decide)
  refine ⟨?_, [], .function "COUNT" args, name, after, g, hcolumns, by rw [hgroup]; rfl, ?_⟩
  · rw [aggregates_eq, hcolumns, List.filterMap_cons_some hcall]
    exact List.cons_ne_nil _ _
  · intro π π' hπ hπ' t ht v hv group hsource heq
    unfold SelectItem.values at heq
    rw [hcall] at heq
    have hne : group ≠ [] := fun hnil => by simpa [hgroup] using hsource.nonempty hnil
    cases group with
    | nil => exact hne rfl
    | cons t' group =>
      cases heq
      exact hkind π hπ t ht _ hv

/-- A table `t` with one column and two rows. -/
def columnDb : Database :=
  (∅ : Database).insert "t" ⟨["a"], [[.integer 1], [.integer 1]], by decide⟩

/-- The same with texts. -/
def textDb : Database :=
  (∅ : Database).insert "t" ⟨["a"], [[.str "x"], [.str "x"]], by decide⟩

/-- `SELECT items FROM t GROUP BY groupBy` -/
def selectFrom (items : List SelectItem) (groupBy : List Expression) : SelectStatement :=
  ⟨items, ⟨"t", none⟩, [], none, groupBy, none, [], none⟩

/-- `SELECT a, COUNT(*) FROM t GROUP BY a` -/
def countPerKey : SelectStatement :=
  selectFrom [.expression (.column none "a") none, .expression (.function "COUNT" [.wildcard]) none]
    [.column none "a"]

/-- `SELECT COUNT(*), a FROM t GROUP BY a` -/
def countFirst : SelectStatement :=
  selectFrom [.expression (.function "COUNT" [.wildcard]) none, .expression (.column none "a") none]
    [.column none "a"]

/-- `SELECT *, a FROM t` -/
def starAndColumn : SelectStatement :=
  selectFrom [.wildcard, .expression (.column none "a") none] []

end SqlOptimizer
