import SqlOptimizer.Execution.OuterJoin
import SqlOptimizer.Library.Mask
import SqlOptimizer.Physical.StatementPlan

/-! Projection pushdown against the rows of a plan, when each scan returns only the columns that it
was told to.  What is left out is seen by nothing above, unless nothing above chooses columns. -/

namespace SqlOptimizer

open Mask

/-! ### The rows of a plan whose scans project -/

/-- The columns that a scan returns: those that it names, or all when it names none. -/
def scanMask (columnNames projectedColumns : List String) : List Bool :=
  columnNames.map fun c => projectedColumns.isEmpty || decide (c ∈ projectedColumns)

/-- The rows on which a test succeeds. -/
def keepRows (test : Row → Except String Bool) (rows : List Row) : Except String (List Row) :=
  rows.flatMapM fun row => do if ← test row then return [row] else return []

/-- The rows of `pairs` on which a test succeeds, or `pad` when there are none. -/
def matchRows (test : Row → Except String Bool) (pad pairs : List Row) :
    Except String (List Row) := do
  let kept ← keepRows test pairs
  return if kept.isEmpty then pad else kept

section

variable [Rounding]

/-- The join of SQL, which fails when its condition fails on a pair of rows. -/
def evaluateJoin (joinType : JoinType) (condition : Expression) (ls rs : RowSchema)
    (l r : List Row) : Except String (List Row) :=
  let test := fun row => passes condition row (ls.extend rs)
  match joinType with
  | .inner | .cross => l.flatMapM fun a => matchRows test [] (r.map (a ++ ·))
  | .left => l.flatMapM fun a => matchRows test [a ++ nullRow rs.size] (r.map (a ++ ·))
  | .right => r.flatMapM fun b => matchRows test [nullRow ls.size ++ b] (l.map (· ++ b))

/-- The schema and the rows of a plan, or the first error.  Each scan returns only the columns that
its `projected_columns` name. -/
def LogicalPlan.evaluated (db : Database) : LogicalPlan → Except String (RowSchema × List Row)
  | .scan tableName aliasName projectedColumns => do
    let table ← loadedTable db tableName
    let mask := scanMask table.columnNames projectedColumns
    return (scanSchema (aliasName.getD tableName) (select mask table.columnNames),
      table.rows.map (select mask))
  | .filter predicate input => do
    let (schema, rows) ← input.evaluated db
    return (schema, ← keepRows (passes predicate · schema) rows)
  | .join joinType condition left right => do
    let (ls, l) ← left.evaluated db
    let (rs, r) ← right.evaluated db
    return (ls.extend rs, ← evaluateJoin joinType condition ls rs l r)
  | .aggregate groupBy aggregates input => do
    let (schema, rows) ← input.evaluated db
    return (aggregateSchema groupBy aggregates, ← hashAggregateRows groupBy aggregates schema rows)
  | .project expressions input => do
    let (schema, rows) ← input.evaluated db
    return (projectSchema expressions,
      ← rows.mapM fun row => expressions.mapM fun p => evaluate p.1 row schema)
  | .sort orderBy input => do
    let (schema, rows) ← input.evaluated db
    return (schema, ← sortRows (sortLess orderBy schema) rows)
  | .limit count input => do
    let (schema, rows) ← input.evaluated db
    return (schema, rows.take count)

end

/-! ### Operators over corresponding rows -/

theorem keepRows_map {test test' : Row → Except String Bool} {f : Row → Row} {rows : List Row}
    (h : ∀ row ∈ rows, test' (f row) = test row) :
    keepRows test' (rows.map f) = (keepRows test rows).map (List.map f) := by
  refine Except.flatMapM_map fun row hrow => ?_
  rw [h row hrow]
  cases test row with
  | error e => rfl
  | ok b => cases b <;> rfl

theorem mem_keepRows {test : Row → Except String Bool} {rows out : List Row}
    (h : keepRows test rows = .ok out) {row : Row} (hrow : row ∈ out) : row ∈ rows := by
  obtain ⟨r, hr, kept, hkept, hmem⟩ := Except.exists_of_mem_flatMapM h hrow
  obtain ⟨b, -, hkept⟩ := Except.bind_eq_ok.mp hkept
  cases b <;> cases hkept
  · cases hmem
  · exact List.mem_singleton.mp hmem ▸ hr

theorem mem_matchRows {test : Row → Except String Bool} {pad pairs out : List Row}
    (h : matchRows test pad pairs = .ok out) {row : Row} (hrow : row ∈ out) :
    row ∈ pad ∨ row ∈ pairs := by
  obtain ⟨kept, hkept, h⟩ := Except.bind_eq_ok.mp h
  cases h
  split at hrow
  · exact .inl hrow
  · exact .inr (mem_keepRows hkept hrow)

theorem matchRows_map {test test' : Row → Except String Bool} {f : Row → Row}
    {pad pad' pairs pairs' : List Row} (hpad : pad' = pad.map f) (hpairs : pairs' = pairs.map f)
    (h : ∀ row ∈ pairs, test' (f row) = test row) :
    matchRows test' pad' pairs' = (matchRows test pad pairs).map (List.map f) := by
  rw [matchRows, matchRows, hpad, hpairs, keepRows_map h]
  cases keepRows test pairs with
  | error e => rfl
  | ok kept => cases kept <;> rfl

theorem insertRow_map {less less' : Row → Row → Except String Bool} {f : Row → Row} {row : Row}
    {rows : List Row} (h : ∀ r ∈ rows, less' (f row) (f r) = less row r) :
    insertRow less' (f row) (rows.map f) = (insertRow less row rows).map (List.map f) := by
  induction rows with
  | nil => rfl
  | cons r rows ih =>
    simp only [List.map_cons, insertRow, h r List.mem_cons_self,
      ih fun r' hr' => h r' (List.mem_cons_of_mem _ hr')]
    cases less row r with
    | error e => rfl
    | ok b => cases b with
      | true => rfl
      | false => cases insertRow less row rows <;> rfl

theorem sortRows_map {less less' : Row → Row → Except String Bool} {f : Row → Row}
    {rows : List Row} (h : ∀ a ∈ rows, ∀ b ∈ rows, less' (f a) (f b) = less a b) :
    sortRows less' (rows.map f) = (sortRows less rows).map (List.map f) := by
  have hfold : ∀ (rest sorted : List Row), (∀ r ∈ rest, r ∈ rows) → (∀ r ∈ sorted, r ∈ rows) →
      (rest.map f).foldlM (fun sorted row => insertRow less' row sorted) (sorted.map f) =
        (rest.foldlM (fun sorted row => insertRow less row sorted) sorted).map (List.map f) := by
    intro rest
    induction rest with
    | nil => exact fun _ _ _ => rfl
    | cons row rest ih =>
      intro sorted hrest hsorted
      have hrow : row ∈ rows := hrest row List.mem_cons_self
      rw [List.map_cons, List.foldlM_cons, List.foldlM_cons,
        insertRow_map fun r hr => h row hrow r (hsorted r hr)]
      cases hnext : insertRow less row sorted with
      | error e => rfl
      | ok next =>
        refine ih next (fun r hr => hrest r (List.mem_cons_of_mem _ hr)) fun r hr => ?_
        exact (mem_insertRow hnext hr).elim (· ▸ hrow) (hsorted r)
  exact hfold rows [] (fun _ h => h) nofun

/-! ### What the scans leave out -/

def RowSchema.trim (m : List Bool) (s : RowSchema) : RowSchema := ⟨select m s.entries, s.aggEntries⟩

/-- The columns of a plan without `Aggregate` and `Project` that its scans return after
`push_projections`. -/
def LogicalPlan.keptColumns (db : Database) : LogicalPlan → List String → List Bool
  | .scan tableName _ _, needed =>
    match db.get tableName with
    | some table => scanMask table.columnNames needed
    | none => []
  | .filter predicate input, needed => input.keptColumns db (addColumns [predicate] needed)
  | .join _ condition left right, needed =>
    left.keptColumns db (addColumns [condition] needed) ++
      right.keptColumns db (addColumns [condition] needed)
  | .sort orderBy input, needed =>
    input.keptColumns db (addColumns (orderBy.map (·.expression)) needed)
  | .limit _ input, needed => input.keptColumns db needed
  | .aggregate _ _ _, _ | .project _ _, _ => []

/-- A schema and rows of its width, of which `m` keeps the columns named in `needed`. -/
structure Fits (needed : List String) (m : List Bool) (x : RowSchema × List Row) : Prop where
  length : m.length = x.1.size
  width : ∀ row ∈ x.2, row.length = x.1.size
  keeps : Keeps (fun e => e.column ∈ needed) m x.1.entries
  aggEntries : x.1.aggEntries = []

theorem mem_addColumns {es : List Expression} {needed : List String} {c : String} :
    c ∈ addColumns es needed ↔ c ∈ needed ∨ ∃ e ∈ es, ∃ t, (t, c) ∈ e.columns := by
  have hfold : ∀ (cs s : List String),
      c ∈ cs.foldl (fun s c => if c ∈ s then s else s ++ [c]) s ↔ c ∈ s ∨ c ∈ cs := by
    intro cs
    induction cs with
    | nil => simp
    | cons d cs ih =>
      intro s
      rw [List.foldl_cons, ih, List.mem_cons, ← or_assoc]
      split
      case isTrue hd =>
        refine or_congr_left ⟨.inl, fun h => h.elim id ?_⟩
        rintro rfl
        exact hd
      case isFalse => simp
  rw [addColumns, hfold]
  simp only [List.mem_flatMap, List.mem_map, Prod.exists]
  simp

section

variable {needed : List String} {m : List Bool} {s : RowSchema} {rows : List Row}

theorem resolve_trim {t : Option String} {c : String} {row : Row} (hm : m.length = s.size)
    (hw : row.length = s.size) (hk : Keeps (fun e => e.column ∈ needed) m s.entries)
    (hc : c ∈ needed) :
    ((s.trim m).resolve t c).bind ((select m row)[·]?) = (s.resolve t c).bind (row[·]?) := by
  have hrow : m.length = row.length := hm.trans hw.symm
  cases t with
  | some t =>
    refine findIdx?_select (p := fun e => e.column == c && e.table.getD "" == t) hm hrow
      (hk.mono ?_)
    intro e he
    simp only [Bool.and_eq_true, beq_iff_eq] at he
    exact he.1 ▸ hc
  | none =>
    have hname : Keeps ((fun e : Entry => e.column == c) · = true) m s.entries := by
      refine hk.mono fun e he => ?_
      rw [beq_iff_eq] at he
      exact he ▸ hc
    rw [RowSchema.resolve_none, RowSchema.resolve_none]
    simp only [RowSchema.trim, countP_select hm hname]
    split
    · exact findIdx?_select hm hrow hname
    · rfl

theorem Fits.of_mem {rows' : List Row} (h : Fits needed m (s, rows))
    (hrows : ∀ row ∈ rows', row ∈ rows) : Fits needed m (s, rows') :=
  ⟨h.length, fun row hrow => h.width row (hrows row hrow), h.keeps, h.aggEntries⟩

theorem Fits.mono {needed' : List String} (h : Fits needed m (s, rows))
    (hsub : ∀ c ∈ needed', c ∈ needed) : Fits needed' m (s, rows) :=
  ⟨h.length, h.width, h.keeps.mono fun _ he => hsub _ he, h.aggEntries⟩

theorem Fits.join {ls rs : RowSchema} {l r : List Row} {ml mr : List Bool} {out : List Row}
    (hl : Fits needed ml (ls, l)) (hr : Fits needed mr (rs, r))
    (hout : ∀ row ∈ out, row.length = ls.size + rs.size) :
    Fits needed (ml ++ mr) (ls.extend rs, out) where
  length := by
    rw [List.length_append, hl.length, hr.length, RowSchema.extend_size]
  width row hrow := by rw [hout row hrow, RowSchema.extend_size]
  keeps := hl.keeps.append hl.length hr.keeps
  aggEntries := by
    have hla : ls.aggEntries = [] := hl.aggEntries
    have hra : rs.aggEntries = [] := hr.aggEntries
    simp [RowSchema.extend, hla, hra]

theorem select_nullRow (h : m.length = s.size) :
    select m (nullRow s.size) = nullRow (s.trim m).size := by
  have hsize : (s.trim m).size = m.count true := length_select h
  rw [hsize, ← h]
  exact select_replicate m Literal.null

theorem RowSchema.extend_trim (o : RowSchema) (m' : List Bool) (h : m.length = s.size) :
    (s.trim m).extend (o.trim m') = (s.extend o).trim (m ++ m') := by
  simp only [RowSchema.extend, RowSchema.trim, select_append h]

variable [Rounding]

/-- A column in a row as wide as the schema is the value beside its entry. -/
theorem evaluate_column_of_width {t : Option String} {c : String} {row : Row}
    (h : row.length = s.size) : evaluate (.column t c) row s =
      match (s.resolve t c).bind (row[·]?) with
      | some v => .ok v
      | none => .error ("execution: cannot resolve column '" ++ columnText t c ++ "'") := by
  cases hi : s.resolve t c with
  | none => simp [evaluate, hi]
  | some i =>
    have hlt : i < row.length := h ▸ RowSchema.resolve_lt hi
    rw [evaluate_column hi, rowAt]
    simp [List.getElem?_eq_getElem hlt]

/-- An expression whose columns are kept has its value in the kept columns. -/
theorem Fits.evaluate_trim (h : Fits needed m (s, rows)) {e : Expression}
    (he : ∀ t c, (t, c) ∈ e.columns → c ∈ needed) {row : Row} (hrow : row ∈ rows) :
    evaluate e (select m row) (s.trim m) = evaluate e row s := by
  have hw := h.width row hrow
  have hm := h.length
  refine evaluate_congr (fun t c hc => ?_) fun name args => ?_
  · have hwidth : (select m row).length = (s.trim m).size := by
      rw [RowSchema.size, RowSchema.trim, length_select hm, length_select (hm.trans hw.symm)]
    rw [evaluate_column_of_width hw, evaluate_column_of_width hwidth,
      resolve_trim hm hw h.keeps (he t c hc)]
  · have hagg : s.aggEntries = [] := h.aggEntries
    simp [evaluate, RowSchema.resolveAggregate, RowSchema.trim, hagg]

theorem Fits.passes_trim (h : Fits needed m (s, rows)) {e : Expression}
    (he : ∀ t c, (t, c) ∈ e.columns → c ∈ needed) {row : Row} (hrow : row ∈ rows) :
    passes e (select m row) (s.trim m) = passes e row s := by
  rw [passes, passes, h.evaluate_trim he hrow]

theorem Fits.sortLess_trim (h : Fits needed m (s, rows)) {orderBy : List OrderByItem}
    (ho : ∀ item ∈ orderBy, ∀ t c, (t, c) ∈ item.expression.columns → c ∈ needed) {a b : Row}
    (ha : a ∈ rows) (hb : b ∈ rows) :
    sortLess orderBy (s.trim m) (select m a) (select m b) = sortLess orderBy s a b := by
  induction orderBy with
  | nil => rfl
  | cons item orderBy ih =>
    have hitem := ho item List.mem_cons_self
    simp only [sortLess, h.evaluate_trim hitem ha, h.evaluate_trim hitem hb,
      ih fun i hi => ho i (List.mem_cons_of_mem _ hi)]

theorem Fits.hashAggregateRows_trim (h : Fits needed m (s, rows)) {groupBy : List Expression}
    {aggregates : List AggregateExpr}
    (hg : ∀ e ∈ groupBy ++ aggregates.map (·.arg), ∀ t c, (t, c) ∈ e.columns → c ∈ needed) :
    hashAggregateRows groupBy aggregates (s.trim m) (rows.map (select m)) =
      hashAggregateRows groupBy aggregates s rows := by
  have hinput : ∀ agg ∈ aggregates, ∀ row ∈ rows,
      aggregateInput agg (select m row) (s.trim m) = aggregateInput agg row s := by
    intro agg hagg row hrow
    have harg := h.evaluate_trim (hg agg.arg (by simp; exact .inr ⟨agg, hagg, rfl⟩)) hrow
    unfold aggregateInput
    split
    · split <;> rfl
    · exact harg
  have hstep : ∀ groups, ∀ row ∈ rows, aggregateRow groupBy aggregates (s.trim m) groups
      (select m row) = aggregateRow groupBy aggregates s groups row := by
    intro groups row hrow
    have hkey : (groupBy.mapM fun g => evaluate g (select m row) (s.trim m)) =
        groupBy.mapM fun g => evaluate g row s :=
      Except.mapM_congr fun g hmem => h.evaluate_trim (hg g (by simp [hmem])) hrow
    have hfeed : ∀ accs, feedRow aggregates (select m row) (s.trim m) accs =
        feedRow aggregates row s accs := fun accs =>
      Except.mapM_congr fun p hp => by rw [hinput p.1 (List.of_mem_zip hp).1 row hrow]
    simp only [aggregateRow, hkey, hfeed]
  rw [hashAggregateRows, List.foldlM_map, Except.foldlM_congr hstep, ← hashAggregateRows]

/-- Every row of a join is as wide as both sides together. -/
theorem width_evaluateJoin {joinType : JoinType} {condition : Expression} {ls rs : RowSchema}
    {l r out : List Row} (hl : ∀ a ∈ l, a.length = ls.size) (hr : ∀ b ∈ r, b.length = rs.size)
    (h : evaluateJoin joinType condition ls rs l r = .ok out) {row : Row} (hrow : row ∈ out) :
    row.length = ls.size + rs.size := by
  have hpad : ∀ n, (nullRow n).length = n := fun n => List.length_replicate
  cases joinType with
  | inner | cross =>
    obtain ⟨a, ha, kept, hkept, hmem⟩ := Except.exists_of_mem_flatMapM h hrow
    rcases mem_matchRows hkept hmem with hmem | hmem
    · cases hmem
    · obtain ⟨b, hb, rfl⟩ := List.mem_map.mp hmem
      rw [List.length_append, hl a ha, hr b hb]
  | left =>
    obtain ⟨a, ha, kept, hkept, hmem⟩ := Except.exists_of_mem_flatMapM h hrow
    rcases mem_matchRows hkept hmem with hmem | hmem
    · rw [List.mem_singleton.mp hmem, List.length_append, hl a ha, hpad]
    · obtain ⟨b, hb, rfl⟩ := List.mem_map.mp hmem
      rw [List.length_append, hl a ha, hr b hb]
  | right =>
    obtain ⟨b, hb, kept, hkept, hmem⟩ := Except.exists_of_mem_flatMapM h hrow
    rcases mem_matchRows hkept hmem with hmem | hmem
    · rw [List.mem_singleton.mp hmem, List.length_append, hr b hb, hpad]
    · obtain ⟨a, ha, rfl⟩ := List.mem_map.mp hmem
      rw [List.length_append, hl a ha, hr b hb]

theorem evaluateJoin_trim {joinType : JoinType} {condition : Expression} {ls rs : RowSchema}
    {l r : List Row} {ml mr : List Bool} (hl : Fits needed ml (ls, l))
    (hr : Fits needed mr (rs, r)) (hc : ∀ t c, (t, c) ∈ condition.columns → c ∈ needed) :
    evaluateJoin joinType condition (ls.trim ml) (rs.trim mr) (l.map (select ml)) (r.map (select mr)) =
      (evaluateJoin joinType condition ls rs l r).map (List.map (select (ml ++ mr))) := by
  have hleft : ∀ a ∈ l, ∀ b, select (ml ++ mr) (a ++ b) = select ml a ++ select mr b :=
    fun a ha b => select_append (hl.length.trans (hl.width a ha).symm)
  have hnull : ∀ b, select (ml ++ mr) (nullRow ls.size ++ b) =
      nullRow (ls.trim ml).size ++ select mr b := fun b => by
    rw [select_append (by rw [hl.length]; exact List.length_replicate.symm),
      select_nullRow hl.length]
  have hschema := RowSchema.extend_trim (s := ls) rs mr hl.length
  have htest : ∀ a ∈ l, ∀ b ∈ r, passes condition (select (ml ++ mr) (a ++ b))
      ((ls.trim ml).extend (rs.trim mr)) = passes condition (a ++ b) (ls.extend rs) := by
    intro a ha b hb
    have hpair : Fits needed (ml ++ mr) (ls.extend rs, [a ++ b]) := by
      refine hl.join hr fun row hrow => ?_
      rw [List.mem_singleton.mp hrow, List.length_append, hl.width a ha, hr.width b hb]
    rw [hschema, hpair.passes_trim hc List.mem_cons_self]
  have hright : ∀ a ∈ l, (r.map (select mr)).map (select ml a ++ ·) =
      (r.map (a ++ ·)).map (select (ml ++ mr)) := fun a ha => by
    simp only [List.map_map, Function.comp_def, hleft a ha]
  cases joinType with
  | inner | cross =>
    refine Except.flatMapM_map fun a ha => matchRows_map rfl (hright a ha) fun row hrow => ?_
    obtain ⟨b, hb, rfl⟩ := List.mem_map.mp hrow
    exact htest a ha b hb
  | left =>
    refine Except.flatMapM_map fun a ha => matchRows_map ?_ (hright a ha) fun row hrow => ?_
    · rw [List.map_singleton, hleft a ha, select_nullRow hr.length]
    · obtain ⟨b, hb, rfl⟩ := List.mem_map.mp hrow
      exact htest a ha b hb
  | right =>
    refine Except.flatMapM_map fun b hb => matchRows_map ?_ ?_ fun row hrow => ?_
    · rw [List.map_singleton, hnull]
    · simp only [List.map_map, Function.comp_def]
      exact List.map_congr_left fun a ha => (hleft a ha b).symm
    · obtain ⟨a, ha, rfl⟩ := List.mem_map.mp hrow
      exact htest a ha b hb

end

/-! ### Plans -/

namespace LogicalPlan

/-- No operator of the plan chooses columns, and its scans read all of theirs. -/
def readsAll : LogicalPlan → Bool
  | .scan _ _ projectedColumns => projectedColumns.isEmpty
  | .join _ _ left right => left.readsAll && right.readsAll
  | .filter _ input | .sort _ input | .limit _ input => input.readsAll
  | .aggregate _ _ _ | .project _ _ => false

/-- The columns of the plan are those of an `Aggregate` or a `Project`. -/
def choosesColumns : LogicalPlan → Bool
  | .aggregate _ _ input | .project _ input => input.readsAll || input.choosesColumns
  | .filter _ input | .sort _ input | .limit _ input => input.choosesColumns
  | .scan _ _ _ | .join _ _ _ _ => false

end LogicalPlan

/-- The schema and the rows of a plan cut to the columns that `m` keeps. -/
def trimmed (m : List Bool) (x : RowSchema × List Row) : RowSchema × List Row :=
  (x.1.trim m, x.2.map (select m))

theorem mem_addColumns_of_columns {es : List Expression} {needed : List String} {e : Expression}
    (he : e ∈ es) : ∀ t c, (t, c) ∈ e.columns → c ∈ addColumns es needed :=
  fun t _ h => mem_addColumns.mpr (.inr ⟨e, he, t, h⟩)

theorem mem_addColumns_of_needed {es : List Expression} {needed : List String} :
    ∀ c ∈ needed, c ∈ addColumns es needed := fun _ h => mem_addColumns.mpr (.inl h)

section

variable [Rounding] {db : Database} {plan : LogicalPlan} {needed : List String}

variable (db) in
/-- What a plan without `Aggregate` and `Project` returns after `push_projections`: its rows
without the columns that its scans leave out. -/
structure Trims (plan : LogicalPlan) (needed : List String) : Prop where
  evaluated : (pushProjections plan needed).evaluated db =
    (plan.evaluated db).map (trimmed (plan.keptColumns db needed))
  fits : ∀ x, plan.evaluated db = .ok x → Fits needed (plan.keptColumns db needed) x

theorem trims_scan (tableName : String) (aliasName : Option String) (needed : List String) :
    Trims db (.scan tableName aliasName []) needed := by
  have hall : ∀ {α : Type} (names : List String) (xs : List α), xs.length = names.length →
      select (scanMask names []) xs = xs := fun names xs h =>
    (select_eq_self (by simp [scanMask, h])).mpr (by simp [scanMask])
  cases htable : db.get tableName with
  | none =>
    have hload : loadedTable db tableName =
        .error ("execution: no data loaded for table '" ++ tableName ++ "'") := by
      simp [loadedTable, htable]
    constructor
    · simp only [pushProjections, LogicalPlan.evaluated, hload, Except.error_bind]
      rfl
    · intro x hx
      simp [LogicalPlan.evaluated, hload] at hx
  | some table =>
    have hload : loadedTable db tableName = .ok table := by simp [loadedTable, htable]
    have hfull : (LogicalPlan.scan tableName aliasName []).evaluated db =
        .ok (scanSchema (aliasName.getD tableName) table.columnNames, table.rows) := by
      simp only [LogicalPlan.evaluated, hload, Except.ok_bind, Except.pure_eq_ok,
        hall table.columnNames table.columnNames rfl]
      rw [List.map_congr_left fun row hrow => hall table.columnNames row (table.width row hrow),
        List.map_id']
    constructor
    · rw [hfull]
      simp only [pushProjections, LogicalPlan.evaluated, hload, Except.ok_bind,
        LogicalPlan.keptColumns, htable, Except.map, trimmed, RowSchema.trim, scanSchema,
        select_map, Except.pure_eq_ok]
    · intro x hx
      rw [hfull] at hx
      cases hx
      refine ⟨?_, ?_, ?_, rfl⟩
      · simp [LogicalPlan.keptColumns, htable, scanMask, RowSchema.size, scanSchema]
      · intro row hrow
        simp [table.width row hrow, RowSchema.size, scanSchema]
      · simp only [LogicalPlan.keptColumns, htable]
        refine keeps_map fun c _ hc => ?_
        simp [show c ∈ needed from hc]

/-- An operator that keeps the schema and some of the rows of its input. -/
theorem Trims.over {outer : LogicalPlan → LogicalPlan} {needed' : List String}
    (op : RowSchema → List Row → Except String (List Row)) (h : Trims db plan needed')
    (houter : ∀ p, (outer p).evaluated db = do
      let (s, rows) ← p.evaluated db
      return (s, ← op s rows))
    (hpush : pushProjections (outer plan) needed = outer (pushProjections plan needed'))
    (hkept : (outer plan).keptColumns db needed = plan.keptColumns db needed')
    (hsub : ∀ c ∈ needed, c ∈ needed')
    (hop : ∀ m s rows, Fits needed' m (s, rows) →
      op (s.trim m) (rows.map (select m)) = (op s rows).map (List.map (select m)))
    (hmem : ∀ s rows out, op s rows = .ok out → ∀ row ∈ out, row ∈ rows) :
    Trims db (outer plan) needed := by
  cases hx : plan.evaluated db with
  | error e =>
    have heval := h.evaluated
    rw [hx] at heval
    constructor
    · rw [hpush, houter, houter, hx, heval]
      rfl
    · intro y hy
      rw [houter, hx] at hy
      cases hy
  | ok x =>
    obtain ⟨s, rows⟩ := x
    have heval := h.evaluated
    have hfit := h.fits _ hx
    rw [hx] at heval
    constructor
    · rw [hpush, houter, houter, hx, heval, hkept]
      simp only [Except.map, Except.ok_bind, trimmed, hop _ s rows hfit]
      cases op s rows <;> rfl
    · intro y hy
      rw [houter, hx, Except.ok_bind] at hy
      obtain ⟨out, hout, hy⟩ := Except.bind_eq_ok.mp hy
      cases hy
      rw [hkept]
      exact (hfit.of_mem (hmem s rows out hout)).mono hsub

theorem Trims.filter {predicate : Expression} (h : Trims db plan (addColumns [predicate] needed)) :
    Trims db (.filter predicate plan) needed := by
  refine Trims.over (fun s rows => keepRows (passes predicate · s) rows) h (fun p => rfl) rfl rfl
    mem_addColumns_of_needed ?_ fun s rows out hout row => mem_keepRows hout
  exact fun m s rows hfit => keepRows_map fun row hrow =>
    hfit.passes_trim (mem_addColumns_of_columns List.mem_cons_self) hrow

theorem Trims.sort {orderBy : List OrderByItem}
    (h : Trims db plan (addColumns (orderBy.map (·.expression)) needed)) :
    Trims db (.sort orderBy plan) needed := by
  refine Trims.over (fun s rows => sortRows (sortLess orderBy s) rows) h (fun p => rfl) rfl rfl
    mem_addColumns_of_needed ?_ fun s rows out hout row => mem_sortRows hout
  exact fun m s rows hfit => sortRows_map fun a ha b hb => hfit.sortLess_trim
    (fun item hitem => mem_addColumns_of_columns (List.mem_map_of_mem hitem)) ha hb

theorem Trims.limit {count : Nat} (h : Trims db plan needed) :
    Trims db (.limit count plan) needed := by
  refine Trims.over (fun _ rows => .ok (rows.take count)) h (fun p => rfl) rfl rfl
    (fun _ hc => hc) ?_ ?_
  · exact fun m s rows _ => congrArg Except.ok List.map_take.symm
  · intro s rows out hout row hrow
    cases hout
    exact List.mem_of_mem_take hrow

theorem Trims.join {joinType : JoinType} {condition : Expression} {left right : LogicalPlan}
    (hl : Trims db left (addColumns [condition] needed))
    (hr : Trims db right (addColumns [condition] needed)) :
    Trims db (.join joinType condition left right) needed := by
  have hcond : ∀ t c, (t, c) ∈ condition.columns → c ∈ addColumns [condition] needed :=
    mem_addColumns_of_columns (List.mem_singleton_self condition)
  have hevall := hl.evaluated
  have hevalr := hr.evaluated
  cases hx : left.evaluated db with
  | error e =>
    rw [hx] at hevall
    constructor
    · simp only [pushProjections, LogicalPlan.evaluated, hevall, hx]
      rfl
    · intro z hz
      simp [LogicalPlan.evaluated, hx] at hz
  | ok x =>
    rw [hx] at hevall
    cases hy : right.evaluated db with
    | error e =>
      rw [hy] at hevalr
      constructor
      · simp only [pushProjections, LogicalPlan.evaluated, hevall, hevalr, hx, hy]
        rfl
      · intro z hz
        simp [LogicalPlan.evaluated, hx, hy] at hz
    | ok y =>
      rw [hy] at hevalr
      obtain ⟨ls, l⟩ := x
      obtain ⟨rs, r⟩ := y
      have hfitl := hl.fits _ hx
      have hfitr := hr.fits _ hy
      constructor
      · simp only [pushProjections, LogicalPlan.evaluated, hevall, hevalr, hx, hy,
          LogicalPlan.keptColumns, Except.map, Except.ok_bind, trimmed,
          evaluateJoin_trim hfitl hfitr hcond]
        cases evaluateJoin joinType condition ls rs l r with
        | error e => rfl
        | ok out =>
          exact congrArg (fun s => Except.ok (s, _)) (RowSchema.extend_trim rs _ hfitl.length)
      · intro z hz
        simp only [LogicalPlan.evaluated, hx, hy, Except.ok_bind] at hz
        obtain ⟨out, hout, hz⟩ := Except.bind_eq_ok.mp hz
        cases hz
        exact (hfitl.join hfitr fun row => width_evaluateJoin hfitl.width hfitr.width hout).mono
          mem_addColumns_of_needed

variable (db) in
theorem trims_of_readsAll (h : plan.readsAll = true) (needed : List String) :
    Trims db plan needed := by
  induction plan generalizing needed with
  | scan tableName aliasName projectedColumns =>
    rw [List.isEmpty_iff.mp h]
    exact trims_scan tableName aliasName needed
  | filter predicate input ih => exact (ih h _).filter
  | join joinType condition left right ihl ihr =>
    obtain ⟨hl, hr⟩ := Bool.and_eq_true_iff.mp h
    exact (ihl hl _).join (ihr hr _)
  | sort orderBy input ih => exact (ih h _).sort
  | limit count input ih => exact (ih h _).limit
  | aggregate | project => cases h

/-- Above an `Aggregate` or a `Project` nothing of the scans is seen. -/
theorem evaluated_of_choosesColumns (h : plan.choosesColumns = true) (needed : List String) :
    (pushProjections plan needed).evaluated db = plan.evaluated db := by
  induction plan generalizing needed with
  | scan | join => cases h
  | filter predicate input ih => simp only [pushProjections, LogicalPlan.evaluated, ih h]
  | sort orderBy input ih => simp only [pushProjections, LogicalPlan.evaluated, ih h]
  | limit count input ih => simp only [pushProjections, LogicalPlan.evaluated, ih h]
  | aggregate groupBy aggregates input ih =>
    rcases Bool.or_eq_true_iff.mp h with hopen | hchosen
    · have htrims := trims_of_readsAll db hopen
        (addColumns (groupBy ++ aggregates.map (·.arg)) needed)
      simp only [pushProjections, LogicalPlan.evaluated, htrims.evaluated]
      cases hx : input.evaluated db with
      | error e => rfl
      | ok x =>
        have hrows := (htrims.fits x hx).hashAggregateRows_trim fun e he =>
          mem_addColumns_of_columns he
        simp only [Except.map, Except.ok_bind, trimmed, hrows]
    · simp only [pushProjections, LogicalPlan.evaluated, ih hchosen]
  | project expressions input ih =>
    rcases Bool.or_eq_true_iff.mp h with hopen | hchosen
    · have htrims := trims_of_readsAll db hopen
        (addColumns (expressions.map (·.1)) needed)
      simp only [pushProjections, LogicalPlan.evaluated, htrims.evaluated]
      cases hx : input.evaluated db with
      | error e => rfl
      | ok x =>
        have hrows : ∀ row ∈ x.2, (expressions.mapM fun p => evaluate p.1 (select _ row)
            (x.1.trim _)) = expressions.mapM fun p => evaluate p.1 row x.1 := fun row hrow =>
          Except.mapM_congr fun p hp => (htrims.fits x hx).evaluate_trim
            (mem_addColumns_of_columns (List.mem_map_of_mem hp)) hrow
        simp only [Except.map, Except.ok_bind, trimmed, List.mapM_map, Function.comp_def,
          Except.mapM_congr hrows]
    · simp only [pushProjections, LogicalPlan.evaluated, ih hchosen]

/-- A plan that chooses no columns keeps its rows exactly when its scans leave nothing out. -/
theorem evaluated_iff_of_readsAll (h : plan.readsAll = true) (needed : List String) :
    (pushProjections plan needed).evaluated db = plan.evaluated db ↔
      (∃ e, plan.evaluated db = .error e) ∨ ∀ b ∈ plan.keptColumns db needed, b = true := by
  have htrims := trims_of_readsAll db h needed
  rw [htrims.evaluated]
  cases hx : plan.evaluated db with
  | error e => exact iff_of_true rfl (.inl ⟨e, rfl⟩)
  | ok x =>
    obtain ⟨s, rows⟩ := x
    have hfit := htrims.fits _ hx
    have hm := hfit.length
    rw [or_iff_right (by simp), ← select_eq_self hm]
    constructor
    · intro heq
      exact congrArg (fun x => x.1.entries) (Except.ok.inj heq)
    · intro heq
      have hall := (select_eq_self hm).mp heq
      have hrows : rows.map (select (plan.keptColumns db needed)) = rows := by
        refine (List.map_congr_left fun row hrow => ?_).trans (List.map_id rows)
        exact (select_eq_self (hm.trans (hfit.width row hrow).symm)).mpr hall
      simp only [Except.map, trimmed, RowSchema.trim, heq, hrows]

end

/-! ### Statements -/

/-- Scans of the table that were told to return the columns named in `es` return all of it. -/
def ReadsWhole (db : Database) (es : List Expression) (ref : TableRef) : Prop :=
  ∀ table, db.get ref.tableName = some table →
    (∀ e ∈ es, e.columns = []) ∨
      ∀ c ∈ table.columnNames, ∃ e ∈ es, ∃ t, (t, c) ∈ e.columns

theorem ReadsWhole.congr {db : Database} {es es' : List Expression} {ref : TableRef}
    (h : ∀ e, e ∈ es ↔ e ∈ es') : ReadsWhole db es ref ↔ ReadsWhole db es' ref := by
  simp only [ReadsWhole, h]

theorem addColumns_append (es es' : List Expression) (needed : List String) :
    addColumns (es ++ es') needed = addColumns es' (addColumns es needed) := by
  simp only [addColumns, List.flatMap_append, List.foldl_append]

theorem readsWhole_iff (db : Database) (es : List Expression) (ref : TableRef) :
    ReadsWhole db es ref ↔
      ∀ b ∈ (LogicalPlan.scan ref.tableName ref.aliasName []).keptColumns db (addColumns es []),
        b = true := by
  have hnil : (∀ e ∈ es, e.columns = []) ↔ addColumns es [] = [] := by
    rw [List.eq_nil_iff_forall_not_mem]
    simp only [mem_addColumns, List.not_mem_nil, false_or]
    constructor
    · rintro h c ⟨e, he, t, htc⟩
      rw [h e he] at htc
      cases htc
    · intro h e he
      rw [List.eq_nil_iff_forall_not_mem]
      exact fun tc htc => h tc.2 ⟨e, he, tc.1, htc⟩
  unfold ReadsWhole
  simp only [LogicalPlan.keptColumns]
  cases db.get ref.tableName with
  | none => simp
  | some table =>
    rw [hnil]
    simp only [scanMask, List.forall_mem_map, Bool.or_eq_true, List.isEmpty_iff, decide_eq_true_eq,
      mem_addColumns, List.not_mem_nil, false_or, Option.some.injEq, forall_eq']
    by_cases hempty : addColumns es [] = []
    · simp [hempty]
    · simp only [hempty, false_or]

namespace SelectStatement

/-- The expressions that WHERE, HAVING and ORDER BY read above the joins. -/
def clauses (stmt : SelectStatement) : List Expression :=
  stmt.orderBy.map (·.expression) ++ stmt.having.toList ++ stmt.whereClause.toList

/-- FROM and the joins. -/
def joined (stmt : SelectStatement) : LogicalPlan :=
  stmt.joins.foldl (fun plan join => .join join.joinType join.condition plan
    (.scan join.table.tableName join.table.aliasName []))
    (.scan stmt.fromTable.tableName stmt.fromTable.aliasName [])

/-- Every scan returns all of its table: the clauses above it and the conditions of its join and of
the joins after it name none of the columns of any table, or all of those of this one. -/
structure ReadsTables (stmt : SelectStatement) (db : Database) : Prop where
  fromTable : ReadsWhole db (stmt.clauses ++ stmt.joins.map (·.condition)) stmt.fromTable
  joins : ∀ join after, join :: after <:+ stmt.joins →
    ReadsWhole db (stmt.clauses ++ (join :: after).map (·.condition)) join.table

theorem keptColumns_joins (db : Database) (es : List Expression) (joins : List Join)
    (plan : LogicalPlan) :
    (∀ b ∈ (joins.foldl (fun plan join => LogicalPlan.join join.joinType join.condition plan
        (.scan join.table.tableName join.table.aliasName [])) plan).keptColumns db
          (addColumns es []), b = true) ↔
      (∀ b ∈ plan.keptColumns db (addColumns (es ++ (joins.map (·.condition)).reverse) []),
        b = true) ∧
      ∀ join after, join :: after <:+ joins →
        ReadsWhole db (es ++ (join :: after).map (·.condition)) join.table := by
  induction joins generalizing plan with
  | nil => simp
  | cons join joins ih =>
    have hneeded : addColumns [join.condition] (addColumns (es ++
        (joins.map (·.condition)).reverse) []) =
        addColumns (es ++ ((join :: joins).map (·.condition)).reverse) [] := by
      rw [← addColumns_append]
      simp
    have hscan := readsWhole_iff db (es ++ ((join :: joins).map (·.condition)).reverse) join.table
    have hmem : ∀ e, e ∈ es ++ ((join :: joins).map (·.condition)).reverse ↔
        e ∈ es ++ (join :: joins).map (·.condition) := fun e => by
      rw [List.mem_append, List.mem_append, List.mem_reverse]
    rw [List.foldl_cons, ih, LogicalPlan.keptColumns, hneeded, List.forall_mem_append, ← hscan,
      ReadsWhole.congr hmem, and_assoc]
    refine and_congr_right fun _ => ⟨?_, ?_⟩
    · rintro ⟨hfirst, hrest⟩ j after hsuffix
      rcases List.suffix_cons_iff.mp hsuffix with heq | hsuffix
      · cases heq
        exact hfirst
      · exact hrest j after hsuffix
    · intro hall
      exact ⟨hall join joins (List.suffix_refl _), fun j after h =>
        hall j after (List.suffix_cons_iff.mpr (.inr h))⟩

theorem keptColumns_limited {stmt : SelectStatement} (db : Database)
    (h : stmt.isGrouped = false) :
    stmt.limited.keptColumns db [] = stmt.joined.keptColumns db (addColumns stmt.clauses []) := by
  have hlimited : stmt.limited.keptColumns db [] = stmt.sorted.keptColumns db [] := by
    unfold limited
    split <;> rfl
  have hsorted : stmt.sorted.keptColumns db [] =
      stmt.selected.keptColumns db (addColumns (stmt.orderBy.map (·.expression)) []) := by
    unfold sorted
    split
    · rfl
    · rename_i hempty
      simp only [Bool.not_eq_true, Bool.not_eq_false', List.isEmpty_iff] at hempty
      rw [hempty]
      rfl
  have hselected : ∀ needed, stmt.selected.keptColumns db needed =
      stmt.fromWhere.keptColumns db (addColumns stmt.having.toList needed) := by
    intro needed
    simp only [selected, h, Bool.false_eq_true, if_false]
    cases stmt.having <;> rfl
  have hfromWhere : ∀ needed, stmt.fromWhere.keptColumns db needed =
      stmt.joined.keptColumns db (addColumns stmt.whereClause.toList needed) := by
    intro needed
    unfold fromWhere
    cases stmt.whereClause <;> rfl
  rw [hlimited, hsorted, hselected, hfromWhere, ← addColumns_append, ← addColumns_append, clauses,
    List.append_assoc]

theorem readsTables_iff {stmt : SelectStatement} (db : Database) (h : stmt.isGrouped = false) :
    stmt.ReadsTables db ↔ ∀ b ∈ stmt.limited.keptColumns db [], b = true := by
  have hmem : ∀ e, e ∈ stmt.clauses ++ (stmt.joins.map (·.condition)).reverse ↔
      e ∈ stmt.clauses ++ stmt.joins.map (·.condition) := fun e => by simp
  rw [keptColumns_limited db h, joined, keptColumns_joins, ← readsWhole_iff, ReadsWhole.congr hmem]
  exact ⟨fun h => ⟨h.fromTable, h.joins⟩, fun h => ⟨h.1, h.2⟩⟩

theorem readsAll_fromWhere (stmt : SelectStatement) : stmt.fromWhere.readsAll = true := by
  have hjoins : ∀ (joins : List Join) (plan : LogicalPlan), plan.readsAll = true →
      (joins.foldl (fun plan join => LogicalPlan.join join.joinType join.condition plan
        (.scan join.table.tableName join.table.aliasName [])) plan).readsAll = true := by
    intro joins
    induction joins with
    | nil => exact fun _ h => h
    | cons join joins ih => exact fun plan h => ih _ (by simp [LogicalPlan.readsAll, h])
  have hjoined := hjoins stmt.joins
    (.scan stmt.fromTable.tableName stmt.fromTable.aliasName []) rfl
  unfold fromWhere
  cases stmt.whereClause with
  | none => exact hjoined
  | some p => exact hjoined

theorem readsAll_limited {stmt : SelectStatement} (h : stmt.isGrouped = false) :
    stmt.limited.readsAll = true := by
  have hselected : stmt.selected.readsAll = true := by
    simp only [selected, h, Bool.false_eq_true, if_false]
    cases stmt.having with
    | none => exact stmt.readsAll_fromWhere
    | some p => exact stmt.readsAll_fromWhere
  have hsorted : stmt.sorted.readsAll = true := by
    unfold sorted
    split <;> exact hselected
  unfold limited
  split <;> exact hsorted

theorem choosesColumns_limited {stmt : SelectStatement} (h : stmt.isGrouped = true) :
    stmt.limited.choosesColumns = true := by
  have haggregate : (LogicalPlan.aggregate stmt.groupBy stmt.aggregates
      stmt.fromWhere).choosesColumns = true :=
    Bool.or_eq_true_iff.mpr (.inl stmt.readsAll_fromWhere)
  have hselected : stmt.selected.choosesColumns = true := by
    simp only [selected, h, if_true]
    cases stmt.having with
    | none => exact haggregate
    | some p => exact haggregate
  have hsorted : stmt.sorted.choosesColumns = true := by
    unfold sorted
    split <;> exact hselected
  unfold limited
  split <;> exact hsorted

/-- The plan of a statement ends in a `Project` or has an `Aggregate` exactly when the SELECT list
names something or there is a GROUP BY. -/
theorem isProjected_or_isGrouped (stmt : SelectStatement) :
    stmt.isProjected = true ∨ stmt.isGrouped = true ↔
      (∃ item ∈ stmt.columns, item.isWildcard = false) ∨ stmt.groupBy ≠ [] := by
  have hnamed : stmt.columns.all SelectItem.isWildcard = false ↔
      ∃ item ∈ stmt.columns, item.isWildcard = false := by
    rw [List.all_eq_false]
    simp
  have haggregates : stmt.aggregates ≠ [] → ∃ item ∈ stmt.columns, item.isWildcard = false := by
    intro hne
    obtain ⟨agg, hagg⟩ := List.exists_mem_of_ne_nil _ hne
    obtain ⟨item, hitem, h⟩ := List.mem_filterMap.mp hagg
    refine ⟨item, hitem, ?_⟩
    cases item with
    | expression e a => rfl
    | wildcard | qualifiedWildcard => cases h
  rw [← hnamed] at haggregates ⊢
  simp only [isProjected, isGrouped, Bool.and_eq_true, Bool.not_eq_true', Bool.or_eq_true,
    List.isEmpty_iff, List.isEmpty_eq_false_iff]
  by_cases hne : stmt.aggregates = []
  · simp [hne]
  · simp [hne, haggregates hne]

end SelectStatement

/-- The plan of a statement chooses its columns when the SELECT list or GROUP BY names them. -/
theorem planStatement_columns (stmt : SelectStatement) :
    (((∃ item ∈ stmt.columns, item.isWildcard = false) ∨ stmt.groupBy ≠ []) ∧
        (planStatement stmt).choosesColumns = true) ∨
      (¬((∃ item ∈ stmt.columns, item.isWildcard = false) ∨ stmt.groupBy ≠ []) ∧
        stmt.isGrouped = false ∧ planStatement stmt = stmt.limited ∧
          stmt.limited.readsAll = true) := by
  rw [← stmt.isProjected_or_isGrouped, SelectStatement.planStatement_eq]
  cases hgrouped : stmt.isGrouped with
  | true =>
    have hlimited := SelectStatement.choosesColumns_limited hgrouped
    refine .inl ⟨.inr rfl, ?_⟩
    split
    · exact Bool.or_eq_true_iff.mpr (.inr hlimited)
    · exact hlimited
  | false =>
    have hlimited := SelectStatement.readsAll_limited hgrouped
    cases hprojected : stmt.isProjected with
    | true => exact .inl ⟨.inl rfl, Bool.or_eq_true_iff.mpr (.inl hlimited)⟩
    | false => exact .inr ⟨by simp, rfl, rfl, hlimited⟩

section

variable [Rounding]

/-- Projection pushdown neither adds an error nor hides one. -/
theorem pushProjections_error_iff (stmt : SelectStatement) (db : Database) (e : String) :
    (pushProjections (planStatement stmt) []).evaluated db = .error e ↔
      (planStatement stmt).evaluated db = .error e := by
  obtain ⟨-, hchooses⟩ | ⟨-, -, hplan, hreads⟩ := planStatement_columns stmt
  · rw [evaluated_of_choosesColumns hchooses]
  · rw [hplan, (trims_of_readsAll db hreads []).evaluated]
    cases stmt.limited.evaluated db <;> simp [Except.map]

/-- Projection pushdown keeps the rows and the columns of a statement exactly when the statement
names columns of its own, or every scan still returns all of its table, or the statement fails. -/
theorem pushProjections_keeps_iff (stmt : SelectStatement) (db : Database) :
    (pushProjections (planStatement stmt) []).evaluated db = (planStatement stmt).evaluated db ↔
      (∃ e, (planStatement stmt).evaluated db = .error e) ∨
        (∃ item ∈ stmt.columns, item.isWildcard = false) ∨ stmt.groupBy ≠ [] ∨
          stmt.ReadsTables db := by
  rw [← or_assoc (a := ∃ item ∈ stmt.columns, item.isWildcard = false)]
  obtain ⟨hnamed, hchooses⟩ | ⟨hnamed, hgrouped, hplan, hreads⟩ := planStatement_columns stmt
  · exact iff_of_true (evaluated_of_choosesColumns hchooses []) (.inr (.inl hnamed))
  · rw [or_iff_right hnamed, hplan, evaluated_iff_of_readsAll hreads,
      SelectStatement.readsTables_iff db hgrouped]

end

/-- `SELECT * FROM t WHERE a = 1` over a table with columns `a` and `b`. -/
def allWhereOne : SelectStatement where
  columns := [.wildcard]
  fromTable := ⟨"t", none⟩
  joins := []
  whereClause := some (.binaryOp (.column none "a") .eq (.literal (.integer 1)))
  groupBy := []
  having := none
  orderBy := []
  limit := none

def twoColumns : Database :=
  AList.insert "t" ⟨["a", "b"], [[.integer 1, .integer 2]], by decide⟩ ∅

/-- The condition makes the scan drop the other column of `SELECT *`. -/
theorem pushProjections_drops_column :
    @LogicalPlan.evaluated .exact twoColumns (planStatement allWhereOne) =
      .ok (scanSchema "t" ["a", "b"], [[.integer 1, .integer 2]]) ∧
    @LogicalPlan.evaluated .exact twoColumns (pushProjections (planStatement allWhereOne) []) =
      .ok (scanSchema "t" ["a"], [[.integer 1]]) ∧
    @LogicalPlan.evaluated .exact twoColumns (pushProjections (planStatement allWhereOne) []) ≠
      @LogicalPlan.evaluated .exact twoColumns (planStatement allWhereOne) := by
  have hfull : @LogicalPlan.evaluated .exact twoColumns (planStatement allWhereOne) =
      .ok (scanSchema "t" ["a", "b"], [[.integer 1, .integer 2]]) := rfl
  have hpushed : @LogicalPlan.evaluated .exact twoColumns
      (pushProjections (planStatement allWhereOne) []) =
      .ok (scanSchema "t" ["a"], [[.integer 1]]) := rfl
  refine ⟨hfull, hpushed, ?_⟩
  rw [hfull, hpushed]
  simp

end SqlOptimizer
