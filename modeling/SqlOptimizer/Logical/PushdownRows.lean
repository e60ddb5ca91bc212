import SqlOptimizer.Execution.SqlEvaluation
import SqlOptimizer.Logical.Pushdown

/-! Predicate pushdown against the rows of a plan.  A conjunct that moves below an outer join is
tested before the join pads its rows. -/

namespace SqlOptimizer

variable [Rounding]

/-! ### The rows of a logical plan -/

/-- The schema and the rows of a plan under the joins of SQL.  WHERE keeps the rows on which its
predicate is true. -/
def LogicalPlan.answer (db : Database) : LogicalPlan → Except String (RowSchema × List Row)
  | .scan tableName aliasName _ => do
    let table ← loadedTable db tableName
    return (scanSchema (aliasName.getD tableName) table.columnNames, table.rows)
  | .filter predicate input => do
    let (schema, rows) ← input.answer db
    return (schema, rows.filter fun row => sqlHolds predicate row schema)
  | .join joinType condition left right => do
    let (ls, l) ← left.answer db
    let (rs, r) ← right.answer db
    return (ls.extend rs, standardJoin joinType condition ls rs l r)
  | .aggregate groupBy aggregates input => do
    let (schema, rows) ← input.answer db
    return (aggregateSchema groupBy aggregates, ← hashAggregateRows groupBy aggregates schema rows)
  | .project expressions input => do
    let (schema, rows) ← input.answer db
    return (projectSchema expressions,
      ← rows.mapM fun row => expressions.mapM fun p => evaluate p.1 row schema)
  | .sort orderBy input => do
    let (schema, rows) ← input.answer db
    return (schema, ← sortRows (sortLess orderBy schema) rows)
  | .limit count input => do
    let (schema, rows) ← input.answer db
    return (schema, rows.take count)

/-- Every one of `es` is true in the row. -/
def allHold (es : List Expression) (row : Row) (s : RowSchema) : Bool := es.all (sqlHolds · row s)

omit [Rounding] in
/-- What a conjunction is, its parts are. -/
theorem eq_all_splitAnd {p : Expression → Bool}
    (hand : ∀ a b, p (.binaryOp a .and b) = (p a && p b)) (e : Expression) :
    p e = (splitAnd e).all p := by
  fun_induction splitAnd e with
  | case1 l r ihl ihr => rw [hand, ihl, ihr, List.all_append]
  | case2 e => simp

theorem sqlHolds_eq_allHold (e : Expression) (row : Row) (s : RowSchema) :
    sqlHolds e row s = allHold (splitAnd e) row s :=
  eq_all_splitAnd (p := fun e => sqlHolds e row s) (fun a b => sqlHolds_and a b row s) e

theorem allHold_perm {es es' : List Expression} (h : es.Perm es') (row : Row) (s : RowSchema) :
    allHold es row s = allHold es' row s := by
  simp only [allHold, h.all_eq]

theorem allHold_append (es es' : List Expression) (row : Row) (s : RowSchema) :
    allHold (es ++ es') row s = (allHold es row s && allHold es' row s) := List.all_append

theorem allHold_congr {es : List Expression} {row row' : Row} {s s' : RowSchema}
    (h : ∀ e ∈ es, sqlHolds e row s = sqlHolds e row' s') : allHold es row s = allHold es row' s' := by
  rw [Bool.eq_iff_iff, allHold, allHold, List.all_eq_true, List.all_eq_true]
  exact forall₂_congr fun e he => by rw [h e he]

theorem answer_filter (db : Database) (predicate : Expression) (input : LogicalPlan) :
    (LogicalPlan.filter predicate input).answer db = (input.answer db).map fun x =>
      (x.1, x.2.filter fun row => sqlHolds predicate row x.1) := by
  rw [LogicalPlan.answer]
  cases input.answer db <;> rfl

theorem answer_wrapFilters (db : Database) (plan : LogicalPlan) (fs : List Expression) :
    (wrapFilters plan fs).answer db = (plan.answer db).map fun x =>
      (x.1, x.2.filter fun row => allHold fs row x.1) := by
  induction fs generalizing plan with
  | nil =>
    cases h : plan.answer db with
    | error e => simpa [wrapFilters, Except.map] using h
    | ok x => simpa [wrapFilters, allHold, Except.map] using h
  | cons f fs ih =>
    rw [wrapFilters_cons, ih, answer_filter]
    cases plan.answer db with
    | error e => rfl
    | ok x =>
      simp only [Except.map, List.filter_filter, allHold, List.all_cons, Bool.and_comm]

theorem answer_join {db : Database} {joinType : JoinType} {condition : Expression}
    {left right : LogicalPlan} {ls rs : RowSchema} {l r : List Row}
    (hl : left.answer db = .ok (ls, l)) (hr : right.answer db = .ok (rs, r)) :
    (LogicalPlan.join joinType condition left right).answer db =
      .ok (ls.extend rs, standardJoin joinType condition ls rs l r) := by
  simp [LogicalPlan.answer, hl, hr]

/-! ### One filter over one join -/

/-- A conjunct that moves to a side is as true on a row of that side as on the joined row, padded
rows included. -/
def sidesAgree (parts : List Expression × List Expression × List Expression) (ls rs : RowSchema)
    (l r : List Row) : Prop :=
  ∀ a ∈ nullRow ls.size :: l, ∀ b ∈ nullRow rs.size :: r,
    (∀ e ∈ parts.1, sqlHolds e (a ++ b) (ls.extend rs) = sqlHolds e a ls) ∧
      ∀ e ∈ parts.2.1, sqlHolds e (a ++ b) (ls.extend rs) = sqlHolds e b rs

/-- The rows that an outer join pads are those that it would pad below the filter: a preserved row
that passes its own conjuncts has a match that passes those of the other side, or has no match and
NULLs pass them. -/
def paddingKept (joinType : JoinType) (condition : Expression)
    (parts : List Expression × List Expression × List Expression) (ls rs : RowSchema)
    (l r : List Row) : Prop :=
  match joinType with
  | .inner | .cross => True
  | .left => Pairs.padsKept (· ++ nullRow rs.size)
      (fun a b => sqlHolds condition (a ++ b) (ls.extend rs)) (allHold parts.1 · ls)
      (allHold parts.2.1 · rs) (allHold parts.2.1 (nullRow rs.size) rs)
      (allHold parts.2.2 · (ls.extend rs)) l r
  | .right => Pairs.padsKept (nullRow ls.size ++ ·)
      (fun b a => sqlHolds condition (a ++ b) (ls.extend rs)) (allHold parts.2.1 · rs)
      (allHold parts.1 · ls) (allHold parts.1 (nullRow ls.size) ls)
      (allHold parts.2.2 · (ls.extend rs)) r l

section Step

variable {predicate : Expression} {joinType : JoinType} {condition : Expression}
  {parts : List Expression × List Expression × List Expression} {ls rs : RowSchema}
  {l r : List Row}

theorem sidesAgree.sqlHolds_split (h : sidesAgree parts ls rs l r)
    (hparts : (parts.1 ++ (parts.2.1 ++ parts.2.2)).Perm (splitAnd predicate)) {a b : Row}
    (ha : a ∈ nullRow ls.size :: l) (hb : b ∈ nullRow rs.size :: r) :
    sqlHolds predicate (a ++ b) (ls.extend rs) = (allHold parts.1 a ls && allHold parts.2.1 b rs &&
      allHold parts.2.2 (a ++ b) (ls.extend rs)) := by
  rw [sqlHolds_eq_allHold, ← allHold_perm hparts, allHold_append, allHold_append, Bool.and_assoc]
  obtain ⟨hl, hr⟩ := h a ha b hb
  rw [allHold_congr hl, allHold_congr hr]

/-- The rows of a filter over a join, and those of the join with the conjuncts moved below it. -/
def rowsAbove (predicate : Expression) (joinType : JoinType) (condition : Expression)
    (ls rs : RowSchema) (l r : List Row) : List Row :=
  (standardJoin joinType condition ls rs l r).filter fun row => sqlHolds predicate row (ls.extend rs)

def rowsBelow (parts : List Expression × List Expression × List Expression) (joinType : JoinType)
    (condition : Expression) (ls rs : RowSchema) (l r : List Row) : List Row :=
  (standardJoin joinType condition ls rs (l.filter fun a => allHold parts.1 a ls)
    (r.filter fun b => allHold parts.2.1 b rs)).filter fun row =>
      allHold parts.2.2 row (ls.extend rs)

theorem rowsAbove_rowsBelow (h : sidesAgree parts ls rs l r)
    (hparts : (parts.1 ++ (parts.2.1 ++ parts.2.2)).Perm (splitAnd predicate)) :
    (paddingKept joinType condition parts ls rs l r →
      rowsAbove predicate joinType condition ls rs l r =
        rowsBelow parts joinType condition ls rs l r) ∧
      ((rowsAbove predicate joinType condition ls rs l r).Perm
          (rowsBelow parts joinType condition ls rs l r) ↔
        paddingKept joinType condition parts ls rs l r) := by
  have hpair : ∀ a ∈ l, ∀ b ∈ r, sqlHolds predicate (a ++ b) (ls.extend rs) =
      (allHold parts.1 a ls && allHold parts.2.1 b rs &&
        allHold parts.2.2 (a ++ b) (ls.extend rs)) := fun a ha b hb =>
    h.sqlHolds_split hparts (by simp [ha]) (by simp [hb])
  -- an inner join pads nothing
  have hinner : (Pairs.joinBy (· ++ ·) (fun a b => sqlHolds condition (a ++ b) (ls.extend rs)) l
        r).filter (fun row => sqlHolds predicate row (ls.extend rs)) =
      (Pairs.joinBy (· ++ ·) (fun a b => sqlHolds condition (a ++ b) (ls.extend rs))
        (l.filter fun a => allHold parts.1 a ls) (r.filter fun b => allHold parts.2.1 b rs)).filter
          fun row => allHold parts.2.2 row (ls.extend rs) :=
    Pairs.filter_joinBy_push hpair
  cases joinType with
  | inner => exact ⟨fun _ => hinner, iff_of_true (List.Perm.of_eq hinner) trivial⟩
  | cross => exact ⟨fun _ => hinner, iff_of_true (List.Perm.of_eq hinner) trivial⟩
  | left =>
    simp only [rowsAbove, rowsBelow, standardJoin, paddingKept]
    refine Pairs.filter_leftOuter_push ?_ ?_
    · exact hpair
    · exact fun a ha => h.sqlHolds_split hparts (by simp [ha]) (by simp)
  | right =>
    simp only [rowsAbove, rowsBelow, standardJoin, paddingKept]
    refine Pairs.filter_rightOuter_push ?_ ?_
    · exact hpair
    · intro b hb
      rw [h.sqlHolds_split hparts (by simp) (by simp [hb]), Bool.and_comm (allHold parts.1 _ ls)]

end Step

/-! ### Whole plans -/

theorem answer_pushIntoJoin {db : Database} (predicate : Expression) (joinType : JoinType)
    (condition : Expression) {left right : LogicalPlan} {ls rs : RowSchema} {l r : List Row}
    (hl : left.answer db = .ok (ls, l)) (hr : right.answer db = .ok (rs, r)) :
    (pushIntoJoin predicate joinType condition left right).answer db =
      .ok (ls.extend rs, rowsBelow (movedParts predicate left right) joinType condition ls rs l r) := by
  have hl' := answer_wrapFilters db left (movedParts predicate left right).1
  have hr' := answer_wrapFilters db right (movedParts predicate left right).2.1
  rw [hl] at hl'
  rw [hr] at hr'
  simp only [pushIntoJoin]
  rw [answer_wrapFilters, answer_join hl' hr']
  rfl

theorem answer_filter_join {db : Database} (predicate : Expression) (joinType : JoinType)
    (condition : Expression) {left right : LogicalPlan} {ls rs : RowSchema} {l r : List Row}
    (hl : left.answer db = .ok (ls, l)) (hr : right.answer db = .ok (rs, r)) :
    (LogicalPlan.filter predicate (.join joinType condition left right)).answer db =
      .ok (ls.extend rs, rowsAbove predicate joinType condition ls rs l r) := by
  rw [answer_filter, answer_join hl hr]
  rfl

/-- At each filter that meets a join, the conjuncts that move below it may be tested there. -/
def pushesAgree (db : Database) : LogicalPlan → Prop
  | .filter predicate input => pushesAgree db input ∧
      ∀ joinType condition left right, pushPredicates input = .join joinType condition left right →
        ∀ ls l rs r, left.answer db = .ok (ls, l) → right.answer db = .ok (rs, r) →
          sidesAgree (movedParts predicate left right) ls rs l r ∧
            paddingKept joinType condition (movedParts predicate left right) ls rs l r
  | .join _ _ left right => pushesAgree db left ∧ pushesAgree db right
  | .aggregate _ _ input | .project _ input | .sort _ input | .limit _ input =>
    pushesAgree db input
  | .scan _ _ _ => True

/-- A join whose input fails fails with or without filters on its inputs. -/
theorem answer_pushIntoJoin_error {db : Database} (predicate : Expression) (joinType : JoinType)
    (condition : Expression) {left right : LogicalPlan} {e : String}
    (h : (LogicalPlan.join joinType condition left right).answer db = .error e) :
    (pushIntoJoin predicate joinType condition left right).answer db = .error e := by
  have hjoin : (LogicalPlan.join joinType condition
      (wrapFilters left (movedParts predicate left right).1)
      (wrapFilters right (movedParts predicate left right).2.1)).answer db = .error e := by
    simp only [LogicalPlan.answer, answer_wrapFilters] at h ⊢
    cases hl : left.answer db with
    | error e' => simpa [hl, Except.map] using h
    | ok x =>
      cases hr : right.answer db with
      | error e' => simpa [hl, hr, Except.map] using h
      | ok y => simp [hl, hr] at h
  simp only [pushIntoJoin]
  rw [answer_wrapFilters]
  exact congrArg (Except.map _) hjoin

theorem answer_pushPredicates {db : Database} {plan : LogicalPlan} (h : pushesAgree db plan) :
    (pushPredicates plan).answer db = plan.answer db := by
  induction plan with
  | filter predicate input ih =>
    have hinput := ih h.1
    obtain ⟨joinType, condition, left, right, hjoin, heq⟩ | heq :=
      pushPredicates_filter predicate input
    · rw [hjoin] at hinput
      rw [heq, answer_filter, ← hinput, ← answer_filter]
      cases hl : left.answer db with
      | error e =>
        have herr : (LogicalPlan.join joinType condition left right).answer db = .error e := by
          simp [LogicalPlan.answer, hl]
        rw [answer_pushIntoJoin_error predicate _ _ herr, answer_filter, herr]
        rfl
      | ok x =>
        cases hr : right.answer db with
        | error e =>
          have herr : (LogicalPlan.join joinType condition left right).answer db = .error e := by
            simp [LogicalPlan.answer, hl, hr]
          rw [answer_pushIntoJoin_error predicate _ _ herr, answer_filter, herr]
          rfl
        | ok y =>
          obtain ⟨hsides, hpad⟩ := h.2 joinType condition left right hjoin x.1 x.2 y.1 y.2 hl hr
          rw [answer_pushIntoJoin predicate joinType condition hl hr,
            answer_filter_join predicate joinType condition hl hr,
            (rowsAbove_rowsBelow hsides (classifyConjuncts_perm _ _ _)).1 hpad]
    · rw [heq, answer_filter, hinput, ← answer_filter]
  | join joinType condition left right ihl ihr =>
    simp only [pushPredicates, LogicalPlan.answer, ihl h.1, ihr h.2]
  | aggregate groupBy aggregates input ih =>
    simp only [pushPredicates, LogicalPlan.answer, ih h]
  | project expressions input ih => simp only [pushPredicates, LogicalPlan.answer, ih h]
  | sort orderBy input ih => simp only [pushPredicates, LogicalPlan.answer, ih h]
  | limit count input ih => simp only [pushPredicates, LogicalPlan.answer, ih h]
  | scan tableName aliasName projectedColumns => rfl

/-- A plan has the same rows after pushdown when the conjuncts that move may be tested where they
go.  For one filter over a join whose conjuncts have the same value on their side, it has the same
bag of rows exactly when the join pads the same rows. -/
theorem pushPredicates_keeps_rows (db : Database) (plan : LogicalPlan) :
    (pushesAgree db plan → (pushPredicates plan).answer db = plan.answer db) ∧
      ∀ predicate joinType condition left right,
        plan = .filter predicate (.join joinType condition left right) →
        pushesAgree db left → pushesAgree db right →
        ∀ ls l rs r, left.answer db = .ok (ls, l) → right.answer db = .ok (rs, r) →
        sidesAgree (movedParts predicate left right) ls rs l r →
        ∃ schema rows rows', plan.answer db = .ok (schema, rows) ∧
          (pushPredicates plan).answer db = .ok (schema, rows') ∧
          (rows.Perm rows' ↔
            paddingKept joinType condition (movedParts predicate left right) ls rs l r) := by
  refine ⟨answer_pushPredicates, ?_⟩
  rintro predicate joinType condition left right rfl hpl hpr ls l rs r hl hr hsides
  refine ⟨_, _, _, answer_filter_join predicate joinType condition hl hr, ?_,
    (rowsAbove_rowsBelow hsides (classifyConjuncts_perm _ _ _)).2⟩
  rw [← answer_pushPredicates hpl] at hl
  rw [← answer_pushPredicates hpr] at hr
  have hparts : movedParts predicate (pushPredicates left) (pushPredicates right) =
      movedParts predicate left right := by
    simp only [movedParts, scanAliases_pushPredicates]
  have hpushed := answer_pushIntoJoin predicate joinType condition hl hr
  rw [hparts] at hpushed
  exact hpushed

/-! ### Conjuncts that may move -/

theorem evaluate_function_of_no_aggregates {s s' : RowSchema} (hs : s.aggEntries = [])
    (hs' : s'.aggEntries = []) (name : String) (args : List Expression) (row row' : Row) :
    evaluate (.function name args) row s = evaluate (.function name args) row' s' := by
  simp [evaluate, RowSchema.resolveAggregate, hs, hs']

/-- A conjunct whose columns belong to the side that it moves to has the same value there. -/
theorem sidesAgree_of_resolve {parts : List Expression × List Expression × List Expression}
    {ls rs : RowSchema} {l r : List Row} (hw : ∀ a ∈ l, a.length = ls.size)
    (hls : ls.aggEntries = []) (hrs : rs.aggEntries = [])
    (hleft : ∀ e ∈ parts.1, ∀ t c, (t, c) ∈ e.columns →
      ∃ i, ls.resolve t c = some i ∧ (ls.extend rs).resolve t c = some i)
    (hright : ∀ e ∈ parts.2.1, ∀ t c, (t, c) ∈ e.columns →
      ∃ i, rs.resolve t c = some i ∧ (ls.extend rs).resolve t c = some (i + ls.size)) :
    sidesAgree parts ls rs l r := by
  intro a ha b hb
  have hlen : a.length = ls.size := by
    rcases List.mem_cons.mp ha with rfl | ha
    · simp [nullRow]
    · exact hw a ha
  have hboth : (ls.extend rs).aggEntries = [] := by simp [RowSchema.extend, hls, hrs]
  constructor
  · intro e he
    simp only [sqlHolds]
    rw [sqlEvaluate_congr (fun t c htc => ?_) fun name args =>
      evaluate_function_of_no_aggregates hboth hls name args _ _]
    obtain ⟨i, hi, hi'⟩ := hleft e he t c htc
    rw [evaluate_column hi, evaluate_column hi',
      rowAt_append_left (hlen ▸ RowSchema.resolve_lt hi)]
  · intro e he
    simp only [sqlHolds]
    rw [sqlEvaluate_congr (fun t c htc => ?_) fun name args =>
      evaluate_function_of_no_aggregates hboth hrs name args _ _]
    obtain ⟨i, hi, hi'⟩ := hright e he t c htc
    rw [evaluate_column hi, evaluate_column hi', ← hlen, rowAt_append_right]

/-- Conjuncts that move to the preserved side only leave the padding alone. -/
theorem paddingKept_of_preserved {joinType : JoinType} {condition : Expression}
    {parts : List Expression × List Expression × List Expression} {ls rs : RowSchema}
    {l r : List Row} (hleft : joinType = .left → parts.2.1 = [])
    (hright : joinType = .right → parts.1 = []) :
    paddingKept joinType condition parts ls rs l r := by
  have hkept : ∀ {α β : Type} (pad : α → Row) (m : α → β → Bool) (p : α → Bool) (q : Row → Bool)
      (l : List α) (r : List β), Pairs.padsKept pad m p (fun _ => true) true q l r := by
    intro α β pad m p q l r a _ _ _
    by_cases hm : ∃ b ∈ r, m a b = true
    · obtain ⟨b, hb, hmb⟩ := hm
      exact .inl ⟨b, hb, hmb, rfl⟩
    · exact .inr ⟨fun b hb => by simpa using fun hmb => hm ⟨b, hb, hmb⟩, rfl⟩
  cases joinType with
  | inner => trivial
  | cross => trivial
  | left =>
    simp only [paddingKept, hleft rfl]
    exact hkept _ _ _ _ _ _
  | right =>
    simp only [paddingKept, hright rfl]
    exact hkept _ _ _ _ _ _

/-- `a LEFT JOIN b ON a.k = b.k` under a filter. -/
def filteredLeftJoin (predicate : Expression) : LogicalPlan :=
  .filter predicate (.join .left keyedCondition (.scan "a" none []) (.scan "b" none []))

omit [Rounding] in
/-- A condition on the preserved side, and one on the padded side that every preserved row has a
match for. -/
theorem pushPredicates_keeps_rows_left :
    (let plan := filteredLeftJoin (.binaryOp (.column (some "a") "k") .eq (.literal (.integer 2)))
     let db := keyedDatabase [.integer 1, .integer 2] [.integer 1]
     @pushesAgree .exact db plan ∧
      @LogicalPlan.answer .exact db (pushPredicates plan) = @LogicalPlan.answer .exact db plan) ∧
    (let plan := filteredLeftJoin (.binaryOp (.column (some "b") "k") .eq (.literal (.integer 1)))
     let db := keyedDatabase [.integer 1] [.integer 1, .integer 2]
     ∃ schema rows rows', @LogicalPlan.answer .exact db plan = .ok (schema, rows) ∧
      @LogicalPlan.answer .exact db (pushPredicates plan) = .ok (schema, rows') ∧
      rows.Perm rows') := by
  constructor
  · intro plan db
    have hagree : @pushesAgree .exact db plan := by
      refine ⟨⟨trivial, trivial⟩, ?_⟩
      intro joinType condition left right hjoin ls l rs r hl hr
      cases hjoin
      cases hl
      cases hr
      refine ⟨@sidesAgree_of_resolve .exact _ _ _ _ _ (by decide) rfl rfl ?_ nofun,
        @paddingKept_of_preserved .exact _ _ _ _ _ _ _ (fun _ => by rfl) nofun⟩
      intro e he t c htc
      cases List.mem_singleton.mp he
      cases List.mem_singleton.mp htc
      exact ⟨0, by decide, by decide⟩
    exact ⟨hagree, (@pushPredicates_keeps_rows .exact db plan).1 hagree⟩
  · intro plan db
    have hsides := @sidesAgree_of_resolve .exact
      (movedParts (.binaryOp (.column (some "b") "k") .eq (.literal (.integer 1)))
        (.scan "a" none []) (.scan "b" none [])) (scanSchema "a" ["k"]) (scanSchema "b" ["k"])
      [[.integer 1]] [[.integer 1], [.integer 2]] (by decide) rfl rfl nofun (by
        intro e he t c htc
        cases List.mem_singleton.mp he
        cases List.mem_singleton.mp htc
        exact ⟨0, by decide, by decide⟩)
    obtain ⟨schema, rows, rows', h, h', hiff⟩ := (@pushPredicates_keeps_rows .exact db plan).2 _ _ _
      _ _ rfl trivial trivial (scanSchema "a" ["k"]) [[.integer 1]] (scanSchema "b" ["k"])
      [[.integer 1], [.integer 2]] rfl rfl hsides
    refine ⟨schema, rows, rows', h, h', hiff.mpr ?_⟩
    intro a ha _ _
    cases List.mem_singleton.mp ha
    exact .inl ⟨[.integer 1], by simp, by decide, by decide⟩

omit [Rounding] in
/-- A condition on the padded side keeps a row that it should drop. -/
theorem pushPredicates_changes_rows :
    let plan := filteredLeftJoin (.binaryOp (.column (some "b") "k") .eq (.literal (.integer 1)))
    let db := keyedDatabase [.integer 1, .integer 2] [.integer 1]
    ∃ schema rows rows', @LogicalPlan.answer .exact db plan = .ok (schema, rows) ∧
      @LogicalPlan.answer .exact db (pushPredicates plan) = .ok (schema, rows') ∧
      rows = [[.integer 1, .integer 1]] ∧
      rows' = [[.integer 1, .integer 1], [.integer 2, .null]] ∧ ¬ rows.Perm rows' := by
  refine ⟨_, _, _, rfl, rfl, by decide, by decide, fun h => ?_⟩
  exact absurd h.length_eq (by decide)

end SqlOptimizer
