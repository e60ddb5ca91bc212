import SqlOptimizer.Execution.Aggregation
import SqlOptimizer.Execution.Reordered
import SqlOptimizer.Execution.Success

/-! Executors whose rows correspond: the rows of one are those of the other with their columns in
another place, in another order.  The operators keep the correspondence, or drop the places. -/

namespace SqlOptimizer

variable [Rounding]

/-! ### Rows that read alike -/

/-- Two rows in which every expression has the same value. -/
def ReadsAlike (s s' : RowSchema) (a a' : Row) : Prop :=
  ∀ x, evaluate x a s = evaluate x a' s'

/-- The rows of `rows'` are those of `rows` with their columns in another place, in some order.
Where the places are `fixed`, they are the same rows. -/
def SameRows (fixed : Prop) (s s' : RowSchema) (rows rows' : List Row) : Prop :=
  ∃ pairs : List (Row × Row), rows.Perm (pairs.map Prod.fst) ∧ rows'.Perm (pairs.map Prod.snd) ∧
    ∀ p ∈ pairs, ReadsAlike s s' p.1 p.2 ∧ (fixed → p.1 = p.2)

theorem SameRows.symm {fixed : Prop} {s s' : RowSchema} {rows rows' : List Row}
    (h : SameRows fixed s s' rows rows') : SameRows fixed s' s rows' rows := by
  obtain ⟨pairs, hrows, hrows', hpairs⟩ := h
  refine ⟨pairs.map Prod.swap, ?_, ?_, ?_⟩
  · rw [List.map_map]
    exact hrows'
  · rw [List.map_map]
    exact hrows
  · intro q hq
    obtain ⟨p, hp, rfl⟩ := List.mem_map.mp hq
    exact ⟨fun x => ((hpairs p hp).1 x).symm, fun hfixed => ((hpairs p hp).2 hfixed).symm⟩

theorem SameRows.of_perm {s : RowSchema} {rows rows' : List Row} (fixed : Prop)
    (h : rows'.Perm rows) : SameRows fixed s s rows rows' := by
  refine ⟨rows.map fun a => (a, a), by simp [List.map_map, Function.comp_def],
    by simpa [List.map_map, Function.comp_def] using h, ?_⟩
  rintro _ hp
  obtain ⟨a, -, rfl⟩ := List.mem_map.mp hp
  exact ⟨fun _ => rfl, fun _ => rfl⟩

theorem SameRows.imp {fixed fixed' : Prop} {s s' : RowSchema} {rows rows' : List Row}
    (h : SameRows fixed s s' rows rows') (himp : fixed' → fixed) :
    SameRows fixed' s s' rows rows' := by
  obtain ⟨pairs, hrows, hrows', hpairs⟩ := h
  exact ⟨pairs, hrows, hrows', fun p hp => ⟨(hpairs p hp).1, fun h => (hpairs p hp).2 (himp h)⟩⟩

theorem SameRows.perm {s s' : RowSchema} {rows rows' : List Row}
    (h : SameRows True s s' rows rows') : rows'.Perm rows := by
  obtain ⟨pairs, hrows, hrows', hpairs⟩ := h
  refine hrows'.trans (List.Perm.trans (.of_eq ?_) hrows.symm)
  exact List.map_congr_left fun p hp => ((hpairs p hp).2 trivial).symm

/-- The pairs in the order of the second rows. -/
theorem SameRows.exists_pairs {fixed : Prop} {s s' : RowSchema} {rows rows' : List Row}
    (h : SameRows fixed s s' rows rows') : ∃ pairs : List (Row × Row),
      (pairs.map Prod.fst).Perm rows ∧ rows' = pairs.map Prod.snd ∧
        ∀ p ∈ pairs, ReadsAlike s s' p.1 p.2 := by
  obtain ⟨pairs, hrows, hrows', hpairs⟩ := h
  have hcomp := congrFun (congrFun (List.eq_map_comp_perm Prod.snd) rows') pairs
  obtain ⟨pairs', rfl, hperm⟩ := hcomp.mpr hrows'
  exact ⟨pairs', (hperm.map _).trans hrows.symm, rfl,
    fun p hp => (hpairs p (hperm.mem_iff.mp hp)).1⟩

theorem SameRows.exists_left {fixed : Prop} {s s' : RowSchema} {rows rows' : List Row}
    (h : SameRows fixed s s' rows rows') {a' : Row} (ha' : a' ∈ rows') :
    ∃ a ∈ rows, ReadsAlike s s' a a' := by
  obtain ⟨pairs, hrows, hrows', hpairs⟩ := h
  obtain ⟨p, hp, rfl⟩ := List.mem_map.mp (hrows'.mem_iff.mp ha')
  exact ⟨p.1, hrows.mem_iff.mpr (List.mem_map_of_mem hp), (hpairs p hp).1⟩

theorem ReadsAlike.passes_eq {s s' : RowSchema} {a a' : Row} (h : ReadsAlike s s' a a')
    (p : Expression) : passes p a s = passes p a' s' := by
  rw [passes, passes, h p]

theorem ReadsAlike.sortLess_eq {s s' : RowSchema} {a a' b b' : Row} (ha : ReadsAlike s s' a a')
    (hb : ReadsAlike s s' b b') (items : List OrderByItem) :
    sortLess items s a b = sortLess items s' a' b' := by
  induction items with
  | nil => rfl
  | cons item items ih => rw [sortLess, sortLess, ha, hb, ih]

/-! ### Executors -/

/-- Both executors fail, or their rows correspond. -/
structure Correspond (fixed : Prop) (e e' : Executor) : Prop where
  schema : fixed → e.schema = e'.schema
  rows : Except.Agree (SameRows fixed e.schema e'.schema) e.run e'.run

/-- Two executors with the same columns and the same rows in the same order, or that both fail. -/
structure Alike (e e' : Executor) : Prop where
  schema : e.schema = e'.schema
  rows : ∀ out, e.run = .ok out ↔ e'.run = .ok out

section

variable {fixed : Prop} {e e' : Executor}

theorem Alike.refl (e : Executor) : Alike e e := ⟨rfl, fun _ => Iff.rfl⟩

theorem Alike.correspond (h : Alike e e') (fixed : Prop) : Correspond fixed e e' where
  schema _ := h.schema
  rows := by
    rw [h.schema]
    exact .of_imp (fun a ha => ⟨a, (h.rows a).mp ha, .of_perm fixed (.refl a)⟩)
      fun b hb => ⟨b, (h.rows b).mpr hb⟩

theorem Correspond.imp {fixed' : Prop} (h : Correspond fixed e e') (himp : fixed' → fixed) :
    Correspond fixed' e e' :=
  ⟨fun hfixed => h.schema (himp hfixed), h.rows.imp fun _ _ hrows => hrows.imp himp⟩

theorem Correspond.symm (h : Correspond fixed e e') : Correspond fixed e' e where
  schema hfixed := (h.schema hfixed).symm
  rows := by
    refine .of_imp (fun rows' hrows' => ?_) fun rows hrows => ?_
    · obtain ⟨rows, hrows, hsame⟩ := h.rows.of_ok_right hrows'
      exact ⟨rows, hrows, hsame.symm⟩
    · obtain ⟨rows', hrows', -⟩ := h.rows.of_ok hrows
      exact ⟨rows', hrows'⟩

/-- An operator that turns corresponding rows into corresponding rows, for both directions. -/
theorem Correspond.of_imp {fixed : Prop} {e e' : Executor} (hschema : fixed → e.schema = e'.schema)
    (h : ∀ out, e.run = .ok out → ∃ out', e'.run = .ok out' ∧
      SameRows fixed e.schema e'.schema out out')
    (h' : ∀ out', e'.run = .ok out' → ∃ out, e.run = .ok out) : Correspond fixed e e' :=
  ⟨hschema, .of_imp h h'⟩

theorem Correspond.exists_filter (h : Correspond fixed e e') (p : Expression) {out : List Row}
    (hout : (Executor.filter p e).run = .ok out) : ∃ out', (Executor.filter p e').run = .ok out' ∧
      SameRows fixed e.schema e'.schema out out' := by
  obtain ⟨rows, hrows, hall, rfl⟩ := Executor.run_filter_eq_ok.mp hout
  obtain ⟨rows', hrows', hsame⟩ := h.rows.of_ok hrows
  refine ⟨_, Executor.run_filter_eq_ok.mpr ⟨rows', hrows', fun row' hrow' => ?_, rfl⟩, ?_⟩
  · obtain ⟨row, hrow, halike⟩ := hsame.exists_left hrow'
    rw [← halike.passes_eq p]
    exact hall row hrow
  · obtain ⟨pairs, hl, hr, hpairs⟩ := hsame
    refine ⟨pairs.filter fun q => (passes p q.1 e.schema).toOption.getD false, ?_, ?_,
      fun q hq => hpairs q (List.mem_of_mem_filter hq)⟩
    · refine (hl.filter _).trans (.of_eq ?_)
      rw [List.filter_map]
      rfl
    · refine (hr.filter _).trans (.of_eq ?_)
      rw [List.filter_map]
      refine congrArg _ (List.filter_congr fun q hq => ?_)
      rw [Function.comp, (hpairs q hq).1.passes_eq p]

theorem Correspond.filter (h : Correspond fixed e e') (p : Expression) :
    Correspond fixed (.filter p e) (.filter p e') :=
  .of_imp h.schema (fun _ hout => h.exists_filter p hout) fun _ hout =>
    (h.symm.exists_filter p hout).imp fun _ h => h.1

theorem Correspond.exists_project (h : Correspond fixed e e')
    (expressions : List (Expression × Option String)) {out : List Row}
    (hout : (Executor.project expressions e).run = .ok out) :
    ∃ out', (Executor.project expressions e').run = .ok out' ∧ out'.Perm out := by
  obtain ⟨rows, hrows, hmap⟩ := Executor.run_project_eq_ok.mp hout
  obtain ⟨rows', hrows', pairs, hl, hr, hpairs⟩ := h.rows.of_ok hrows
  obtain ⟨mid, hmid, hperm⟩ := Except.mapM_perm hmap hl.symm
  have hsnd : ((pairs.map Prod.snd).mapM fun row =>
      expressions.mapM fun p => evaluate p.1 row e'.schema) = .ok mid := by
    rw [← hmid, List.mapM_map, List.mapM_map]
    refine Except.mapM_congr fun q hq => Except.mapM_congr fun p _ => ?_
    exact ((hpairs q hq).1 p.1).symm
  obtain ⟨out', hout', hperm'⟩ := Except.mapM_perm hsnd hr
  exact ⟨out', Executor.run_project_eq_ok.mpr ⟨rows', hrows', hout'⟩, hperm'.trans hperm⟩

/-- A projection has its columns in the order of its list. -/
theorem Correspond.project (h : Correspond fixed e e')
    (expressions : List (Expression × Option String)) :
    Correspond True (.project expressions e) (.project expressions e') := by
  refine .of_imp (fun _ => rfl) (fun out hout => ?_) fun out hout =>
    (h.symm.exists_project expressions hout).imp fun _ h => h.1
  obtain ⟨out', hout', hperm⟩ := h.exists_project expressions hout
  exact ⟨out', hout', .of_perm True hperm⟩

/-- ORDER BY decides any two rows of an executor, as a strict weak order. -/
structure Executor.Sorts (e : Executor) (items : List OrderByItem) : Prop where
  decided : ∀ rows, e.run = .ok rows → ∀ a ∈ rows, ∀ b ∈ rows,
    ∃ t, sortLess items e.schema a b = .ok t
  weak : ∀ rows, e.run = .ok rows →
    StrictWeakOn {row | row ∈ rows} (sortLess items e.schema · · = .ok true)

theorem Correspond.sort (h : Correspond fixed e e') {items : List OrderByItem}
    (hsorts : e.Sorts items) : Correspond fixed (.sort items e) (.sort items e') := by
  have hdecided : ∀ rows rows', e.run = .ok rows → SameRows fixed e.schema e'.schema rows rows' →
      ∀ a ∈ rows', ∀ b ∈ rows', ∃ t, sortLess items e'.schema a b = .ok t := by
    intro rows rows' hrows hsame a' ha' b' hb'
    obtain ⟨a, ha, haa⟩ := hsame.exists_left ha'
    obtain ⟨b, hb, hbb⟩ := hsame.exists_left hb'
    rw [← haa.sortLess_eq hbb]
    exact hsorts.decided rows hrows a ha b hb
  refine .of_imp h.schema (fun out hout => ?_) fun out hout => ?_
  · obtain ⟨rows, hrows, hsorted⟩ := Executor.run_sort_eq_ok.mp hout
    obtain ⟨rows', hrows', hsame⟩ := h.rows.of_ok hrows
    obtain ⟨out', hout'⟩ := exists_sortRows (hdecided rows rows' hrows hsame)
    refine ⟨out', Executor.run_sort_eq_ok.mpr ⟨rows', hrows', hout'⟩, ?_⟩
    obtain ⟨pairs, hl, hr, hpairs⟩ := hsame
    exact ⟨pairs, (perm_sortRows hsorted).trans hl, (perm_sortRows hout').trans hr, hpairs⟩
  · obtain ⟨rows', hrows', -⟩ := Executor.run_sort_eq_ok.mp hout
    obtain ⟨rows, hrows, -⟩ := h.rows.of_ok_right hrows'
    obtain ⟨out', hout'⟩ := exists_sortRows (hsorts.decided rows hrows)
    exact ⟨out', Executor.run_sort_eq_ok.mpr ⟨rows, hrows, hout'⟩⟩

/-! ### Aggregation -/

theorem ReadsAlike.aggregateInput_eq {s s' : RowSchema} {a a' : Row} (h : ReadsAlike s s' a a')
    (agg : AggregateExpr) : aggregateInput agg a s = aggregateInput agg a' s' := by
  unfold aggregateInput
  split
  · rw [h]
  · exact h _

theorem ReadsAlike.aggregateRow_eq {s s' : RowSchema} {a a' : Row} (h : ReadsAlike s s' a a')
    (groupBy : List Expression) (aggregates : List AggregateExpr)
    (groups : List (String × AccState)) :
    aggregateRow groupBy aggregates s groups a = aggregateRow groupBy aggregates s' groups a' := by
  have hkey : (groupBy.mapM fun g => evaluate g a s) = groupBy.mapM fun g => evaluate g a' s' :=
    Except.mapM_congr fun g _ => h g
  have hfeed : ∀ accs, feedRow aggregates a s accs = feedRow aggregates a' s' accs := fun accs =>
    Except.mapM_congr fun p _ => by rw [h.aggregateInput_eq]
  simp only [aggregateRow, hkey, hfeed]

theorem hashAggregateRows_congr {s s' : RowSchema} {pairs : List (Row × Row)}
    (h : ∀ p ∈ pairs, ReadsAlike s s' p.1 p.2) (groupBy : List Expression)
    (aggregates : List AggregateExpr) :
    hashAggregateRows groupBy aggregates s (pairs.map Prod.fst) =
      hashAggregateRows groupBy aggregates s' (pairs.map Prod.snd) := by
  simp only [hashAggregateRows, List.foldlM_map]
  rw [Except.foldlM_congr fun groups p hp => (h p hp).aggregateRow_eq groupBy aggregates groups]

/-- An aggregate has the columns of its lists. -/
theorem Correspond.hashAggregate (h : Correspond fixed e e') {groupBy : List Expression}
    {aggregates : List AggregateExpr} (hf : ∀ agg ∈ aggregates, agg.func ∈ aggregateFunctions)
    (hfree : ∀ rows, e.run = .ok rows → OrderFree groupBy aggregates e.schema rows) :
    Correspond True (.hashAggregate groupBy aggregates e) (.hashAggregate groupBy aggregates e') := by
  refine .of_imp (fun _ => rfl) (fun out hout => ?_) fun out hout => ?_
  · obtain ⟨rows, hrows, hout⟩ := Executor.run_hashAggregate_eq_ok.mp hout
    obtain ⟨rows', hrows', hsame⟩ := h.rows.of_ok hrows
    obtain ⟨pairs, hperm, rfl, hpairs⟩ := hsame.exists_pairs
    obtain ⟨out', hout', hperm'⟩ := (hfree rows hrows).reordered hf hout hperm
    rw [hashAggregateRows_congr hpairs] at hout'
    exact ⟨out', Executor.run_hashAggregate_eq_ok.mpr ⟨_, hrows', hout'⟩, .of_perm True hperm'⟩
  · obtain ⟨rows', hrows', hout⟩ := Executor.run_hashAggregate_eq_ok.mp hout
    obtain ⟨rows, hrows, hsame⟩ := h.rows.of_ok_right hrows'
    obtain ⟨pairs, hperm, rfl, hpairs⟩ := hsame.exists_pairs
    rw [← hashAggregateRows_congr hpairs] at hout
    obtain ⟨out', hout'⟩ := hashAggregateRows_ok hf
      ((hashAggregateRows_eq_ok hf hout).1.of_subperm hperm.symm.subperm)
    exact ⟨out', Executor.run_hashAggregate_eq_ok.mpr ⟨rows, hrows, hout'⟩⟩

/-! ### The same rows in the same order -/

namespace Alike

theorem filter (h : Alike e e') (p : Expression) : Alike (.filter p e) (.filter p e') where
  schema := h.schema
  rows out := by
    rw [Executor.run_filter_eq_ok, Executor.run_filter_eq_ok, h.schema]
    exact exists_congr fun rows => and_congr_left' (h.rows rows)

theorem project (h : Alike e e') (expressions : List (Expression × Option String)) :
    Alike (.project expressions e) (.project expressions e') where
  schema := rfl
  rows out := by
    rw [Executor.run_project_eq_ok, Executor.run_project_eq_ok, h.schema]
    exact exists_congr fun rows => and_congr_left' (h.rows rows)

theorem sort (h : Alike e e') (items : List OrderByItem) :
    Alike (.sort items e) (.sort items e') where
  schema := h.schema
  rows out := by
    rw [Executor.run_sort_eq_ok, Executor.run_sort_eq_ok, h.schema]
    exact exists_congr fun rows => and_congr_left' (h.rows rows)

theorem hashAggregate (h : Alike e e') (groupBy : List Expression)
    (aggregates : List AggregateExpr) :
    Alike (.hashAggregate groupBy aggregates e) (.hashAggregate groupBy aggregates e') where
  schema := rfl
  rows out := by
    rw [Executor.run_hashAggregate_eq_ok, Executor.run_hashAggregate_eq_ok, h.schema]
    exact exists_congr fun rows => and_congr_left' (h.rows rows)

theorem nestedLoopJoin {r r' : Executor} (hl : Alike e e') (hr : Alike r r')
    (condition : Expression) :
    Alike (.nestedLoopJoin condition e r) (.nestedLoopJoin condition e' r') where
  schema := by rw [Executor.schema, Executor.schema, hl.schema, hr.schema]
  rows out := by
    rw [Executor.run_nestedLoopJoin_eq_ok, Executor.run_nestedLoopJoin_eq_ok, hl.schema, hr.schema]
    exact exists_congr fun a => exists_congr fun b => and_congr (hl.rows a) (and_congr_left' (hr.rows b))

end Alike

end

end SqlOptimizer
