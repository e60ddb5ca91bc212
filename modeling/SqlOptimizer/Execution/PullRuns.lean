import SqlOptimizer.Execution.ListEvaluation

/-! The pull executors against the evaluation on lists: after `open`, in any state, an executor
yields the rows of its list, and then nothing. -/

namespace SqlOptimizer

open Except (Agree)

namespace Executor

section

variable [Rounding] {lib : Containers}

attribute [local simp] drainWith «open»

/-- In every state, `open` succeeds when the list evaluation does, and leads to a state that yields
its rows. -/
def Opens (lib : Containers) (rounds : Nat) (e : Executor) : Prop :=
  ∀ st : e.State, Agree (fun d st' => Pull.Yields (e.next lib rounds) st' d) (e.drainWith lib)
    (e.open lib rounds st)

/-- The same with enough rounds. -/
def Refines (lib : Containers) (e : Executor) : Prop :=
  ∃ n, ∀ rounds, n < rounds → e.Opens lib rounds

/-- How many rows an executor has. -/
def rowCount (lib : Containers) (e : Executor) : Nat :=
  match e.drainWith lib with
  | .ok d => d.rows.length
  | .error _ => 0

theorem rowCount_eq {e : Executor} {d : Drain String Row} (h : e.drainWith lib = .ok d) :
    e.rowCount lib = d.rows.length := by
  rw [rowCount, h]

/-! ### Loops of `open` -/

section

variable {σ : Type} {next : Pull.Step String Row σ} {st : σ} {d : Drain String Row} {rounds : Nat}

omit [Rounding] in
theorem foldlM_pushBack (rows acc : List Row) : rows.foldlM pushBack acc = .ok (acc ++ rows) := by
  induction rows generalizing acc with
  | nil =>
    rw [List.append_nil]
    rfl
  | cons r rows ih =>
    rw [List.foldlM_cons, pushBack, Except.ok_bind, ih, List.append_assoc]
    rfl

omit [Rounding] in
/-- A loop that keeps every row. -/
theorem fold_pushBack (h : Pull.Yields next st d) (hr : d.rows.length < rounds) :
    Agree (fun rows p => p.1 = rows) d.collect
      (Pull.fold outOfRounds pushBack next rounds [] st) := by
  have hcollect : d.collect = (do (← d.collect).foldlM pushBack []) := by
    simp only [foldlM_pushBack, List.nil_append, Except.bind_ok]
  rw [hcollect]
  exact h.fold outOfRounds hr []

/-- The insertion of a right row into the build table. -/
def emplace (rightKey : Expression) (schema : RowSchema) (build : List (String × Row))
    (row : Row) : Except String (List (String × Row)) := do
  let key ← evaluate rightKey row schema
  return build ++ [(literalToString key, row)]

theorem foldlM_emplace (rightKey : Expression) (schema : RowSchema) (rows : List Row)
    (acc : List (String × Row)) : rows.foldlM (emplace rightKey schema) acc =
      (do return acc ++ (← hashBuild rightKey schema rows)) := by
  induction rows generalizing acc with
  | nil =>
    show Except.ok acc = Except.ok (acc ++ [])
    rw [List.append_nil]
  | cons r rows ih =>
    rw [List.foldlM_cons, emplace, hashBuild, List.mapM_cons]
    cases evaluate rightKey r schema with
    | error e => rfl
    | ok key =>
      simp only [Except.ok_bind, Except.pure_eq_ok, ih, hashBuild, bind_assoc, List.append_assoc,
        List.singleton_append]

/-- The loop that fills the build table. -/
theorem fold_emplace (rightKey : Expression) (schema : RowSchema) (h : Pull.Yields next st d)
    (hr : d.rows.length < rounds) :
    Agree (fun build p => p.1 = build) (do hashBuild rightKey schema (← d.collect))
      (Pull.fold outOfRounds (emplace rightKey schema) next rounds [] st) := by
  have hbuild : (do hashBuild rightKey schema (← d.collect)) =
      (do (← d.collect).foldlM (emplace rightKey schema) []) := by
    simp only [foldlM_emplace, List.nil_append, Except.pure_eq_ok, Except.bind_ok]
  rw [hbuild]
  exact h.fold outOfRounds hr []

end

/-! ### Scans -/

theorem refines_seqScan (tableName : String) (schema : RowSchema) (table : Table) :
    Refines lib (.seqScan tableName schema table) :=
  ⟨0, fun _ _ _ => .ok (Pull.yields_scan table.rows 0)⟩

theorem refines_externalRows (tableName : String) (schema : RowSchema) (rows : List Row) :
    Refines lib (.externalRows tableName schema rows) :=
  ⟨0, fun _ _ _ => .ok (Pull.yields_scan rows 0)⟩

theorem refines_indexScan (tableName : String) (schema : RowSchema) (table : Table)
    (indexColumn : String) (probeValue : Expression) :
    Refines lib (.indexScan tableName schema table indexColumn probeValue) := by
  refine ⟨table.rows.length, fun rounds hr _ => ?_⟩
  rw [drainWith, «open», indexScanRows]
  refine (Agree.refl _).bind ?_
  rintro probe _ - rfl
  cases schema.resolve none indexColumn with
  | none => exact .error
  | some idx =>
    refine .ok ?_
    have hturns := Pull.turns_filter (p := fun row => do
      return literalEqual (← rowAt row idx) probe) (Pull.yields_scan table.rows 0)
    have hyields : Pull.Yields (Pull.loop outOfRounds _ rounds) 0 _ := hturns.yields hr
    exact hyields.lift (g := IndexScanState.next rounds table.rows)
      (f := fun pos => ⟨pos, probe, idx⟩) fun _ => rfl

omit [Rounding] in
/-- The rows of a buffer. -/
theorem yields_buffer {S : Type} (input : S) (rows : List Row) :
    Pull.Yields BufferState.next ⟨input, rows, 0⟩ (.ofList rows) :=
  (Pull.yields_scan rows 0).lift (g := BufferState.next) (f := fun pos => ⟨input, rows, pos⟩)
    fun _ => rfl

/-! ### Operators over their inputs -/

section

variable {input left right : Executor}

theorem refines_filter (predicate : Expression) (h : Refines lib input) :
    Refines lib (.filter predicate input) := by
  obtain ⟨n, h⟩ := h
  refine ⟨max n (input.rowCount lib), fun rounds hr st => ?_⟩
  rw [drainWith, ← Except.bind_ok («open» ..)]
  refine (h rounds (by omega) st).bind fun d st' hd hyields => .ok ?_
  have hlength := rowCount_eq hd
  exact (Pull.turns_filter hyields).yields (by omega)

theorem refines_project (expressions : List (Expression × Option String))
    (h : Refines lib input) : Refines lib (.project expressions input) := by
  obtain ⟨n, h⟩ := h
  refine ⟨n, fun rounds hr st => ?_⟩
  rw [drainWith, ← Except.bind_ok («open» ..)]
  exact (h rounds hr st).bind fun d st' _ hyields => .ok hyields.map

theorem refines_limit (count : Nat) (h : Refines lib input) :
    Refines lib (.limit count input) := by
  obtain ⟨n, h⟩ := h
  refine ⟨n, fun rounds hr (emitted, st) => ?_⟩
  rw [drainWith, «open»]
  exact (h rounds hr st).bind fun d st' _ hyields => .ok (hyields.take 0)

theorem refines_sort (orderBy : List OrderByItem) (h : Refines lib input) :
    Refines lib (.sort orderBy input) := by
  obtain ⟨n, h⟩ := h
  refine ⟨max n (input.rowCount lib), fun rounds hr ⟨st, _, _⟩ => ?_⟩
  rw [drainWith, «open»]
  refine (h rounds (by omega) st).bind fun d st' hd hyields => ?_
  have hlength := rowCount_eq hd
  refine (fold_pushBack hyields (by omega)).bind ?_
  rintro _ ⟨rows, i⟩ - rfl
  refine (Agree.refl _).bind ?_
  rintro sorted _ - rfl
  exact .ok (yields_buffer i sorted)

theorem refines_hashAggregate (groupBy : List Expression) (aggregates : List AggregateExpr)
    (h : Refines lib input) : Refines lib (.hashAggregate groupBy aggregates input) := by
  obtain ⟨n, h⟩ := h
  refine ⟨max n (input.rowCount lib), fun rounds hr ⟨st, _, _⟩ => ?_⟩
  rw [drainWith, «open»]
  refine (h rounds (by omega) st).bind fun d st' hd hyields => ?_
  have hlength := rowCount_eq hd
  have hfold := hyields.fold outOfRounds (f := aggregateRow groupBy aggregates input.schema)
    (show d.rows.length < rounds by omega) []
  simp only [hashAggregateRows, ← bind_assoc]
  rw [bind_assoc]
  refine hfold.bind ?_
  rintro _ ⟨groups, i⟩ - rfl
  split <;> exact .ok (yields_buffer i _)

theorem refines_nestedLoopJoin (condition : Expression) (hl : Refines lib left)
    (hr : Refines lib right) : Refines lib (.nestedLoopJoin condition left right) := by
  obtain ⟨n, hl⟩ := hl
  obtain ⟨m, hr⟩ := hr
  refine ⟨max (max n m) (max (right.rowCount lib)
    (left.rowCount lib * (right.rowCount lib + 1))), fun rounds h ⟨sl, sr, _, _, _, _⟩ => ?_⟩
  rw [drainWith, «open»]
  refine (hl rounds (by omega) sl).bind fun dl sl' hdl hyieldsl => ?_
  refine (hr rounds (by omega) sr).bind fun dr sr' hdr hyieldsr => ?_
  have hrows := rowCount_eq hdr
  refine (fold_pushBack hyieldsr (by omega)).bind ?_
  rintro _ ⟨rows, r⟩ hcollect rfl
  have hright : dr.rows = rows := (Drain.collect_eq_ok.mp hcollect).1
  rw [rowCount_eq hdl, hrows, hright] at h
  exact .ok (NestedLoopJoinState.yields_next hyieldsl r rows (by omega))

theorem refines_hashJoin (condition leftKey rightKey : Expression) (hl : Refines lib left)
    (hr : Refines lib right) : Refines lib (.hashJoin condition leftKey rightKey left right) := by
  obtain ⟨n, hl⟩ := hl
  obtain ⟨m, hr⟩ := hr
  refine ⟨max (max n m) (max (right.rowCount lib) (left.rowCount lib)),
    fun rounds h ⟨sl, sr, _, current, probe, _⟩ => ?_⟩
  rw [drainWith, «open»]
  refine (hl rounds (by omega) sl).bind fun dl sl' hdl hyieldsl => ?_
  refine (hr rounds (by omega) sr).bind fun dr sr' hdr hyieldsr => ?_
  have hlrows := rowCount_eq hdl
  have hrows := rowCount_eq hdr
  have hfold := fold_emplace rightKey right.schema hyieldsr (show dr.rows.length < rounds by omega)
  simp only [← bind_assoc]
  refine hfold.bind ?_
  rintro _ ⟨build, r⟩ - rfl
  have hturns : Pull.Turns (HashJoinState.turn lib (fun row => evaluate leftKey row left.schema)
      (left.next lib rounds)) _ _ _ := HashJoinState.turns_left hyieldsl r build none probe
  exact .ok (hturns.yields (by omega))

end

/-- Every executor refines its list evaluation. -/
theorem refines (lib : Containers) (e : Executor) : Refines lib e := by
  induction e with
  | seqScan name schema table => exact refines_seqScan name schema table
  | indexScan name schema table column probe =>
    exact refines_indexScan name schema table column probe
  | filter predicate input ih => exact refines_filter predicate ih
  | nestedLoopJoin condition l r ihl ihr => exact refines_nestedLoopJoin condition ihl ihr
  | hashJoin condition lk rk l r ihl ihr => exact refines_hashJoin condition lk rk ihl ihr
  | hashAggregate groupBy aggregates input ih => exact refines_hashAggregate groupBy aggregates ih
  | project expressions input ih => exact refines_project expressions ih
  | sort orderBy input ih => exact refines_sort orderBy ih
  | limit count input ih => exact refines_limit count ih
  | externalRows name schema rows => exact refines_externalRows name schema rows

/-- With enough rounds, a run from any state gives the rows of the list, or fails with it. -/
theorem runToCompletion_agree (lib : Containers) (e : Executor) :
    ∃ n, ∀ rounds, n < rounds → e.Opens lib rounds ∧
      ∀ st, Agree (fun rows p => p.1 = rows) (do (← e.drainWith lib).collect)
        (e.runToCompletion lib rounds st) := by
  obtain ⟨n, h⟩ := e.refines lib
  refine ⟨max n (e.rowCount lib), fun rounds hr => ⟨h rounds (by omega), fun st => ?_⟩⟩
  refine (h rounds (by omega) st).bind fun d st' hd hyields => ?_
  have hlength := rowCount_eq hd
  exact fold_pushBack hyields (by omega)

end

end Executor

section

variable [Rounding] {R : Type}

/-- With enough rounds, the executor of a plan runs to the list that evaluation on lists gives.  In
that case `open` succeeds in every state, so also after any steps, and the steps that follow return
the same rows again, then nothing. -/
theorem executors_refine_lists (lib : Containers) {plan : PhysicalPlan R} {db : Database}
    {sets : ExternalRowSets} {e : Executor} (hbuild : buildExecutor plan db sets = .ok e) :
    ∃ n, ∀ rounds, n < rounds → ∀ rows,
      ((∃ st, e.runToCompletion lib rounds e.initial = .ok (rows, st)) ↔
        plan.listRows lib db sets = .ok rows) ∧
      ((∃ st, e.runToCompletion lib rounds e.initial = .ok (rows, st)) → ∀ st,
        ∃ st', e.open lib rounds st = .ok st' ∧ ∀ k, ∃ st'', Pull.pulls (e.next lib rounds) k st' =
          .ok ((rows.take k).map some ++ List.replicate (k - rows.length) none, st'')) := by
  obtain ⟨n, h⟩ := e.runToCompletion_agree lib
  refine ⟨n, fun rounds hr rows => ?_⟩
  obtain ⟨hopens, hruns⟩ := h rounds hr
  have hrows : plan.listRows lib db sets = (do (← e.drainWith lib).collect) := by
    rw [PhysicalPlan.listRows, PhysicalPlan.listing_eq lib hbuild, bind_assoc]
    rfl
  have hiff : (∃ st, e.runToCompletion lib rounds e.initial = .ok (rows, st)) ↔
      (do (← e.drainWith lib).collect) = .ok rows := by
    constructor
    · rintro ⟨st, hst⟩
      obtain ⟨_, hlist, rfl⟩ := (hruns _).of_ok_right hst
      exact hlist
    · intro hlist
      obtain ⟨⟨_, st⟩, hst, rfl⟩ := (hruns e.initial).of_ok hlist
      exact ⟨st, hst⟩
  refine ⟨hrows ▸ hiff, fun hrun st => ?_⟩
  obtain ⟨d, hd, hcollect⟩ := Except.bind_eq_ok.mp (hiff.mp hrun)
  obtain ⟨st', hopen, hyields⟩ := (hopens st).of_ok hd
  obtain ⟨rfl, hfault⟩ := Drain.collect_eq_ok.mp hcollect
  have hlist : d = .ofList d.rows := by rw [Drain.ofList, ← hfault]
  rw [hlist] at hyields
  exact ⟨st', hopen, hyields.pulls⟩

end

/-- Two tables with one column. -/
def limitedDb : Database :=
  ((∅ : Database).insert "a" ⟨["k"], [[.integer 1], [.integer 2]], by decide⟩).insert "b"
    ⟨["k"], [[.integer 2], [.null], [.integer 2]], by decide⟩

/-- The first pair of a hash join. -/
def limitedPlan : PhysicalPlan Nat :=
  .limit ⟨⟨0, 0, 0⟩, 0, "", 0⟩ 1 (.join ⟨⟨0, 0, 0⟩, 0, "", 0⟩ .hashJoin .inner
    (.binaryOp (.column (some "a") "k") .eq (.column (some "b") "k"))
    (.seqScan ⟨⟨0, 0, 0⟩, 0, "", 0⟩ "a" none []) (.seqScan ⟨⟨0, 0, 0⟩, 0, "", 0⟩ "b" none []))

theorem executors_refine_lists_limited :
    ∃ e, buildExecutor limitedPlan limitedDb ∅ = .ok e ∧
      @PhysicalPlan.listRows .exact .standard _ limitedPlan limitedDb ∅ =
        .ok [[.integer 2, .integer 2]] ∧
      ∃ n, ∀ rounds, n < rounds → ∀ rows,
        ((∃ st, @Executor.runToCompletion .exact .standard rounds e e.initial = .ok (rows, st)) ↔
          @PhysicalPlan.listRows .exact .standard _ limitedPlan limitedDb ∅ = .ok rows) ∧
        ((∃ st, @Executor.runToCompletion .exact .standard rounds e e.initial = .ok (rows, st)) →
          ∀ st, ∃ st', @Executor.open .exact .standard rounds e st = .ok st' ∧ ∀ k, ∃ st'',
            Pull.pulls (@Executor.next .exact .standard rounds e) k st' =
              .ok ((rows.take k).map some ++ List.replicate (k - rows.length) none, st'')) :=
  ⟨_, rfl, rfl, @executors_refine_lists .exact _ .standard limitedPlan limitedDb ∅ _ rfl⟩

end SqlOptimizer
