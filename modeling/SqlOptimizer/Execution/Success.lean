import SqlOptimizer.Execution.Builder
import SqlOptimizer.Execution.JoinAgreement

/-! When the execution of a join succeeds, and with which rows. -/

namespace SqlOptimizer

variable [Rounding] {R : Type}

theorem executePlan_eq_ok {plan : PhysicalPlan R} {db : Database} {sets : ExternalRowSets}
    {out : ExecutionResult} :
    executePlan plan db sets = .ok out ↔ ∃ e, buildExecutor plan db sets = .ok e ∧
      e.run = .ok out.rows ∧ out.columns = e.schema.qualifiedNames := by
  simp only [executePlan, Except.bind_eq_ok, Except.pure_eq_ok, Except.ok.injEq]
  constructor
  · rintro ⟨e, he, rows, hrows, rfl⟩
    exact ⟨e, he, hrows, rfl⟩
  · rintro ⟨e, he, hrows, hcols⟩
    exact ⟨e, he, out.rows, hrows, by rw [← hcols]⟩

/-- Whether a join operator pairs two rows: the hash join when the keys print alike, the others when
the condition is true. -/
def joinMatch (kind : JoinKind) (condition : Expression) (ls rs : RowSchema) (a b : Row) :
    Except String Bool :=
  match kind with
  | .hashJoin => do
    let keys ← hashJoinKeys condition ls rs
    let va ← evaluate keys.1 a ls
    let vb ← evaluate keys.2 b rs
    return literalToString vb == literalToString va
  | .nestedLoopJoin | .indexNestedLoopJoin => passes condition (a ++ b) (ls.extend rs)

/-- The executor of a join accepts its condition. -/
def joinAccepts (kind : JoinKind) (condition : Expression) (ls rs : RowSchema) : Prop :=
  kind = .hashJoin → ∃ keys, hashJoinKeys condition ls rs = .ok keys

instance (kind : JoinKind) (condition : Expression) (ls rs : RowSchema) :
    Decidable (joinAccepts kind condition ls rs) :=
  decidable_of_iff (kind = .hashJoin → (hashJoinKeys condition ls rs).toBool = true) (by
    unfold joinAccepts
    refine imp_congr_right fun _ => ?_
    cases hashJoinKeys condition ls rs <;> simp [Except.toBool])

def joined (kind : JoinKind) (condition : Expression) (ls rs : RowSchema) (l r : List Row) :
    List Row :=
  Pairs.joinBy (· ++ ·) (fun a b => (joinMatch kind condition ls rs a b).toOption.getD false) l r

namespace Executor

/-- The rows of an executor have a value for each of its columns. -/
def Wide (e : Executor) : Prop := ∀ rows, e.run = .ok rows → ∀ row ∈ rows, row.length = e.schema.size

theorem run_nestedLoopJoin_eq_ok {condition : Expression} {left right : Executor}
    {out : List Row} :
    (nestedLoopJoin condition left right).run = .ok out ↔
      ∃ l r, left.run = .ok l ∧ right.run = .ok r ∧
        (∀ a ∈ l, ∀ b ∈ r, ∃ v,
          passes condition (a ++ b) (left.schema.extend right.schema) = .ok v) ∧
        out = joined .nestedLoopJoin condition left.schema right.schema l r := by
  constructor
  · intro h
    rw [run, drain] at h
    simp only [Except.bind_eq_ok] at h
    obtain ⟨_, ⟨dl, hdl, dr, hdr, r, hr, h⟩, hcollect⟩ := h
    cases h
    have hpairs : dl.flatMap (fun a => .ok (r.map (a ++ ·))) =
        ⟨dl.rows.flatMap fun a => r.map (a ++ ·), dl.fault⟩ :=
      Drain.flatMap_of_ok (g := fun a => r.map (a ++ ·)) fun _ _ => rfl
    rw [nestedLoopRows, hpairs] at hcollect
    obtain ⟨hfault, hall, hout⟩ := Drain.collect_filter_eq_ok.mp hcollect
    have hl : left.run = .ok dl.rows := by
      rw [run, hdl]
      exact Drain.collect_eq_ok.mpr ⟨rfl, hfault⟩
    have hright : right.run = .ok r := by
      rw [run, hdr]
      exact hr
    refine ⟨dl.rows, r, hl, hright, fun a ha b hb => hall _ ?_, ?_⟩
    · exact List.mem_flatMap.mpr ⟨a, ha, List.mem_map_of_mem hb⟩
    · rw [hout, joined, Pairs.joinBy, List.filter_flatMap]
      refine List.flatMap_congr fun a _ => ?_
      rw [List.filter_map]
      rfl
  · rintro ⟨l, r, hl, hr, hall, rfl⟩
    rw [run_nestedLoopJoin hl hr hall]
    refine congrArg _ (Pairs.joinBy_congr fun a ha b hb => ?_)
    obtain ⟨v, hv⟩ := hall a ha b hb
    simp [joinMatch, holds, hv, Except.toOption]

theorem run_hashJoin_eq_ok {condition : Expression} {keys : Expression × Expression}
    {left right : Executor} {out : List Row} (hlw : left.Wide) (hrw : right.Wide)
    (hkeys : hashJoinKeys condition left.schema right.schema = .ok keys) :
    (hashJoin condition keys.1 keys.2 left right).run = .ok out ↔
      ∃ l r, left.run = .ok l ∧ right.run = .ok r ∧
        out = joined .hashJoin condition left.schema right.schema l r := by
  obtain ⟨hlk, hrk, -⟩ := hashJoinKeys_eq_ok hkeys
  have hjoin : ∀ l r, left.run = .ok l → right.run = .ok r →
      (hashJoin condition keys.1 keys.2 left right).run =
        .ok (joined .hashJoin condition left.schema right.schema l r) := by
    intro l r hl hr
    have hkl := fun a ha => evaluate_eq_ok_keyOf hlk (hlw l hl a ha)
    have hkr := fun b hb => evaluate_eq_ok_keyOf hrk (hrw r hr b hb)
    rw [run_hashJoin hl hr hkl hkr]
    refine congrArg _ (Pairs.joinBy_congr fun a ha b hb => ?_)
    simp [joinMatch, hkeys, hkl a ha, hkr b hb, Except.toOption]
  constructor
  · intro h
    have h' := h
    rw [run, drain] at h
    simp only [Except.bind_eq_ok] at h
    obtain ⟨_, ⟨dl, hdl, dr, hdr, r, hr, build, -, h⟩, hcollect⟩ := h
    cases h
    have hfault := (Drain.collect_flatMap_eq_ok.mp hcollect).1
    have hl : left.run = .ok dl.rows := by
      rw [run, hdl]
      exact Drain.collect_eq_ok.mpr ⟨rfl, hfault⟩
    have hright : right.run = .ok r := by
      rw [run, hdr]
      exact hr
    exact ⟨dl.rows, r, hl, hright, (Except.ok.inj (h'.symm.trans (hjoin _ _ hl hright)))⟩
  · rintro ⟨l, r, hl, hr, rfl⟩
    exact hjoin l r hl hr

end Executor

/-- Two rows of the right widths: the hash join never fails on them. -/
theorem joinMatch_hashJoin_eq_ok {condition : Expression} {ls rs : RowSchema} {a b : Row}
    (h : joinAccepts .hashJoin condition ls rs) (ha : a.length = ls.size) (hb : b.length = rs.size) :
    ∃ v, joinMatch .hashJoin condition ls rs a b = .ok v := by
  obtain ⟨keys, hkeys⟩ := h rfl
  obtain ⟨hlk, hrk, -⟩ := hashJoinKeys_eq_ok hkeys
  refine ⟨literalToString (keyOf keys.2 b rs) == literalToString (keyOf keys.1 a ls), ?_⟩
  simp [joinMatch, hkeys, evaluate_eq_ok_keyOf hlk ha, evaluate_eq_ok_keyOf hrk hb]

/-- A join node succeeds exactly when its executor can be built, its inputs succeed and every pair of
their rows can be decided. -/
theorem executePlan_join_eq_ok {ann : Annotation R} {kind : JoinKind} {joinType : JoinType}
    {condition : Expression} {left right : PhysicalPlan R} {db : Database}
    {sets : ExternalRowSets} {le re : Executor} {out : ExecutionResult}
    (hle : buildExecutor left db sets = .ok le) (hre : buildExecutor right db sets = .ok re)
    (hlw : le.Wide) (hrw : re.Wide) :
    executePlan (.join ann kind joinType condition left right) db sets = .ok out ↔
      joinAccepts kind condition le.schema re.schema ∧ ∃ l r, le.run = .ok l ∧ re.run = .ok r ∧
        (∀ a ∈ l, ∀ b ∈ r, ∃ v, joinMatch kind condition le.schema re.schema a b = .ok v) ∧
        out = ⟨(le.schema.extend re.schema).qualifiedNames,
          joined kind condition le.schema re.schema l r⟩ := by
  have hloop : ∀ {out : ExecutionResult}, (∃ e : Executor,
      (.ok (.nestedLoopJoin condition le re) : Except String Executor) = .ok e ∧
        e.run = .ok out.rows ∧ out.columns = e.schema.qualifiedNames) ↔
      ∃ l r, le.run = .ok l ∧ re.run = .ok r ∧
        (∀ a ∈ l, ∀ b ∈ r, ∃ v, passes condition (a ++ b) (le.schema.extend re.schema) = .ok v) ∧
        out = ⟨(le.schema.extend re.schema).qualifiedNames,
          joined .nestedLoopJoin condition le.schema re.schema l r⟩ := by
    intro out
    constructor
    · rintro ⟨_, ⟨rfl⟩, hrun, hcols⟩
      obtain ⟨l, r, hl, hr, hall, hout⟩ := Executor.run_nestedLoopJoin_eq_ok.mp hrun
      refine ⟨l, r, hl, hr, hall, ?_⟩
      rw [← hout]
      exact congrArg (ExecutionResult.mk · out.rows) hcols
    · rintro ⟨l, r, hl, hr, hall, rfl⟩
      exact ⟨_, rfl, Executor.run_nestedLoopJoin_eq_ok.mpr ⟨l, r, hl, hr, hall, rfl⟩, rfl⟩
  rw [executePlan_eq_ok]
  simp only [buildExecutor, hle, hre, Except.ok_bind]
  cases kind with
  | nestedLoopJoin =>
    rw [and_iff_right (show joinAccepts .nestedLoopJoin _ _ _ from nofun)]
    exact hloop
  | indexNestedLoopJoin =>
    rw [and_iff_right (show joinAccepts .indexNestedLoopJoin _ _ _ from nofun)]
    exact hloop
  | hashJoin =>
    constructor
    · rintro ⟨e, he, hrun, hcols⟩
      obtain ⟨keys, hkeys, he⟩ := Except.bind_eq_ok.mp he
      cases he
      obtain ⟨l, r, hl, hr, hout⟩ := (Executor.run_hashJoin_eq_ok hlw hrw hkeys).mp hrun
      have haccepts : joinAccepts .hashJoin condition le.schema re.schema := fun _ => ⟨keys, hkeys⟩
      refine ⟨haccepts, l, r, hl, hr, fun a ha b hb => ?_, ?_⟩
      · exact joinMatch_hashJoin_eq_ok haccepts (hlw l hl a ha) (hrw r hr b hb)
      · rw [← hout]
        exact congrArg (ExecutionResult.mk · out.rows) hcols
    · rintro ⟨haccepts, l, r, hl, hr, -, rfl⟩
      obtain ⟨keys, hkeys⟩ := haccepts rfl
      refine ⟨.hashJoin condition keys.1 keys.2 le re, by simp [hkeys], ?_, rfl⟩
      exact (Executor.run_hashJoin_eq_ok hlw hrw hkeys).mpr ⟨l, r, hl, hr, rfl⟩

omit [Rounding] in
/-- The columns of a join are those of its inputs. -/
theorem schema_of_buildExecutor_join {ann : Annotation R} {kind : JoinKind} {joinType : JoinType}
    {condition : Expression} {left right : PhysicalPlan R} {db : Database} {sets : ExternalRowSets}
    {le re e : Executor} (hle : buildExecutor left db sets = .ok le)
    (hre : buildExecutor right db sets = .ok re)
    (he : buildExecutor (.join ann kind joinType condition left right) db sets = .ok e) :
    e.schema = le.schema.extend re.schema := by
  simp only [buildExecutor, hle, hre, Except.ok_bind] at he
  cases kind with
  | nestedLoopJoin =>
    cases he
    rfl
  | indexNestedLoopJoin =>
    cases he
    rfl
  | hashJoin =>
    obtain ⟨keys, -, he⟩ := Except.bind_eq_ok.mp he
    cases he
    rfl

theorem Executor.run_hashAggregate_eq_ok {groupBy : List Expression}
    {aggregates : List AggregateExpr} {input : Executor} {out : List Row} :
    (Executor.hashAggregate groupBy aggregates input).run = .ok out ↔
      ∃ rows, input.run = .ok rows ∧
        hashAggregateRows groupBy aggregates input.schema rows = .ok out := by
  rw [Executor.run_eq_ok, Executor.drain]
  constructor
  · intro h
    obtain ⟨d, hd, h⟩ := Except.bind_eq_ok.mp h
    obtain ⟨rows, hrows, h⟩ := Except.bind_eq_ok.mp h
    obtain ⟨out, hout, h⟩ := Except.bind_eq_ok.mp h
    cases h
    refine ⟨rows, ?_, hout⟩
    rw [Executor.run, hd]
    exact hrows
  · rintro ⟨rows, hrows, hout⟩
    rw [Executor.run_eq_ok] at hrows
    rw [hrows, Except.ok_bind, Drain.collect_ofList, Except.ok_bind, hout]
    rfl

/-- An aggregate node aggregates the rows of its input. -/
theorem executePlan_hashAggregate_eq_ok {ann : Annotation R} {groupBy : List Expression}
    {aggregates : List AggregateExpr} {input : PhysicalPlan R} {db : Database}
    {sets : ExternalRowSets} {out : ExecutionResult} :
    executePlan (.hashAggregate ann groupBy aggregates input) db sets = .ok out ↔
      ∃ e rows, buildExecutor input db sets = .ok e ∧ e.run = .ok rows ∧
        hashAggregateRows groupBy aggregates e.schema rows = .ok out.rows ∧
        out.columns = (aggregateSchema groupBy aggregates).qualifiedNames := by
  rw [executePlan_eq_ok]
  simp only [buildExecutor, Except.bind_eq_ok, Except.pure_eq_ok, Except.ok.injEq]
  constructor
  · rintro ⟨_, ⟨e, he, rfl⟩, hrows, hcolumns⟩
    obtain ⟨input, hinput, hout⟩ := Executor.run_hashAggregate_eq_ok.mp hrows
    exact ⟨e, input, he, hinput, hout, hcolumns⟩
  · rintro ⟨e, input, he, hinput, hout, hcolumns⟩
    exact ⟨_, ⟨e, he, rfl⟩, Executor.run_hashAggregate_eq_ok.mpr ⟨input, hinput, hout⟩, hcolumns⟩

end SqlOptimizer
