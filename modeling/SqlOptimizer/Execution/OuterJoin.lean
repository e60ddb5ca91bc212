import SqlOptimizer.Execution.Builder
import SqlOptimizer.Execution.JoinAgreement

/-! What a join node returns against the join that its `join_type` names.  `build_executor` passes
no join type to the executors: each of them returns the pairs that it matches and nothing else. -/

namespace SqlOptimizer

/-- A row of NULLs. -/
def nullRow (width : Nat) : Row := List.replicate width .null

section

variable [Rounding]

/-- The join of SQL: the pairs whose condition is true and, for an outer join, each row of the
preserved side that has no match, padded with NULLs on the other side. -/
def sqlJoin (joinType : JoinType) (condition : Expression) (ls rs : RowSchema)
    (l r : List Row) : List Row :=
  let matched := fun a b => holds condition (a ++ b) (ls.extend rs)
  match joinType with
  | .inner | .cross => Pairs.joinBy (· ++ ·) matched l r
  | .left => Pairs.leftOuter (· ++ ·) (· ++ nullRow rs.size) matched l r
  | .right => Pairs.rightOuter (· ++ ·) (nullRow ls.size ++ ·) matched l r

/-- The pairs of rows that a hash join on these keys returns. -/
def printAlike (leftKey rightKey : Expression) (ls rs : RowSchema) (l r : Row) : Bool :=
  literalToString (keyOf rightKey r rs) == literalToString (keyOf leftKey l ls)

/-- The inputs on which a node that matches by its condition returns the join of its type: an outer
join has a match for every row of the preserved side. -/
def loopKeepsJoinType (joinType : JoinType) (condition : Expression) (ls rs : RowSchema)
    (l r : List Row) : Prop :=
  match joinType with
  | .inner | .cross => True
  | .left => ∀ a ∈ l, ∃ b ∈ r, holds condition (a ++ b) (ls.extend rs) = true
  | .right => ∀ b ∈ r, ∃ a ∈ l, holds condition (a ++ b) (ls.extend rs) = true

/-- The inputs on which a hash join returns the join of its type.  Keys have to agree, and a row of
the preserved side without a match is returned only when its key prints like that of exactly one
row, and that row is all NULL. -/
def hashKeepsJoinType (joinType : JoinType) (condition leftKey rightKey : Expression)
    (ls rs : RowSchema) (l r : List Row) : Prop :=
  match joinType with
  | .inner | .cross => ∀ a ∈ l, ∀ b ∈ r, joinKeysAgree leftKey rightKey ls rs a b
  | .left => ∀ a ∈ l, if ∃ b ∈ r, holds condition (a ++ b) (ls.extend rs) = true
      then ∀ b ∈ r, joinKeysAgree leftKey rightKey ls rs a b
      else r.filter (printAlike leftKey rightKey ls rs a) = [nullRow rs.size]
  | .right => ∀ b ∈ r, if ∃ a ∈ l, holds condition (a ++ b) (ls.extend rs) = true
      then ∀ a ∈ l, joinKeysAgree leftKey rightKey ls rs a b
      else l.filter (printAlike leftKey rightKey ls rs · b) = [nullRow ls.size]

/-- The inputs on which a join node returns the join of its type. -/
def keepsJoinType (kind : JoinKind) (joinType : JoinType) (condition : Expression)
    (ls rs : RowSchema) (l r : List Row) : Prop :=
  match kind with
  | .nestedLoopJoin | .indexNestedLoopJoin => loopKeepsJoinType joinType condition ls rs l r
  | .hashJoin => ∀ leftKey rightKey, hashJoinKeys condition ls rs = .ok (leftKey, rightKey) →
      hashKeepsJoinType joinType condition leftKey rightKey ls rs l r

/-- A selection of pairs is the join of SQL exactly when it selects the matches of each row of the
preserved side, or the row that pads it. -/
theorem joinBy_perm_sqlJoin_iff {joinType : JoinType} {condition : Expression} {ls rs : RowSchema}
    {l r : List Row} {p : Row → Row → Bool} (hl : ∀ a ∈ l, a.length = ls.size) :
    (Pairs.joinBy (· ++ ·) p l r).Perm (sqlJoin joinType condition ls rs l r) ↔
      match joinType with
      | .inner | .cross => ∀ a ∈ l, ∀ b ∈ r, p a b = holds condition (a ++ b) (ls.extend rs)
      | .left => ∀ a ∈ l, if ∃ b ∈ r, holds condition (a ++ b) (ls.extend rs) = true
          then ∀ b ∈ r, p a b = holds condition (a ++ b) (ls.extend rs)
          else r.filter (p a) = [nullRow rs.size]
      | .right => ∀ b ∈ r, if ∃ a ∈ l, holds condition (a ++ b) (ls.extend rs) = true
          then ∀ a ∈ l, p a b = holds condition (a ++ b) (ls.extend rs)
          else l.filter (p · b) = [nullRow ls.size] := by
  cases joinType with
  | inner => exact Pairs.joinBy_perm_iff (Pairs.separates_append hl)
  | cross => exact Pairs.joinBy_perm_iff (Pairs.separates_append hl)
  | left =>
    -- the left row is the first part of a joined row
    exact Pairs.joinBy_perm_leftOuter_iff (·.take ls.size)
      (fun a ha b _ => List.take_left' (hl a ha)) fun a _ => List.append_right_injective a
  | right =>
    simp only [sqlJoin]
    rw [(Pairs.joinBy_swap _ _ _ _).congr_left, (Pairs.rightOuter_perm _ _ _ _ _).congr_right]
    refine Pairs.joinBy_perm_leftOuter_iff (·.drop ls.size) (fun b _ a ha => ?_)
      fun b _ => List.append_left_injective b
    apply List.drop_left'
    rcases List.mem_cons.mp ha with rfl | ha
    · simp [nullRow]
    · exact hl a ha

/-- Matching by the condition itself. -/
theorem loop_perm_sqlJoin_iff {joinType : JoinType} {condition : Expression} {ls rs : RowSchema}
    {l r : List Row} (hl : ∀ a ∈ l, a.length = ls.size) :
    (Pairs.joinBy (· ++ ·) (fun a b => holds condition (a ++ b) (ls.extend rs)) l r).Perm
        (sqlJoin joinType condition ls rs l r) ↔
      loopKeepsJoinType joinType condition ls rs l r := by
  rw [joinBy_perm_sqlJoin_iff hl]
  -- without a match the selection is empty, so it is never the padding
  have hnone : ∀ (rows : List Row) (m : Row → Bool) (pad : Row),
      (if ∃ b ∈ rows, m b = true then ∀ b ∈ rows, m b = m b else rows.filter m = [pad]) ↔
        ∃ b ∈ rows, m b = true := by
    intro rows m pad
    by_cases h : ∃ b ∈ rows, m b = true
    · simp [h]
    · have hempty : rows.filter m = [] := by simpa using h
      rw [if_neg h, hempty]
      simp [h]
  cases joinType with
  | inner => simp [loopKeepsJoinType]
  | cross => simp [loopKeepsJoinType]
  | left => exact forall₂_congr fun a _ => hnone r _ _
  | right => exact forall₂_congr fun b _ => hnone l (fun a => holds condition (a ++ b) _) _

/-- Matching by the printed keys. -/
theorem hash_perm_sqlJoin_iff {joinType : JoinType} {condition leftKey rightKey : Expression}
    {ls rs : RowSchema} {l r : List Row} (hl : ∀ a ∈ l, a.length = ls.size)
    (hkeys : hashJoinKeys condition ls rs = .ok (leftKey, rightKey))
    (hcond : ∀ a ∈ l, ∀ b ∈ r, ∃ v, passes condition (a ++ b) (ls.extend rs) = .ok v) :
    (Pairs.joinBy (· ++ ·) (printAlike leftKey rightKey ls rs) l r).Perm
        (sqlJoin joinType condition ls rs l r) ↔
      hashKeepsJoinType joinType condition leftKey rightKey ls rs l r := by
  rw [joinBy_perm_sqlJoin_iff hl]
  have hagree : ∀ a ∈ l, ∀ b ∈ r, (printAlike leftKey rightKey ls rs a b =
      holds condition (a ++ b) (ls.extend rs) ↔ joinKeysAgree leftKey rightKey ls rs a b) := by
    intro a ha b hb
    obtain ⟨v, hv⟩ := hcond a ha b hb
    exact keys_match_iff hkeys (hl a ha) hv
  cases joinType with
  | inner => exact forall₂_congr fun a ha => forall₂_congr fun b hb => hagree a ha b hb
  | cross => exact forall₂_congr fun a ha => forall₂_congr fun b hb => hagree a ha b hb
  | left =>
    refine forall₂_congr fun a ha => ?_
    exact ite_congr rfl (fun _ => propext (forall₂_congr fun b hb => hagree a ha b hb))
      (fun _ => rfl) |>.to_iff
  | right =>
    refine forall₂_congr fun b hb => ?_
    exact ite_congr rfl (fun _ => propext (forall₂_congr fun a ha => hagree a ha b hb))
      (fun _ => rfl) |>.to_iff

/-- A join node whose inputs return `l` and `r`, and whose condition has a truth value on each pair
of them, returns the join that its type names exactly on the inputs of `keepsJoinType`. -/
theorem join_perm_sqlJoin_iff {R : Type} {ann : Annotation R} {kind : JoinKind}
    {joinType : JoinType} {condition : Expression} {left right : PhysicalPlan R} {db : Database}
    {sets : ExternalRowSets} {e le re : Executor} {l r : List Row}
    (he : buildExecutor (.join ann kind joinType condition left right) db sets = .ok e)
    (hle : buildExecutor left db sets = .ok le) (hre : buildExecutor right db sets = .ok re)
    (hl : le.run = .ok l) (hr : re.run = .ok r)
    (hlw : ∀ a ∈ l, a.length = le.schema.size) (hrw : ∀ b ∈ r, b.length = re.schema.size)
    (hcond : ∀ a ∈ l, ∀ b ∈ r,
      ∃ v, passes condition (a ++ b) (le.schema.extend re.schema) = .ok v) :
    ∃ rows, e.run = .ok rows ∧
      (rows.Perm (sqlJoin joinType condition le.schema re.schema l r) ↔
        keepsJoinType kind joinType condition le.schema re.schema l r) := by
  simp only [buildExecutor, hle, hre, Except.ok_bind] at he
  cases kind with
  | nestedLoopJoin =>
    cases he
    exact ⟨_, Executor.run_nestedLoopJoin hl hr hcond, loop_perm_sqlJoin_iff hlw⟩
  | indexNestedLoopJoin =>
    cases he
    exact ⟨_, Executor.run_nestedLoopJoin hl hr hcond, loop_perm_sqlJoin_iff hlw⟩
  | hashJoin =>
    obtain ⟨⟨leftKey, rightKey⟩, hkeys, he⟩ := Except.bind_eq_ok.mp he
    cases he
    obtain ⟨hlk, hrk, -⟩ := hashJoinKeys_eq_ok hkeys
    refine ⟨_, Executor.run_hashJoin hl hr (fun a ha => evaluate_eq_ok_keyOf hlk (hlw a ha))
      (fun b hb => evaluate_eq_ok_keyOf hrk (hrw b hb)), ?_⟩
    refine (hash_perm_sqlJoin_iff hlw hkeys hcond).trans ?_
    simp [keepsJoinType, hkeys]

end

/-- A table with the one column `k`. -/
def keyedTable (keys : List Literal) : Table where
  columnNames := ["k"]
  rows := keys.map fun k => [k]
  width := by simp

def keyedDatabase (l r : List Literal) : Database :=
  AList.insert "b" (keyedTable r) (AList.insert "a" (keyedTable l) ∅)

def noEstimates : Annotation ℚ := ⟨⟨0, 0, 0⟩, 0, "", 0⟩

/-- The join of the scans of `a` and `b` on `a.k = b.k`. -/
def keyedJoin (kind : JoinKind) (joinType : JoinType) : PhysicalPlan ℚ :=
  .join noEstimates kind joinType keyedCondition (.seqScan noEstimates "a" none [])
    (.seqScan noEstimates "b" none [])

theorem join_perm_sqlJoin_matched :
    ∃ e rows, buildExecutor (keyedJoin .hashJoin .left)
        (keyedDatabase [.integer 1, .integer 1] [.integer 1, .integer 2]) ∅ = .ok e ∧
      @Executor.run .exact e = .ok rows ∧
      rows.Perm (@sqlJoin .exact .left keyedCondition (scanSchema "a" ["k"]) (scanSchema "b" ["k"])
        [[.integer 1], [.integer 1]] [[.integer 1], [.integer 2]]) := by
  obtain ⟨rows, hrows, hiff⟩ := @join_perm_sqlJoin_iff .exact ℚ noEstimates .hashJoin .left
    keyedCondition (.seqScan noEstimates "a" none []) (.seqScan noEstimates "b" none [])
    (keyedDatabase [.integer 1, .integer 1] [.integer 1, .integer 2]) ∅ _ _ _
    [[.integer 1], [.integer 1]] [[.integer 1], [.integer 2]] rfl rfl rfl rfl rfl (by decide)
    (by decide) (by
      intro a ha b hb
      simp only [List.mem_cons, List.not_mem_nil, or_false, or_self] at ha hb
      subst ha
      rcases hb with rfl | rfl <;> exact ⟨_, rfl⟩)
  refine ⟨_, rows, rfl, hrows, hiff.mpr ?_⟩
  intro leftKey rightKey hkeys
  cases hkeys
  simp only [hashKeepsJoinType]
  decide

/-- The left row without a match is lost. -/
theorem join_not_perm_sqlJoin_left :
    ∃ e, buildExecutor (keyedJoin .nestedLoopJoin .left) (keyedDatabase [.integer 1] [.integer 2])
        ∅ = .ok e ∧ @Executor.run .exact e = .ok [] ∧
      @sqlJoin .exact .left keyedCondition (scanSchema "a" ["k"]) (scanSchema "b" ["k"])
        [[.integer 1]] [[.integer 2]] = [[.integer 1, .null]] ∧
      ¬ [].Perm [[Literal.integer 1, .null]] :=
  ⟨_, rfl, by decide, by decide, by decide⟩

end SqlOptimizer
