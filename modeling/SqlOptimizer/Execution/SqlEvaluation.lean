import SqlOptimizer.Execution.OuterJoin
import SqlOptimizer.Execution.WhereTruth

/-! The value of an expression in SQL, where a predicate is TRUE, FALSE or UNKNOWN, and the joins
and the WHERE that keep the rows on which a predicate is TRUE. -/

namespace SqlOptimizer

/-- A comparison of any two values.  FALSE comes before TRUE. -/
def sqlComparison (op : BinaryOperator) : Literal → Literal → Truth
  | .boolean p, .boolean q =>
    sqlCompare op (.integer (if p then 1 else 0)) (.integer (if q then 1 else 0))
  | a, b => sqlCompare op a b

section

variable [Rounding]

/-- The value of an expression: an operand that is NULL makes a comparison UNKNOWN and an arithmetic
operation NULL.  NULL stands for UNKNOWN, and for what cannot be evaluated. -/
def sqlEvaluate (row : Row) (schema : RowSchema) : Expression → Literal
  | .unaryOp .not e => literalOfTruth (sqlEvaluate row schema e).truth.not
  | .unaryOp .neg e =>
    let v := sqlEvaluate row schema e
    if literalIsNull v then .null else (evaluateUnary .neg v).toOption.getD .null
  | .binaryOp l op r =>
    let a := sqlEvaluate row schema l
    let b := sqlEvaluate row schema r
    match op with
    | .and => literalOfTruth (a.truth.and b.truth)
    | .or => literalOfTruth (a.truth.or b.truth)
    | .add | .sub | .mul | .div =>
      if literalIsNull a || literalIsNull b then .null
      else (evaluateBinary op a b).toOption.getD .null
    | _ => literalOfTruth (sqlComparison op a b)
  | e => (evaluate e row schema).toOption.getD .null

/-- Whether a predicate is TRUE in a row. -/
def sqlHolds (predicate : Expression) (row : Row) (schema : RowSchema) : Bool :=
  decide ((sqlEvaluate row schema predicate).truth = .tt)

theorem sqlHolds_and (a b : Expression) (row : Row) (s : RowSchema) :
    sqlHolds (.binaryOp a .and b) row s = (sqlHolds a row s && sqlHolds b row s) := by
  simp [sqlHolds, sqlEvaluate]

/-- Evaluation depends on the columns of an expression and on the aggregates that it may name. -/
theorem sqlEvaluate_congr {e : Expression} {row row' : Row} {s s' : RowSchema}
    (hcol : ∀ t c, (t, c) ∈ e.columns →
      evaluate (.column t c) row s = evaluate (.column t c) row' s')
    (hfun : ∀ name args, evaluate (.function name args) row s =
      evaluate (.function name args) row' s') :
    sqlEvaluate row s e = sqlEvaluate row' s' e := by
  match e with
  | .literal _ => rfl
  | .wildcard => rfl
  | .column t c => simp only [sqlEvaluate, hcol t c (by simp [Expression.columns])]
  | .function name args => simp only [sqlEvaluate, hfun name args]
  | .unaryOp op e =>
    have ih := sqlEvaluate_congr (e := e) hcol hfun
    cases op <;> simp only [sqlEvaluate, ih]
  | .binaryOp l op r =>
    simp only [Expression.columns, List.mem_append] at hcol
    simp only [sqlEvaluate, sqlEvaluate_congr (e := l) (fun t c h => hcol t c (.inl h)) hfun,
      sqlEvaluate_congr (e := r) (fun t c h => hcol t c (.inr h)) hfun]

/-- The pairs on which the condition is TRUE and, for an outer join, each row of the preserved side
that has none, padded with NULLs. -/
def standardJoin (joinType : JoinType) (condition : Expression) (ls rs : RowSchema)
    (l r : List Row) : List Row :=
  let matched := fun a b => sqlHolds condition (a ++ b) (ls.extend rs)
  match joinType with
  | .inner | .cross => Pairs.joinBy (· ++ ·) matched l r
  | .left => Pairs.leftOuter (· ++ ·) (· ++ nullRow rs.size) matched l r
  | .right => Pairs.rightOuter (· ++ ·) (nullRow ls.size ++ ·) matched l r

end

/-- A comparison with NULL is UNKNOWN on both sides of a NOT; the evaluator has it TRUE on one. -/
example : @sqlHolds .exact (.binaryOp (.literal .null) .neq (.literal (.integer 1))) [] ⟨[], []⟩ = false ∧
    @sqlHolds .exact (.unaryOp .not (.binaryOp (.literal .null) .eq (.literal (.integer 1)))) []
      ⟨[], []⟩ = false ∧
    @holds .exact (.binaryOp (.literal .null) .neq (.literal (.integer 1))) [] ⟨[], []⟩ = true := by
  decide

end SqlOptimizer
