import SqlOptimizer.Execution.RowSchema

/-! `execution/expr_eval.cpp`: the value of an expression in a row. -/

namespace SqlOptimizer

abbrev Row := List Literal

/-- `row[idx]`.  An index past the end is undefined in C++ and an error here. -/
def rowAt (row : Row) (idx : Nat) : Except String Literal :=
  match row[idx]? with
  | some v => .ok v
  | none => .error "row index out of range"

theorem rowAt_eq_ok {row : Row} {i : Nat} {v : Literal} :
    rowAt row i = .ok v ↔ row[i]? = some v := by
  unfold rowAt
  cases row[i]? <;> simp

theorem rowAt_append_left {l r : Row} {i : Nat} (h : i < l.length) :
    rowAt (l ++ r) i = rowAt l i := by
  simp [rowAt, List.getElem?_append_left h]

theorem rowAt_append_right (l r : Row) (i : Nat) : rowAt (l ++ r) (i + l.length) = rowAt r i := by
  simp only [rowAt, List.getElem?_append_right (Nat.le_add_left _ _), Nat.add_sub_cancel]

def columnText (table : Option String) (column : String) : String :=
  (match table with
    | some t => t ++ "."
    | none => "") ++ column

section

variable [Rounding]

def evaluateUnary (op : UnaryOperator) (v : Literal) : Except String Literal :=
  match op with
  | .not => do return .boolean (!(← literalTruthy v))
  | .neg => match v with
    | .integer i => .ok (.integer (-i))
    | _ => do return .floating (Binary64.neg (← literalAsDouble v))

def evaluateBinary (op : BinaryOperator) (l r : Literal) : Except String Literal :=
  match op with
  | .eq => .ok (.boolean (literalEqual l r))
  | .neq => .ok (.boolean (!literalEqual l r))
  | .lt => do return .boolean (← literalLess l r)
  | .gt => do return .boolean (← literalLess r l)
  | .lte => do return .boolean (!(← literalLess r l))
  | .gte => do return .boolean (!(← literalLess l r))
  | .and => do
    -- `&&` evaluates its second operand only when the first is true
    if ← literalTruthy l then return .boolean (← literalTruthy r) else return .boolean false
  | .or => do
    if ← literalTruthy l then return .boolean true else return .boolean (← literalTruthy r)
  | .add => literalAdd l r
  | .sub => literalSub l r
  | .mul => literalMul l r
  | .div => literalDiv l r

/-- The value of `expr` in `row`, whose columns `schema` describes. -/
def evaluate (expr : Expression) (row : Row) (schema : RowSchema) : Except String Literal :=
  match expr with
  | .literal l => .ok l
  | .column t c =>
    match schema.resolve t c with
    | some idx => rowAt row idx
    | none => .error ("execution: cannot resolve column '" ++ columnText t c ++ "'")
  | .unaryOp op e => do evaluateUnary op (← evaluate e row schema)
  | .binaryOp l op r => do
    let lv ← evaluate l row schema
    let rv ← evaluate r row schema
    evaluateBinary op lv rv
  | .function name args =>
    let arg := args.head?.getD .wildcard
    match schema.resolveAggregate name arg with
    | some idx => rowAt row idx
    | none => .error ("execution: cannot resolve aggregate reference '" ++ name ++
        "(...)' -- expected it to match an aggregate already computed by an ancestor HashAggregate")
  | .wildcard => .error "execution: a bare '*' cannot be evaluated as a row expression"

/-- Whether a row passes a predicate, as `FilterExec` and the joins test it. -/
def passes (predicate : Expression) (row : Row) (schema : RowSchema) : Except String Bool := do
  literalTruthy (← evaluate predicate row schema)

/-- Whether a predicate is true in a row.  A predicate that cannot be evaluated is not. -/
def holds (predicate : Expression) (row : Row) (schema : RowSchema) : Bool :=
  match passes predicate row schema with
  | .ok b => b
  | .error _ => false

theorem passes_eq_ok_holds {p : Expression} {row : Row} {s : RowSchema}
    (h : ∃ b, passes p row s = .ok b) : passes p row s = .ok (holds p row s) := by
  obtain ⟨b, hb⟩ := h
  simp [holds, hb]

theorem evaluate_column {t : Option String} {c : String} {s : RowSchema} {i : Nat}
    (h : s.resolve t c = some i) (row : Row) : evaluate (.column t c) row s = rowAt row i := by
  simp [evaluate, h]

/-- A column that resolves has a value in every row of the schema's width. -/
theorem evaluate_column_eq_ok {t : Option String} {c : String} {s : RowSchema} {i : Nat}
    (h : s.resolve t c = some i) {row : Row} (hw : row.length = s.size) :
    ∃ v, evaluate (.column t c) row s = .ok v := by
  have hi : i < row.length := hw ▸ RowSchema.resolve_lt h
  exact ⟨row[i], by rw [evaluate_column h, rowAt_eq_ok, List.getElem?_eq_getElem hi]⟩

/-- Evaluation depends on the columns of an expression and on the aggregates that it may name. -/
theorem evaluate_congr {e : Expression} {row row' : Row} {s s' : RowSchema}
    (hcol : ∀ t c, (t, c) ∈ e.columns →
      evaluate (.column t c) row s = evaluate (.column t c) row' s')
    (hfun : ∀ name args, evaluate (.function name args) row s =
      evaluate (.function name args) row' s') :
    evaluate e row s = evaluate e row' s' := by
  match e with
  | .literal _ => rfl
  | .column t c => exact hcol t c (by simp [Expression.columns])
  | .unaryOp op e =>
    simp only [evaluate, evaluate_congr (e := e) hcol hfun]
  | .binaryOp l op r =>
    simp only [Expression.columns, List.mem_append] at hcol
    simp only [evaluate, evaluate_congr (e := l) (fun t c h => hcol t c (.inl h)) hfun,
      evaluate_congr (e := r) (fun t c h => hcol t c (.inr h)) hfun]
  | .function name args => exact hfun name args
  | .wildcard => rfl

end

end SqlOptimizer
