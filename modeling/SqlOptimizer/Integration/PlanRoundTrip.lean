import SqlOptimizer.Integration.PlanSerializer
import SqlOptimizer.Library.Failure

/-! The plans that come back from their JSON as they were. -/

namespace SqlOptimizer

/-! ### Integers through doubles -/

/-- An integer of at most 53 significant bits, which a double holds. -/
def IntExact (i : Int64) : Prop := 2 ^ (Nat.log2 i.toInt.natAbs - 52) ∣ i.toInt.natAbs

/-- The same for a `size_t`. -/
def SizeExact (n : Nat) : Prop := n < 2 ^ 64 ∧ 2 ^ (Nat.log2 n - 52) ∣ n

instance (i : Int64) : Decidable (IntExact i) := inferInstanceAs (Decidable (_ ∣ _))

instance (n : Nat) : Decidable (SizeExact n) := inferInstanceAs (Decidable (_ ∧ _))

theorem truncated_natCast (neg : Bool) (n : Nat) :
    truncated neg (n : ℚ≥0) = if neg then -(n : Int) else n := by
  simp [truncated]

theorem castInt64_ofInt {i : Int64} : castInt64 (Binary64.ofInt i.toInt) = .ok i ↔ IntExact i := by
  have hlow := i.le_toInt
  have hhigh := i.toInt_lt
  have hsign :
      (if decide (i.toInt < 0) then -(i.toInt.natAbs : Int) else i.toInt.natAbs) = i.toInt := by
    by_cases hneg : i.toInt < 0
    · rw [decide_eq_true hneg, if_pos rfl]
      omega
    · rw [decide_eq_false hneg, if_neg Bool.false_ne_true]
      omega
  rw [IntExact, ← Binary64.roundNat_eq_self, Binary64.ofInt, castInt64, truncated_natCast]
  generalize hr : Binary64.roundNat i.toInt.natAbs = r
  generalize ht : (if decide (i.toInt < 0) then -(r : Int) else r) = t
  constructor
  · intro h
    by_cases hrange : -2 ^ 63 ≤ t ∧ t < 2 ^ 63
    · rw [if_pos hrange] at h
      have htoInt := congrArg Int64.toInt (Except.ok.inj h)
      rw [Int64.toInt_ofInt_of_le hrange.1 hrange.2] at htoInt
      split at ht <;> omega
    · rw [if_neg hrange] at h
      cases h
  · rintro rfl
    rw [hsign] at ht
    rw [← ht, if_pos ⟨hlow, hhigh⟩, Int64.ofInt_toInt]

theorem castSize_ofInt {n : Nat} : castSize (Binary64.ofInt n) = .ok n ↔ SizeExact n := by
  have hneg : ¬ (n : Int) < 0 := by omega
  rw [SizeExact, ← Binary64.roundNat_eq_self, Binary64.ofInt, castSize, truncated_natCast,
    Int.natAbs_natCast, decide_eq_false hneg, if_neg Bool.false_ne_true]
  generalize Binary64.roundNat n = r
  constructor
  · intro h
    split at h
    · rename_i hrange
      have hr : r = n := by simpa using h
      omega
    · cases h
  · rintro ⟨hlt, rfl⟩
    rw [if_pos (by omega), Int.toNat_natCast]

def Literal.Exact : Literal → Prop
  | .integer i => IntExact i
  | _ => True

mutual

/-- The integer literals of an expression survive. -/
def Expression.Exact : Expression → Prop
  | .column _ _ => True
  | .literal l => l.Exact
  | .binaryOp l _ r => l.Exact ∧ r.Exact
  | .unaryOp _ e => e.Exact
  | .function _ args => ExpressionsExact args
  | .wildcard => True

def ExpressionsExact : List Expression → Prop
  | [] => True
  | e :: es => e.Exact ∧ ExpressionsExact es

end

/-- The integer literals of a plan, its row estimates, its LIMIT counts and its slots survive. -/
def PhysicalPlan.Exact {R : Type} : PhysicalPlan R → Prop
  | .seqScan ann _ _ _ => SizeExact ann.rows
  | .indexScan ann _ _ _ _ probe => SizeExact ann.rows ∧ probe.Exact
  | .filter ann predicate input => SizeExact ann.rows ∧ predicate.Exact ∧ input.Exact
  | .join ann _ _ condition left right =>
    SizeExact ann.rows ∧ condition.Exact ∧ left.Exact ∧ right.Exact
  | .hashAggregate ann groupBy aggregates input =>
    SizeExact ann.rows ∧ (∀ g ∈ groupBy, g.Exact) ∧ (∀ agg ∈ aggregates, agg.arg.Exact) ∧
      input.Exact
  | .project ann expressions input =>
    SizeExact ann.rows ∧ (∀ p ∈ expressions, p.1.Exact) ∧ input.Exact
  | .sort ann orderBy input =>
    SizeExact ann.rows ∧ (∀ item ∈ orderBy, item.expression.Exact) ∧ input.Exact
  | .limit ann count input => SizeExact ann.rows ∧ SizeExact count ∧ input.Exact
  | .externalRows ann _ _ slot groupBy aggregates =>
    SizeExact ann.rows ∧ SizeExact slot ∧ (∀ g ∈ groupBy, g.Exact) ∧
      ∀ agg ∈ aggregates, agg.arg.Exact

namespace PlanSerializer

/-! ### Enumerations -/

theorem exprKindFromString_text (k : ExprKind) : exprKindFromString (exprKindText k) = .ok k := by
  cases k <;> rfl

theorem literalKindFromString_text (k : LiteralKind) :
    literalKindFromString (literalKindText k) = .ok k := by
  cases k <;> rfl

theorem binaryOpFromString_text (op : BinaryOperator) :
    binaryOpFromString (binaryOpText op) = .ok op := by
  cases op <;> rfl

theorem unaryOpFromString_text (op : UnaryOperator) :
    unaryOpFromString (unaryOpText op) = .ok op := by
  cases op <;> rfl

theorem joinTypeFromString_text (t : JoinType) : joinTypeFromString (joinTypeText t) = .ok t := by
  cases t <;> rfl

theorem planKindFromString_text (k : PlanKind) : planKindFromString (planKindText k) = .ok k := by
  rcases k with _ | _ | _ | (_ | _ | _) | _ | _ | _ | _ | _ <;> rfl

/-! ### Fields -/

theorem readText_optionalText {j : JsonValue} {key : String} {s : Option String}
    (h : j.find key = some (optionalText s)) : readText j key = s := by
  rw [readText, h]
  cases s <;> rfl

/-- A list comes back when its elements do. -/
theorem mapM_map_eq_ok {α : Type} {toJson : α → JsonValue} {fromJson : JsonValue → Except String α}
    {as : List α} :
    (as.map toJson).mapM fromJson = .ok as ↔ ∀ a ∈ as, fromJson (toJson a) = .ok a := by
  rw [Except.mapM_eq_ok, List.forall₂_map_left_iff, List.forall₂_same]

/-! ### Expressions -/

theorem castInt64_zero : castInt64 (Binary64.ofInt (0 : Int64).toInt) = .ok 0 :=
  castInt64_ofInt.mpr (by decide)

/-- The integer of the fields is that of an integer literal, or zero. -/
theorem literalFromJson_literalToJson (l : Literal) :
    literalFromJson (literalToJson l) = .ok l ↔ l.Exact := by
  have hread : literalFromJson (literalToJson l) = (do
      let kind ← literalKindFromString (literalKindText l.fields.kind)
      let intVal ← castInt64 (Binary64.ofInt l.fields.intVal.toInt)
      return LiteralFields.literal
        ⟨kind, intVal, l.fields.floatVal, l.fields.strVal, l.fields.boolVal⟩) := rfl
  rw [hread, literalKindFromString_text]
  cases l with
  | integer i =>
    simp only [Except.ok_bind, Except.bind_eq_ok, Except.pure_eq_ok, Literal.fields,
      LiteralFields.literal, Except.ok.injEq, Literal.integer.injEq, exists_eq_right]
    exact castInt64_ofInt
  | _ => exact iff_of_true (by rw [Literal.fields, castInt64_zero]; rfl) trivial

theorem literalFromJson_null : literalFromJson (literalToJson .null) = .ok .null :=
  (literalFromJson_literalToJson .null).mpr trivial

theorem exprFrom_exprObject (f : ExprFields JsonValue) (fuel : Nat) :
    exprFrom (fuel + 1) (exprObject f) = (do
      let literal ← literalFromJson (literalToJson f.literal)
      let left ← childOf (exprFrom fuel) (some (optionalChild f.left))
      let right ← childOf (exprFrom fuel) (some (optionalChild f.right))
      let operand ← childOf (exprFrom fuel) (some (optionalChild f.operand))
      let args ← f.args.mapM (exprFrom fuel)
      ExprFields.expression ⟨f.kind, f.table, f.column, literal, left, f.binaryOp, right, f.unaryOp,
        operand, f.funcName, args⟩) := by
  have hread : exprFrom (fuel + 1) (exprObject f) = (do
      let kind ← exprKindFromString (exprKindText f.kind)
      let literal ← literalFromJson (literalToJson f.literal)
      let left ← childOf (exprFrom fuel) (some (optionalChild f.left))
      let binaryOp ← binaryOpFromString (binaryOpText f.binaryOp)
      let right ← childOf (exprFrom fuel) (some (optionalChild f.right))
      let unaryOp ← unaryOpFromString (unaryOpText f.unaryOp)
      let operand ← childOf (exprFrom fuel) (some (optionalChild f.operand))
      let args ← f.args.mapM (exprFrom fuel)
      ExprFields.expression ⟨kind, readText (exprObject f) "table", f.column, literal, left,
        binaryOp, right, unaryOp, operand, f.funcName, args⟩) := rfl
  have htable : readText (exprObject f) "table" = f.table := readText_optionalText rfl
  simp only [hread, htable, exprKindFromString_text, binaryOpFromString_text,
    unaryOpFromString_text, Except.ok_bind]

attribute [local simp] exprToJson exprsToJson planToJson

theorem exists_exprToJson (e : Expression) : ∃ f, exprToJson e = exprObject f := by
  cases e <;> exact ⟨_, by rw [exprToJson]⟩

theorem childOf_exprToJson (read : JsonValue → Except String Expression) (e : Expression) :
    childOf read (some (optionalChild (some (exprToJson e)))) = (do
      return some (← read (exprToJson e))) := by
  obtain ⟨f, hf⟩ := exists_exprToJson e
  rw [hf]
  rfl

theorem childOf_none {α : Type} (read : JsonValue → Except String α) :
    childOf read (some (optionalChild none)) = .ok none := rfl

/-- What is read for each kind of expression. -/
theorem exprFrom_column (fuel : Nat) (t : Option String) (c : String) :
    exprFrom (fuel + 1) (exprToJson (.column t c)) = .ok (.column t c) := by
  rw [exprToJson, exprFrom_exprObject, literalFromJson_null]
  rfl

theorem exprFrom_literal (fuel : Nat) (l : Literal) :
    exprFrom (fuel + 1) (exprToJson (.literal l)) = (do
      return .literal (← literalFromJson (literalToJson l))) := by
  rw [exprToJson, exprFrom_exprObject]
  rfl

theorem exprFrom_binaryOp (fuel : Nat) (l r : Expression) (op : BinaryOperator) :
    exprFrom (fuel + 1) (exprToJson (.binaryOp l op r)) = (do
      let l' ← exprFrom fuel (exprToJson l)
      let r' ← exprFrom fuel (exprToJson r)
      return .binaryOp l' op r') := by
  rw [exprToJson, exprFrom_exprObject, literalFromJson_null, childOf_exprToJson, childOf_exprToJson,
    childOf_none]
  simp only [Except.ok_bind, bind_assoc, pure_bind]
  rfl

theorem exprFrom_unaryOp (fuel : Nat) (op : UnaryOperator) (e : Expression) :
    exprFrom (fuel + 1) (exprToJson (.unaryOp op e)) = (do
      return .unaryOp op (← exprFrom fuel (exprToJson e))) := by
  rw [exprToJson, exprFrom_exprObject, literalFromJson_null, childOf_exprToJson, childOf_none]
  simp only [Except.ok_bind, bind_assoc, pure_bind]
  rfl

theorem exprFrom_function (fuel : Nat) (name : String) (args : List Expression) :
    exprFrom (fuel + 1) (exprToJson (.function name args)) = (do
      return .function name (← (exprsToJson args).mapM (exprFrom fuel))) := by
  rw [exprToJson, exprFrom_exprObject, literalFromJson_null, childOf_none]
  rfl

theorem exprFrom_wildcard (fuel : Nat) :
    exprFrom (fuel + 1) (exprToJson .wildcard) = .ok .wildcard := by
  rw [exprToJson, exprFrom_exprObject, literalFromJson_null]
  rfl

theorem exists_fuel {j : JsonValue} {fuel : Nat} (h : j.calls ≤ fuel) :
    ∃ n, fuel = n + 1 ∧ j.calls ≤ n + 1 := by
  have hpos := j.calls_pos
  exact ⟨fuel - 1, by omega, by omega⟩

theorem calls_lt_binaryOp (l r : Expression) (op : BinaryOperator) :
    (exprToJson l).calls < (exprToJson (.binaryOp l op r)).calls ∧
      (exprToJson r).calls < (exprToJson (.binaryOp l op r)).calls := by
  rw [exprToJson]
  constructor
  · exact JsonValue.calls_lt_of_mem_entries (e := ("left", exprToJson l)) (by simp [optionalChild])
  · exact JsonValue.calls_lt_of_mem_entries (e := ("right", exprToJson r)) (by simp [optionalChild])

theorem calls_lt_unaryOp (op : UnaryOperator) (e : Expression) :
    (exprToJson e).calls < (exprToJson (.unaryOp op e)).calls := by
  rw [exprToJson.eq_def (.unaryOp op e)]
  exact JsonValue.calls_lt_of_mem_entries (e := ("operand", exprToJson e)) (by simp [optionalChild])

theorem calls_lt_function (name : String) (args : List Expression) :
    ∀ j ∈ exprsToJson args, j.calls < (exprToJson (.function name args)).calls := by
  intro j hj
  rw [exprToJson]
  refine (JsonValue.calls_lt_of_mem_elements hj).trans ?_
  exact JsonValue.calls_lt_of_mem_entries (e := ("args", .array (exprsToJson args))) (by simp)

mutual

theorem exprFrom_exprToJson {e : Expression} {fuel : Nat} (hfuel : (exprToJson e).calls ≤ fuel) :
    exprFrom fuel (exprToJson e) = .ok e ↔ e.Exact := by
  obtain ⟨fuel, rfl, hcalls⟩ := exists_fuel hfuel
  match e with
  | .column t c => exact iff_of_true (exprFrom_column fuel t c) trivial
  | .literal l =>
    rw [exprFrom_literal]
    simp only [Except.bind_eq_ok, Except.pure_eq_ok, Except.ok.injEq, Expression.literal.injEq,
      exists_eq_right]
    exact literalFromJson_literalToJson l
  | .binaryOp l op r =>
    obtain ⟨hl, hr⟩ := calls_lt_binaryOp l r op
    have hleft : exprFrom fuel (exprToJson l) = .ok l ↔ l.Exact :=
      exprFrom_exprToJson (by omega)
    have hright : exprFrom fuel (exprToJson r) = .ok r ↔ r.Exact :=
      exprFrom_exprToJson (by omega)
    rw [exprFrom_binaryOp]
    simp only [Except.bind_eq_ok, Except.pure_eq_ok, Except.ok.injEq, Expression.binaryOp.injEq,
      true_and]
    constructor
    · rintro ⟨_, hl', _, hr', rfl, rfl⟩
      exact ⟨hleft.mp hl', hright.mp hr'⟩
    · rintro ⟨hl', hr'⟩
      exact ⟨l, hleft.mpr hl', r, hright.mpr hr', rfl, rfl⟩
  | .unaryOp op e =>
    have he := calls_lt_unaryOp op e
    rw [exprFrom_unaryOp]
    simp only [Except.bind_eq_ok, Except.pure_eq_ok, Except.ok.injEq, Expression.unaryOp.injEq,
      true_and, exists_eq_right]
    exact exprFrom_exprToJson (e := e) (by omega)
  | .function name args =>
    have hargs := calls_lt_function name args
    rw [exprFrom_function]
    simp only [Except.bind_eq_ok, Except.pure_eq_ok, Except.ok.injEq, Expression.function.injEq,
      true_and, exists_eq_right]
    exact exprsFrom_exprsToJson fun j hj => by
      have := hargs j hj
      omega
  | .wildcard => exact iff_of_true (exprFrom_wildcard fuel) trivial

theorem exprsFrom_exprsToJson {es : List Expression} {fuel : Nat}
    (hfuel : ∀ j ∈ exprsToJson es, j.calls ≤ fuel) :
    (exprsToJson es).mapM (exprFrom fuel) = .ok es ↔ ExpressionsExact es := by
  match es with
  | [] => exact iff_of_true rfl trivial
  | e :: es =>
    have he : exprFrom fuel (exprToJson e) = .ok e ↔ e.Exact :=
      exprFrom_exprToJson (hfuel _ List.mem_cons_self)
    have hes : (exprsToJson es).mapM (exprFrom fuel) = .ok es ↔ ExpressionsExact es :=
      exprsFrom_exprsToJson fun j hj => hfuel j (List.mem_cons_of_mem _ hj)
    rw [exprsToJson, Except.mapM_cons_eq_ok]
    constructor
    · rintro ⟨_, _, he', hes', h⟩
      cases h
      exact ⟨he.mp he', hes.mp hes'⟩
    · rintro ⟨he', hes'⟩
      exact ⟨e, es, he.mpr he', hes.mpr hes', rfl⟩

end

theorem exprFromJson_exprToJson (e : Expression) : exprFromJson (exprToJson e) = .ok e ↔ e.Exact :=
  exprFrom_exprToJson le_rfl

theorem exprFromJson_wildcard : exprFromJson (exprToJson .wildcard) = .ok .wildcard :=
  (exprFromJson_exprToJson .wildcard).mpr trivial

/-! ### Plans -/

theorem aggregateFromJson_aggregateToJson (agg : AggregateExpr) :
    aggregateFromJson (aggregateToJson agg) = .ok agg ↔ agg.arg.Exact := by
  have hread : aggregateFromJson (aggregateToJson agg) = (do
      let arg ← exprFromJson (exprToJson agg.arg)
      return ⟨agg.func, arg, readText (aggregateToJson agg) "alias"⟩) := rfl
  have halias : readText (aggregateToJson agg) "alias" = agg.aliasName := readText_optionalText rfl
  rw [hread, halias, ← exprFromJson_exprToJson]
  obtain ⟨func, arg, aliasName⟩ := agg
  simp only [Except.bind_eq_ok, Except.pure_eq_ok, Except.ok.injEq, AggregateExpr.mk.injEq,
    true_and, and_true, exists_eq_right]

theorem orderByFromJson_orderByToJson (item : OrderByItem) :
    orderByFromJson (orderByToJson item) = .ok item ↔ item.expression.Exact := by
  have hread : orderByFromJson (orderByToJson item) = (do
      let expression ← exprFromJson (exprToJson item.expression)
      return ⟨expression, item.ascending⟩) := rfl
  rw [hread, ← exprFromJson_exprToJson]
  obtain ⟨expression, ascending⟩ := item
  simp only [Except.bind_eq_ok, Except.pure_eq_ok, Except.ok.injEq, OrderByItem.mk.injEq, and_true,
    exists_eq_right]

theorem pairFromJson_pairToJson (p : Expression × Option String) :
    pairFromJson (pairToJson p) = .ok p ↔ p.1.Exact := by
  have hread : pairFromJson (pairToJson p) = (do
      let expr ← exprFromJson (exprToJson p.1)
      return (expr, readText (pairToJson p) "alias")) := rfl
  have halias : readText (pairToJson p) "alias" = p.2 := readText_optionalText rfl
  rw [hread, halias, ← exprFromJson_exprToJson]
  obtain ⟨expr, aliasName⟩ := p
  simp only [Except.bind_eq_ok, Except.pure_eq_ok, Except.ok.injEq, Prod.mk.injEq, and_true,
    exists_eq_right]

theorem readField_find {α : Type} {j : JsonValue} {k : String} {v : JsonValue}
    (h : j.find k = some v) (default : α) (read : JsonValue → Except String α) :
    readField j k default read = read v := by
  rw [readField, h]

theorem readChild_find {α : Type} {j : JsonValue} {k : String} {v : JsonValue}
    (h : j.find k = some v) (read : JsonValue → Except String α) :
    readChild j k read = childOf read (some v) := by
  rw [readChild, h]

theorem readArray_find {α : Type} {j : JsonValue} {k : String} {vs : List JsonValue}
    (h : j.find k = some (.array vs)) (read : JsonValue → Except String α) :
    readArray j k read = vs.mapM read := by
  rw [readArray, h]

theorem annotationFrom_planObject (f : PlanFields JsonValue) : annotationFrom (planObject f) = (do
    let rows ← castSize (Binary64.ofInt f.ann.rows)
    return ⟨f.ann.cost, rows, f.ann.reasoning, f.ann.confidence⟩) := by
  have hread : annotationFrom (planObject f) = (do
      let cost ← costFromJson (costToJson f.ann.cost)
      let rows ← castSize (ofSize f.ann.rows).asNumber
      return ⟨cost, rows, f.ann.reasoning, f.ann.confidence⟩) := by
    rw [annotationFrom,
      readField_find (j := planObject f) (k := "estimated_cost") (v := costToJson f.ann.cost) rfl,
      readField_find (j := planObject f) (k := "estimated_rows") (v := ofSize f.ann.rows) rfl,
      readField_find (j := planObject f) (k := "cardinality_reasoning")
        (v := .string f.ann.reasoning) rfl,
      readField_find (j := planObject f) (k := "cardinality_confidence")
        (v := .number f.ann.confidence) rfl]
    simp only [JsonValue.asNumber, JsonValue.asString, Except.ok_bind]
  have hcost : costFromJson (costToJson f.ann.cost) = .ok f.ann.cost := rfl
  rw [hread, hcost, Except.ok_bind, ofSize, JsonValue.asNumber]

/-- Everything but the integers comes back. -/
theorem planFrom_planObject (f : PlanFields JsonValue) (fuel : Nat) :
    planFrom (fuel + 1) (planObject f) = (do
      let rows ← castSize (Binary64.ofInt f.ann.rows)
      let indexProbeValue ← exprFromJson (exprToJson f.indexProbeValue)
      let predicate ← exprFromJson (exprToJson f.predicate)
      let input ← childOf (planFrom fuel) (some (optionalChild f.input))
      let condition ← exprFromJson (exprToJson f.condition)
      let left ← childOf (planFrom fuel) (some (optionalChild f.left))
      let right ← childOf (planFrom fuel) (some (optionalChild f.right))
      let groupBy ← (f.groupBy.map exprToJson).mapM exprFromJson
      let aggregates ← (f.aggregates.map aggregateToJson).mapM aggregateFromJson
      let expressions ← (f.expressions.map pairToJson).mapM pairFromJson
      let orderBy ← (f.orderBy.map orderByToJson).mapM orderByFromJson
      let count ← castSize (Binary64.ofInt f.count)
      PlanFields.plan ⟨f.kind, ⟨f.ann.cost, rows, f.ann.reasoning, f.ann.confidence⟩, f.tableName,
        f.aliasName, f.projectedColumns, f.indexColumn, indexProbeValue, predicate, input,
        f.joinType, condition, left, right, groupBy, aggregates, expressions, orderBy, count⟩) := by
  have halias : readText (planObject f) "alias" = f.aliasName := readText_optionalText rfl
  have hcolumns : ((f.projectedColumns.map JsonValue.string).mapM fun v =>
      (.ok v.asString : Except String String)) = .ok f.projectedColumns :=
    mapM_map_eq_ok.mpr fun _ _ => rfl
  have hcount : castSize (ofSize f.count).asNumber = castSize (Binary64.ofInt f.count) := by
    rw [ofSize, JsonValue.asNumber]
  rw [planFrom, halias, annotationFrom_planObject,
    readField_find (j := planObject f) (k := "kind") (v := .string (planKindText f.kind)) rfl,
    readField_find (j := planObject f) (k := "table_name") (v := .string f.tableName) rfl,
    readArray_find (j := planObject f) (k := "projected_columns") rfl, hcolumns,
    readField_find (j := planObject f) (k := "index_column") (v := .string f.indexColumn) rfl,
    readField_find (j := planObject f) (k := "index_probe_value")
      (v := exprToJson f.indexProbeValue) rfl,
    readField_find (j := planObject f) (k := "predicate") (v := exprToJson f.predicate) rfl,
    readChild_find (j := planObject f) (k := "input") (v := optionalChild f.input) rfl,
    readField_find (j := planObject f) (k := "join_type")
      (v := .string (joinTypeText f.joinType)) rfl,
    readField_find (j := planObject f) (k := "condition") (v := exprToJson f.condition) rfl,
    readChild_find (j := planObject f) (k := "left") (v := optionalChild f.left) rfl,
    readChild_find (j := planObject f) (k := "right") (v := optionalChild f.right) rfl,
    readArray_find (j := planObject f) (k := "group_by") rfl,
    readArray_find (j := planObject f) (k := "aggregates") rfl,
    readArray_find (j := planObject f) (k := "expressions") rfl,
    readArray_find (j := planObject f) (k := "order_by") rfl,
    readField_find (j := planObject f) (k := "count") (v := ofSize f.count) rfl, hcount,
    JsonValue.asString, JsonValue.asString, JsonValue.asString, JsonValue.asString,
    planKindFromString_text, joinTypeFromString_text, Except.ok_bind, bind_assoc]
  simp only [Except.pure_eq_ok, Except.ok_bind]

theorem exists_planToJson (p : PhysicalPlan Binary64) : ∃ f, planToJson p = planObject f := by
  cases p <;> exact ⟨_, by rw [planToJson]⟩

theorem childOf_planToJson (read : JsonValue → Except String (PhysicalPlan Binary64))
    (p : PhysicalPlan Binary64) :
    childOf read (some (optionalChild (some (planToJson p)))) = (do
      return some (← read (planToJson p))) := by
  obtain ⟨f, hf⟩ := exists_planToJson p
  rw [hf]
  rfl

theorem castSize_zero : castSize (Binary64.ofInt ((0 : Nat) : Int)) = .ok 0 :=
  castSize_ofInt.mpr (by decide)

/-- What is read for each kind of plan. -/
theorem planFrom_seqScan (fuel : Nat) (ann : Annotation Binary64) (t : String) (a : Option String)
    (cols : List String) :
    planFrom (fuel + 1) (planToJson (.seqScan ann t a cols)) = (do
      let rows ← castSize (Binary64.ofInt ann.rows)
      return .seqScan { ann with rows := rows } t a cols) := by
  rw [planToJson, planFrom_planObject]
  simp only [exprFromJson_wildcard, childOf_none, List.map_nil, List.mapM_nil, castSize_zero,
    Except.pure_eq_ok, Except.ok_bind, PlanFields.plan]

theorem planFrom_indexScan (fuel : Nat) (ann : Annotation Binary64) (t : String) (a : Option String)
    (cols : List String) (col : String) (probe : Expression) :
    planFrom (fuel + 1) (planToJson (.indexScan ann t a cols col probe)) = (do
      let rows ← castSize (Binary64.ofInt ann.rows)
      let probe' ← exprFromJson (exprToJson probe)
      return .indexScan { ann with rows := rows } t a cols col probe') := by
  rw [planToJson, planFrom_planObject]
  simp only [exprFromJson_wildcard, childOf_none, List.map_nil, List.mapM_nil, castSize_zero,
    Except.pure_eq_ok, Except.ok_bind, PlanFields.plan]

theorem planFrom_filter (fuel : Nat) (ann : Annotation Binary64) (predicate : Expression)
    (input : PhysicalPlan Binary64) :
    planFrom (fuel + 1) (planToJson (.filter ann predicate input)) = (do
      let rows ← castSize (Binary64.ofInt ann.rows)
      let predicate' ← exprFromJson (exprToJson predicate)
      let input' ← planFrom fuel (planToJson input)
      return .filter { ann with rows := rows } predicate' input') := by
  rw [planToJson, planFrom_planObject]
  simp only [exprFromJson_wildcard, childOf_none, childOf_planToJson, List.map_nil, List.mapM_nil,
    castSize_zero, Except.pure_eq_ok, Except.ok_bind, bind_assoc, PlanFields.plan]

theorem planFrom_join (fuel : Nat) (ann : Annotation Binary64) (kind : JoinKind)
    (joinType : JoinType) (condition : Expression) (left right : PhysicalPlan Binary64) :
    planFrom (fuel + 1) (planToJson (.join ann kind joinType condition left right)) = (do
      let rows ← castSize (Binary64.ofInt ann.rows)
      let condition' ← exprFromJson (exprToJson condition)
      let left' ← planFrom fuel (planToJson left)
      let right' ← planFrom fuel (planToJson right)
      return .join { ann with rows := rows } kind joinType condition' left' right') := by
  rw [planToJson, planFrom_planObject]
  simp only [exprFromJson_wildcard, childOf_none, childOf_planToJson, List.map_nil, List.mapM_nil,
    castSize_zero, Except.pure_eq_ok, Except.ok_bind, bind_assoc, PlanFields.plan]

theorem planFrom_hashAggregate (fuel : Nat) (ann : Annotation Binary64) (groupBy : List Expression)
    (aggregates : List AggregateExpr) (input : PhysicalPlan Binary64) :
    planFrom (fuel + 1) (planToJson (.hashAggregate ann groupBy aggregates input)) = (do
      let rows ← castSize (Binary64.ofInt ann.rows)
      let input' ← planFrom fuel (planToJson input)
      let groupBy' ← (groupBy.map exprToJson).mapM exprFromJson
      let aggregates' ← (aggregates.map aggregateToJson).mapM aggregateFromJson
      return .hashAggregate { ann with rows := rows } groupBy' aggregates' input') := by
  rw [planToJson, planFrom_planObject]
  simp only [exprFromJson_wildcard, childOf_none, childOf_planToJson, List.map_nil, List.mapM_nil,
    castSize_zero, Except.pure_eq_ok, Except.ok_bind, bind_assoc, PlanFields.plan]

theorem planFrom_project (fuel : Nat) (ann : Annotation Binary64)
    (expressions : List (Expression × Option String)) (input : PhysicalPlan Binary64) :
    planFrom (fuel + 1) (planToJson (.project ann expressions input)) = (do
      let rows ← castSize (Binary64.ofInt ann.rows)
      let input' ← planFrom fuel (planToJson input)
      let expressions' ← (expressions.map pairToJson).mapM pairFromJson
      return .project { ann with rows := rows } expressions' input') := by
  rw [planToJson, planFrom_planObject]
  simp only [exprFromJson_wildcard, childOf_none, childOf_planToJson, List.map_nil, List.mapM_nil,
    castSize_zero, Except.pure_eq_ok, Except.ok_bind, bind_assoc, PlanFields.plan]

theorem planFrom_sort (fuel : Nat) (ann : Annotation Binary64) (orderBy : List OrderByItem)
    (input : PhysicalPlan Binary64) :
    planFrom (fuel + 1) (planToJson (.sort ann orderBy input)) = (do
      let rows ← castSize (Binary64.ofInt ann.rows)
      let input' ← planFrom fuel (planToJson input)
      let orderBy' ← (orderBy.map orderByToJson).mapM orderByFromJson
      return .sort { ann with rows := rows } orderBy' input') := by
  rw [planToJson, planFrom_planObject]
  simp -implicitDefEqProofs only [exprFromJson_wildcard, childOf_none, childOf_planToJson,
    List.map_nil, List.mapM_nil, castSize_zero, Except.pure_eq_ok, Except.ok_bind, bind_assoc,
    PlanFields.plan]

theorem planFrom_limit (fuel : Nat) (ann : Annotation Binary64) (count : Nat)
    (input : PhysicalPlan Binary64) :
    planFrom (fuel + 1) (planToJson (.limit ann count input)) = (do
      let rows ← castSize (Binary64.ofInt ann.rows)
      let input' ← planFrom fuel (planToJson input)
      let count' ← castSize (Binary64.ofInt count)
      return .limit { ann with rows := rows } count' input') := by
  rw [planToJson, planFrom_planObject]
  simp -implicitDefEqProofs only [exprFromJson_wildcard, childOf_none, childOf_planToJson,
    List.map_nil, List.mapM_nil, Except.pure_eq_ok, Except.ok_bind, bind_assoc, PlanFields.plan]

theorem planFrom_externalRows (fuel : Nat) (ann : Annotation Binary64) (t : String)
    (cols : List String) (slot : Nat) (groupBy : List Expression) (aggregates : List AggregateExpr) :
    planFrom (fuel + 1) (planToJson (.externalRows ann t cols slot groupBy aggregates)) = (do
      let rows ← castSize (Binary64.ofInt ann.rows)
      let groupBy' ← (groupBy.map exprToJson).mapM exprFromJson
      let aggregates' ← (aggregates.map aggregateToJson).mapM aggregateFromJson
      let slot' ← castSize (Binary64.ofInt slot)
      return .externalRows { ann with rows := rows } t cols slot' groupBy' aggregates') := by
  rw [planToJson, planFrom_planObject]
  simp -implicitDefEqProofs only [exprFromJson_wildcard, childOf_none, List.map_nil,
    List.mapM_nil, Except.pure_eq_ok, Except.ok_bind, PlanFields.plan]

/-- The fuel that reads an object suffices for its children. -/
theorem calls_le_child {f : PlanFields JsonValue} {k : String} {j : JsonValue} {fuel : Nat}
    (hk : (k, j) = ("input", optionalChild f.input) ∨ (k, j) = ("left", optionalChild f.left) ∨
      (k, j) = ("right", optionalChild f.right))
    (hfuel : (planObject f).calls ≤ fuel + 1) : j.calls ≤ fuel := by
  have hlt : j.calls < (planObject f).calls := by
    refine JsonValue.calls_lt_of_mem_entries (e := (k, j)) ?_
    obtain h | h | h := hk <;> simp [h]
  omega

theorem calls_le_input {f : PlanFields JsonValue} {j : JsonValue} {fuel : Nat}
    (hfuel : (planObject f).calls ≤ fuel + 1) (h : f.input = some j) : j.calls ≤ fuel :=
  calls_le_child (k := "input") (.inl (by rw [h, optionalChild])) hfuel

theorem calls_le_left {f : PlanFields JsonValue} {j : JsonValue} {fuel : Nat}
    (hfuel : (planObject f).calls ≤ fuel + 1) (h : f.left = some j) : j.calls ≤ fuel :=
  calls_le_child (k := "left") (.inr (.inl (by rw [h, optionalChild]))) hfuel

theorem calls_le_right {f : PlanFields JsonValue} {j : JsonValue} {fuel : Nat}
    (hfuel : (planObject f).calls ≤ fuel + 1) (h : f.right = some j) : j.calls ≤ fuel :=
  calls_le_child (k := "right") (.inr (.inr (by rw [h, optionalChild]))) hfuel

/-- The lists of a plan come back when their expressions are exact. -/
theorem exprs_eq_ok {es : List Expression} :
    (es.map exprToJson).mapM exprFromJson = .ok es ↔ ∀ e ∈ es, e.Exact := by
  simp only [mapM_map_eq_ok, exprFromJson_exprToJson]

theorem aggregates_eq_ok {aggs : List AggregateExpr} :
    (aggs.map aggregateToJson).mapM aggregateFromJson = .ok aggs ↔ ∀ agg ∈ aggs, agg.arg.Exact := by
  simp only [mapM_map_eq_ok, aggregateFromJson_aggregateToJson]

theorem expressions_eq_ok {ps : List (Expression × Option String)} :
    (ps.map pairToJson).mapM pairFromJson = .ok ps ↔ ∀ p ∈ ps, p.1.Exact := by
  simp only [mapM_map_eq_ok, pairFromJson_pairToJson]

theorem orderBy_eq_ok {items : List OrderByItem} :
    (items.map orderByToJson).mapM orderByFromJson = .ok items ↔
      ∀ item ∈ items, item.expression.Exact := by
  simp only [mapM_map_eq_ok, orderByFromJson_orderByToJson]

/-- An annotation is read back with its row estimate changed at most. -/
theorem annotation_eq {ann : Annotation Binary64} {rows : Nat} :
    ({ ann with rows := rows } : Annotation Binary64) = ann ↔ rows = ann.rows := by
  obtain ⟨cost, rows', reasoning, confidence⟩ := ann
  simp only [ Annotation.mk.injEq, true_and, and_true]

theorem planFrom_planToJson {p : PhysicalPlan Binary64} {fuel : Nat}
    (hfuel : (planToJson p).calls ≤ fuel) : planFrom fuel (planToJson p) = .ok p ↔ p.Exact := by
  induction p generalizing fuel with
  | seqScan ann t a cols =>
    obtain ⟨fuel, rfl, -⟩ := exists_fuel hfuel
    rw [planFrom_seqScan]
    simp only [Except.bind_eq_ok, Except.pure_eq_ok, Except.ok.injEq, PhysicalPlan.seqScan.injEq,
      annotation_eq, and_true, exists_eq_right]
    exact castSize_ofInt
  | indexScan ann t a cols col probe =>
    obtain ⟨fuel, rfl, -⟩ := exists_fuel hfuel
    rw [planFrom_indexScan]
    simp only [Except.bind_eq_ok, Except.pure_eq_ok, Except.ok.injEq, PhysicalPlan.indexScan.injEq,
      annotation_eq, true_and]
    constructor
    · rintro ⟨_, hrows, _, hprobe, rfl, rfl⟩
      exact ⟨castSize_ofInt.mp hrows, (exprFromJson_exprToJson _).mp hprobe⟩
    · rintro ⟨hrows, hprobe⟩
      exact ⟨_, castSize_ofInt.mpr hrows, _, (exprFromJson_exprToJson _).mpr hprobe, rfl, rfl⟩
  | filter ann predicate input ih =>
    obtain ⟨fuel, rfl, hcalls⟩ := exists_fuel hfuel
    rw [planToJson] at hcalls
    have hi := ih (calls_le_input hcalls rfl)
    rw [planFrom_filter]
    simp only [Except.bind_eq_ok, Except.pure_eq_ok, Except.ok.injEq, PhysicalPlan.filter.injEq,
      annotation_eq]
    constructor
    · rintro ⟨_, hrows, _, hpredicate, _, hin, rfl, rfl, rfl⟩
      exact ⟨castSize_ofInt.mp hrows, (exprFromJson_exprToJson _).mp hpredicate, hi.mp hin⟩
    · rintro ⟨hrows, hpredicate, hin⟩
      exact ⟨_, castSize_ofInt.mpr hrows, _, (exprFromJson_exprToJson _).mpr hpredicate, _,
        hi.mpr hin, rfl, rfl, rfl⟩
  | join ann kind joinType condition left right ihl ihr =>
    obtain ⟨fuel, rfl, hcalls⟩ := exists_fuel hfuel
    rw [planToJson] at hcalls
    have hl := ihl (calls_le_left hcalls rfl)
    have hr := ihr (calls_le_right hcalls rfl)
    rw [planFrom_join]
    simp only [Except.bind_eq_ok, Except.pure_eq_ok, Except.ok.injEq, PhysicalPlan.join.injEq,
      annotation_eq, true_and]
    constructor
    · rintro ⟨_, hrows, _, hcondition, _, hl', _, hr', rfl, rfl, rfl, rfl⟩
      exact ⟨castSize_ofInt.mp hrows, (exprFromJson_exprToJson _).mp hcondition, hl.mp hl',
        hr.mp hr'⟩
    · rintro ⟨hrows, hcondition, hl', hr'⟩
      exact ⟨_, castSize_ofInt.mpr hrows, _, (exprFromJson_exprToJson _).mpr hcondition, _,
        hl.mpr hl', _, hr.mpr hr', rfl, rfl, rfl, rfl⟩
  | hashAggregate ann groupBy aggregates input ih =>
    obtain ⟨fuel, rfl, hcalls⟩ := exists_fuel hfuel
    rw [planToJson] at hcalls
    have hi := ih (calls_le_input hcalls rfl)
    rw [planFrom_hashAggregate]
    simp only [Except.bind_eq_ok, Except.pure_eq_ok, Except.ok.injEq,
      PhysicalPlan.hashAggregate.injEq, annotation_eq]
    constructor
    · rintro ⟨_, hrows, _, hin, _, hgroups, _, haggs, rfl, rfl, rfl, rfl⟩
      exact ⟨castSize_ofInt.mp hrows, exprs_eq_ok.mp hgroups, aggregates_eq_ok.mp haggs, hi.mp hin⟩
    · rintro ⟨hrows, hgroups, haggs, hin⟩
      exact ⟨_, castSize_ofInt.mpr hrows, _, hi.mpr hin, _, exprs_eq_ok.mpr hgroups, _,
        aggregates_eq_ok.mpr haggs, rfl, rfl, rfl, rfl⟩
  | project ann expressions input ih =>
    obtain ⟨fuel, rfl, hcalls⟩ := exists_fuel hfuel
    rw [planToJson] at hcalls
    have hi := ih (calls_le_input hcalls rfl)
    rw [planFrom_project]
    simp only [Except.bind_eq_ok, Except.pure_eq_ok, Except.ok.injEq, PhysicalPlan.project.injEq,
      annotation_eq]
    constructor
    · rintro ⟨_, hrows, _, hin, _, hexprs, rfl, rfl, rfl⟩
      exact ⟨castSize_ofInt.mp hrows, expressions_eq_ok.mp hexprs, hi.mp hin⟩
    · rintro ⟨hrows, hexprs, hin⟩
      exact ⟨_, castSize_ofInt.mpr hrows, _, hi.mpr hin, _, expressions_eq_ok.mpr hexprs,
        rfl, rfl, rfl⟩
  | sort ann orderBy input ih =>
    obtain ⟨fuel, rfl, hcalls⟩ := exists_fuel hfuel
    rw [planToJson] at hcalls
    have hi := ih (calls_le_input hcalls rfl)
    rw [planFrom_sort]
    simp only [Except.bind_eq_ok, Except.pure_eq_ok, Except.ok.injEq, PhysicalPlan.sort.injEq,
      annotation_eq]
    constructor
    · rintro ⟨_, hrows, _, hin, _, horder, rfl, rfl, rfl⟩
      exact ⟨castSize_ofInt.mp hrows, orderBy_eq_ok.mp horder, hi.mp hin⟩
    · rintro ⟨hrows, horder, hin⟩
      exact ⟨_, castSize_ofInt.mpr hrows, _, hi.mpr hin, _, orderBy_eq_ok.mpr horder, rfl, rfl, rfl⟩
  | limit ann count input ih =>
    obtain ⟨fuel, rfl, hcalls⟩ := exists_fuel hfuel
    rw [planToJson] at hcalls
    have hi := ih (calls_le_input hcalls rfl)
    rw [planFrom_limit]
    simp only [Except.bind_eq_ok, Except.pure_eq_ok, Except.ok.injEq, PhysicalPlan.limit.injEq,
      annotation_eq]
    constructor
    · rintro ⟨_, hrows, _, hin, _, hcount, rfl, rfl, rfl⟩
      exact ⟨castSize_ofInt.mp hrows, castSize_ofInt.mp hcount, hi.mp hin⟩
    · rintro ⟨hrows, hcount, hin⟩
      exact ⟨_, castSize_ofInt.mpr hrows, _, hi.mpr hin, _, castSize_ofInt.mpr hcount,
        rfl, rfl, rfl⟩
  | externalRows ann t cols slot groupBy aggregates =>
    obtain ⟨fuel, rfl, -⟩ := exists_fuel hfuel
    rw [planFrom_externalRows]
    simp only [Except.bind_eq_ok, Except.pure_eq_ok, Except.ok.injEq,
      PhysicalPlan.externalRows.injEq, annotation_eq, true_and]
    constructor
    · rintro ⟨_, hrows, _, hgroups, _, haggs, _, hslot, rfl, rfl, rfl, rfl⟩
      exact ⟨castSize_ofInt.mp hrows, castSize_ofInt.mp hslot, exprs_eq_ok.mp hgroups,
        aggregates_eq_ok.mp haggs⟩
    · rintro ⟨hrows, hslot, hgroups, haggs⟩
      exact ⟨_, castSize_ofInt.mpr hrows, _, exprs_eq_ok.mpr hgroups, _,
        aggregates_eq_ok.mpr haggs, _, castSize_ofInt.mpr hslot, rfl, rfl, rfl, rfl⟩

/-- A plan comes back as it was exactly when its integers survive their trip through doubles. -/
theorem planFromJson_planToJson (plan : PhysicalPlan Binary64) :
    planFromJson (planToJson plan) = .ok plan ↔ plan.Exact :=
  planFrom_planToJson le_rfl

/-- `WHERE id = 9007199254740993` over a table scan. -/
def probe2p53 : PhysicalPlan Binary64 :=
  let ann : Annotation Binary64 :=
    ⟨⟨Binary64.zero, Binary64.zero, Binary64.zero⟩, 1, "", .fin false 1⟩
  .filter ann (.binaryOp (.column none "id") .eq (.literal (.integer 9007199254740993)))
    (.seqScan ann "users" none ["id"])

/-- The integer 2^53 + 1 comes back as 2^53. -/
theorem probe2p53_changes : planFromJson (planToJson probe2p53) ≠ .ok probe2p53 := by
  have hliteral : ¬ IntExact 9007199254740993 := by decide
  intro h
  obtain ⟨-, ⟨-, hexact⟩, -⟩ := (planFrom_planToJson le_rfl).mp h
  exact hliteral hexact

end PlanSerializer

end SqlOptimizer
