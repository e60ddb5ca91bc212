import SqlOptimizer.Execution.ExprEval
import SqlOptimizer.Execution.ValueOrder
import SqlOptimizer.Library.Truth

/-! WHERE predicates against the three-valued logic of SQL.  The evaluator has two truth values: a
comparison with NULL is false where it is computed as itself, and true where it is computed as the
negation of another one. -/

namespace SqlOptimizer

/-! ### SQL -/

def BinaryOperator.isComparison : BinaryOperator → Bool
  | .eq | .neq | .lt | .gt | .lte | .gte => true
  | _ => false

/-- A predicate of columns, literals, comparisons, AND and OR. -/
inductive IsPredicate : Expression → Prop
  | column (t : Option String) (c : String) : IsPredicate (.column t c)
  | literal (l : Literal) : IsPredicate (.literal l)
  | comparison {l r : Expression} {op : BinaryOperator} (hop : op.isComparison = true)
      (hl : IsPredicate l) (hr : IsPredicate r) : IsPredicate (.binaryOp l op r)
  | and {l r : Expression} (hl : IsPredicate l) (hr : IsPredicate r) :
      IsPredicate (.binaryOp l .and r)
  | or {l r : Expression} (hl : IsPredicate l) (hr : IsPredicate r) :
      IsPredicate (.binaryOp l .or r)

/-- A comparison of two values that are not NULL. -/
def judge (op : BinaryOperator) (a b : Literal) : Bool :=
  match op with
  | .eq => exactEqual a b
  | .neq => !exactEqual a b
  | .lt => exactLess a b
  | .gt => exactLess b a
  | .lte => exactLess a b || exactEqual a b
  | .gte => exactLess b a || exactEqual b a
  | _ => false

/-- A comparison in SQL. -/
def sqlCompare (op : BinaryOperator) (a b : Literal) : Truth :=
  if literalIsNull a || literalIsNull b then .unknown else .ofBool (judge op a b)

/-- The truth value that a value stands for. -/
def Literal.truth : Literal → Truth
  | .boolean b => .ofBool b
  | _ => .unknown

/-- UNKNOWN is the NULL of truth values. -/
def literalOfTruth : Truth → Literal
  | .tt => .boolean true
  | .ff => .boolean false
  | .unknown => .null

/-- The value of a predicate whose comparisons `compare` decides. -/
def sqlValue (compare : BinaryOperator → Literal → Literal → Truth) (row : Row)
    (schema : RowSchema) : Expression → Literal
  | .literal l => l
  | .column t c => ((schema.resolve t c).bind (row[·]?)).getD .null
  | .binaryOp l op r =>
    let a := sqlValue compare row schema l
    let b := sqlValue compare row schema r
    literalOfTruth <| match op with
      | .and => a.truth.and b.truth
      | .or => a.truth.or b.truth
      | _ => compare op a b
  | _ => .null

/-- Whether a predicate is TRUE when `compare` decides its comparisons. -/
def sqlTrue (compare : BinaryOperator → Literal → Literal → Truth) (row : Row) (schema : RowSchema)
    (p : Expression) : Prop :=
  (sqlValue compare row schema p).truth = .tt

instance (compare : BinaryOperator → Literal → Literal → Truth) (row : Row) (schema : RowSchema)
    (p : Expression) : Decidable (sqlTrue compare row schema p) :=
  inferInstanceAs (Decidable (_ = _))

/-! ### The evaluator -/

/-- Two values that a comparison of SQL takes: NULL and any value, two numbers or two strings. -/
def Compares (a b : Literal) : Prop :=
  literalIsNull a = true ∨ literalIsNull b = true ∨ comparable a b = true

/-- Every comparison of a predicate takes two values of one kind. -/
def ComparesAlike [Rounding] (row : Row) (schema : RowSchema) : Expression → Prop
  | .binaryOp l op r => ComparesAlike row schema l ∧ ComparesAlike row schema r ∧
    (op.isComparison = true → ∀ a b, evaluate l row schema = .ok a → evaluate r row schema = .ok b →
      Compares a b)
  | _ => True

/-- The comparisons that the evaluator gets wrong: a negated comparison with NULL, or with NaN, and
a comparison of integers that rounding to a double changes. -/
def misjudged (op : BinaryOperator) (a b : Literal) : Bool :=
  if literalIsNull a || literalIsNull b then op == .neq || op == .lte || op == .gte
  else if isNaN a || isNaN b then op == .lte || op == .gte
  else judge op (asDouble a) (asDouble b) != judge op a b

/-- A comparison with the other answer where the evaluator gets it wrong. -/
def flippedCompare (op : BinaryOperator) (a b : Literal) : Truth :=
  if misjudged op a b then .ofBool (sqlCompare op a b != .tt) else sqlCompare op a b

/-- No comparison of a predicate is misjudged. -/
def WellJudged (row : Row) (schema : RowSchema) : Expression → Prop
  | .binaryOp l op r => WellJudged row schema l ∧ WellJudged row schema r ∧
    misjudged op (sqlValue sqlCompare row schema l) (sqlValue sqlCompare row schema r) = false
  | _ => True

@[simp] theorem truth_literalOfTruth (t : Truth) : (literalOfTruth t).truth = t := by
  cases t <;> rfl

theorem truth_eq_tt {v : Literal} : v.truth = .tt ↔ v = .boolean true := by
  cases v <;> simp [Literal.truth]

theorem not_lt_string (s t : String) : (!decide (t < s)) = (decide (s < t) || s == t) := by
  rw [Bool.eq_iff_iff, Bool.not_eq_true', decide_eq_false_iff_not, Bool.or_eq_true,
    decide_eq_true_eq, beq_iff_eq]
  exact String.not_lt.trans Std.le_iff_lt_or_eq

/-- One of two numbers or strings is the smaller, or they are equal. -/
theorem not_exactLess {a b : Literal} (h : comparable a b = true) (ha : isNaN a = false)
    (hb : isNaN b = false) : (!exactLess (asDouble b) (asDouble a)) =
      (exactLess (asDouble a) (asDouble b) || exactEqual (asDouble a) (asDouble b)) := by
  rcases Bool.or_eq_true_iff.mp h with h | h
  · obtain ⟨hna, hnb⟩ := Bool.and_eq_true_iff.mp h
    obtain ⟨-, x, -, -, hx⟩ := exists_exactNumber_asDouble hna ha
    obtain ⟨-, y, -, -, hy⟩ := exists_exactNumber_asDouble hnb hb
    rw [exactLess_of_exactNumber hy hx, exactLess_of_exactNumber hx hy,
      exactEqual_of_exactNumber hx hy, Bool.eq_iff_iff]
    simp [le_iff_lt_or_eq]
  · cases a <;> cases b <;> simp [isStr] at h
    exact not_lt_string ..

section

variable {a b : Literal}

theorem literalEqual_of_null (h : (literalIsNull a || literalIsNull b) = true) :
    literalEqual a b = false :=
  if_pos h

theorem literalLess_of_null (h : (literalIsNull a || literalIsNull b) = true) :
    literalLess a b = .ok false :=
  if_pos h

theorem eq_nan_of_isNaN (h : isNaN a = true) : a = .floating .nan := by
  unfold isNaN at h
  split at h
  · rfl
  · cases h

/-- NaN is neither equal to a value nor on one side of it, exactly and for the evaluator. -/
theorem unordered_of_isNaN (h : (isNaN a || isNaN b) = true) :
    (literalEqual a b = false ∧ less a b = false ∧ less b a = false) ∧
      exactEqual a b = false ∧ exactEqual b a = false ∧ exactLess a b = false ∧
        exactLess b a = false := by
  rcases Bool.or_eq_true_iff.mp h with h | h
  · obtain rfl := eq_nan_of_isNaN h
    cases b with
    | floating y => cases y <;> exact ⟨⟨rfl, rfl, rfl⟩, rfl, rfl, rfl, rfl⟩
    | _ => exact ⟨⟨rfl, rfl, rfl⟩, rfl, rfl, rfl, rfl⟩
  · obtain rfl := eq_nan_of_isNaN h
    cases a with
    | floating x => cases x <;> exact ⟨⟨rfl, rfl, rfl⟩, rfl, rfl, rfl, rfl⟩
    | _ => exact ⟨⟨rfl, rfl, rfl⟩, rfl, rfl, rfl, rfl⟩

end

/-- A comparison of the evaluator is the one of SQL where it is judged well, and the opposite
elsewhere. -/
theorem evaluateBinary_comparison [Rounding] {op : BinaryOperator} (hop : op.isComparison = true)
    {a b v : Literal} (h : Compares a b) (hv : evaluateBinary op a b = .ok v) :
    v = .boolean true ↔ flippedCompare op a b = .tt := by
  by_cases hnull : (literalIsNull a || literalIsNull b) = true
  · have hequal := literalEqual_of_null hnull
    have hless := literalLess_of_null hnull
    have hgreater := literalLess_of_null (Bool.or_comm .. ▸ hnull)
    simp only [flippedCompare, misjudged, sqlCompare, if_pos hnull]
    cases op <;> simp [BinaryOperator.isComparison] at hop <;>
      simp only [evaluateBinary, hequal, hless, hgreater, Except.ok_bind, Except.pure_eq_ok,
        Except.ok.injEq] at hv <;> subst hv <;> decide
  · obtain ⟨hna, hnb⟩ := Bool.or_eq_false_iff.mp (Bool.eq_false_of_not_eq_true hnull)
    have hcomp : comparable a b = true :=
      (h.resolve_left (by simp [hna])).resolve_left (by simp [hnb])
    have hless := literalLess_of_comparable hcomp
    have hgreater := literalLess_of_comparable (comparable_symm hcomp)
    simp only [flippedCompare, misjudged, sqlCompare, if_neg hnull]
    by_cases hnan : (isNaN a || isNaN b) = true
    · obtain ⟨⟨hequal, hlt, hgt⟩, heq, heq', hl, hg⟩ := unordered_of_isNaN hnan
      rw [hlt] at hless
      rw [hgt] at hgreater
      simp only [if_pos hnan]
      cases op <;> simp [BinaryOperator.isComparison] at hop <;>
        simp only [evaluateBinary, hequal, hless, hgreater, Except.ok_bind, Except.pure_eq_ok,
          Except.ok.injEq] at hv <;> subst hv <;> simp [judge, heq, heq', hl, hg]
    · obtain ⟨hana, hanb⟩ := Bool.or_eq_false_iff.mp (Bool.eq_false_of_not_eq_true hnan)
      rw [less_eq_exactLess hcomp hana hanb] at hless
      rw [less_eq_exactLess (comparable_symm hcomp) hanb hana] at hgreater
      have hequal := literalEqual_eq_exactEqual hcomp hana hanb
      have hle := not_exactLess hcomp hana hanb
      have hge := not_exactLess (comparable_symm hcomp) hanb hana
      have hjudged : v = .boolean (judge op (asDouble a) (asDouble b)) := by
        cases op <;> simp [BinaryOperator.isComparison] at hop <;>
          simp only [evaluateBinary, hequal, hless, hgreater, hle, hge, Except.ok_bind,
            Except.pure_eq_ok, Except.ok.injEq] at hv <;> subst hv <;> rfl
      rw [hjudged, if_neg hnan]
      cases judge op (asDouble a) (asDouble b) <;> cases judge op a b <;> decide

/-! ### Predicates -/

section

variable [Rounding] {row : Row} {schema : RowSchema}

theorem sqlValue_of_column {compare : BinaryOperator → Literal → Literal → Truth} {t : Option String}
    {c : String} {v : Literal} (h : evaluate (.column t c) row schema = .ok v) :
    sqlValue compare row schema (.column t c) = v := by
  rw [evaluate] at h
  split at h
  · next idx hidx =>
    rw [sqlValue, hidx, Option.bind_some, rowAt_eq_ok.mp h]
    rfl
  · cases h

omit [Rounding] in
theorem literalTruthy_eq_ok {a : Literal} {t : Bool} : literalTruthy a = .ok t ↔ a = .boolean t := by
  cases a <;> simp [literalTruthy]

/-- AND gives a truth value, true when both sides are. -/
theorem evaluateBinary_and {a b v : Literal} (hv : evaluateBinary .and a b = .ok v) :
    ∃ t, v = .boolean t ∧ (t = true ↔ a = .boolean true ∧ b = .boolean true) := by
  obtain ⟨s, hs, h⟩ := Except.bind_eq_ok.mp hv
  obtain rfl := literalTruthy_eq_ok.mp hs
  cases s with
  | true =>
    rw [if_pos rfl] at h
    obtain ⟨t, ht, h⟩ := Except.bind_eq_ok.mp h
    obtain rfl := literalTruthy_eq_ok.mp ht
    cases h
    exact ⟨t, rfl, by simp⟩
  | false =>
    cases h
    exact ⟨false, rfl, by simp⟩

/-- OR gives a truth value, true when one side is. -/
theorem evaluateBinary_or {a b v : Literal} (hv : evaluateBinary .or a b = .ok v) :
    ∃ t, v = .boolean t ∧ (t = true ↔ a = .boolean true ∨ b = .boolean true) := by
  obtain ⟨s, hs, h⟩ := Except.bind_eq_ok.mp hv
  obtain rfl := literalTruthy_eq_ok.mp hs
  cases s with
  | true =>
    cases h
    exact ⟨true, rfl, by simp⟩
  | false =>
    rw [if_neg Bool.false_ne_true] at h
    obtain ⟨t, ht, h⟩ := Except.bind_eq_ok.mp h
    obtain rfl := literalTruthy_eq_ok.mp ht
    cases h
    exact ⟨t, rfl, by simp⟩

theorem boolean_of_comparison {op : BinaryOperator} {a b v : Literal} (hop : op.isComparison = true)
    (h : evaluateBinary op a b = .ok v) : ∃ t, v = .boolean t := by
  cases op <;> simp [BinaryOperator.isComparison] at hop
  case eq | neq => exact ⟨_, (Except.ok.inj h).symm⟩
  case lt | gt | lte | gte =>
    obtain ⟨s, -, h⟩ := Except.bind_eq_ok.mp h
    exact ⟨_, (Except.ok.inj h).symm⟩

omit [Rounding] in
theorem sqlValue_comparison {compare : BinaryOperator → Literal → Literal → Truth}
    {op : BinaryOperator} (hop : op.isComparison = true) (l r : Expression) :
    sqlValue compare row schema (.binaryOp l op r) =
      literalOfTruth (compare op (sqlValue compare row schema l) (sqlValue compare row schema r)) := by
  cases op <;> first | rfl | cases hop

/-- The evaluator and SQL take a column or a literal alike; any other operand is a truth value for
the evaluator. -/
theorem operand_cases (compare : BinaryOperator → Literal → Literal → Truth) {p : Expression}
    (hp : IsPredicate p) {v : Literal} (h : evaluate p row schema = .ok v) :
    sqlValue compare row schema p = v ∨ ∃ t, v = .boolean t := by
  cases hp with
  | column t c => exact .inl (sqlValue_of_column h)
  | literal l =>
    cases h
    exact .inl rfl
  | comparison hop hl hr =>
    obtain ⟨a, -, h⟩ := Except.bind_eq_ok.mp h
    obtain ⟨b, -, h⟩ := Except.bind_eq_ok.mp h
    exact .inr (boolean_of_comparison hop h)
  | and hl hr =>
    obtain ⟨a, -, h⟩ := Except.bind_eq_ok.mp h
    obtain ⟨b, -, h⟩ := Except.bind_eq_ok.mp h
    obtain ⟨t, ht, -⟩ := evaluateBinary_and h
    exact .inr ⟨t, ht⟩
  | or hl hr =>
    obtain ⟨a, -, h⟩ := Except.bind_eq_ok.mp h
    obtain ⟨b, -, h⟩ := Except.bind_eq_ok.mp h
    obtain ⟨t, ht, -⟩ := evaluateBinary_or h
    exact .inr ⟨t, ht⟩

omit [Rounding] in
/-- With a NULL operand, the other one does not matter. -/
theorem flippedCompare_of_null {op : BinaryOperator} {a b a' b' : Literal}
    (h : (literalIsNull a || literalIsNull b) = true)
    (h' : (literalIsNull a' || literalIsNull b') = true) :
    flippedCompare op a b = flippedCompare op a' b' := by
  simp only [flippedCompare, misjudged, sqlCompare, if_pos h, if_pos h']

/-- SQL compares the same values as the evaluator, or one of them is NULL for both. -/
theorem flippedCompare_operands {op : BinaryOperator} {l r : Expression} {a b : Literal}
    (hl : IsPredicate l) (hr : IsPredicate r) (ha : evaluate l row schema = .ok a)
    (hb : evaluate r row schema = .ok b) (h : Compares a b) :
    flippedCompare op (sqlValue flippedCompare row schema l)
      (sqlValue flippedCompare row schema r) = flippedCompare op a b := by
  obtain hla | ⟨t, rfl⟩ := operand_cases flippedCompare hl ha
  · obtain hrb | ⟨t, rfl⟩ := operand_cases flippedCompare hr hb
    · rw [hla, hrb]
    · have hnull : literalIsNull a = true := by
        rcases h with h | h | h
        · exact h
        · cases h
        · cases a <;> cases h
      exact flippedCompare_of_null (by rw [hla, hnull]; rfl) (by rw [hnull]; rfl)
  · have hnull : literalIsNull b = true := by
      rcases h with h | h | h
      · cases h
      · exact h
      · cases h
    obtain hrb | ⟨u, rfl⟩ := operand_cases flippedCompare hr hb
    · exact flippedCompare_of_null (by rw [hrb, hnull, Bool.or_true]) (by rw [hnull, Bool.or_true])
    · cases hnull

/-- The evaluator returns true when SQL would with the answers of the misjudged comparisons
flipped. -/
theorem evaluate_sqlTrue_flipped {p : Expression} (hp : IsPredicate p)
    (halike : ComparesAlike row schema p) {v : Literal} (hv : evaluate p row schema = .ok v) :
    v = .boolean true ↔ sqlTrue flippedCompare row schema p := by
  induction hp generalizing v with
  | column t c => rw [sqlTrue, sqlValue_of_column hv, truth_eq_tt]
  | literal l =>
    cases hv
    rw [sqlTrue, sqlValue, truth_eq_tt]
  | @comparison l r op hop hl hr ihl ihr =>
    obtain ⟨hal, har, hcompares⟩ := halike
    obtain ⟨a, ha, hv⟩ := Except.bind_eq_ok.mp hv
    obtain ⟨b, hb, hv⟩ := Except.bind_eq_ok.mp hv
    have h := hcompares hop a b ha hb
    rw [evaluateBinary_comparison hop h hv, ← flippedCompare_operands hl hr ha hb h, sqlTrue,
      sqlValue_comparison hop, truth_literalOfTruth]
  | @and l r hl hr ihl ihr =>
    obtain ⟨hal, har, -⟩ := halike
    obtain ⟨a, ha, hv⟩ := Except.bind_eq_ok.mp hv
    obtain ⟨b, hb, hv⟩ := Except.bind_eq_ok.mp hv
    obtain ⟨t, rfl, ht⟩ := evaluateBinary_and hv
    rw [sqlTrue, sqlValue, truth_literalOfTruth, Truth.and_eq_tt, Literal.boolean.injEq, ht]
    exact and_congr (ihl hal ha) (ihr har hb)
  | @or l r hl hr ihl ihr =>
    obtain ⟨hal, har, -⟩ := halike
    obtain ⟨a, ha, hv⟩ := Except.bind_eq_ok.mp hv
    obtain ⟨b, hb, hv⟩ := Except.bind_eq_ok.mp hv
    obtain ⟨t, rfl, ht⟩ := evaluateBinary_or hv
    rw [sqlTrue, sqlValue, truth_literalOfTruth, Truth.or_eq_tt, Literal.boolean.injEq, ht]
    exact or_congr (ihl hal ha) (ihr har hb)

omit [Rounding] in
/-- On a comparison, the flip shows exactly when the evaluator gets it wrong. -/
theorem flippedCompare_eq_tt {op : BinaryOperator} {a b : Literal} :
    (flippedCompare op a b = .tt ↔ sqlCompare op a b = .tt) ↔ misjudged op a b = false := by
  rw [flippedCompare]
  cases misjudged op a b <;> cases sqlCompare op a b <;> decide

/-- On a predicate that evaluates, the evaluator says true exactly when SQL says TRUE if and only if
SQL says TRUE exactly when it does with the answers of the misjudged comparisons flipped. -/
theorem where_true_iff {p : Expression} (hp : IsPredicate p) (halike : ComparesAlike row schema p)
    {v : Literal} (hv : evaluate p row schema = .ok v) :
    (v = .boolean true ↔ sqlTrue sqlCompare row schema p) ↔
      (sqlTrue flippedCompare row schema p ↔ sqlTrue sqlCompare row schema p) := by
  rw [evaluate_sqlTrue_flipped hp halike hv]

omit [Rounding] in
theorem sqlValue_flippedCompare {p : Expression} (h : WellJudged row schema p) :
    sqlValue flippedCompare row schema p = sqlValue sqlCompare row schema p := by
  induction p using Expression.rec (motive_2 := fun _ => True) with
  | binaryOp l op r ihl ihr =>
    obtain ⟨hl, hr, hop⟩ := h
    have hsame : flippedCompare op (sqlValue sqlCompare row schema l)
        (sqlValue sqlCompare row schema r) = sqlCompare op (sqlValue sqlCompare row schema l)
          (sqlValue sqlCompare row schema r) := by
      rw [flippedCompare, hop, if_neg Bool.false_ne_true]
    cases op <;> simp only [sqlValue, ihl hl, ihr hr, hsame]
  | nil | cons e es ihe ihes => trivial
  | _ => rfl

/-- The evaluator says true exactly when SQL does on a predicate without a misjudged comparison. -/
theorem where_true_of_wellJudged {p : Expression} (hp : IsPredicate p)
    (halike : ComparesAlike row schema p) (hjudged : WellJudged row schema p) {v : Literal}
    (hv : evaluate p row schema = .ok v) :
    v = .boolean true ↔ sqlTrue sqlCompare row schema p := by
  rw [evaluate_sqlTrue_flipped hp halike hv, sqlTrue, sqlTrue, sqlValue_flippedCompare hjudged]

end

attribute [local instance] Rounding.exact

/-- `a <> 1` in a table `t` with the one column `a`. -/
def differsFromOne : Expression :=
  .binaryOp (.column none "a") .neq (.literal (.integer 1))

theorem isPredicate_differsFromOne : IsPredicate differsFromOne :=
  .comparison rfl (.column _ _) (.literal _)

theorem comparesAlike_differsFromOne {v : Literal}
    (h : Compares v (.integer 1)) : ComparesAlike [v] (scanSchema "t" ["a"]) differsFromOne := by
  refine ⟨trivial, trivial, fun _ a b ha hb => ?_⟩
  cases hb
  obtain rfl : v = a := Except.ok.inj ha
  exact h

theorem where_true_iff_differs :
    (Literal.boolean true = .boolean true ↔
        sqlTrue sqlCompare [.integer 2] (scanSchema "t" ["a"]) differsFromOne) ↔
      (sqlTrue flippedCompare [.integer 2] (scanSchema "t" ["a"]) differsFromOne ↔
        sqlTrue sqlCompare [.integer 2] (scanSchema "t" ["a"]) differsFromOne) :=
  where_true_iff isPredicate_differsFromOne (comparesAlike_differsFromOne (.inr (.inr rfl)))
    (by decide)

/-- A row whose `a` is NULL passes `a <> 1`. -/
theorem where_keeps_unknown : ¬∀ (p : Expression) (row : Row) (schema : RowSchema) (v : Literal),
    IsPredicate p → ComparesAlike row schema p → evaluate p row schema = .ok v →
      (v = .boolean true ↔ sqlTrue sqlCompare row schema p) := by
  intro h
  have hiff := h differsFromOne [.null] (scanSchema "t" ["a"]) (.boolean true)
    isPredicate_differsFromOne (comparesAlike_differsFromOne (.inl rfl)) (by decide)
  exact absurd (hiff.mp rfl) (by decide)

end SqlOptimizer
