import SqlOptimizer.Physical.Plan
import SqlOptimizer.Util.Json

/-! `integration/plan_serializer.cpp`: expressions and plans as JSON.  The source writes every field
of its classes, those of the other kinds with their defaults; `ExprFields` and `PlanFields` are these
classes, over the type of the children. -/

namespace SqlOptimizer

/-! ### Numbers -/

/-- The integer of a double, without its fraction. -/
def truncated (neg : Bool) (mag : ℚ≥0) : Int :=
  if neg then -(mag.num / mag.den : Nat) else (mag.num / mag.den : Nat)

/-- `static_cast<int64_t>` of a double.  Out of range, it is undefined in C++ and an error here. -/
def castInt64 : Binary64 → Except String Int64
  | .fin neg mag =>
    if -2 ^ 63 ≤ truncated neg mag ∧ truncated neg mag < 2 ^ 63 then
      .ok (Int64.ofInt (truncated neg mag))
    else .error "double out of the range of int64_t"
  | _ => .error "double out of the range of int64_t"

/-- `static_cast<size_t>` of a double. -/
def castSize : Binary64 → Except String Nat
  | .fin neg mag =>
    if 0 ≤ truncated neg mag ∧ truncated neg mag < 2 ^ 64 then .ok (truncated neg mag).toNat
    else .error "double out of the range of size_t"
  | _ => .error "double out of the range of size_t"

/-- `static_cast<double>` of an integer. -/
def ofInt64 (i : Int64) : JsonValue := .number (Binary64.ofInt i.toInt)

def ofSize (n : Nat) : JsonValue := .number (Binary64.ofInt n)

/-! ### Reading fields -/

/-- A field, or the default when there is none. -/
def readField {α : Type} (j : JsonValue) (key : String) (default : α)
    (read : JsonValue → Except String α) : Except String α :=
  match j.find key with
  | some v => read v
  | none => .ok default

/-- A child that is an object. -/
def childOf {α : Type} (read : JsonValue → Except String α) :
    Option JsonValue → Except String (Option α)
  | some (.object entries) => do return some (← read (.object entries))
  | _ => .ok none

def readChild {α : Type} (j : JsonValue) (key : String) (read : JsonValue → Except String α) :
    Except String (Option α) :=
  childOf read (j.find key)

/-- The elements of a field that is an array. -/
def readArray {α : Type} (j : JsonValue) (key : String) (read : JsonValue → Except String α) :
    Except String (List α) :=
  match j.find key with
  | some (.array vs) => vs.mapM read
  | _ => .ok []

/-- A field that is a string. -/
def readText (j : JsonValue) (key : String) : Option String :=
  match j.find key with
  | some (.string s) => some s
  | _ => none

def optionalText : Option String → JsonValue
  | some s => .string s
  | none => .null

def optionalChild : Option JsonValue → JsonValue
  | some v => v
  | none => .null

/-- The member of an enumeration that has this text. -/
def memberOf {α : Type} (members : List α) (text : α → String) (name : String) (s : String) :
    Except String α :=
  match members.find? fun a => text a == s with
  | some a => .ok a
  | none => .error ("plan_serializer: unknown " ++ name ++ " '" ++ s ++ "'")

/-! ### Expressions -/

inductive ExprKind where
  | column | literal | binaryOp | unaryOp | function | wildcard

def exprKindText : ExprKind → String
  | .column => "Column"
  | .literal => "Literal"
  | .binaryOp => "BinaryOp"
  | .unaryOp => "UnaryOp"
  | .function => "Function"
  | .wildcard => "Wildcard"

def exprKindFromString (s : String) : Except String ExprKind :=
  memberOf [.column, .literal, .binaryOp, .unaryOp, .function, .wildcard] exprKindText
    "Expression::Kind" s

inductive LiteralKind where
  | integer | float | str | boolean | null

def literalKindText : LiteralKind → String
  | .integer => "Integer"
  | .float => "Float"
  | .str => "Str"
  | .boolean => "Boolean"
  | .null => "Null"

def literalKindFromString (s : String) : Except String LiteralKind :=
  memberOf [.integer, .float, .str, .boolean, .null] literalKindText "Literal::Kind" s

def binaryOpText : BinaryOperator → String
  | .eq => "Eq"
  | .neq => "Neq"
  | .lt => "Lt"
  | .gt => "Gt"
  | .lte => "Lte"
  | .gte => "Gte"
  | .and => "And"
  | .or => "Or"
  | .add => "Add"
  | .sub => "Sub"
  | .mul => "Mul"
  | .div => "Div"

def binaryOpFromString (s : String) : Except String BinaryOperator :=
  memberOf [.eq, .neq, .lt, .gt, .lte, .gte, .and, .or, .add, .sub, .mul, .div] binaryOpText
    "BinaryOperator" s

def unaryOpText : UnaryOperator → String
  | .not => "Not"
  | .neg => "Neg"

def unaryOpFromString (s : String) : Except String UnaryOperator :=
  memberOf [.not, .neg] unaryOpText "UnaryOperator" s

/-- The class `Literal`. -/
structure LiteralFields where
  kind : LiteralKind := .null
  intVal : Int64 := 0
  floatVal : Binary64 := Binary64.zero
  strVal : String := ""
  boolVal : Bool := false

def Literal.fields : Literal → LiteralFields
  | .integer i => { kind := .integer, intVal := i }
  | .floating x => { kind := .float, floatVal := x }
  | .str s => { kind := .str, strVal := s }
  | .boolean b => { kind := .boolean, boolVal := b }
  | .null => {}

def LiteralFields.literal (f : LiteralFields) : Literal :=
  match f.kind with
  | .integer => .integer f.intVal
  | .float => .floating f.floatVal
  | .str => .str f.strVal
  | .boolean => .boolean f.boolVal
  | .null => .null

namespace PlanSerializer

def literalToJson (l : Literal) : JsonValue :=
  .object [("kind", .string (literalKindText l.fields.kind)), ("int_val", ofInt64 l.fields.intVal),
    ("float_val", .number l.fields.floatVal), ("str_val", .string l.fields.strVal),
    ("bool_val", .bool l.fields.boolVal)]

def literalFromJson (j : JsonValue) : Except String Literal := do
  let kind ← readField j "kind" .null fun v => literalKindFromString v.asString
  let intVal ← readField j "int_val" 0 fun v => castInt64 v.asNumber
  let floatVal ← readField j "float_val" Binary64.zero fun v => .ok v.asNumber
  let strVal ← readField j "str_val" "" fun v => .ok v.asString
  let boolVal ← readField j "bool_val" false fun v => .ok v.asBool
  return LiteralFields.literal ⟨kind, intVal, floatVal, strVal, boolVal⟩

/-- The class `Expression`. -/
structure ExprFields (α : Type) where
  kind : ExprKind
  table : Option String := none
  column : String := ""
  literal : Literal := .null
  left : Option α := none
  binaryOp : BinaryOperator := .eq
  right : Option α := none
  unaryOp : UnaryOperator := .not
  operand : Option α := none
  funcName : String := ""
  args : List α := []

def exprObject (f : ExprFields JsonValue) : JsonValue :=
  .object [("kind", .string (exprKindText f.kind)), ("table", optionalText f.table),
    ("column", .string f.column), ("literal", literalToJson f.literal),
    ("left", optionalChild f.left), ("binary_op", .string (binaryOpText f.binaryOp)),
    ("right", optionalChild f.right), ("unary_op", .string (unaryOpText f.unaryOp)),
    ("operand", optionalChild f.operand), ("func_name", .string f.funcName),
    ("args", .array f.args)]

mutual

def exprToJson : Expression → JsonValue
  | .column t c => exprObject { kind := .column, table := t, column := c }
  | .literal l => exprObject { kind := .literal, literal := l }
  | .binaryOp l op r => exprObject
    { kind := .binaryOp, left := some (exprToJson l), binaryOp := op, right := some (exprToJson r) }
  | .unaryOp op e => exprObject
    { kind := .unaryOp, unaryOp := op, operand := some (exprToJson e) }
  | .function name args => exprObject
    { kind := .function, funcName := name, args := exprsToJson args }
  | .wildcard => exprObject { kind := .wildcard }

def exprsToJson : List Expression → List JsonValue
  | [] => []
  | e :: es => exprToJson e :: exprsToJson es

end

/-- The expression that an object of the class stands for.  A child that its kind needs and that is
missing is a null pointer in C++ and an error here. -/
def ExprFields.expression (f : ExprFields Expression) : Except String Expression :=
  match f.kind with
  | .column => .ok (.column f.table f.column)
  | .literal => .ok (.literal f.literal)
  | .binaryOp =>
    match f.left, f.right with
    | some l, some r => .ok (.binaryOp l f.binaryOp r)
    | _, _ => .error "null pointer"
  | .unaryOp =>
    match f.operand with
    | some e => .ok (.unaryOp f.unaryOp e)
    | none => .error "null pointer"
  | .function => .ok (.function f.funcName f.args)
  | .wildcard => .ok .wildcard

def exprFrom : Nat → JsonValue → Except String Expression
  | 0, _ => .error "plan_serializer: out of fuel"
  | fuel + 1, j => do
    let kind ← readField j "kind" .wildcard fun v => exprKindFromString v.asString
    let column ← readField j "column" "" fun v => .ok v.asString
    let literal ← readField j "literal" .null literalFromJson
    let left ← readChild j "left" (exprFrom fuel)
    let binaryOp ← readField j "binary_op" .eq fun v => binaryOpFromString v.asString
    let right ← readChild j "right" (exprFrom fuel)
    let unaryOp ← readField j "unary_op" .not fun v => unaryOpFromString v.asString
    let operand ← readChild j "operand" (exprFrom fuel)
    let funcName ← readField j "func_name" "" fun v => .ok v.asString
    let args ← readArray j "args" (exprFrom fuel)
    ExprFields.expression ⟨kind, readText j "table", column, literal, left, binaryOp, right, unaryOp,
      operand, funcName, args⟩

/-- `expr_from_json`; the nesting of the value bounds the calls. -/
def exprFromJson (j : JsonValue) : Except String Expression := exprFrom j.calls j

/-! ### Plans -/

def aggregateToJson (agg : AggregateExpr) : JsonValue :=
  .object [("func", .string agg.func), ("arg", exprToJson agg.arg),
    ("alias", optionalText agg.aliasName)]

def aggregateFromJson (j : JsonValue) : Except String AggregateExpr := do
  let func ← readField j "func" "" fun v => .ok v.asString
  let arg ← readField j "arg" .wildcard exprFromJson
  return ⟨func, arg, readText j "alias"⟩

def orderByToJson (item : OrderByItem) : JsonValue :=
  .object [("expression", exprToJson item.expression), ("ascending", .bool item.ascending)]

/-- The source leaves `ascending` unset when there is no such field. -/
def orderByFromJson (j : JsonValue) : Except String OrderByItem := do
  let expression ← readField j "expression" .wildcard exprFromJson
  let ascending ← readField j "ascending" false fun v => .ok v.asBool
  return ⟨expression, ascending⟩

def costToJson (c : Cost Binary64) : JsonValue :=
  .object [("cpu", .number c.cpu), ("io", .number c.io), ("memory", .number c.memory)]

def costFromJson (j : JsonValue) : Except String (Cost Binary64) := do
  let cpu ← readField j "cpu" Binary64.zero fun v => .ok v.asNumber
  let io ← readField j "io" Binary64.zero fun v => .ok v.asNumber
  let memory ← readField j "memory" Binary64.zero fun v => .ok v.asNumber
  return ⟨cpu, io, memory⟩

def pairToJson (p : Expression × Option String) : JsonValue :=
  .object [("expr", exprToJson p.1), ("alias", optionalText p.2)]

def pairFromJson (j : JsonValue) : Except String (Expression × Option String) := do
  let expr ← readField j "expr" .wildcard exprFromJson
  return (expr, readText j "alias")

def joinTypeText : JoinType → String
  | .inner => "Inner"
  | .left => "Left"
  | .right => "Right"
  | .cross => "Cross"

def joinTypeFromString (s : String) : Except String JoinType :=
  memberOf [.inner, .left, .right, .cross] joinTypeText "JoinType" s

/-- `PhysicalPlan::Kind`, with the three joins under their own type. -/
inductive PlanKind where
  | seqScan | indexScan | filter | join (kind : JoinKind) | hashAggregate | project | sort | limit
  | externalRows

def planKindText : PlanKind → String
  | .seqScan => "SeqScan"
  | .indexScan => "IndexScan"
  | .filter => "Filter"
  | .join .nestedLoopJoin => "NestedLoopJoin"
  | .join .hashJoin => "HashJoin"
  | .join .indexNestedLoopJoin => "IndexNestedLoopJoin"
  | .hashAggregate => "HashAggregate"
  | .project => "Project"
  | .sort => "Sort"
  | .limit => "Limit"
  | .externalRows => "ExternalRows"

def planKindFromString (s : String) : Except String PlanKind :=
  memberOf [.seqScan, .indexScan, .filter, .join .nestedLoopJoin, .join .hashJoin,
    .join .indexNestedLoopJoin, .hashAggregate, .project, .sort, .limit, .externalRows] planKindText
    "PhysicalPlan::Kind" s

/-- The class `PhysicalPlan`. -/
structure PlanFields (α : Type) where
  kind : PlanKind
  ann : Annotation Binary64
  tableName : String := ""
  aliasName : Option String := none
  projectedColumns : List String := []
  indexColumn : String := ""
  indexProbeValue : Expression := .wildcard
  predicate : Expression := .wildcard
  input : Option α := none
  joinType : JoinType := .inner
  condition : Expression := .wildcard
  left : Option α := none
  right : Option α := none
  groupBy : List Expression := []
  aggregates : List AggregateExpr := []
  expressions : List (Expression × Option String) := []
  orderBy : List OrderByItem := []
  count : Nat := 0

def planObject (f : PlanFields JsonValue) : JsonValue :=
  .object [("kind", .string (planKindText f.kind)), ("estimated_cost", costToJson f.ann.cost),
    ("estimated_rows", ofSize f.ann.rows), ("cardinality_reasoning", .string f.ann.reasoning),
    ("cardinality_confidence", .number f.ann.confidence), ("table_name", .string f.tableName),
    ("alias", optionalText f.aliasName),
    ("projected_columns", .array (f.projectedColumns.map .string)),
    ("index_column", .string f.indexColumn), ("index_probe_value", exprToJson f.indexProbeValue),
    ("predicate", exprToJson f.predicate), ("input", optionalChild f.input),
    ("join_type", .string (joinTypeText f.joinType)), ("condition", exprToJson f.condition),
    ("left", optionalChild f.left), ("right", optionalChild f.right),
    ("group_by", .array (f.groupBy.map exprToJson)),
    ("aggregates", .array (f.aggregates.map aggregateToJson)),
    ("expressions", .array (f.expressions.map pairToJson)),
    ("order_by", .array (f.orderBy.map orderByToJson)), ("count", ofSize f.count)]

def planToJson : PhysicalPlan Binary64 → JsonValue
  | .seqScan ann t a cols => planObject
    { kind := .seqScan, ann := ann, tableName := t, aliasName := a, projectedColumns := cols }
  | .indexScan ann t a cols col probe => planObject
    { kind := .indexScan, ann := ann, tableName := t, aliasName := a, projectedColumns := cols
      indexColumn := col, indexProbeValue := probe }
  | .filter ann predicate input => planObject
    { kind := .filter, ann := ann, predicate := predicate, input := some (planToJson input) }
  | .join ann kind joinType condition left right => planObject
    { kind := .join kind, ann := ann, joinType := joinType, condition := condition
      left := some (planToJson left), right := some (planToJson right) }
  | .hashAggregate ann groupBy aggregates input => planObject
    { kind := .hashAggregate, ann := ann, groupBy := groupBy, aggregates := aggregates
      input := some (planToJson input) }
  | .project ann expressions input => planObject
    { kind := .project, ann := ann, expressions := expressions, input := some (planToJson input) }
  | .sort ann orderBy input => planObject
    { kind := .sort, ann := ann, orderBy := orderBy, input := some (planToJson input) }
  | .limit ann count input => planObject
    { kind := .limit, ann := ann, count := count, input := some (planToJson input) }
  | .externalRows ann t cols slot groupBy aggregates => planObject
    { kind := .externalRows, ann := ann, tableName := t, projectedColumns := cols, count := slot
      groupBy := groupBy, aggregates := aggregates }

/-- The plan that an object of the class stands for. -/
def PlanFields.plan (f : PlanFields (PhysicalPlan Binary64)) :
    Except String (PhysicalPlan Binary64) :=
  match f.kind, f.input, f.left, f.right with
  | .seqScan, _, _, _ => .ok (.seqScan f.ann f.tableName f.aliasName f.projectedColumns)
  | .indexScan, _, _, _ => .ok (.indexScan f.ann f.tableName f.aliasName f.projectedColumns
      f.indexColumn f.indexProbeValue)
  | .externalRows, _, _, _ => .ok (.externalRows f.ann f.tableName f.projectedColumns f.count
      f.groupBy f.aggregates)
  | .join kind, _, some l, some r => .ok (.join f.ann kind f.joinType f.condition l r)
  | .filter, some i, _, _ => .ok (.filter f.ann f.predicate i)
  | .hashAggregate, some i, _, _ => .ok (.hashAggregate f.ann f.groupBy f.aggregates i)
  | .project, some i, _, _ => .ok (.project f.ann f.expressions i)
  | .sort, some i, _, _ => .ok (.sort f.ann f.orderBy i)
  | .limit, some i, _, _ => .ok (.limit f.ann f.count i)
  | _, _, _, _ => .error "null pointer"

def annotationFrom (j : JsonValue) : Except String ( Annotation Binary64) := do
  let cost ← readField j "estimated_cost" ⟨Binary64.zero, Binary64.zero, Binary64.zero⟩ costFromJson
  let rows ← readField j "estimated_rows" 0 fun v => castSize v.asNumber
  let reasoning ← readField j "cardinality_reasoning" "" fun v => .ok v.asString
  let confidence ← readField j "cardinality_confidence" (.fin false 1) fun v => .ok v.asNumber
  return ⟨cost, rows, reasoning, confidence⟩

def planFrom : Nat → JsonValue → Except String (PhysicalPlan Binary64)
  | 0, _ => .error "plan_serializer: out of fuel"
  | fuel + 1, j => do
    let kind ← readField j "kind" .seqScan fun v => planKindFromString v.asString
    let ann ← annotationFrom j
    let tableName ← readField j "table_name" "" fun v => .ok v.asString
    let projectedColumns ← readArray j "projected_columns" fun v => .ok v.asString
    let indexColumn ← readField j "index_column" "" fun v => .ok v.asString
    let indexProbeValue ← readField j "index_probe_value" .wildcard exprFromJson
    let predicate ← readField j "predicate" .wildcard exprFromJson
    let input ← readChild j "input" (planFrom fuel)
    let joinType ← readField j "join_type" .inner fun v => joinTypeFromString v.asString
    let condition ← readField j "condition" .wildcard exprFromJson
    let left ← readChild j "left" (planFrom fuel)
    let right ← readChild j "right" (planFrom fuel)
    let groupBy ← readArray j "group_by" exprFromJson
    let aggregates ← readArray j "aggregates" aggregateFromJson
    let expressions ← readArray j "expressions" pairFromJson
    let orderBy ← readArray j "order_by" orderByFromJson
    let count ← readField j "count" 0 fun v => castSize v.asNumber
    PlanFields.plan ⟨kind, ann, tableName, readText j "alias", projectedColumns, indexColumn,
      indexProbeValue, predicate, input, joinType, condition, left, right, groupBy, aggregates,
      expressions, orderBy, count⟩

def planFromJson (j : JsonValue) : Except String (PhysicalPlan Binary64) := planFrom j.calls j

/-! ### What a document decodes to

`deserialize_plan` does not look whether an object has the children that its kind needs, and a cast of
a double that is out of range throws nothing.  The functions above fail on both; those below fail
where the source throws, and return no plan for an object that stands for none. -/

/-- A cast whose result is used where its value is defined. -/
def castField {α : Type} (j : JsonValue) (key : String) (default : α)
    (cast : Binary64 → Except String α) : Option α :=
  match j.find key with
  | some v => (cast v.asNumber).toOption
  | none => some default

def decodeLiteral (j : JsonValue) : Except String (Option Literal) := do
  let kind ← readField j "kind" .null fun v => literalKindFromString v.asString
  let floatVal ← readField j "float_val" Binary64.zero fun v => .ok v.asNumber
  let strVal ← readField j "str_val" "" fun v => .ok v.asString
  let boolVal ← readField j "bool_val" false fun v => .ok v.asBool
  return (castField j "int_val" 0 castInt64).map fun intVal =>
    LiteralFields.literal ⟨kind, intVal, floatVal, strVal, boolVal⟩

/-- The expression of an object whose children may be missing or stand for none. -/
def ExprFields.expression? (f : ExprFields (Option Expression)) (literal : Option Literal) :
    Option Expression :=
  match f.kind with
  | .column => some (.column f.table f.column)
  | .literal => literal.map .literal
  | .binaryOp => do return .binaryOp (← f.left.join) f.binaryOp (← f.right.join)
  | .unaryOp => do return .unaryOp f.unaryOp (← f.operand.join)
  | .function => do return .function f.funcName (← f.args.mapM id)
  | .wildcard => some .wildcard

def decodeExprWithin : Nat → JsonValue → Except String (Option Expression)
  | 0, _ => .error "plan_serializer: out of fuel"
  | fuel + 1, j => do
    let kind ← readField j "kind" .wildcard fun v => exprKindFromString v.asString
    let column ← readField j "column" "" fun v => .ok v.asString
    let literal ← readField j "literal" (some .null) decodeLiteral
    let left ← readChild j "left" (decodeExprWithin fuel)
    let binaryOp ← readField j "binary_op" .eq fun v => binaryOpFromString v.asString
    let right ← readChild j "right" (decodeExprWithin fuel)
    let unaryOp ← readField j "unary_op" .not fun v => unaryOpFromString v.asString
    let operand ← readChild j "operand" (decodeExprWithin fuel)
    let funcName ← readField j "func_name" "" fun v => .ok v.asString
    let args ← readArray j "args" (decodeExprWithin fuel)
    return ExprFields.expression? ⟨kind, readText j "table", column, .null, left, binaryOp, right,
      unaryOp, operand, funcName, args⟩ literal

def decodeExpr (j : JsonValue) : Except String (Option Expression) := decodeExprWithin j.calls j

def decodeAggregate (j : JsonValue) : Except String (Option AggregateExpr) := do
  let func ← readField j "func" "" fun v => .ok v.asString
  let arg ← readField j "arg" (some .wildcard) decodeExpr
  return arg.map fun arg => ⟨func, arg, readText j "alias"⟩

def decodeOrderBy (j : JsonValue) : Except String (Option OrderByItem) := do
  let expression ← readField j "expression" (some .wildcard) decodeExpr
  let ascending ← readField j "ascending" false fun v => .ok v.asBool
  return expression.map fun e => ⟨e, ascending⟩

def decodePair (j : JsonValue) : Except String (Option (Expression × Option String)) := do
  let expr ← readField j "expr" (some .wildcard) decodeExpr
  return expr.map fun e => (e, readText j "alias")

def decodeAnnotation (j : JsonValue) : Except String (Option ( Annotation Binary64)) := do
  let cost ← readField j "estimated_cost" ⟨Binary64.zero, Binary64.zero, Binary64.zero⟩ costFromJson
  let reasoning ← readField j "cardinality_reasoning" "" fun v => .ok v.asString
  let confidence ← readField j "cardinality_confidence" (.fin false 1) fun v => .ok v.asNumber
  return (castField j "estimated_rows" 0 castSize).map fun rows => ⟨cost, rows, reasoning, confidence⟩

def decodePlanWithin : Nat → JsonValue → Except String (Option (PhysicalPlan Binary64))
  | 0, _ => .error "plan_serializer: out of fuel"
  | fuel + 1, j => do
    let kind ← readField j "kind" .seqScan fun v => planKindFromString v.asString
    let ann ← decodeAnnotation j
    let tableName ← readField j "table_name" "" fun v => .ok v.asString
    let columns ← readArray j "projected_columns" fun v => .ok v.asString
    let indexColumn ← readField j "index_column" "" fun v => .ok v.asString
    let probe ← readField j "index_probe_value" (some .wildcard) decodeExpr
    let predicate ← readField j "predicate" (some .wildcard) decodeExpr
    let input ← readChild j "input" (decodePlanWithin fuel)
    let joinType ← readField j "join_type" .inner fun v => joinTypeFromString v.asString
    let condition ← readField j "condition" (some .wildcard) decodeExpr
    let left ← readChild j "left" (decodePlanWithin fuel)
    let right ← readChild j "right" (decodePlanWithin fuel)
    let groupBy ← readArray j "group_by" decodeExpr
    let aggregates ← readArray j "aggregates" decodeAggregate
    let expressions ← readArray j "expressions" decodePair
    let orderBy ← readArray j "order_by" decodeOrderBy
    let count := castField j "count" 0 castSize
    -- the fields that the kind of the node reads
    return match kind with
      | .seqScan => do return .seqScan (← ann) tableName (readText j "alias") columns
      | .indexScan => do
        return .indexScan (← ann) tableName (readText j "alias") columns indexColumn (← probe)
      | .filter => do return .filter (← ann) (← predicate) (← input.join)
      | .join joinKind => do
        return .join (← ann) joinKind joinType (← condition) (← left.join) (← right.join)
      | .hashAggregate => do
        return .hashAggregate (← ann) (← groupBy.mapM id) (← aggregates.mapM id) (← input.join)
      | .project => do return .project (← ann) (← expressions.mapM id) (← input.join)
      | .sort => do return .sort (← ann) (← orderBy.mapM id) (← input.join)
      | .limit => do return .limit (← ann) (← count) (← input.join)
      | .externalRows => do
        return .externalRows (← ann) tableName columns (← count) (← groupBy.mapM id)
          (← aggregates.mapM id)

/-- `plan_from_json` -/
def decodePlan (j : JsonValue) : Except String (Option (PhysicalPlan Binary64)) :=
  decodePlanWithin j.calls j

variable [NumberText]

def serializePlan (plan : PhysicalPlan Binary64) : List Char := writeJson (planToJson plan)

/-- `deserialize_plan`, as the cache calls it. -/
def decodeCachedPlan (text : List Char) : Except String (Option (PhysicalPlan Binary64)) := do
  decodePlan (← (parseJson text).mapError JsonError.what)

end PlanSerializer

end SqlOptimizer
