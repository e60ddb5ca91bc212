import SqlOptimizer.Library.Binary64

/-! The syntax trees of `parser/ast.hpp`.  A `std::string` is a `String` whose characters stand for
the bytes of the C++ string. -/

namespace SqlOptimizer

inductive BinaryOperator where
  | eq | neq | lt | gt | lte | gte
  | and | or
  | add | sub | mul | div
  deriving DecidableEq

inductive UnaryOperator where
  | not | neg
  deriving DecidableEq

/-- A literal, and also the value of a column in a row. -/
inductive Literal where
  | integer (v : Int64)
  | floating (v : Binary64)
  | str (v : String)
  | boolean (v : Bool)
  | null
  deriving DecidableEq, Inhabited

inductive Expression where
  | column (table : Option String) (column : String)
  | literal (l : Literal)
  | binaryOp (left : Expression) (op : BinaryOperator) (right : Expression)
  | unaryOp (op : UnaryOperator) (operand : Expression)
  | function (name : String) (args : List Expression)
  | wildcard
  deriving Inhabited

inductive SelectItem where
  | expression (expr : Expression) (aliasName : Option String)
  | wildcard
  | qualifiedWildcard (table : String)

structure TableRef where
  tableName : String
  aliasName : Option String

inductive JoinType where
  | inner | left | right | cross
  deriving DecidableEq

structure Join where
  joinType : JoinType
  table : TableRef
  condition : Expression

structure OrderByItem where
  expression : Expression
  ascending : Bool

structure SelectStatement where
  columns : List SelectItem
  fromTable : TableRef
  joins : List Join
  whereClause : Option Expression
  groupBy : List Expression
  having : Option Expression
  orderBy : List OrderByItem
  limit : Option Nat

/-- `std::toupper` on every byte. -/
def toUpper (s : String) : String := String.ofList (s.toList.map Char.toUpper)

/-- Only SELECT is supported. -/
structure Statement where
  select : SelectStatement

/-- The literal `TRUE`. -/
def Expression.trueLiteral : Expression := .literal (.boolean true)

/-! The column references of an expression, in the order in which the source's visitors meet
them. -/

mutual
def Expression.columns : Expression → List (Option String × String)
  | .column t c => [(t, c)]
  | .binaryOp l _ r => l.columns ++ r.columns
  | .unaryOp _ e => e.columns
  | .function _ args => Expression.columnsList args
  | .literal _ => []
  | .wildcard => []
def Expression.columnsList : List Expression → List (Option String × String)
  | [] => []
  | e :: es => e.columns ++ Expression.columnsList es
end

end SqlOptimizer
