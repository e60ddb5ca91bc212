import SqlOptimizer.Parser.Ast

/-! `parser/sql_printer.cpp`: the canonical text of a statement, the query part of a cache key. -/

namespace SqlOptimizer

def binaryOpName : BinaryOperator → List Char
  | .eq => ['=']
  | .neq => ['<', '>']
  | .lt => ['<']
  | .gt => ['>']
  | .lte => ['<', '=']
  | .gte => ['>', '=']
  | .and => ['A', 'N', 'D']
  | .or => ['O', 'R']
  | .add => ['+']
  | .sub => ['-']
  | .mul => ['*']
  | .div => ['/']

def unaryOpName : UnaryOperator → List Char
  | .not => ['N', 'O', 'T', ' ']
  | .neg => ['-']

def printLiteral : Literal → List Char
  | .integer i => Binary64.intText i.toInt
  | .floating x => Binary64.generalText x
  | .str s => '\'' :: s.toList ++ ['\'']
  | .boolean b => if b then ['T', 'R', 'U', 'E'] else ['F', 'A', 'L', 'S', 'E']
  | .null => ['N', 'U', 'L', 'L']

def printColumn (table : Option String) (column : String) : List Char :=
  match table with
  | some t => t.toList ++ '.' :: column.toList
  | none => column.toList

/-- Texts with commas between them. -/
def commaList (texts : List (List Char)) : List Char := [',', ' '].intercalate texts

mutual

def printExpr : Expression → List Char
  | .column t c => printColumn t c
  | .literal l => printLiteral l
  | .binaryOp l op r => '(' :: printExpr l ++ ' ' :: binaryOpName op ++ ' ' :: printExpr r ++ [')']
  | .unaryOp op e => unaryOpName op ++ printExpr e
  | .function name args => name.toList ++ '(' :: commaList (printExprs args) ++ [')']
  | .wildcard => ['*']

def printExprs : List Expression → List (List Char)
  | [] => []
  | e :: es => printExpr e :: printExprs es

end

def printSelectItem : SelectItem → List Char
  | .wildcard => ['*']
  | .qualifiedWildcard t => t.toList ++ ['.', '*']
  | .expression e (some a) => printExpr e ++ " AS ".toList ++ a.toList
  | .expression e none => printExpr e

def printTableRef (ref : TableRef) : List Char :=
  match ref.aliasName with
  | some a => ref.tableName.toList ++ ' ' :: a.toList
  | none => ref.tableName.toList

def joinTypeName : JoinType → List Char
  | .inner => " INNER JOIN ".toList
  | .left => " LEFT JOIN ".toList
  | .right => " RIGHT JOIN ".toList
  | .cross => " CROSS JOIN ".toList

def printJoin (j : Join) : List Char :=
  joinTypeName j.joinType ++ printTableRef j.table ++ " ON ".toList ++ printExpr j.condition

/-- A clause that is printed when it is there. -/
def printClause (keyword : String) : Option (List Char) → List Char
  | some text => keyword.toList ++ text
  | none => []

/-- A clause that is printed when its list is not empty. -/
def printListClause (keyword : String) : List (List Char) → List Char
  | [] => []
  | texts => keyword.toList ++ commaList texts

def printOrderByItem (item : OrderByItem) : List Char :=
  printExpr item.expression ++ (if item.ascending then " ASC" else " DESC").toList

def printStatement (stmt : Statement) : List Char :=
  let s := stmt.select
  "SELECT ".toList ++ commaList (s.columns.map printSelectItem) ++
    " FROM ".toList ++ printTableRef s.fromTable ++ s.joins.flatMap printJoin ++
    printClause " WHERE " (s.whereClause.map printExpr) ++
    printListClause " GROUP BY " (printExprs s.groupBy) ++
    printClause " HAVING " (s.having.map printExpr) ++
    printListClause " ORDER BY " (s.orderBy.map printOrderByItem) ++
    printClause " LIMIT " (s.limit.map Binary64.decimal)

def toCanonicalSql (stmt : Statement) : String := String.ofList (printStatement stmt)

end SqlOptimizer
