import SqlOptimizer.Library.Failure
import SqlOptimizer.Parser.Lexer

/-! `parser/parser.cpp`: recursive descent over the tokens that are left.  The functions below
`parse_expr` take it as a parameter, and `parse_expr` itself counts how deep it is nested. -/

namespace SqlOptimizer.Parser

/-- A parser function: what it returns, and the tokens after it. -/
abbrev Rule (α : Type) := List Token → Except String (α × List Token)

def peek (tokens : List Token) : Token := tokens.headD .eof

def expect (expected : Token) (tokens : List Token) : Except String (List Token) :=
  if peek tokens = expected then .ok tokens.tail else .error "unexpected token during parse"

/-- A list with commas between its elements; each round takes a token at least. -/
def commaSeparated {α : Type} (item : Rule α) : Nat → Rule (List α)
  | 0, _ => .error "parser: out of fuel"
  | fuel + 1, tokens => do
    let (a, tokens) ← item tokens
    if peek tokens = .comma then
      let (as, tokens) ← commaSeparated item fuel tokens.tail
      return (a :: as, tokens)
    else return ([a], tokens)

/-! ### Expressions -/

section Expressions

-- `parse_expr`
variable (expr : Rule Expression)

def parseExprList (tokens : List Token) : Except String (List Expression × List Token) :=
  commaSeparated expr (tokens.length + 1) tokens

/-- The arguments of a function call, up to the closing parenthesis. -/
def parseArguments (tokens : List Token) : Except String (List Expression × List Token) :=
  match peek tokens with
  | .rparen => .ok ([], tokens)
  | .star => .ok ([.wildcard], tokens.tail)
  | _ => parseExprList expr tokens

/-- The case of `parse_primary` for an identifier. -/
def parseName (name : String) (tokens : List Token) : Except String (Expression × List Token) :=
  match peek tokens with
  | .lparen => do
    let (args, tokens) ← parseArguments expr tokens.tail
    return (.function name args, ← expect .rparen tokens)
  | .dot =>
    match peek tokens.tail with
    | .identifier column => .ok (.column (some name) column, tokens.tail.tail)
    | .star => .ok (.column (some name) "*", tokens.tail.tail)
    | _ => .error "expected column name after '.'"
  | _ => .ok (.column none name, tokens)

def parsePrimary (tokens : List Token) : Except String (Expression × List Token) :=
  match peek tokens with
  | .lparen => do
    let (e, tokens) ← expr tokens.tail
    return (e, ← expect .rparen tokens)
  | .integer v => .ok (.literal (.integer v), tokens.tail)
  | .float x => .ok (.literal (.floating x), tokens.tail)
  | .stringLit s => .ok (.literal (.str s), tokens.tail)
  | .keyword .trueKw => .ok (.literal (.boolean true), tokens.tail)
  | .keyword .falseKw => .ok (.literal (.boolean false), tokens.tail)
  | .keyword .nullKw => .ok (.literal .null, tokens.tail)
  | .identifier name => parseName expr name tokens.tail
  | _ => .error "unexpected token in expression"

/-- A prefix operator before an operand, any number of times. -/
def prefixed (operator : Token) (op : UnaryOperator) (operand : Rule Expression) : Rule Expression
  | [] => operand []
  | token :: tokens =>
    if token = operator then do
      let (e, tokens) ← prefixed operator op operand tokens
      return (.unaryOp op e, tokens)
    else operand (token :: tokens)

/-- The loop of a left-associative operator; each round takes an operator at least. -/
def operatorLoop (operator : Token → Option BinaryOperator)
    (operand : Rule Expression) : Nat → Expression → Rule Expression
  | 0, _, _ => .error "parser: out of fuel"
  | fuel + 1, left, tokens =>
    match operator (peek tokens) with
    | none => .ok (left, tokens)
    | some op => do
      let (right, tokens) ← operand tokens.tail
      operatorLoop operator operand fuel (.binaryOp left op right) tokens

def leftAssociative (operator : Token → Option BinaryOperator) (operand : Rule Expression)
    (tokens : List Token) : Except String (Expression × List Token) := do
  let (left, tokens) ← operand tokens
  operatorLoop operator operand (tokens.length + 1) left tokens

def multiplicativeOp : Token → Option BinaryOperator
  | .star => some .mul
  | .slash => some .div
  | _ => none

def additiveOp : Token → Option BinaryOperator
  | .plus => some .add
  | .minus => some .sub
  | _ => none

def comparisonOp : Token → Option BinaryOperator
  | .eq => some .eq
  | .neq => some .neq
  | .lt => some .lt
  | .gt => some .gt
  | .lte => some .lte
  | .gte => some .gte
  | _ => none

def andOp : Token → Option BinaryOperator
  | .keyword .and => some .and
  | _ => none

def orOp : Token → Option BinaryOperator
  | .keyword .or => some .or
  | _ => none

def parseUnary : Rule Expression := prefixed .minus .neg (parsePrimary expr)

def parseMultiplicative : Rule Expression :=
  leftAssociative multiplicativeOp (parseUnary expr)

def parseAdditive : Rule Expression :=
  leftAssociative additiveOp (parseMultiplicative expr)

/-- At most one comparison. -/
def parseComparison (tokens : List Token) : Except String (Expression × List Token) := do
  let (left, tokens) ← parseAdditive expr tokens
  match comparisonOp (peek tokens) with
  | none => return (left, tokens)
  | some op =>
    let (right, tokens) ← parseAdditive expr tokens.tail
    return (.binaryOp left op right, tokens)

def parseNot : Rule Expression := prefixed (.keyword .not) .not (parseComparison expr)

def parseAnd : Rule Expression := leftAssociative andOp (parseNot expr)

def parseOr : Rule Expression := leftAssociative orOp (parseAnd expr)

end Expressions

/-- `parse_expr`, nested less deep than the fuel. -/
def parseExprWithin : Nat → Rule Expression
  | 0, _ => .error "parser: out of fuel"
  | fuel + 1, tokens => parseOr (parseExprWithin fuel) tokens

/-- `parse_expr`; a nested expression starts after a token at least. -/
def parseExpr (tokens : List Token) : Except String (Expression × List Token) :=
  parseExprWithin (tokens.length + 1) tokens

/-! ### Statements -/

/-- An optional alias, with or without AS. -/
def parseAlias (missing : String) (tokens : List Token) :
    Except String (Option String × List Token) :=
  match peek tokens with
  | .keyword .asKw =>
    match peek tokens.tail with
    | .identifier s => .ok (some s, tokens.tail.tail)
    | _ => .error missing
  | .identifier s => .ok (some s, tokens.tail)
  | _ => .ok (none, tokens)

def parseSelectItem (tokens : List Token) : Except String (SelectItem × List Token) :=
  if peek tokens = .star then .ok (.wildcard, tokens.tail)
  else do
    let (e, tokens) ← parseExpr tokens
    match e with
    | .column (some table) "*" => return (.qualifiedWildcard table, tokens)
    | _ =>
      let (aliasName, tokens) ← parseAlias "expected alias name after AS" tokens
      return (.expression e aliasName, tokens)

def parseSelectList (tokens : List Token) : Except String (List SelectItem × List Token) :=
  commaSeparated parseSelectItem (tokens.length + 1) tokens

def parseTableRef (tokens : List Token) : Except String (TableRef × List Token) :=
  match peek tokens with
  | .identifier tableName => do
    let (aliasName, tokens) ← parseAlias "expected alias after AS" tokens.tail
    return (⟨tableName, aliasName⟩, tokens)
  | _ => .error "expected table name"

/-- The join type that a keyword starts. -/
def joinStart : Token → Option JoinType
  | .keyword .join => some .inner
  | .keyword .inner => some .inner
  | .keyword .left => some .left
  | .keyword .right => some .right
  | .keyword .cross => some .cross
  | _ => none

def parseJoin (joinType : JoinType) (tokens : List Token) : Except String (Join × List Token) := do
  let tokens ← if peek tokens = .keyword .join then .ok tokens.tail
    else expect (.keyword .join) tokens.tail
  let (table, tokens) ← parseTableRef tokens
  let tokens ← expect (.keyword .onKw) tokens
  let (condition, tokens) ← parseExpr tokens
  return (⟨joinType, table, condition⟩, tokens)

/-- The JOIN clauses, each of which takes a token at least. -/
def parseJoins : Nat → Rule (List Join)
  | 0, _ => .error "parser: out of fuel"
  | fuel + 1, tokens =>
    match joinStart (peek tokens) with
    | none => .ok ([], tokens)
    | some joinType => do
      let (join, tokens) ← parseJoin joinType tokens
      let (joins, tokens) ← parseJoins fuel tokens
      return (join :: joins, tokens)

def parseOrderByItem (tokens : List Token) : Except String (OrderByItem × List Token) := do
  let (e, tokens) ← parseExpr tokens
  if peek tokens = .keyword .asc then return (⟨e, true⟩, tokens.tail)
  else if peek tokens = .keyword .desc then return (⟨e, false⟩, tokens.tail)
  else return (⟨e, true⟩, tokens)

/-- A clause that its keyword starts, or the default. -/
def optionalClause {α : Type} (keyword : Keyword) (default : α) (clause : Rule α)
    (tokens : List Token) : Except String (α × List Token) :=
  if peek tokens = .keyword keyword then clause tokens.tail else .ok (default, tokens)

def someExpr (tokens : List Token) : Except String (Option Expression × List Token) := do
  let (e, tokens) ← parseExpr tokens
  return (some e, tokens)

/-- `static_cast<size_t>` of the token after LIMIT. -/
def parseLimit (tokens : List Token) : Except String (Option Nat × List Token) :=
  match peek tokens with
  | .integer v => .ok (some (v.toInt % 2 ^ 64).toNat, tokens.tail)
  | _ => .error "expected integer after LIMIT"

/-- `parse_select`, after SELECT. -/
def parseSelect (tokens : List Token) : Except String (Statement × List Token) := do
  let (columns, tokens) ← parseSelectList tokens
  let tokens ← expect (.keyword .fromKw) tokens
  let (fromTable, tokens) ← parseTableRef tokens
  let (joins, tokens) ← parseJoins (tokens.length + 1) tokens
  let (whereClause, tokens) ← optionalClause .whereKw none someExpr tokens
  let (groupBy, tokens) ← optionalClause .group [] (fun tokens => do
    parseExprList parseExpr (← expect (.keyword .byKw) tokens)) tokens
  let (having, tokens) ← optionalClause .having none someExpr tokens
  let (orderBy, tokens) ← optionalClause .order [] (fun tokens => do
    let tokens ← expect (.keyword .byKw) tokens
    commaSeparated parseOrderByItem (tokens.length + 1) tokens) tokens
  let (limit, tokens) ← optionalClause .limit none parseLimit tokens
  return (⟨⟨columns, fromTable, joins, whereClause, groupBy, having, orderBy, limit⟩⟩, tokens)

/-- `parse`.  Tokens after the statement are ignored. -/
def parse (tokens : List Token) : Except String Statement :=
  if peek tokens = .keyword .select then do return (← parseSelect tokens.tail).1
  else .error "expected SELECT"

end SqlOptimizer.Parser
