import SqlOptimizer.Library.Reading
import SqlOptimizer.Parser.Parser

/-! The grammar of a SELECT statement.  A phrase is read up to the token that follows it: a list or
a chain of operators ends in front of a token that does not continue it. -/

namespace SqlOptimizer.Parser

open Reading

abbrev Phrase (α : Type) := Reading Token α

/-! ### Expressions -/

def literalOf : Token → Option Literal
  | .integer v => some (.integer v)
  | .float x => some (.floating x)
  | .stringLit s => some (.str s)
  | .keyword .trueKw => some (.boolean true)
  | .keyword .falseKw => some (.boolean false)
  | .keyword .nullKw => some .null
  | _ => none

section

-- the expression inside parentheses
variable (X : Phrase Expression)

/-- The arguments of a call: none, a star, or expressions. -/
inductive Arguments : List Token → List Expression → Token → Prop
  | empty : Arguments [] [] .rparen
  | star {t : Token} : Arguments [.star] [.wildcard] t
  | list {ts : List Token} {es : List Expression} {t : Token} (h : Separated .comma X ts es t)
      (hparen : ts.headD t ≠ .rparen) (hstar : ts.headD t ≠ .star) : Arguments ts es t

inductive Primary : List Token → Expression → Token → Prop
  | literal {tok t : Token} {l : Literal} (h : literalOf tok = some l) :
      Primary [tok] (.literal l) t
  | column {name : String} {t : Token} (hparen : t ≠ .lparen) (hdot : t ≠ .dot) :
      Primary [.identifier name] (.column none name) t
  | qualified {name column : String} {t : Token} :
      Primary [.identifier name, .dot, .identifier column] (.column (some name) column) t
  | qualifiedStar {name : String} {t : Token} :
      Primary [.identifier name, .dot, .star] (.column (some name) "*") t
  | call {name : String} {ts : List Token} {args : List Expression} {t : Token}
      (h : Arguments X ts args .rparen) :
      Primary (.identifier name :: .lparen :: (ts ++ [.rparen])) (.function name args) t
  | parenthesized {ts : List Token} {e : Expression} {t : Token} (h : X ts e .rparen) :
      Primary (.lparen :: (ts ++ [.rparen])) e t

/-- The operators of a level, as functions on its operands. -/
def binary (operator : Token → Option BinaryOperator) (t : Token) :
    Option (Expression → Expression → Expression) :=
  (operator t).map fun op l r => .binaryOp l op r

def unary : Phrase Expression := Prefixed .minus (.unaryOp .neg) (Primary X)

def multiplicative : Phrase Expression := Reading.chain (binary multiplicativeOp) (unary X)

def additive : Phrase Expression := Reading.chain (binary additiveOp) (multiplicative X)

/-- One comparison at most. -/
inductive Comparison : List Token → Expression → Token → Prop
  | alone {ts : List Token} {e : Expression} {t : Token} (h : additive X ts e t)
      (ht : comparisonOp t = none) : Comparison ts e t
  | compare {ts us : List Token} {l r : Expression} {op : BinaryOperator} {tok t : Token}
      (hl : additive X ts l tok) (hop : comparisonOp tok = some op) (hr : additive X us r t) :
      Comparison (ts ++ tok :: us) (.binaryOp l op r) t

def negation : Phrase Expression := Prefixed (.keyword .not) (.unaryOp .not) (Comparison X)

def conjunction : Phrase Expression := Reading.chain (binary andOp) (negation X)

def disjunction : Phrase Expression := Reading.chain (binary orOp) (conjunction X)

end

/-- An expression whose parentheses nest less deep than `n`. -/
def exprWithin : Nat → Phrase Expression
  | 0 => fun _ _ _ => False
  | n + 1 => disjunction (exprWithin n)

def expr : Phrase Expression := fun ts e t => ∃ n, exprWithin n ts e t

/-! ### Statements -/

inductive Alias : List Token → Option String → Token → Prop
  | withAs {s : String} {t : Token} : Alias [.keyword .asKw, .identifier s] (some s) t
  | bare {s : String} {t : Token} : Alias [.identifier s] (some s) t
  | missing {t : Token} (has : t ≠ .keyword .asKw) (hname : ∀ s, t ≠ .identifier s) :
      Alias [] none t

inductive Item : List Token → SelectItem → Token → Prop
  | wildcard {t : Token} : Item [.star] .wildcard t
  | qualifiedWildcard {ts : List Token} {table : String} {t : Token}
      (h : expr ts (.column (some table) "*") t) : Item ts (.qualifiedWildcard table) t
  | expression {ts us : List Token} {e : Expression} {aliasName : Option String} {t : Token}
      (h : expr ts e (us.headD t)) (he : ∀ table, e ≠ .column (some table) "*")
      (ha : Alias us aliasName t) : Item (ts ++ us) (.expression e aliasName) t

def tableName : Phrase String := fun ts s _ => ts = [.identifier s]

def tableRef : Phrase TableRef := do
  let name ← tableName
  let aliasName ← (Alias : Phrase (Option String))
  return ⟨name, aliasName⟩

/-- The keywords in front of a joined table. -/
def joinWords : Phrase JoinType := fun ts joinType _ =>
  (ts, joinType) ∈ [([.keyword .join], .inner), ([.keyword .inner, .keyword .join], .inner),
    ([.keyword .left, .keyword .join], .left), ([.keyword .right, .keyword .join], .right),
    ([.keyword .cross, .keyword .join], .cross)]

def joinClause : Phrase Join := do
  let joinType ← joinWords
  let table ← tableRef
  token (.keyword .onKw)
  let condition ← expr
  return ⟨joinType, table, condition⟩

inductive Joins : List Token → List Join → Token → Prop
  | nil {t : Token} (h : joinStart t = none) : Joins [] [] t
  | cons {ts us : List Token} {join : Join} {joins : List Join} {t : Token}
      (h : joinClause ts join (us.headD t)) (hs : Joins us joins t) :
      Joins (ts ++ us) (join :: joins) t

inductive Direction : List Token → Bool → Token → Prop
  | asc {t : Token} : Direction [.keyword .asc] true t
  | desc {t : Token} : Direction [.keyword .desc] false t
  | missing {t : Token} (hasc : t ≠ .keyword .asc) (hdesc : t ≠ .keyword .desc) :
      Direction [] true t

def orderByItem : Phrase OrderByItem := do
  let e ← expr
  let ascending ← (Direction : Phrase Bool)
  return ⟨e, ascending⟩

def limitCount : Phrase (Option Nat) := fun ts l _ =>
  ∃ v, ts = [.integer v] ∧ l = some (v.toInt % 2 ^ 64).toNat

def clause : Phrase (Option Expression) := do
  let e ← expr
  return some e

/-- A SELECT statement. -/
def selectStatement : Phrase Statement := do
  token (.keyword .select)
  let columns ← (Separated .comma Item : Phrase (List SelectItem))
  token (.keyword .fromKw)
  let fromTable ← tableRef
  let joins ← (Joins : Phrase (List Join))
  let whereClause ← Reading.optional (.keyword .whereKw) none clause
  let groupBy ← Reading.optional (.keyword .group) [] do
    token (.keyword .byKw)
    (Separated .comma expr : Phrase (List Expression))
  let having ← Reading.optional (.keyword .having) none clause
  let orderBy ← Reading.optional (.keyword .order) [] do
    token (.keyword .byKw)
    (Separated .comma orderByItem : Phrase (List OrderByItem))
  let limit ← Reading.optional (.keyword .limit) none limitCount
  return ⟨⟨columns, fromTable, joins, whereClause, groupBy, having, orderBy, limit⟩⟩

end SqlOptimizer.Parser
