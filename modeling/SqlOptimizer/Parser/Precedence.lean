import Mathlib.Order.Basic
import SqlOptimizer.Parser.Recognition

/-! The precedence comment of `parser/parser.hpp`.  An expression is written with a pair of
parentheses wherever it binds looser than its place allows, and anywhere else at will; `parseExpr`
reads the tree back. -/

namespace SqlOptimizer.Parser

open Reading

/-- How tight a text binds, from OR to `parse_primary`. -/
inductive Level where
  | or | and | not | comparison | additive | multiplicative | unary | primary
  deriving DecidableEq

def Level.rank : Level → Nat
  | .or => 0
  | .and => 1
  | .not => 2
  | .comparison => 3
  | .additive => 4
  | .multiplicative => 5
  | .unary => 6
  | .primary => 7

theorem Level.rank_injective : Function.Injective Level.rank := by
  intro l l' h
  cases l <;> cases l' <;> first | rfl | cases h

instance : LinearOrder Level := .lift' Level.rank Level.rank_injective

def Level.tighter : Level → Level
  | .or => .and
  | .and => .not
  | .not => .comparison
  | .comparison => .additive
  | .additive => .multiplicative
  | .multiplicative => .unary
  | .unary | .primary => .primary

def levelOf : BinaryOperator → Level
  | .or => .or
  | .and => .and
  | .eq | .neq | .lt | .gt | .lte | .gte => .comparison
  | .add | .sub => .additive
  | .mul | .div => .multiplicative

/-- The loosest text to the left of an operator: comparisons do not associate. -/
def leftLevel (op : BinaryOperator) : Level :=
  if levelOf op = .comparison then .additive else levelOf op

/-- The loosest text to the right of an operator. -/
def rightLevel (op : BinaryOperator) : Level := (levelOf op).tighter

def operatorToken : BinaryOperator → Token
  | .eq => .eq
  | .neq => .neq
  | .lt => .lt
  | .gt => .gt
  | .lte => .lte
  | .gte => .gte
  | .and => .keyword .and
  | .or => .keyword .or
  | .add => .plus
  | .sub => .minus
  | .mul => .star
  | .div => .slash

mutual
/-- The tokens of an expression in a place of a level. -/
inductive Written : Level → Expression → List Token → Prop
  | column {l : Level} {name : String} : Written l (.column none name) [.identifier name]
  | qualified {l : Level} {table name : String} :
      Written l (.column (some table) name) [.identifier table, .dot, .identifier name]
  | literal {l : Level} {tok : Token} {value : Literal} (h : literalOf tok = some value) :
      Written l (.literal value) [tok]
  | callEmpty {l : Level} {name : String} :
      Written l (.function name []) [.identifier name, .lparen, .rparen]
  | callStar {l : Level} {name : String} :
      Written l (.function name [.wildcard]) [.identifier name, .lparen, .star, .rparen]
  | call {l : Level} {name : String} {args : List Expression} {ts : List Token}
      (h : WrittenArguments args ts) :
      Written l (.function name args) (.identifier name :: .lparen :: (ts ++ [.rparen]))
  | neg {l : Level} {e : Expression} {ts : List Token} (hl : l ≤ .unary)
      (h : Written .unary e ts) : Written l (.unaryOp .neg e) (.minus :: ts)
  | not {l : Level} {e : Expression} {ts : List Token} (hl : l ≤ .not)
      (h : Written .not e ts) : Written l (.unaryOp .not e) (.keyword .not :: ts)
  | binary {l : Level} {op : BinaryOperator} {a b : Expression} {ts us : List Token}
      (hl : l ≤ levelOf op) (ha : Written (leftLevel op) a ts) (hb : Written (rightLevel op) b us) :
      Written l (.binaryOp a op b) (ts ++ operatorToken op :: us)
  | parenthesized {l : Level} {e : Expression} {ts : List Token} (h : Written .or e ts) :
      Written l e (.lparen :: (ts ++ [.rparen]))

/-- Expressions with commas between them. -/
inductive WrittenArguments : List Expression → List Token → Prop
  | one {e : Expression} {ts : List Token} (h : Written .or e ts) : WrittenArguments [e] ts
  | cons {e : Expression} {es : List Expression} {ts us : List Token} (h : Written .or e ts)
      (hs : WrittenArguments es us) : WrittenArguments (e :: es) (ts ++ .comma :: us)
end

/-- A token does not continue a text of a level. -/
def Ends (l : Level) (t : Token) : Prop :=
  t ≠ .lparen ∧ t ≠ .dot ∧ ∀ op, t = operatorToken op → leftLevel op ≤ l

/-- A token can start a text of a level. -/
def Opens (l : Level) (t : Token) : Prop :=
  t ≠ .rparen ∧ t ≠ .star ∧ (.unary < l → t ≠ .minus) ∧ (.not < l → t ≠ .keyword .not)

/-! ### Levels -/

section

variable {l l' : Level} {op : BinaryOperator} {t : Token}

theorem Ends.mono (h : Ends l t) (hl : l ≤ l') : Ends l' t :=
  ⟨h.1, h.2.1, fun op hop => (h.2.2 op hop).trans hl⟩

theorem Opens.mono (h : Opens l' t) (hl : l ≤ l') : Opens l t :=
  ⟨h.1, h.2.1, fun hlt => h.2.2.1 (hlt.trans_le hl), fun hlt => h.2.2.2 (hlt.trans_le hl)⟩

theorem operatorToken_injective : Function.Injective operatorToken := by
  intro op op' h
  cases op <;> cases op' <;> first | rfl | cases h

theorem levelOf_le_leftLevel (op : BinaryOperator) : levelOf op ≤ leftLevel op := by
  cases op <;> decide

theorem levelOf_lt_rightLevel (op : BinaryOperator) : levelOf op < rightLevel op := by
  cases op <;> decide

/-- An operator ends its left operand. -/
theorem ends_operatorToken (op : BinaryOperator) : Ends (leftLevel op) (operatorToken op) := by
  refine ⟨?_, ?_, fun op' h => ?_⟩
  · cases op <;> exact fun h => by cases h
  · cases op <;> exact fun h => by cases h
  · rw [operatorToken_injective h]

theorem lt_tighter (hl : l ≠ .primary) : l < l.tighter := by
  cases l <;> first | decide | exact absurd rfl hl

theorem tighter_le (h : l < l') : l.tighter ≤ l' := by
  cases l <;> cases l' <;> first | decide | exact absurd h (by decide)

/-- A token after a text of `l` is no operator of a tighter level. -/
theorem Ends.levelOf_ne (h : Ends l t) (hl : l < l') (op : BinaryOperator)
    (hop : t = operatorToken op) : levelOf op ≠ l' := by
  rintro rfl
  exact absurd ((levelOf_le_leftLevel op).trans (h.2.2 op hop)) hl.not_ge

end

/-! ### The rule of a level -/

def operatorsOf : Level → Token → Option BinaryOperator
  | .or => orOp
  | .and => andOp
  | .comparison => comparisonOp
  | .additive => additiveOp
  | .multiplicative => multiplicativeOp
  | _ => fun _ => none

theorem operatorsOf_eq_some {l : Level} {t : Token} {op : BinaryOperator}
    (h : operatorsOf l t = some op) : t = operatorToken op ∧ levelOf op = l := by
  cases l with
  | or | and =>
    cases t with
    | keyword k => cases k <;> cases h; exact ⟨rfl, rfl⟩
    | _ => cases h
  | _ => cases t <;> cases h <;> exact ⟨rfl, rfl⟩

theorem operatorsOf_operatorToken (op : BinaryOperator) :
    operatorsOf (levelOf op) (operatorToken op) = some op := by
  cases op <;> rfl

theorem operatorsOf_eq_none {l : Level} {t : Token}
    (h : ∀ op, t = operatorToken op → levelOf op ≠ l) : operatorsOf l t = none := by
  rw [Option.eq_none_iff_forall_ne_some]
  intro op hop
  obtain ⟨ht, hl⟩ := operatorsOf_eq_some hop
  exact h op ht hl

section

variable {X : Phrase Expression} {l l' : Level} {ts : List Token} {e : Expression} {t : Token}

variable (X) in
def levelPhrase : Level → Phrase Expression
  | .or => disjunction X
  | .and => conjunction X
  | .not => negation X
  | .comparison => Comparison X
  | .additive => additive X
  | .multiplicative => multiplicative X
  | .unary => unary X
  | .primary => Primary X

variable (X) in
/-- The phrase of a level, which operators of this level may continue. -/
def operandPhrase : Level → Phrase Expression
  | .or => Chain (binary orOp) (conjunction X)
  | .and => Chain (binary andOp) (negation X)
  | .additive => Chain (binary additiveOp) (multiplicative X)
  | .multiplicative => Chain (binary multiplicativeOp) (unary X)
  | l => levelPhrase X l

/-- A phrase that no operator of its level follows is read whole. -/
theorem levelPhrase_of_operandPhrase (h : operandPhrase X l ts e t)
    (ht : ∀ op, t = operatorToken op → levelOf op ≠ l) : levelPhrase X l ts e t := by
  have hnone : binary (operatorsOf l) t = none := by rw [binary, operatorsOf_eq_none ht]; rfl
  cases l with
  | or | and | additive | multiplicative => exact ⟨h, hnone⟩
  | _ => exact h

/-- A phrase of the next level. -/
theorem operandPhrase_of_tighter (hl : l ≠ .primary) (h : levelPhrase X l.tighter ts e t)
    (hts : Opens l.tighter (ts.headD t)) (ht : Ends l t) : operandPhrase X l ts e t := by
  cases l with
  | or | and | additive | multiplicative => exact .first h
  | not => exact .operand h (hts.2.2.2 (by decide))
  | comparison =>
    refine .alone h (operatorsOf_eq_none (l := .comparison) fun op hop hlevel => ?_)
    have hleft := ht.2.2 op hop
    rw [leftLevel, if_pos hlevel] at hleft
    exact absurd hleft (by decide)
  | unary => exact .operand h (hts.2.2.1 (by decide))
  | primary => exact absurd rfl hl

/-- A text of a tighter level. -/
theorem operandPhrase_mono {l : Level} (h : operandPhrase X l' ts e t)
    (hts : Opens l' (ts.headD t)) (hl : l ≤ l') (ht : Ends l t) : operandPhrase X l ts e t := by
  obtain rfl | hlt := hl.eq_or_lt
  · exact h
  · have hne : l ≠ .primary := by
      rintro rfl
      cases l' <;> exact absurd hlt (by decide)
    have hle := lt_tighter hne
    have htighter := tighter_le hlt
    have hread : operandPhrase X l.tighter ts e t :=
      operandPhrase_mono h hts htighter (ht.mono hle.le)
    exact operandPhrase_of_tighter hne
      (levelPhrase_of_operandPhrase hread (ht.levelOf_ne hle)) (hts.mono htighter) ht
  termination_by 8 - l.rank
  decreasing_by cases l <;> first | decide | exact absurd rfl hne

end

/-! ### Reading a written expression -/

theorem opens_of_literalOf {l : Level} {tok : Token} {value : Literal}
    (h : literalOf tok = some value) : Opens l tok := by
  refine ⟨?_, ?_, fun _ => ?_, fun _ => ?_⟩ <;> rintro rfl <;> cases h

theorem opens_identifier (l : Level) (name : String) : Opens l (.identifier name) := by
  simp [Opens]

theorem opens_lparen (l : Level) : Opens l .lparen := by simp [Opens]

/-- A written expression is not empty, and starts as its level allows. -/
theorem Written.opens {l : Level} {e : Expression} {ts : List Token} (t : Token) :
    Written l e ts → Opens l (ts.headD t)
  | .column | .qualified | .callEmpty | .callStar | .call _ => opens_identifier ..
  | .literal h => opens_of_literalOf h
  | .neg hl _ => ⟨by simp, by simp, fun hlt => absurd hl hlt.not_ge, by simp⟩
  | .not hl _ => ⟨by simp, by simp, by simp, fun hlt => absurd hl hlt.not_ge⟩
  | .binary hl ha _ => by
    rw [headD_append]
    exact (ha.opens _).mono (hl.trans (levelOf_le_leftLevel _))
  | .parenthesized _ => opens_lparen _

theorem WrittenArguments.opens {es : List Expression} {ts : List Token} (t : Token) :
    WrittenArguments es ts → Opens .or (ts.headD t)
  | .one h => h.opens t
  | .cons h _ => by
    rw [headD_append]
    exact h.opens _

/-- No expression goes on with the token. -/
def Stops (t : Token) : Prop := t ≠ .lparen ∧ t ≠ .dot ∧ ∀ op, t ≠ operatorToken op

theorem Stops.ends {t : Token} (h : Stops t) (l : Level) : Ends l t :=
  ⟨h.1, h.2.1, fun op hop => absurd hop (h.2.2 op)⟩

theorem stops_rparen : Stops .rparen :=
  ⟨by decide, by decide, fun op h => by cases op <;> cases h⟩

theorem stops_comma : Stops .comma :=
  ⟨by decide, by decide, fun op h => by cases op <;> cases h⟩

section

variable {X : Phrase Expression} {l : Level} {e a b : Expression} {ts us : List Token} {t : Token}

/-- A primary expression stands anywhere. -/
theorem operandPhrase_of_primary (h : Primary X ts e t) (hts : Opens .primary (ts.headD t))
    (ht : Ends l t) : operandPhrase X l ts e t :=
  operandPhrase_mono (show operandPhrase X .primary ts e t from h) hts (by cases l <;> decide) ht

/-- Two operands with their operator. -/
theorem operandPhrase_binary {op : BinaryOperator}
    (ha : operandPhrase X (leftLevel op) ts a (operatorToken op))
    (hb : levelPhrase X (rightLevel op) us b t) :
    operandPhrase X (levelOf op) (ts ++ operatorToken op :: us) (.binaryOp a op b) t := by
  have hop := operatorsOf_operatorToken op
  cases op with
  | eq | neq | lt | gt | lte | gte =>
    refine .compare (levelPhrase_of_operandPhrase (l := .additive) ha fun op h => ?_) hop hb
    rw [← operatorToken_injective h]
    decide
  | _ => exact .next ha rfl hb

/-- An expression that no operator follows, at any depth of nesting. -/
theorem exprWithin_of_operandPhrase {n : Nat} (h : operandPhrase (exprWithin n) .or ts e t)
    (ht : Stops t) : exprWithin (n + 1) ts e t :=
  levelPhrase_of_operandPhrase (l := .or) h fun op hop => absurd hop (ht.2.2 op)

end

mutual

/-- A written expression nests no deeper than it is long. -/
theorem Written.reads {n : Nat} {l : Level} {e : Expression} {ts : List Token} {t : Token}
    (hn : ts.length ≤ n) (ht : Ends l t) :
    Written l e ts → operandPhrase (exprWithin n) l ts e t
  | .column => operandPhrase_of_primary (.column ht.1 ht.2.1) (opens_identifier ..) ht
  | .qualified => operandPhrase_of_primary .qualified (opens_identifier ..) ht
  | .literal h => operandPhrase_of_primary (.literal h) (opens_of_literalOf h) ht
  | .callEmpty => operandPhrase_of_primary (.call .empty) (opens_identifier ..) ht
  | .callStar => operandPhrase_of_primary (.call .star) (opens_identifier ..) ht
  | .call h => by
    obtain ⟨n, rfl⟩ := Nat.exists_eq_succ_of_ne_zero (Nat.ne_zero_of_lt hn)
    simp only [List.length_cons, List.length_append] at hn
    have hargs := h.reads (n := n) (by omega)
    have hopens := h.opens .rparen
    exact operandPhrase_of_primary (.call (.list hargs hopens.1 hopens.2.1))
      (opens_identifier ..) ht
  | .neg hl h => by
    have hread := h.reads (Nat.le_of_succ_le hn) (ht.mono hl)
    have hneg : operandPhrase (exprWithin n) .unary _ _ t := .operator hread
    exact operandPhrase_mono hneg ((Written.neg (le_refl _) h).opens t) hl ht
  | .not hl h => by
    have hread := h.reads (Nat.le_of_succ_le hn) (ht.mono hl)
    have hnot : operandPhrase (exprWithin n) .not _ _ t := .operator hread
    exact operandPhrase_mono hnot ((Written.not (le_refl _) h).opens t) hl ht
  | @Written.binary _ op _ _ _ _ hl ha hb => by
    simp only [List.length_append, List.length_cons] at hn
    have hlt := levelOf_lt_rightLevel op
    have ht' : Ends (levelOf op) t := ht.mono hl
    have hleft := ha.reads (n := n) (by omega) (ends_operatorToken op)
    have hright := levelPhrase_of_operandPhrase
      (hb.reads (n := n) (by omega) (ht'.mono hlt.le)) (ht'.levelOf_ne hlt)
    exact operandPhrase_mono (operandPhrase_binary hleft hright)
      ((Written.binary (le_refl _) ha hb).opens t) hl ht
  | .parenthesized h => by
    obtain ⟨n, rfl⟩ := Nat.exists_eq_succ_of_ne_zero (Nat.ne_zero_of_lt hn)
    have hinner := h.reads (n := n)
      (by simp only [List.length_cons, List.length_append] at hn; omega) (stops_rparen.ends .or)
    exact operandPhrase_of_primary
      (.parenthesized (exprWithin_of_operandPhrase hinner stops_rparen))
      (opens_lparen _) ht

theorem WrittenArguments.reads {n : Nat} {es : List Expression} {ts : List Token}
    (hn : ts.length ≤ n) :
    WrittenArguments es ts → Separated .comma (exprWithin (n + 1)) ts es .rparen
  | .one h => by
    have hread := h.reads hn (stops_rparen.ends .or)
    exact .one (exprWithin_of_operandPhrase hread stops_rparen) (by decide)
  | .cons h hs => by
    simp only [List.length_append, List.length_cons] at hn
    have hread := h.reads (n := n) (by omega) (stops_comma.ends .or)
    exact .cons (exprWithin_of_operandPhrase hread stops_comma)
      (hs.reads (by omega))

end

/-! ### Writing with the required parentheses -/

def literalToken : Literal → Token
  | .integer v => .integer v
  | .floating x => .float x
  | .str s => .stringLit s
  | .boolean true => .keyword .trueKw
  | .boolean false => .keyword .falseKw
  | .null => .keyword .nullKw

def parenthesizedUnless (fits : Bool) (ts : List Token) : List Token :=
  bif fits then ts else .lparen :: (ts ++ [.rparen])

mutual

def tokensOf : Expression → Level → List Token
  | .column none name, _ => [.identifier name]
  | .column (some table) name, _ => [.identifier table, .dot, .identifier name]
  | .literal value, _ => [literalToken value]
  | .binaryOp a op b, l => parenthesizedUnless (l ≤ levelOf op)
      (tokensOf a (leftLevel op) ++ operatorToken op :: tokensOf b (rightLevel op))
  | .unaryOp .neg e, l => parenthesizedUnless (l ≤ .unary) (.minus :: tokensOf e .unary)
  | .unaryOp .not e, l => parenthesizedUnless (l ≤ .not) (.keyword .not :: tokensOf e .not)
  | .function name args, _ => .identifier name :: .lparen :: (argumentTokens args ++ [.rparen])
  | .wildcard, _ => [.star]

def argumentTokens : List Expression → List Token
  | [] => []
  | [e] => tokensOf e .or
  | e :: es => tokensOf e .or ++ .comma :: argumentTokens es

end

mutual

/-- A star is the only argument of a call. -/
def Plain : Expression → Prop
  | .column _ _ | .literal _ => True
  | .binaryOp a _ b => Plain a ∧ Plain b
  | .unaryOp _ e => Plain e
  | .function _ args => args = [.wildcard] ∨ PlainAll args
  | .wildcard => False

def PlainAll : List Expression → Prop
  | [] => True
  | e :: es => Plain e ∧ PlainAll es

end

theorem literalOf_literalToken (value : Literal) :
    literalOf (literalToken value) = some value := by
  cases value with
  | boolean b => cases b <;> rfl
  | _ => rfl

/-- A text of a level, in parentheses where that level is too loose. -/
theorem written_parenthesizedUnless {l l' : Level} {e : Expression} {ts : List Token}
    (h : ∀ l, l ≤ l' → Written l e ts) : Written l e (parenthesizedUnless (l ≤ l') ts) := by
  by_cases hl : l ≤ l'
  · rw [parenthesizedUnless, decide_eq_true hl]
    exact h l hl
  · rw [parenthesizedUnless, decide_eq_false hl]
    exact .parenthesized (h .or (by cases l' <;> decide))

mutual

/-- Every expression of the grammar can be written. -/
theorem written_tokensOf : ∀ (e : Expression) (l : Level), Plain e → Written l e (tokensOf e l)
  | .column none _, _, _ => .column
  | .column (some _) _, _, _ => .qualified
  | .literal value, _, _ => .literal (literalOf_literalToken value)
  | .binaryOp a op b, _, h => written_parenthesizedUnless fun _ hl =>
      .binary hl (written_tokensOf a _ h.1) (written_tokensOf b _ h.2)
  | .unaryOp .neg e, _, h => written_parenthesizedUnless fun _ hl =>
      .neg hl (written_tokensOf e _ h)
  | .unaryOp .not e, _, h => written_parenthesizedUnless fun _ hl =>
      .not hl (written_tokensOf e _ h)
  | .function _ args, _, h => by
    by_cases hargs : args = []
    · rw [hargs]
      exact .callEmpty
    · rcases h with h | h
      · rw [h]
        exact .callStar
      · exact .call (written_argumentTokens args hargs h)
  | .wildcard, _, h => h.elim

theorem written_argumentTokens : ∀ (es : List Expression), es ≠ [] → PlainAll es →
    WrittenArguments es (argumentTokens es)
  | [], hes, _ => absurd rfl hes
  | [e], _, h => .one (written_tokensOf e .or h.1)
  | e :: e' :: es, _, h =>
    .cons (written_tokensOf e .or h.1) (written_argumentTokens (e' :: es) (by simp) h.2)

end

/-- `parseExpr` reads a written expression back, and stops behind it. -/
theorem parseExpr_written {e : Expression} {ts rest : List Token} (h : Written .or e ts)
    (hrest : Stops (peek rest)) : parseExpr (ts ++ rest) = .ok (e, rest) := by
  have hread := h.reads (le_refl _) (hrest.ends .or)
  exact recognizes_parseExpr.run ⟨_, exprWithin_of_operandPhrase hread hrest⟩ rfl

/-- `NOT t.a = -1 AND b - (c - d) < SUM(a, COUNT(*)) LIMIT` -/
theorem parseExpr_written_condition :
    parseExpr ([.keyword .not, .identifier "t", .dot, .identifier "a", .eq, .minus, .integer 1,
        .keyword .and, .identifier "b", .minus, .lparen, .identifier "c", .minus, .identifier "d",
        .rparen, .lt, .identifier "SUM", .lparen, .identifier "a", .comma, .identifier "COUNT",
        .lparen, .star, .rparen, .rparen] ++ [.keyword .limit]) =
      .ok (.binaryOp
        (.unaryOp .not (.binaryOp (.column (some "t") "a") .eq
          (.unaryOp .neg (.literal (.integer 1)))))
        .and
        (.binaryOp
          (.binaryOp (.column none "b") .sub
            (.binaryOp (.column none "c") .sub (.column none "d")))
          .lt (.function "SUM" [.column none "a", .function "COUNT" [.wildcard]])),
      [.keyword .limit]) :=
  parseExpr_written (written_tokensOf _ .or (by simp [Plain, PlainAll]))
    ⟨by decide, by decide, fun op h => by cases op <;> cases h⟩

end SqlOptimizer.Parser
