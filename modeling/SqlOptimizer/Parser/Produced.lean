import Mathlib.Data.List.TakeWhile
import SqlOptimizer.Parser.Leftovers
import SqlOptimizer.Parser.LexerRoundTrip

/-! The trees that the parser builds from the tokens of a text: their names are words that are no
keyword, their strings have no quote, and their numbers have no sign. -/

namespace SqlOptimizer

/-! ### Tokens of a text -/

namespace Lexer

theorem isNumeral_takeWhile {input : List Char} (h : (peek input).isDigit = true) :
    IsNumeral (input.takeWhile Char.isDigit) := by
  refine ⟨?_, fun c hc => List.mem_takeWhile_imp hc⟩
  cases input with
  | nil => cases h
  | cons c cs =>
    have hc : c.isDigit = true := h
    simp [hc]

section

variable [NumberText]

/-- The token has a text. -/
def Lexed (tok : Token) : Prop := tok = .eof ∨ ∃ text, Spells tok text

theorem lexed_symbol {tok : Token} (h : tok ∈ symbols.map Prod.fst) : Lexed tok := by
  obtain ⟨⟨_, text⟩, hmem, rfl⟩ := List.mem_map.mp h
  exact .inr ⟨text, .symbol hmem⟩

theorem lexed_wordToken {c : Char} {cs : List Char} (hc : c.isAlpha ∨ c = '_')
    (hcs : ∀ d ∈ cs, isWordChar d = true) : Lexed (wordToken (String.ofList (c :: cs))) := by
  have hupper := toUpper_ofList (c :: cs)
  unfold wordToken
  cases hk : keywords.lookup (toUpper (String.ofList (c :: cs))) with
  | some k =>
    refine .inr ⟨c :: cs, .keyword ?_⟩
    rw [← hupper]
    obtain ⟨l, r, hlist, -⟩ := List.lookup_eq_some_iff.mp hk
    rw [hlist]
    simp
  | none =>
    refine .inr ⟨c :: cs, .identifier hc hcs ?_⟩
    rw [← hupper]
    intro hmem
    obtain ⟨p, hp, hpk⟩ := List.mem_map.mp hmem
    have hne := List.lookup_eq_none_iff.mp hk p hp
    simp [hpk] at hne

theorem lexed_scanString {input rest : List Char} {tok : Token}
    (h : scanString input = .ok (tok, rest)) : Lexed tok := by
  unfold scanString at h
  split at h
  · cases h
  · cases h
    refine .inr ⟨_, .stringLit fun hmem => ?_⟩
    have hquote := List.mem_takeWhile_imp hmem
    simp at hquote

theorem lexed_scanNumber {input rest : List Char} {tok : Token}
    (hdigit : (peek input).isDigit = true) (h : scanNumber input = .ok (tok, rest)) :
    Lexed tok := by
  have hdigits := isNumeral_takeWhile hdigit
  unfold scanNumber at h
  dsimp only at h
  split at h
  · next hfraction =>
    obtain ⟨tok', htok, h⟩ := Except.bind_eq_ok.mp h
    cases h
    unfold floatToken at htok
    split at htok
    · next x hx =>
      cases htok
      exact .inr ⟨_, .float hdigits (isNumeral_takeWhile hfraction.2) hx⟩
    · cases htok
  · obtain ⟨tok', htok, h⟩ := Except.bind_eq_ok.mp h
    cases h
    unfold integerToken at htok
    split at htok
    · next hv =>
      cases htok
      exact .inr ⟨_, .integer hdigits hv⟩
    · cases htok

theorem lexed_nextToken {input rest : List Char} {tok : Token}
    (h : nextToken input = .ok (tok, rest)) : Lexed tok := by
  unfold nextToken at h
  split at h
  · cases h
    exact .inl rfl
  · next ch rest' _ =>
    split at h
    · next tok' htok =>
      cases h
      obtain ⟨l, r, hlist, -⟩ := List.lookup_eq_some_iff.mp htok
      have hmem : (ch, tok) ∈ singleTokens := by
        rw [hlist]
        simp
      have hall : ∀ p ∈ singleTokens, p.2 ∈ symbols.map Prod.fst := by decide
      exact lexed_symbol (hall _ hmem)
    · split at h
      · repeat' split at h
        all_goals cases h; exact lexed_symbol (by decide)
      · split at h
        · repeat' split at h
          all_goals cases h; exact lexed_symbol (by decide)
        · split at h
          · split at h <;> cases h
            exact lexed_symbol (by decide)
          · split at h
            · exact lexed_scanString h
            · split at h
              · next hdigit =>
                have hpeek : (peek (ch :: rest')).isDigit = true := hdigit
                exact lexed_scanNumber hpeek h
              · split at h
                · next hword =>
                  cases h
                  have hch : ch.isAlpha ∨ ch = '_' := by simpa using hword
                  have hpos : isWordChar ch = true := by
                    obtain halpha | rfl := hch
                    · exact isWordChar_of_isAlpha halpha
                    · rfl
                  rw [List.takeWhile_cons, if_pos hpos]
                  exact lexed_wordToken hch fun d hd => List.mem_takeWhile_imp hd
                · cases h

theorem lexed_of_tokenize {input : List Char} {tokens : List Token}
    (h : tokenize input = .ok tokens) : ∀ tok ∈ tokens, Lexed tok := by
  have hfrom : ∀ (fuel : Nat) (input : List Char) (tokens : List Token),
      tokenizeFrom fuel input = .ok tokens → ∀ tok ∈ tokens, Lexed tok := by
    intro fuel
    induction fuel with
    | zero => nofun
    | succ fuel ih =>
      intro input tokens h tok htok
      obtain ⟨⟨tok', rest⟩, hnext, h⟩ := Except.bind_eq_ok.mp h
      dsimp only at h
      split at h
      · cases h
        exact .inl (List.mem_singleton.mp htok)
      · obtain ⟨more, hmore, h⟩ := Except.bind_eq_ok.mp h
        cases h
        rcases List.mem_cons.mp htok with rfl | htok
        · exact lexed_nextToken hnext
        · exact ih rest more hmore tok htok
  exact hfrom _ _ _ h

end

end Lexer

/-! ### Trees -/

/-- A word that is no keyword. -/
structure IsName (s : String) : Prop where
  head : ∃ c cs, s.toList = c :: cs ∧ (c.isAlpha ∨ c = '_')
  word : ∀ c ∈ s.toList, Lexer.isWordChar c = true
  notKeyword : toUpper s ∉ Lexer.keywords.map Prod.fst

/-- Literals are written without a sign, and strings without a quote. -/
def Literal.Written : Literal → Prop
  | .integer v => 0 ≤ v.toInt
  | .floating x => ∃ m, x = .fin false m
  | .str s => '\'' ∉ s.toList
  | .boolean _ | .null => True

mutual

/-- The names and the literals of an expression are those of a text. -/
def Expression.Produced : Expression → Prop
  | .column none c => IsName c
  | .column (some t) c => IsName t ∧ (IsName c ∨ c = "*")
  | .literal l => l.Written
  | .binaryOp l _ r => l.Produced ∧ r.Produced
  | .unaryOp _ e => e.Produced
  | .function name args => IsName name ∧ ProducedAll args
  | .wildcard => True

def ProducedAll : List Expression → Prop
  | [] => True
  | e :: es => e.Produced ∧ ProducedAll es

end

/-- An expression outside an argument list. -/
def Expression.Stands (e : Expression) : Prop := e.Produced ∧ e ≠ .wildcard

def SelectItem.Produced : SelectItem → Prop
  | .wildcard => True
  | .qualifiedWildcard t => IsName t
  | .expression e a => e.Stands ∧ (∀ t, e ≠ .column (some t) "*") ∧ ∀ name ∈ a, IsName name

structure TableRef.Produced (ref : TableRef) : Prop where
  tableName : IsName ref.tableName
  aliasName : ∀ name ∈ ref.aliasName, IsName name

structure Join.Produced (join : Join) : Prop where
  table : join.table.Produced
  condition : join.condition.Stands

structure SelectStatement.Produced (s : SelectStatement) : Prop where
  columns : s.columns ≠ [] ∧ ∀ item ∈ s.columns, item.Produced
  fromTable : s.fromTable.Produced
  joins : ∀ join ∈ s.joins, join.Produced
  whereClause : ∀ e ∈ s.whereClause, e.Stands
  groupBy : ∀ e ∈ s.groupBy, e.Stands
  having : ∀ e ∈ s.having, e.Stands
  orderBy : ∀ item ∈ s.orderBy, item.expression.Stands

/-- A token whose value may stand in such a tree. -/
def Token.Produced : Token → Prop
  | .identifier s => IsName s
  | .integer v => (Literal.integer v).Written
  | .float x => (Literal.floating x).Written
  | .stringLit s => (Literal.str s).Written
  | _ => True

namespace Parser

open Reading

theorem producedAll_iff {es : List Expression} : ProducedAll es ↔ ∀ e ∈ es, e.Produced := by
  induction es with
  | nil => simp [ProducedAll]
  | cons e es ih => simp [ProducedAll, ih]

theorem written_of_literalOf {tok : Token} {l : Literal} (h : literalOf tok = some l)
    (htok : tok.Produced) : l.Written := by
  cases tok with
  | integer | float | stringLit =>
    cases h
    exact htok
  | keyword k => cases k <;> cases h <;> trivial
  | _ => cases h

section

variable {X : Phrase Expression}

theorem yields_arguments (hX : Yields Token.Produced X Expression.Stands) :
    Yields Token.Produced (Arguments X) ProducedAll := by
  intro ts args t h hts
  cases h with
  | empty => trivial
  | star => exact ⟨trivial, trivial⟩
  | list h =>
    exact producedAll_iff.mpr fun e he => ((hX.separated _ _ _ h hts).2 e he).1

theorem yields_primary (hX : Yields Token.Produced X Expression.Stands) :
    Yields Token.Produced (Primary X) Expression.Stands := by
  intro ts e t h hts
  cases h with
  | literal h => exact ⟨written_of_literalOf h (hts _ (by simp)), nofun⟩
  | column => exact ⟨hts (.identifier _) (by simp), nofun⟩
  | qualified =>
    exact ⟨⟨hts (.identifier _) (by simp), .inl (hts (.identifier _) (by simp))⟩, nofun⟩
  | qualifiedStar => exact ⟨⟨hts (.identifier _) (by simp), .inr rfl⟩, nofun⟩
  | call h =>
    refine ⟨⟨hts (.identifier _) (by simp), ?_⟩, nofun⟩
    exact yields_arguments hX _ _ _ h fun tok htok => hts tok (by simp [htok])
  | parenthesized h => exact hX _ _ _ h fun tok htok => hts tok (by simp [htok])

theorem stands_unary {op : UnaryOperator} {e : Expression} (h : e.Stands) :
    (Expression.unaryOp op e).Stands := ⟨h.1, nofun⟩

theorem stands_binary {op : BinaryOperator} {l r : Expression} (hl : l.Stands) (hr : r.Stands) :
    (Expression.binaryOp l op r).Stands := ⟨⟨hl.1, hr.1⟩, nofun⟩

theorem yields_binary {operator : Token → Option BinaryOperator} {R : Phrase Expression}
    (hR : Yields Token.Produced R Expression.Stands) :
    Yields Token.Produced (Reading.chain (binary operator) R) Expression.Stands := by
  refine hR.chain fun tok f a b hf ha hb => ?_
  obtain ⟨op, -, rfl⟩ := Option.map_eq_some_iff.mp hf
  exact stands_binary ha hb

theorem yields_disjunction (hX : Yields Token.Produced X Expression.Stands) :
    Yields Token.Produced (disjunction X) Expression.Stands := by
  have hadditive : Yields Token.Produced (additive X) Expression.Stands :=
    yields_binary (yields_binary ((yields_primary hX).prefixed fun _ => stands_unary))
  have hcomparison : Yields Token.Produced (Comparison X) Expression.Stands := by
    intro ts e t h hts
    cases h with
    | alone h => exact hadditive _ _ _ h hts
    | compare hl hop hr =>
      refine stands_binary (hadditive _ _ _ hl ?_) (hadditive _ _ _ hr ?_)
      · exact fun tok htok => hts tok (List.mem_append_left _ htok)
      · exact fun tok htok => hts tok (List.mem_append_right _ (List.mem_cons_of_mem _ htok))
  exact yields_binary (yields_binary (hcomparison.prefixed fun _ => stands_unary))

end

theorem yields_expr : Yields Token.Produced expr Expression.Stands := by
  have hwithin : ∀ n, Yields Token.Produced (exprWithin n) Expression.Stands := by
    intro n
    induction n with
    | zero => exact fun _ _ _ h _ => h.elim
    | succ n ih => exact yields_disjunction ih
  rintro ts e t ⟨n, h⟩
  exact hwithin n ts e t h

theorem yields_alias :
    Yields Token.Produced (Alias : Phrase (Option String)) fun a => ∀ name ∈ a, IsName name := by
  intro ts a t h hts name hname
  cases h with
  | withAs | bare =>
    cases hname
    exact hts (.identifier _) (by simp)
  | missing => cases hname

theorem yields_item :
    Yields Token.Produced (Item : Phrase SelectItem) SelectItem.Produced := by
  intro ts item t h hts
  cases h with
  | wildcard => trivial
  | qualifiedWildcard h => exact (yields_expr _ _ _ h hts).1.1
  | expression h he ha =>
    refine ⟨yields_expr _ _ _ h fun tok htok => hts tok (List.mem_append_left _ htok), he, ?_⟩
    exact yields_alias _ _ _ ha fun tok htok => hts tok (List.mem_append_right _ htok)

theorem yields_tableRef : Yields Token.Produced tableRef TableRef.Produced := by
  have hname : Yields Token.Produced tableName IsName := by
    rintro ts name t rfl hts
    exact hts (.identifier _) (by simp)
  exact hname.bind fun name h => yields_alias.bind fun a ha => yields_pure ⟨h, ha⟩

theorem yields_joinClause : Yields Token.Produced joinClause Join.Produced :=
  (yields_true _ _).bind fun _ _ => yields_tableRef.bind fun _ href =>
    (yields_true _ _).bind fun _ _ => yields_expr.bind fun _ he => yields_pure ⟨href, he⟩

theorem yields_joins :
    Yields Token.Produced (Joins : Phrase (List Join)) fun joins => ∀ j ∈ joins, j.Produced := by
  intro ts joins t h hts
  induction h with
  | nil => nofun
  | cons h _ ih =>
    intro j hj
    rcases List.mem_cons.mp hj with rfl | hj
    · exact yields_joinClause _ _ _ h fun tok htok => hts tok (List.mem_append_left _ htok)
    · exact ih (fun tok htok => hts tok (List.mem_append_right _ htok)) j hj

theorem yields_clause :
    Yields Token.Produced clause fun o => ∀ e ∈ o, e.Stands :=
  yields_expr.bind fun e he => yields_pure fun e' he' => by
    cases he'
    exact he

theorem yields_orderByItem :
    Yields Token.Produced orderByItem fun item => item.expression.Stands :=
  yields_expr.bind fun _ he => (yields_true _ _).bind fun _ _ => yields_pure he

theorem yields_selectStatement :
    Yields Token.Produced selectStatement fun stmt => stmt.select.Produced := by
  refine (yields_true _ _).bind fun _ _ => yields_item.separated.bind fun columns hcolumns => ?_
  refine (yields_true _ _).bind fun _ _ => yields_tableRef.bind fun fromTable hfrom => ?_
  refine yields_joins.bind fun joins hjoins => ?_
  refine (yields_clause.optional (by simp)).bind fun whereClause hwhere => ?_
  have hgroup : Yields Token.Produced (do
      token (.keyword .byKw)
      (Separated .comma expr : Phrase (List Expression))) fun es => ∀ e ∈ es, e.Stands :=
    (yields_true _ _).bind fun _ _ => yields_expr.separated.imp fun _ h => h.2
  have horder : Yields Token.Produced (do
      token (.keyword .byKw)
      (Separated .comma orderByItem : Phrase (List OrderByItem)))
      fun items => ∀ item ∈ items, item.expression.Stands :=
    (yields_true _ _).bind fun _ _ => yields_orderByItem.separated.imp fun _ h => h.2
  refine (hgroup.optional (by simp)).bind fun groupBy hgroupBy => ?_
  refine (yields_clause.optional (by simp)).bind fun having hhaving => ?_
  refine (horder.optional (by simp)).bind fun orderBy horderBy => ?_
  refine (yields_true _ _).bind fun limit _ => yields_pure ?_
  exact ⟨hcolumns, hfrom, hjoins, hwhere, hgroupBy, hhaving, horderBy⟩

theorem produced_of_parse {tokens : List Token} {stmt : Statement}
    (hparse : parse tokens = .ok stmt) (htokens : ∀ tok ∈ tokens, tok.Produced) :
    stmt.select.Produced := by
  obtain ⟨rest, hrun⟩ := parse_eq_ok.mp hparse
  obtain ⟨ts, rfl, hread⟩ := recognizes_parseSelectStatement.read hrun
  exact yields_selectStatement _ _ _ hread fun tok htok =>
    htokens tok (List.mem_append_left _ htok)

section

variable [NumberText]

/-- What the lexer and the parser make of a text. -/
def Produces (text : List Char) (stmt : Statement) : Prop :=
  ∃ tokens, Lexer.tokenize text = .ok tokens ∧ parse tokens = .ok stmt

/-- `std::stod` reads digits with a decimal point as a finite number without a sign. -/
def ReadsUnsigned : Prop :=
  ∀ digits fraction x, Lexer.IsNumeral digits → Lexer.IsNumeral fraction →
    NumberText.stod (digits ++ '.' :: fraction) = .ok x → ∃ m, x = .fin false m

theorem produced_of_lexed (hstod : ReadsUnsigned) {tok : Token} (h : Lexer.Lexed tok) :
    tok.Produced := by
  obtain rfl | ⟨text, h⟩ := h
  · trivial
  · cases h with
    | keyword => trivial
    | identifier hc hcs h =>
      refine ⟨⟨_, _, String.toList_ofList, hc⟩, fun d hd => ?_, ?_⟩
      · rw [String.toList_ofList] at hd
        rcases List.mem_cons.mp hd with rfl | hd
        · obtain halpha | rfl := hc
          · exact Lexer.isWordChar_of_isAlpha halpha
          · rfl
        · exact hcs d hd
      · rw [Lexer.toUpper_ofList]
        exact h
    | integer h hv =>
      have hvalue := Int64.toInt_ofNat_of_lt hv
      show 0 ≤ _
      rw [hvalue]
      exact Int.natCast_nonneg _
    | float h hf hx => exact hstod _ _ _ h hf hx
    | stringLit h =>
      show '\'' ∉ _
      rw [String.toList_ofList]
      exact h
    | symbol h =>
      have hall : ∀ p ∈ Lexer.symbols, p.1.Produced := by
        simp [Lexer.symbols, Token.Produced]
      exact hall _ h

theorem Produces.produced (hstod : ReadsUnsigned) {text : List Char} {stmt : Statement}
    (h : Produces text stmt) : stmt.select.Produced := by
  obtain ⟨tokens, htokens, hparse⟩ := h
  exact produced_of_parse hparse fun tok htok =>
    produced_of_lexed hstod (Lexer.lexed_of_tokenize htokens tok htok)

end

end Parser

end SqlOptimizer
