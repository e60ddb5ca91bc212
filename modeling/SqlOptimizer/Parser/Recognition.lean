import SqlOptimizer.Parser.Grammar

/-! The parser implements the grammar: each function succeeds exactly on the token lists that start
with its phrase, and returns what the phrase stands for. -/

namespace SqlOptimizer.Parser

open Reading

abbrev Recognizes {α : Type} (rule : Rule α) (R : Phrase α) : Prop := Reading.Implements .eof rule R

@[simp] theorem peek_cons (t : Token) (ts : List Token) : peek (t :: ts) = t := rfl

theorem peek_append (ts rest : List Token) : peek (ts ++ rest) = ts.headD (peek rest) :=
  headD_append ts rest .eof

theorem eq_cons_of_peek {tokens : List Token} {tok : Token} (htok : tok ≠ .eof)
    (h : peek tokens = tok) : tokens = tok :: tokens.tail :=
  eq_cons_of_headD htok h

section

variable {α : Type} {rule : Rule α} {R : Phrase α}

/-- What a rule reads. -/
theorem Recognizes.read (h : Recognizes rule R) {tokens rest : List Token} {a : α}
    (hrun : rule tokens = .ok (a, rest)) : ∃ ts, tokens = ts ++ rest ∧ R ts a (peek rest) :=
  (h _ _ _).mp hrun

theorem Recognizes.run (h : Recognizes rule R) {ts : List Token} {a : α} {t : Token}
    (hread : R ts a t) {rest : List Token} (hrest : peek rest = t) :
    rule (ts ++ rest) = .ok (a, rest) := by
  subst hrest
  exact (h _ _ _).mpr ⟨ts, rfl, hread⟩

theorem Recognizes.intro (hread : ∀ {tokens a rest}, rule tokens = .ok (a, rest) →
      ∃ ts, tokens = ts ++ rest ∧ R ts a (peek rest))
    (hrun : ∀ {ts a rest}, R ts a (peek rest) → rule (ts ++ rest) = .ok (a, rest)) :
    Recognizes rule R := by
  intro tokens a rest
  refine ⟨hread, ?_⟩
  rintro ⟨ts, rfl, h⟩
  exact hrun h

end

/-! ### Loops -/

theorem expect_eq_ok {tok : Token} (htok : tok ≠ .eof) {tokens rest : List Token} :
    expect tok tokens = .ok rest ↔ tokens = tok :: rest := by
  unfold expect
  constructor
  · intro h
    split at h
    · next hpeek =>
      cases h
      exact eq_cons_of_peek htok hpeek
    · cases h
  · rintro rfl
    rw [peek_cons, if_pos rfl, List.tail_cons]

section

variable {α : Type} {item : Rule α} {R : Phrase α}

theorem read_commaSeparated (hitem : Recognizes item R) {fuel : Nat} {tokens rest : List Token}
    {as : List α} (h : commaSeparated item fuel tokens = .ok (as, rest)) :
    ∃ ts, tokens = ts ++ rest ∧ Separated .comma R ts as (peek rest) := by
  induction fuel generalizing tokens as with
  | zero => cases h
  | succ fuel ih =>
    obtain ⟨⟨a, after⟩, ha, hloop⟩ := Except.bind_eq_ok.mp h
    obtain ⟨ts, rfl, hts⟩ := hitem.read ha
    dsimp only at hloop
    split at hloop
    · next hcomma =>
      obtain ⟨⟨as', after'⟩, has, hend⟩ := Except.bind_eq_ok.mp hloop
      cases hend
      obtain ⟨us, hus, hread⟩ := ih has
      have hafter := eq_cons_of_peek (by decide) hcomma
      rw [hus] at hafter
      refine ⟨ts ++ .comma :: us, ?_, .cons (hcomma ▸ hts) hread⟩
      rw [hafter, List.append_assoc, List.cons_append]
    · next hcomma =>
      cases hloop
      exact ⟨ts, rfl, .one hts hcomma⟩

/-- Each round takes a comma, so the fuel of the tokens is enough. -/
theorem run_commaSeparated (hitem : Recognizes item R) {ts : List Token} {as : List α} {t : Token}
    (h : Separated .comma R ts as t) {fuel : Nat} (hfuel : ts.length < fuel) {rest : List Token}
    (hrest : peek rest = t) : commaSeparated item fuel (ts ++ rest) = .ok (as, rest) := by
  induction h generalizing fuel with
  | @one ts a t h ht =>
    obtain ⟨fuel, rfl⟩ := Nat.exists_eq_succ_of_ne_zero (Nat.ne_zero_of_lt hfuel)
    rw [commaSeparated, hitem.run h hrest, Except.ok_bind]
    dsimp only
    rw [if_neg (hrest ▸ ht)]
    rfl
  | @cons ts us a as t h hs ih =>
    obtain ⟨fuel, rfl⟩ := Nat.exists_eq_succ_of_ne_zero (Nat.ne_zero_of_lt hfuel)
    rw [List.length_append, List.length_cons] at hfuel
    have ha : item (ts ++ .comma :: (us ++ rest)) = .ok (a, .comma :: (us ++ rest)) :=
      hitem.run h rfl
    rw [List.append_assoc, List.cons_append, commaSeparated, ha, Except.ok_bind]
    dsimp only
    rw [if_pos (peek_cons ..), List.tail_cons, ih (by omega) hrest]
    rfl

theorem recognizes_commaSeparated (hitem : Recognizes item R) :
    Recognizes (fun tokens => commaSeparated item (tokens.length + 1) tokens)
      (Separated .comma R) :=
  .intro (read_commaSeparated hitem) fun {ts _ rest} h =>
    run_commaSeparated hitem h (by rw [List.length_append]; omega) rfl

end

section

variable {operand : Rule Expression} {R : Phrase Expression}

theorem prefixed_of_ne {tok : Token} {op : UnaryOperator} {tokens : List Token}
    (h : peek tokens ≠ tok) : prefixed tok op operand tokens = operand tokens := by
  cases tokens with
  | nil => rfl
  | cons t tokens => exact if_neg h

theorem read_prefixed {tok : Token} {op : UnaryOperator} (htok : tok ≠ .eof)
    (h : Recognizes operand R) {tokens rest : List Token} {e : Expression}
    (hrun : prefixed tok op operand tokens = .ok (e, rest)) :
    ∃ ts, tokens = ts ++ rest ∧ Prefixed tok (.unaryOp op) R ts e (peek rest) := by
  induction tokens generalizing e with
  | nil =>
    obtain ⟨ts, hts, hread⟩ := h.read hrun
    refine ⟨ts, hts, .operand hread ?_⟩
    rw [← peek_append, ← hts]
    exact htok.symm
  | cons t tokens ih =>
    by_cases ht : t = tok
    · rw [prefixed, if_pos ht] at hrun
      obtain ⟨⟨e', after⟩, he, hrun⟩ := Except.bind_eq_ok.mp hrun
      cases hrun
      obtain ⟨ts, rfl, hread⟩ := ih he
      exact ⟨tok :: ts, by rw [ht]; rfl, .operator hread⟩
    · rw [prefixed, if_neg ht] at hrun
      obtain ⟨ts, hts, hread⟩ := h.read hrun
      refine ⟨ts, hts, .operand hread ?_⟩
      rw [← peek_append, ← hts]
      exact ht

theorem run_prefixed {tok : Token} {op : UnaryOperator} (h : Recognizes operand R)
    {ts : List Token} {e : Expression} {t : Token} (hread : Prefixed tok (.unaryOp op) R ts e t)
    {rest : List Token} (hrest : peek rest = t) :
    prefixed tok op operand (ts ++ rest) = .ok (e, rest) := by
  induction hread with
  | operand hread hts =>
    rw [prefixed_of_ne, h.run hread hrest]
    rw [peek_append, hrest]
    exact hts
  | operator hread ih =>
    rw [List.cons_append, prefixed, if_pos rfl, ih hrest]
    rfl

/-- Prefix operators before an operand. -/
theorem recognizes_prefixed {tok : Token} {op : UnaryOperator} (htok : tok ≠ .eof)
    (h : Recognizes operand R) :
    Recognizes (prefixed tok op operand) (Prefixed tok (.unaryOp op) R) :=
  .intro (read_prefixed htok h) fun hread => run_prefixed h hread rfl

/-- The loop goes on from the chain read so far. -/
theorem read_operatorLoop {operator : Token → Option BinaryOperator} (heof : operator .eof = none)
    (h : Recognizes operand R) {fuel : Nat} {left e : Expression} {us tokens rest : List Token}
    (hleft : Chain (binary operator) R us left (peek tokens))
    (hrun : operatorLoop operator operand fuel left tokens = .ok (e, rest)) :
    ∃ ts, tokens = ts ++ rest ∧ Reading.chain (binary operator) R (us ++ ts) e (peek rest) := by
  induction fuel generalizing left us tokens with
  | zero => cases hrun
  | succ fuel ih =>
    rw [operatorLoop] at hrun
    split at hrun
    · next hop =>
      cases hrun
      refine ⟨[], rfl, ?_, by rw [binary, hop]; rfl⟩
      rw [List.append_nil]
      exact hleft
    · next op hop =>
      obtain ⟨⟨right, after⟩, hright, hrun⟩ := Except.bind_eq_ok.mp hrun
      obtain ⟨vs, hvs, hread⟩ := h.read hright
      have htok : peek tokens ≠ .eof := fun heq => by
        rw [heq, heof] at hop
        cases hop
      have htokens := eq_cons_of_peek htok rfl
      obtain ⟨ts, rfl, hchain⟩ := ih (.next hleft (by rw [binary, hop]; rfl) hread) hrun
      refine ⟨peek tokens :: (vs ++ ts), ?_, ?_⟩
      · rw [hvs] at htokens
        rw [htokens, List.cons_append, List.append_assoc]
        rfl
      · rwa [List.append_assoc, List.cons_append] at hchain

/-- After a chain, the rule is in its loop with the expression of the chain. -/
theorem run_chain {operator : Token → Option BinaryOperator} (h : Recognizes operand R)
    {ts : List Token} {e : Expression} {t : Token} (hread : Chain (binary operator) R ts e t)
    {rest : List Token} (hrest : peek rest = t) :
    ∃ fuel, leftAssociative operator operand (ts ++ rest) =
      operatorLoop operator operand (fuel + rest.length + 1) e rest := by
  induction hread generalizing rest with
  | first hread =>
    refine ⟨0, ?_⟩
    rw [leftAssociative, h.run hread hrest, Nat.zero_add]
    rfl
  | @next ts us a b f tok t hread hop hr ih =>
    obtain ⟨fuel, hfuel⟩ : ∃ fuel, leftAssociative operator operand (ts ++ tok :: (us ++ rest)) =
      operatorLoop operator operand (fuel + (tok :: (us ++ rest)).length + 1) a
        (tok :: (us ++ rest)) := ih rfl
    obtain ⟨op, htok, rfl⟩ := Option.map_eq_some_iff.mp hop
    refine ⟨fuel + us.length, ?_⟩
    rw [List.append_assoc, List.cons_append, hfuel, operatorLoop, peek_cons, htok]
    dsimp only
    rw [List.tail_cons, h.run hr hrest, Except.ok_bind]
    congr 1
    rw [List.length_cons, List.length_append]
    omega

/-- A left-associative level of the grammar. -/
theorem recognizes_leftAssociative {operator : Token → Option BinaryOperator}
    (heof : operator .eof = none) (h : Recognizes operand R) :
    Recognizes (leftAssociative operator operand) (Reading.chain (binary operator) R) := by
  refine .intro (fun hrun => ?_) fun {ts e rest} hread => ?_
  · obtain ⟨⟨left, after⟩, hleft, hloop⟩ := Except.bind_eq_ok.mp hrun
    obtain ⟨us, rfl, hread⟩ := h.read hleft
    obtain ⟨ts, hts, hchain⟩ := read_operatorLoop heof h (.first hread) hloop
    exact ⟨us ++ ts, by rw [hts, List.append_assoc], hchain⟩
  · obtain ⟨hchain, hend⟩ := hread
    obtain ⟨fuel, hfuel⟩ := run_chain h hchain rfl
    rw [hfuel, operatorLoop, Option.map_eq_none_iff.mp hend]

end

/-! ### Expressions -/

section

variable {nested : Rule Expression} {X : Phrase Expression}

theorem recognizes_parseArguments (h : Recognizes nested X) {tokens rest : List Token}
    {args : List Expression} (hparen : peek rest = .rparen) :
    parseArguments nested tokens = .ok (args, rest) ↔
      ∃ ts, tokens = ts ++ rest ∧ Arguments X ts args .rparen := by
  have hlist : Recognizes (parseExprList nested) (Separated .comma X) :=
    recognizes_commaSeparated h
  unfold parseArguments
  constructor
  · intro hrun
    split at hrun
    · cases hrun
      exact ⟨[], rfl, .empty⟩
    · next hstar =>
      cases hrun
      exact ⟨[.star], eq_cons_of_peek (by decide) hstar, .star⟩
    · next hne hne' =>
      obtain ⟨ts, rfl, hread⟩ := hlist.read hrun
      rw [peek_append, hparen] at hne hne'
      rw [hparen] at hread
      exact ⟨ts, rfl, .list hread hne hne'⟩
  · rintro ⟨ts, rfl, hread⟩
    cases hread with
    | empty =>
      rw [List.nil_append, hparen]
    | star => rfl
    | list hread hne hne' =>
      split
      · next heq =>
        rw [peek_append, hparen] at heq
        exact absurd heq hne
      · next heq =>
        rw [peek_append, hparen] at heq
        exact absurd heq hne'
      · exact hlist.run hread hparen

theorem eq_append_of_expect {tok : Token} (htok : tok ≠ .eof) {ts after rest tokens : List Token}
    (hts : tokens = ts ++ after) (h : expect tok after = .ok rest) :
    tokens = ts ++ [tok] ++ rest := by
  rw [hts, (expect_eq_ok htok).mp h, List.append_assoc]
  rfl

/-- The case of a name: a call, a qualified column or a column. -/
theorem read_parseName (h : Recognizes nested X) {name : String} {tokens rest : List Token}
    {e : Expression} (hrun : parseName nested name tokens = .ok (e, rest)) :
    ∃ ts, tokens = ts ++ rest ∧ Primary X (.identifier name :: ts) e (peek rest) := by
  unfold parseName at hrun
  split at hrun
  · next hparen =>
    obtain ⟨⟨args, after⟩, hargs, hend⟩ := Except.bind_eq_ok.mp hrun
    obtain ⟨after', hclose, hend⟩ := Except.bind_eq_ok.mp hend
    cases hend
    have hpeek : peek after = .rparen := by
      rw [(expect_eq_ok (by decide)).mp hclose, peek_cons]
    obtain ⟨ts, hts, hread⟩ := (recognizes_parseArguments h hpeek).mp hargs
    refine ⟨.lparen :: (ts ++ [.rparen]), ?_, .call hread⟩
    rw [eq_cons_of_peek (by decide) hparen, eq_append_of_expect (by decide) hts hclose]
    rfl
  · next hdot =>
    rw [eq_cons_of_peek (by decide) hdot]
    split at hrun
    · next column hcolumn =>
      cases hrun
      refine ⟨[.dot, .identifier column], ?_, .qualified⟩
      have hname : Token.identifier column ≠ .eof := fun heq => by cases heq
      conv_lhs => rw [eq_cons_of_peek hname hcolumn]
      rfl
    · next hstar =>
      cases hrun
      refine ⟨[.dot, .star], ?_, .qualifiedStar⟩
      conv_lhs => rw [eq_cons_of_peek (by decide) hstar]
      rfl
    · cases hrun
  · next hparen hdot =>
    cases hrun
    exact ⟨[], rfl, .column hparen hdot⟩

theorem recognizes_parsePrimary (h : Recognizes nested X) :
    Recognizes (parsePrimary nested) (Primary X) := by
  refine .intro (fun {tokens e rest} hrun => ?_) fun {ts e rest} hread => ?_
  · cases tokens with
    | nil => cases hrun
    | cons tok tokens =>
      cases tok with
      | integer v => cases hrun; exact ⟨[_], rfl, .literal rfl⟩
      | float x => cases hrun; exact ⟨[_], rfl, .literal rfl⟩
      | stringLit s => cases hrun; exact ⟨[_], rfl, .literal rfl⟩
      | keyword k => cases k <;> cases hrun <;> exact ⟨[_], rfl, .literal rfl⟩
      | lparen =>
        obtain ⟨⟨e', after⟩, he, hend⟩ := Except.bind_eq_ok.mp hrun
        obtain ⟨after', hclose, hend⟩ := Except.bind_eq_ok.mp hend
        cases hend
        obtain ⟨ts, hts, hread⟩ := h.read he
        rw [(expect_eq_ok (by decide)).mp hclose] at hread
        refine ⟨.lparen :: (ts ++ [.rparen]), ?_, .parenthesized hread⟩
        rw [List.cons_append, ← eq_append_of_expect (by decide) hts hclose, List.tail_cons]
      | identifier name =>
        obtain ⟨ts, rfl, hread⟩ := read_parseName h hrun
        exact ⟨.identifier name :: ts, rfl, hread⟩
      | _ => cases hrun
  · cases hread with
    | @literal tok t l hl =>
      cases tok with
      | keyword k => cases k <;> cases hl <;> rfl
      | _ => cases hl <;> rfl
    | column hparen hdot =>
      change parseName nested _ rest = _
      unfold parseName
      split
      · next heq => exact absurd heq hparen
      · next heq => exact absurd heq hdot
      · rfl
    | qualified => rfl
    | qualifiedStar => rfl
    | @call name ts args t hargs =>
      have hrun : parseArguments nested (ts ++ .rparen :: rest) = .ok (args, .rparen :: rest) :=
        (recognizes_parseArguments h rfl).mpr ⟨ts, rfl, hargs⟩
      simp only [List.cons_append, List.append_assoc, List.nil_append, parsePrimary, parseName,
        peek_cons, List.tail_cons, hrun, Except.ok_bind]
      rfl
    | @parenthesized ts e t hnested =>
      have hrun : nested (ts ++ .rparen :: rest) = .ok (e, .rparen :: rest) := h.run hnested rfl
      simp only [List.cons_append, List.append_assoc, List.nil_append, parsePrimary, peek_cons,
        List.tail_cons, hrun, Except.ok_bind]
      rfl

theorem recognizes_parseUnary (h : Recognizes nested X) :
    Recognizes (parseUnary nested) (unary X) :=
  recognizes_prefixed (by decide) (recognizes_parsePrimary h)

theorem recognizes_parseMultiplicative (h : Recognizes nested X) :
    Recognizes (parseMultiplicative nested) (multiplicative X) :=
  recognizes_leftAssociative rfl (recognizes_parseUnary h)

theorem recognizes_parseAdditive (h : Recognizes nested X) :
    Recognizes (parseAdditive nested) (additive X) :=
  recognizes_leftAssociative rfl (recognizes_parseMultiplicative h)

theorem recognizes_parseComparison (h : Recognizes nested X) :
    Recognizes (parseComparison nested) (Comparison X) := by
  have hoperand := recognizes_parseAdditive h
  refine .intro (fun {tokens e rest} hrun => ?_) fun {ts e rest} hread => ?_
  · obtain ⟨⟨l, after⟩, hl, hend⟩ := Except.bind_eq_ok.mp hrun
    obtain ⟨ts, rfl, hreadl⟩ := hoperand.read hl
    dsimp only at hend
    split at hend
    · next hop =>
      cases hend
      exact ⟨ts, rfl, .alone hreadl hop⟩
    · next op hop =>
      obtain ⟨⟨r, after'⟩, hr, hend⟩ := Except.bind_eq_ok.mp hend
      cases hend
      obtain ⟨us, hus, hreadr⟩ := hoperand.read hr
      have htok : peek after ≠ .eof := fun heq => by
        rw [heq] at hop
        cases hop
      refine ⟨ts ++ peek after :: us, ?_, .compare hreadl hop hreadr⟩
      conv_lhs => rw [eq_cons_of_peek htok rfl, hus]
      rw [List.append_assoc, List.cons_append]
  · cases hread with
    | alone hread hop =>
      rw [parseComparison, hoperand.run hread rfl, Except.ok_bind]
      dsimp only
      rw [hop]
      rfl
    | @compare ts us l r op tok t hl hop hr =>
      have hleft : parseAdditive nested (ts ++ tok :: (us ++ rest)) =
          .ok (l, tok :: (us ++ rest)) :=
        hoperand.run hl rfl
      rw [List.append_assoc, List.cons_append, parseComparison, hleft, Except.ok_bind]
      dsimp only
      rw [peek_cons, hop]
      dsimp only
      rw [List.tail_cons, hoperand.run hr rfl]
      rfl

theorem recognizes_parseNot (h : Recognizes nested X) :
    Recognizes (parseNot nested) (negation X) :=
  recognizes_prefixed (by decide) (recognizes_parseComparison h)

theorem recognizes_parseAnd (h : Recognizes nested X) :
    Recognizes (parseAnd nested) (conjunction X) :=
  recognizes_leftAssociative rfl (recognizes_parseNot h)

theorem recognizes_parseOr (h : Recognizes nested X) :
    Recognizes (parseOr nested) (disjunction X) :=
  recognizes_leftAssociative rfl (recognizes_parseAnd h)

end

theorem recognizes_parseExprWithin (n : Nat) : Recognizes (parseExprWithin n) (exprWithin n) := by
  induction n with
  | zero => exact .intro (fun h => by cases h) fun h => h.elim
  | succ n ih => exact recognizes_parseOr ih

/-! ### Nesting -/

section

variable {X Y : Phrase Expression} {ts : List Token} {e : Expression} {t : Token}

/-- A phrase inside parentheses is shorter. -/
theorem Arguments.mono {args : List Expression} (h : Arguments X ts args t)
    (hXY : ∀ us e t', us.length ≤ ts.length → X us e t' → Y us e t') : Arguments Y ts args t := by
  cases h with
  | empty => exact .empty
  | star => exact .star
  | list h hparen hstar => exact .list (h.mono hXY) hparen hstar

theorem Primary.mono (h : Primary X ts e t)
    (hXY : ∀ us e t', us.length < ts.length → X us e t' → Y us e t') : Primary Y ts e t := by
  cases h with
  | literal hl => exact .literal hl
  | column hparen hdot => exact .column hparen hdot
  | qualified => exact .qualified
  | qualifiedStar => exact .qualifiedStar
  | call hargs =>
    simp only [List.length_cons, List.length_append] at hXY
    exact .call (hargs.mono fun us e t' hle => hXY us e t' (by omega))
  | parenthesized hnested =>
    simp only [List.length_cons, List.length_append] at hXY
    exact .parenthesized (hXY _ _ _ (by omega) hnested)

theorem additive_mono (h : additive X ts e t)
    (hXY : ∀ us e t', us.length < ts.length → X us e t' → Y us e t') : additive Y ts e t :=
  ⟨h.1.mono fun _ _ _ hle h => ⟨h.1.mono fun _ _ _ hle' h => h.mono fun _ _ _ hle'' h =>
    h.mono fun us e t' hlt => hXY us e t' (by omega), h.2⟩, h.2⟩

theorem Comparison.mono (h : Comparison X ts e t)
    (hXY : ∀ us e t', us.length < ts.length → X us e t' → Y us e t') : Comparison Y ts e t := by
  cases h with
  | alone h ht => exact .alone (additive_mono h hXY) ht
  | compare hl hop hr =>
    simp only [List.length_cons, List.length_append] at hXY
    exact .compare (additive_mono hl fun us e t' hlt => hXY us e t' (by omega)) hop
      (additive_mono hr fun us e t' hlt => hXY us e t' (by omega))

theorem disjunction_mono (h : disjunction X ts e t)
    (hXY : ∀ us e t', us.length < ts.length → X us e t' → Y us e t') : disjunction Y ts e t :=
  ⟨h.1.mono fun _ _ _ hle h => ⟨h.1.mono fun _ _ _ hle' h => h.mono fun _ _ _ hle'' h =>
    h.mono fun us e t' hlt => hXY us e t' (by omega), h.2⟩, h.2⟩

/-- Parentheses nest less deep than there are tokens. -/
theorem exprWithin_of_length {n m : Nat} (h : exprWithin n ts e t) (hm : ts.length < m) :
    exprWithin m ts e t := by
  induction n generalizing m ts e t with
  | zero => exact h.elim
  | succ n ih =>
    obtain ⟨m, rfl⟩ := Nat.exists_eq_succ_of_ne_zero (Nat.ne_zero_of_lt hm)
    exact disjunction_mono h fun us e t' hlt h => ih h (by omega)

end

/-- `parse_expr` reads expressions. -/
theorem recognizes_parseExpr : Recognizes parseExpr expr := by
  refine .intro (fun hrun => ?_) fun {ts e rest} ⟨n, hread⟩ => ?_
  · obtain ⟨ts, hts, hread⟩ := (recognizes_parseExprWithin _).read hrun
    exact ⟨ts, hts, _, hread⟩
  · refine (recognizes_parseExprWithin _).run (exprWithin_of_length hread ?_) rfl
    rw [List.length_append]
    omega

/-! ### Statements -/

theorem recognizes_parseAlias (missing : String) : Recognizes (parseAlias missing) Alias := by
  refine .intro (fun {tokens a rest} hrun => ?_) fun {ts a rest} hread => ?_
  · unfold parseAlias at hrun
    split at hrun
    · next has =>
      split at hrun
      · next s hname =>
        cases hrun
        have hne : Token.identifier s ≠ .eof := fun heq => by cases heq
        refine ⟨[.keyword .asKw, .identifier s], ?_, .withAs⟩
        conv_lhs => rw [eq_cons_of_peek (by decide) has, eq_cons_of_peek hne hname]
        rfl
      · cases hrun
    · next s hname =>
      cases hrun
      have hne : Token.identifier s ≠ .eof := fun heq => by cases heq
      exact ⟨[.identifier s], eq_cons_of_peek hne hname, .bare⟩
    · next has hname =>
      cases hrun
      exact ⟨[], rfl, .missing has hname⟩
  · cases hread with
    | withAs => rfl
    | bare => rfl
    | missing has hname =>
      rw [List.nil_append]
      unfold parseAlias
      split
      · next heq => exact absurd heq has
      · next s heq => exact absurd heq (hname s)
      · rfl

/-- An expression does not start with a star. -/
theorem headD_ne_star {ts : List Token} {e : Expression} {t : Token} (h : expr ts e t) :
    ts.headD t ≠ .star := by
  have hrun : parseExpr (ts ++ [t]) = .ok (e, [t]) := recognizes_parseExpr.run h rfl
  intro hstar
  have hpeek : peek (ts ++ [t]) = .star := (peek_append ts [t]).trans hstar
  rw [eq_cons_of_peek (by decide) hpeek] at hrun
  cases hrun

theorem recognizes_parseSelectItem : Recognizes parseSelectItem Item := by
  refine .intro (fun {tokens item rest} hrun => ?_) fun {ts item rest} hread => ?_
  · unfold parseSelectItem at hrun
    split at hrun
    · next hstar =>
      cases hrun
      exact ⟨[.star], eq_cons_of_peek (by decide) hstar, .wildcard⟩
    · obtain ⟨⟨e, after⟩, he, hend⟩ := Except.bind_eq_ok.mp hrun
      obtain ⟨ts, rfl, hread⟩ := recognizes_parseExpr.read he
      dsimp only at hend
      split at hend
      · cases hend
        exact ⟨ts, rfl, .qualifiedWildcard hread⟩
      · next hne =>
        obtain ⟨⟨a, after'⟩, ha, hend⟩ := Except.bind_eq_ok.mp hend
        cases hend
        obtain ⟨us, rfl, halias⟩ := (recognizes_parseAlias _).read ha
        rw [peek_append] at hread
        refine ⟨ts ++ us, (List.append_assoc ..).symm, .expression hread ?_ halias⟩
        rintro table rfl
        exact hne table rfl
  · cases hread with
    | wildcard => rfl
    | qualifiedWildcard hread =>
      have hstar : peek (ts ++ rest) ≠ .star := by
        rw [peek_append]
        exact headD_ne_star hread
      rw [parseSelectItem, if_neg hstar, recognizes_parseExpr.run hread rfl]
      rfl
    | @expression ts us e a t hread he ha =>
      have hafter : peek (us ++ rest) = us.headD (peek rest) := peek_append us rest
      have hstar : peek (ts ++ (us ++ rest)) ≠ .star := by
        rw [peek_append, hafter]
        exact headD_ne_star hread
      rw [List.append_assoc, parseSelectItem, if_neg hstar, recognizes_parseExpr.run hread hafter,
        Except.ok_bind]
      dsimp only
      split
      · next table => exact absurd rfl (he table)
      · rw [(recognizes_parseAlias _).run ha rfl]
        rfl

section

variable {α : Type} {rule rule' : Rule α} {R : Phrase α}

theorem Recognizes.of_eq (h : Recognizes rule R) (heq : ∀ tokens, rule' tokens = rule tokens) :
    Recognizes rule' R := by
  obtain rfl : rule' = rule := funext heq
  exact h

/-- A token, then a phrase. -/
theorem recognizes_expect {tok : Token} (htok : tok ≠ .eof) (h : Recognizes rule R) :
    Recognizes (fun tokens => Parser.expect tok tokens >>= rule)
      ((token tok).andThen fun _ => R) := by
  refine .intro (fun {tokens a rest} hrun => ?_) fun {ts a rest} hread => ?_
  · obtain ⟨after, htokens, hrun⟩ := Except.bind_eq_ok.mp hrun
    obtain ⟨us, rfl, hread⟩ := h.read hrun
    exact ⟨tok :: us, (expect_eq_ok htok).mp htokens, (), [tok], us, rfl, rfl, hread⟩
  · obtain ⟨-, us, vs, rfl, rfl, hread⟩ := hread
    rw [List.append_assoc, List.singleton_append, (expect_eq_ok htok).mpr rfl]
    exact h.run hread rfl

theorem recognizes_optionalClause (keyword : Keyword) (default : α) (h : Recognizes rule R) :
    Recognizes (optionalClause keyword default rule)
      (Reading.optional (.keyword keyword) default R) :=
  Reading.Implements.optional (fun heq => by cases heq) h default

end

/-- The name in front of an alias. -/
def parseTableName (tokens : List Token) : Except String (String × List Token) :=
  match peek tokens with
  | .identifier name => .ok (name, tokens.tail)
  | _ => .error "expected table name"

theorem recognizes_parseTableName : Recognizes parseTableName tableName := by
  refine .intro (fun {tokens name rest} hrun => ?_) fun {ts name rest} hread => ?_
  · unfold parseTableName at hrun
    split at hrun
    · next name hname =>
      cases hrun
      have hne : Token.identifier name ≠ .eof := fun heq => by cases heq
      exact ⟨[.identifier name], eq_cons_of_peek hne hname, rfl⟩
    · cases hrun
  · obtain rfl : ts = [.identifier name] := hread
    rfl

theorem recognizes_parseTableRef : Recognizes parseTableRef tableRef := by
  have hnamed : Recognizes _ tableRef := recognizes_parseTableName.andThen fun name =>
    (recognizes_parseAlias "expected alias after AS").andThen fun aliasName =>
      implements_nothing (TableRef.mk name aliasName)
  refine hnamed.of_eq fun tokens => ?_
  cases tokens with
  | nil => rfl
  | cons tok tokens => cases tok <;> rfl

/-- The keywords of a join, up to the joined table. -/
def parseJoinWords (tokens : List Token) : Except String (JoinType × List Token) :=
  match joinStart (peek tokens) with
  | none => .error "expected JOIN keyword"
  | some joinType => do
    let tokens ← if peek tokens = .keyword .join then .ok tokens.tail
      else expect (.keyword .join) tokens.tail
    return (joinType, tokens)

theorem recognizes_parseJoinWords : Recognizes parseJoinWords joinWords := by
  refine .intro (fun {tokens joinType rest} hrun => ?_) fun {ts joinType rest} hread => ?_
  · cases tokens with
    | nil => cases hrun
    | cons tok tokens =>
      cases tok with
      | keyword k =>
        cases k with
        | join => cases hrun; exact ⟨[.keyword .join], rfl, by simp [joinWords]⟩
        | inner | left | right | cross =>
          obtain ⟨after, hjoin, hend⟩ := Except.bind_eq_ok.mp hrun
          cases hend
          have htokens : tokens = .keyword .join :: rest := (expect_eq_ok (by decide)).mp hjoin
          exact ⟨[.keyword _, .keyword .join], by rw [htokens]; rfl, by simp [joinWords]⟩
        | _ => cases hrun
      | _ => cases hrun
  · simp only [joinWords, List.mem_cons, Prod.mk.injEq, List.not_mem_nil, or_false] at hread
    rcases hread with ⟨rfl, rfl⟩ | ⟨rfl, rfl⟩ | ⟨rfl, rfl⟩ | ⟨rfl, rfl⟩ | ⟨rfl, rfl⟩ <;> rfl

/-- A join clause with its keywords. -/
def parseJoinClause (tokens : List Token) : Except String (Join × List Token) := do
  let (joinType, tokens) ← parseJoinWords tokens
  let (table, tokens) ← parseTableRef tokens
  let tokens ← expect (.keyword .onKw) tokens
  let (condition, tokens) ← parseExpr tokens
  return (⟨joinType, table, condition⟩, tokens)

theorem recognizes_parseJoinClause : Recognizes parseJoinClause joinClause :=
  recognizes_parseJoinWords.andThen fun joinType => recognizes_parseTableRef.andThen fun table =>
    recognizes_expect (by decide) (recognizes_parseExpr.andThen fun condition =>
      implements_nothing (Join.mk joinType table condition))

theorem parseJoin_eq {tokens : List Token} {joinType : JoinType}
    (h : joinStart (peek tokens) = some joinType) :
    parseJoin joinType tokens = parseJoinClause tokens := by
  rw [parseJoin, parseJoinClause, parseJoinWords, h]
  dsimp only
  split
  · rfl
  · cases expect (.keyword .join) tokens.tail <;> rfl

theorem joinClause_ne_nil {ts : List Token} {join : Join} {t : Token} (h : joinClause ts join t) :
    ts ≠ [] := by
  rintro rfl
  obtain ⟨joinType, us, vs, hts, hwords, -⟩ := h
  obtain ⟨rfl, rfl⟩ := List.append_eq_nil_iff.mp hts.symm
  simp [joinWords] at hwords

theorem joinStart_of_parseJoinClause {tokens : List Token} {p : Join × List Token}
    (h : parseJoinClause tokens = .ok p) : ∃ joinType, joinStart (peek tokens) = some joinType := by
  obtain ⟨words, hwords, -⟩ := Except.bind_eq_ok.mp h
  unfold parseJoinWords at hwords
  split at hwords
  · cases hwords
  · next joinType hstart => exact ⟨joinType, hstart⟩

theorem read_parseJoins {fuel : Nat} {tokens rest : List Token} {joins : List Join}
    (h : parseJoins fuel tokens = .ok (joins, rest)) :
    ∃ ts, tokens = ts ++ rest ∧ Joins ts joins (peek rest) := by
  induction fuel generalizing tokens joins with
  | zero => cases h
  | succ fuel ih =>
    rw [parseJoins] at h
    split at h
    · next hnone =>
      cases h
      exact ⟨[], rfl, .nil hnone⟩
    · next joinType hstart =>
      rw [parseJoin_eq hstart] at h
      obtain ⟨⟨join, after⟩, hjoin, hloop⟩ := Except.bind_eq_ok.mp h
      obtain ⟨⟨joins', after'⟩, hjoins, hend⟩ := Except.bind_eq_ok.mp hloop
      cases hend
      obtain ⟨ts, rfl, hread⟩ := recognizes_parseJoinClause.read hjoin
      obtain ⟨us, rfl, hreads⟩ := ih hjoins
      rw [peek_append] at hread
      exact ⟨ts ++ us, (List.append_assoc ..).symm, .cons hread hreads⟩

/-- Each join takes a keyword, so the fuel of the tokens is enough. -/
theorem run_parseJoins {ts : List Token} {joins : List Join} {t : Token} (h : Joins ts joins t)
    {fuel : Nat} (hfuel : ts.length < fuel) {rest : List Token} (hrest : peek rest = t) :
    parseJoins fuel (ts ++ rest) = .ok (joins, rest) := by
  induction h generalizing fuel with
  | nil hnone =>
    obtain ⟨fuel, rfl⟩ := Nat.exists_eq_succ_of_ne_zero (Nat.ne_zero_of_lt hfuel)
    rw [List.nil_append, parseJoins, hrest, hnone]
  | @cons ts us join joins t hjoin hs ih =>
    obtain ⟨fuel, rfl⟩ := Nat.exists_eq_succ_of_ne_zero (Nat.ne_zero_of_lt hfuel)
    have hrun : parseJoinClause (ts ++ (us ++ rest)) = .ok (join, us ++ rest) :=
      recognizes_parseJoinClause.run hjoin (by rw [peek_append, hrest])
    obtain ⟨joinType, hstart⟩ := joinStart_of_parseJoinClause hrun
    have hpos : 0 < ts.length := List.length_pos_iff.mpr (joinClause_ne_nil hjoin)
    rw [List.length_append] at hfuel
    rw [List.append_assoc, parseJoins, hstart]
    dsimp only
    rw [parseJoin_eq hstart, hrun, Except.ok_bind]
    dsimp only
    rw [ih (by omega) hrest]
    rfl

theorem recognizes_parseJoins :
    Recognizes (fun tokens => parseJoins (tokens.length + 1) tokens) Joins :=
  .intro read_parseJoins fun {ts _ rest} h =>
    run_parseJoins h (by rw [List.length_append]; omega) rfl

theorem recognizes_direction : Recognizes (fun tokens =>
    if peek tokens = .keyword .asc then .ok (true, tokens.tail)
    else if peek tokens = .keyword .desc then .ok (false, tokens.tail) else .ok (true, tokens))
      Direction := by
  refine .intro (fun {tokens asc rest} hrun => ?_) fun {ts asc rest} hread => ?_
  · split at hrun
    · next hasc =>
      cases hrun
      exact ⟨[.keyword .asc], eq_cons_of_peek (by decide) hasc, .asc⟩
    · next hasc =>
      split at hrun
      · next hdesc =>
        cases hrun
        exact ⟨[.keyword .desc], eq_cons_of_peek (by decide) hdesc, .desc⟩
      · next hdesc =>
        cases hrun
        exact ⟨[], rfl, .missing hasc hdesc⟩
  · cases hread with
    | asc => rfl
    | desc => rfl
    | missing hasc hdesc => rw [List.nil_append, if_neg hasc, if_neg hdesc]

theorem recognizes_parseOrderByItem : Recognizes parseOrderByItem orderByItem := by
  have hitem : Recognizes _ orderByItem := recognizes_parseExpr.andThen fun e =>
    recognizes_direction.andThen fun ascending => implements_nothing (OrderByItem.mk e ascending)
  refine hitem.of_eq fun tokens => ?_
  unfold parseOrderByItem
  congr 1
  funext ⟨e, after⟩
  dsimp only
  split
  · rfl
  · split <;> rfl

theorem recognizes_someExpr : Recognizes someExpr clause :=
  recognizes_parseExpr.andThen fun e => implements_nothing (some e)

theorem recognizes_parseLimit : Recognizes parseLimit limitCount := by
  refine .intro (fun {tokens l rest} hrun => ?_) fun {ts l rest} hread => ?_
  · unfold parseLimit at hrun
    split at hrun
    · next v hv =>
      cases hrun
      have hne : Token.integer v ≠ .eof := fun heq => by cases heq
      exact ⟨[.integer v], eq_cons_of_peek hne hv, v, rfl, rfl⟩
    · cases hrun
  · obtain ⟨v, rfl, rfl⟩ := hread
    rfl

/-- `parse_select` with its keyword. -/
def parseSelectStatement (tokens : List Token) : Except String (Statement × List Token) := do
  parseSelect (← expect (.keyword .select) tokens)

/-- The parser reads SELECT statements. -/
theorem recognizes_parseSelectStatement : Recognizes parseSelectStatement selectStatement := by
  have hselect : (Token.keyword .select) ≠ .eof := by decide
  have hfrom : (Token.keyword .fromKw) ≠ .eof := by decide
  have hby : (Token.keyword .byKw) ≠ .eof := by decide
  have hgroup := recognizes_expect hby (recognizes_commaSeparated recognizes_parseExpr)
  have horder := recognizes_expect hby (recognizes_commaSeparated recognizes_parseOrderByItem)
  have h := recognizes_expect hselect <|
    (recognizes_commaSeparated recognizes_parseSelectItem).andThen fun columns =>
    recognizes_expect hfrom <| recognizes_parseTableRef.andThen fun fromTable =>
    recognizes_parseJoins.andThen fun joins =>
    (recognizes_optionalClause .whereKw none recognizes_someExpr).andThen fun whereClause =>
    (recognizes_optionalClause .group [] hgroup).andThen fun groupBy =>
    (recognizes_optionalClause .having none recognizes_someExpr).andThen fun having =>
    (recognizes_optionalClause .order [] horder).andThen fun orderBy =>
    (recognizes_optionalClause .limit none recognizes_parseLimit).andThen fun limit =>
    implements_nothing (ε := String) (Statement.mk
      ⟨columns, fromTable, joins, whereClause, groupBy, having, orderBy, limit⟩)
  have hread : Recognizes _ selectStatement := h
  exact hread.of_eq fun _ => rfl

end SqlOptimizer.Parser
