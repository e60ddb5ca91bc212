import SqlOptimizer.Parser.Recognition

/-! What `parse` leaves unread.  It returns as soon as the clauses it looks for are read, and never
looks for the end of the tokens. -/

namespace SqlOptimizer.Parser

/-- Nothing but the end mark is left behind the statement that `parse` returns. -/
def ReadsAll (tokens : List Token) : Prop :=
  ∀ stmt, parse tokens = .ok stmt → parseSelect tokens.tail = .ok (stmt, [.eof])

/-- The tokens of a statement, up to the one that follows it. -/
def Starts (ts : List Token) (tokens : List Token) : Prop :=
  ∃ stmt rest, tokens = ts ++ rest ∧ selectStatement ts stmt (peek rest)

theorem parseSelectStatement_eq_ok {tokens : List Token} {p : Statement × List Token} :
    parseSelectStatement tokens = .ok p ↔
      peek tokens = .keyword .select ∧ parseSelect tokens.tail = .ok p := by
  rw [parseSelectStatement, Except.bind_eq_ok]
  constructor
  · rintro ⟨after, hselect, hrun⟩
    obtain rfl := (expect_eq_ok (by decide)).mp hselect
    exact ⟨rfl, hrun⟩
  · rintro ⟨hselect, hrun⟩
    exact ⟨tokens.tail, (expect_eq_ok (by decide)).mpr (eq_cons_of_peek (by decide) hselect), hrun⟩

theorem parse_eq_ok {tokens : List Token} {stmt : Statement} :
    parse tokens = .ok stmt ↔ ∃ rest, parseSelectStatement tokens = .ok (stmt, rest) := by
  simp only [parseSelectStatement_eq_ok]
  unfold parse
  constructor
  · intro h
    split at h
    · next hselect =>
      obtain ⟨⟨stmt', rest⟩, hrun, hend⟩ := Except.bind_eq_ok.mp h
      cases hend
      exact ⟨rest, hselect, hrun⟩
    · cases h
  · rintro ⟨rest, hselect, hrun⟩
    rw [if_pos hselect, hrun]
    rfl

/-- A statement is read whole, whatever follows it. -/
theorem readsAll_iff_rest {tokens : List Token} :
    ReadsAll tokens ↔
      ∀ stmt rest, parseSelectStatement tokens = .ok (stmt, rest) → rest = [.eof] := by
  constructor
  · intro h stmt rest hrun
    have hall := h stmt (parse_eq_ok.mpr ⟨rest, hrun⟩)
    rw [(parseSelectStatement_eq_ok.mp hrun).2] at hall
    cases hall
    rfl
  · intro h stmt hparse
    obtain ⟨rest, hrun⟩ := parse_eq_ok.mp hparse
    obtain rfl := h stmt rest hrun
    exact (parseSelectStatement_eq_ok.mp hrun).2

theorem starts_of_run {tokens rest : List Token} {stmt : Statement}
    (h : parseSelectStatement tokens = .ok (stmt, rest)) :
    ∃ ts, tokens = ts ++ rest ∧ Starts ts tokens := by
  obtain ⟨ts, hts, hread⟩ := recognizes_parseSelectStatement.read h
  exact ⟨ts, hts, stmt, rest, hts, hread⟩

theorem run_of_starts {ts tokens : List Token} (h : Starts ts tokens) :
    ∃ stmt rest, tokens = ts ++ rest ∧ parseSelectStatement tokens = .ok (stmt, rest) := by
  obtain ⟨stmt, rest, rfl, hread⟩ := h
  exact ⟨stmt, rest, rfl, recognizes_parseSelectStatement.run hread rfl⟩

/-- All tokens in front of the end mark are read exactly when they are a statement as a whole, or no
statement starts there. -/
theorem readsAll_iff (tokens : List Token) (hend : tokens.getLast? = some .eof) :
    ReadsAll tokens ↔ Starts tokens.dropLast tokens ∨ ∀ ts, ¬ Starts ts tokens := by
  have hlast : tokens.dropLast ++ [.eof] = tokens := List.dropLast_append_getLast? _ hend
  rw [readsAll_iff_rest]
  constructor
  · intro h
    by_cases hstart : ∃ ts, Starts ts tokens
    · left
      obtain ⟨ts, hts⟩ := hstart
      obtain ⟨stmt, rest, htokens, hrun⟩ := run_of_starts hts
      obtain rfl := h stmt rest hrun
      rw [htokens, List.dropLast_concat, ← htokens]
      exact hts
    · exact .inr fun ts hts => hstart ⟨ts, hts⟩
  · rintro (hwhole | hnone) stmt rest hrun
    · obtain ⟨stmt', rest', htokens, hrun'⟩ := run_of_starts hwhole
      rw [hrun] at hrun'
      cases hrun'
      exact (List.append_cancel_left (hlast.trans htokens)).symm
    · obtain ⟨ts, -, hts⟩ := starts_of_run hrun
      exact absurd hts (hnone ts)

/-- `SELECT * FROM t LIMIT 5 WHERE a = 1` -/
def lateWhere : List Token :=
  [.keyword .select, .star, .keyword .fromKw, .identifier "t", .keyword .limit, .integer 5,
    .keyword .whereKw, .identifier "a", .eq, .integer 1, .eof]

/-- The condition behind LIMIT is dropped. -/
theorem parse_lateWhere :
    lateWhere.getLast? = some .eof ∧ parse lateWhere = .ok
        ⟨⟨[.wildcard], ⟨"t", none⟩, [], none, [], none, [], some 5⟩⟩ ∧
      ¬ ReadsAll lateWhere := by
  have hrun : parseSelect lateWhere.tail =
      .ok (⟨⟨[.wildcard], ⟨"t", none⟩, [], none, [], none, [], some 5⟩⟩, lateWhere.drop 6) := rfl
  have hparse : parse lateWhere =
      .ok ⟨⟨[.wildcard], ⟨"t", none⟩, [], none, [], none, [], some 5⟩⟩ := rfl
  refine ⟨rfl, hparse, fun h => ?_⟩
  have hall := h _ hparse
  rw [hrun] at hall
  cases hall

theorem readsAll_iff_lateWhere :
    ReadsAll lateWhere ↔
      Starts lateWhere.dropLast lateWhere ∨ ∀ ts, ¬ Starts ts lateWhere :=
  readsAll_iff lateWhere rfl

end SqlOptimizer.Parser
