import SqlOptimizer.Library.Delimited
import SqlOptimizer.Parser.Produced
import SqlOptimizer.Parser.SqlPrinter

/-! What the canonical text of a statement tells about it: everything but the kind of a number and
the digits of it that are not printed. -/

namespace SqlOptimizer

open Delimited

/-! ### Trees up to numbers that print alike -/

def Literal.isNumber : Literal → Bool
  | .integer _ | .floating _ => true
  | _ => false

/-- The same literal, or two numbers with the same text. -/
def Literal.Alike (l l' : Literal) : Prop :=
  l = l' ∨ (l.isNumber = true ∧ l'.isNumber = true ∧ printLiteral l = printLiteral l')

mutual

def Expression.Alike : Expression → Expression → Prop
  | .column t c, e => e = .column t c
  | .literal l, .literal l' => l.Alike l'
  | .binaryOp l op r, .binaryOp l' op' r' => l.Alike l' ∧ op = op' ∧ r.Alike r'
  | .unaryOp op e, .unaryOp op' e' => op = op' ∧ e.Alike e'
  | .function name args, .function name' args' => name = name' ∧ AlikeAll args args'
  | .wildcard, e => e = .wildcard
  | _, _ => False

def AlikeAll : List Expression → List Expression → Prop
  | [], [] => True
  | e :: es, e' :: es' => e.Alike e' ∧ AlikeAll es es'
  | _, _ => False

end

theorem Literal.Alike.print {l l' : Literal} (h : l.Alike l') : printLiteral l = printLiteral l' :=
  h.elim (fun h => h ▸ rfl) fun h => h.2.2

mutual

theorem printExpr_alike : ∀ {e e' : Expression}, e.Alike e' → printExpr e = printExpr e'
  | .column t c, e', h => by rw [show e' = .column t c from h]
  | .wildcard, e', h => by rw [show e' = .wildcard from h]
  | .literal l, .literal l', h => Literal.Alike.print h
  | .binaryOp l op r, .binaryOp l' op' r', h => by
    obtain ⟨hl, rfl, hr⟩ := h
    simp only [printExpr, printExpr_alike hl, printExpr_alike hr]
  | .unaryOp op e, .unaryOp op' e', h => by
    obtain ⟨rfl, he⟩ := h
    simp only [printExpr, printExpr_alike he]
  | .function name args, .function name' args', h => by
    obtain ⟨rfl, hargs⟩ := h
    simp only [printExpr, printExprs_alike hargs]

theorem printExprs_alike : ∀ {es es' : List Expression}, AlikeAll es es' →
    printExprs es = printExprs es'
  | [], [], _ => rfl
  | e :: es, e' :: es', h => by
    simp only [printExprs, printExpr_alike h.1, printExprs_alike h.2]

end

/-! ### How an expression starts -/

/-- What the first characters of an expression tell: a word comes with the dot or the parenthesis
that follows it. -/
inductive Opening where
  | quote | paren | minus | star | digit
  | word (w : List Char) (next : Option Char)

def isJoint (c : Char) : Bool := c = '.' || c = '('

def opening : List Char → Opening
  | [] => .word [] none
  | c :: cs =>
    if c = '\'' then .quote
    else if c = '(' then .paren
    else if c = '-' then .minus
    else if c = '*' then .star
    else if c.isDigit then .digit
    else .word ((c :: cs).takeWhile Lexer.isWordChar)
      (((c :: cs).dropWhile Lexer.isWordChar).head?.filter isJoint)

def Expression.opening : Expression → Opening
  | .column none c => .word c.toList none
  | .column (some t) _ => .word t.toList (some '.')
  | .literal (.str _) => .quote
  | .literal (.boolean b) => .word (if b then ['T', 'R', 'U', 'E'] else ['F', 'A', 'L', 'S', 'E']) none
  | .literal .null => .word ['N', 'U', 'L', 'L'] none
  | .literal _ => .digit
  | .binaryOp _ _ _ => .paren
  | .unaryOp .neg _ => .minus
  | .unaryOp .not _ => .word ['N', 'O', 'T'] none
  | .function name _ => .word name.toList (some '(')
  | .wildcard => .star

/-- What may follow an expression. -/
def AfterExpr (rest : List Char) : Prop := ∀ c ∈ rest.head?, c ∈ [' ', ',', ')']

theorem AfterExpr.not {rest : List Char} (h : AfterExpr rest) {p : Char → Bool}
    (hp : [' ', ',', ')'].all (!p ·) = true) : ∀ c ∈ rest.head?, p c = false :=
  fun c hc => Bool.not_eq_true' _ ▸ List.all_eq_true.mp hp c (h c hc)

theorem opening_word {w rest : List Char} {next : Option Char} {c : Char} {cs : List Char}
    (hw : w = c :: cs) (hc : c.isAlpha ∨ c = '_') (hword : ∀ d ∈ w, Lexer.isWordChar d = true)
    (hrest : ∀ d ∈ rest.head?, Lexer.isWordChar d = false)
    (hnext : rest.head?.filter isJoint = next) : opening (w ++ rest) = .word w next := by
  subst hw
  have hpos : Lexer.isWordChar c = true := hword c List.mem_cons_self
  have hdigit : c.isDigit = false := by
    obtain h | rfl := hc
    · exact Lexer.isDigit_of_isAlpha h
    · rfl
  have hne : ∀ {d : Char}, Lexer.isWordChar d = false → c ≠ d := Lexer.isWordChar_special hpos
  have htake := takeWhile_append hword hrest
  have hdrop := dropWhile_append hword hrest
  rw [List.cons_append] at htake hdrop ⊢
  rw [opening, if_neg (hne rfl), if_neg (hne rfl), if_neg (hne rfl), if_neg (hne rfl), htake, hdrop,
    hnext]
  simp [hdigit]

theorem IsName.opening {s : String} (h : IsName s) {rest : List Char} {next : Option Char}
    (hrest : ∀ d ∈ rest.head?, Lexer.isWordChar d = false)
    (hnext : rest.head?.filter isJoint = next) :
    SqlOptimizer.opening (s.toList ++ rest) = .word s.toList next := by
  obtain ⟨c, cs, hlist, hc⟩ := h.head
  exact opening_word hlist hc h.word hrest hnext

theorem opening_digit {c : Char} (h : c.isDigit = true) (cs : List Char) :
    opening (c :: cs) = .digit := by
  have hne : ∀ {d : Char}, d.isDigit = false → c ≠ d := by
    rintro d hd rfl
    rw [h] at hd
    cases hd
  rw [opening, if_neg (hne rfl), if_neg (hne rfl), if_neg (hne rfl), if_neg (hne rfl), if_pos h]

theorem isDigit_of_printNumber {l : Literal} (hnumber : l.isNumber = true) (h : l.Written) :
    ∃ c cs, printLiteral l = c :: cs ∧ c.isDigit = true ∧
      ∀ d ∈ printLiteral l, Binary64.isNumeric d = true := by
  cases l with
  | integer v =>
    have hneg : ¬v.toInt < 0 := not_lt.mpr h
    have htext : printLiteral (.integer v) = Binary64.decimal v.toInt.natAbs := by
      simp [printLiteral, Binary64.intText, Binary64.signText, hneg]
    rw [htext]
    cases hdigits : Binary64.decimal v.toInt.natAbs with
    | nil => exact absurd hdigits (Binary64.decimal_ne_nil _)
    | cons c cs =>
      have hall : ∀ d ∈ c :: cs, d.isDigit = true := fun d hd =>
        Binary64.isDigit_of_mem_decimal (hdigits ▸ hd)
      exact ⟨c, cs, rfl, hall c List.mem_cons_self, fun d hd =>
        Binary64.isNumeric_of_isDigit (hall d hd)⟩
  | floating x =>
    obtain ⟨m, rfl⟩ := h
    obtain ⟨c, cs, htext, hc, hcs⟩ := Binary64.generalText_unsigned m
    refine ⟨c, cs, htext, hc, fun d hd => ?_⟩
    rw [printLiteral, htext] at hd
    rcases List.mem_cons.mp hd with rfl | hd
    · exact Binary64.isNumeric_of_isDigit hc
    · exact hcs d hd
  | str | boolean | null => cases hnumber

theorem opening_printExpr {e : Expression} (h : e.Produced) {rest : List Char}
    (hrest : AfterExpr rest) : opening (printExpr e ++ rest) = e.opening := by
  have hword : ∀ d ∈ rest.head?, Lexer.isWordChar d = false := hrest.not (by decide)
  have hnext : rest.head?.filter isJoint = none := by
    cases rest with
    | nil => rfl
    | cons c cs =>
      have hc : isJoint c = false := hrest.not (by decide) c rfl
      simp [hc]
  cases e with
  | column t c =>
    cases t with
    | none => exact IsName.opening h hword hnext
    | some t =>
      rw [printExpr, printColumn, List.append_assoc]
      show opening (t.toList ++ '.' :: (c.toList ++ rest)) = .word t.toList (some '.')
      exact IsName.opening h.1 (by rintro d ⟨⟩; rfl) rfl
  | literal l =>
    cases l with
    | integer v =>
      obtain ⟨c, cs, htext, hc, -⟩ := isDigit_of_printNumber rfl h
      rw [printExpr, htext]
      exact opening_digit hc _
    | floating x =>
      obtain ⟨c, cs, htext, hc, -⟩ := isDigit_of_printNumber rfl h
      rw [printExpr, htext]
      exact opening_digit hc _
    | str s => rfl
    | boolean b =>
      cases b
      · exact opening_word rfl (.inl rfl) (List.all_eq_true.mp rfl) hword hnext
      · exact opening_word rfl (.inl rfl) (List.all_eq_true.mp rfl) hword hnext
    | null => exact opening_word rfl (.inl rfl) (List.all_eq_true.mp rfl) hword hnext
  | binaryOp l op r => rfl
  | unaryOp op e =>
    cases op with
    | neg => rfl
    | not =>
      show opening (['N', 'O', 'T'] ++ ' ' :: (printExpr e ++ rest)) = _
      exact opening_word rfl (.inl rfl) (List.all_eq_true.mp rfl) (by rintro d ⟨⟩; rfl) rfl
  | function name args =>
    rw [printExpr, List.append_assoc, List.append_assoc]
    show opening (name.toList ++ '(' :: (commaList (printExprs args) ++ ([')'] ++ rest))) =
      .word name.toList (some '(')
    exact IsName.opening h.1 (by rintro d ⟨⟩; rfl) rfl
  | wildcard => rfl

theorem opening_eq {e e' : Expression} {r r' : List Char} (he : e.Produced) (he' : e'.Produced)
    (hr : AfterExpr r) (hr' : AfterExpr r') (h : printExpr e ++ r = printExpr e' ++ r') :
    e'.opening = e.opening := by
  rw [← opening_printExpr he hr, ← opening_printExpr he' hr', h]

/-! ### Which expressions start alike -/

theorem IsName.not_keyword {s : String} (h : IsName s) {w : List Char}
    (hw : String.ofList (w.map Char.toUpper) ∈ Lexer.keywords.map Prod.fst) : s.toList ≠ w := by
  rintro rfl
  exact h.notKeyword hw

section

variable {e : Expression}

theorem opening_eq_quote (h : e.opening = .quote) : ∃ s, e = .literal (.str s) := by
  unfold Expression.opening at h
  split at h <;> simp_all

theorem opening_eq_paren (h : e.opening = .paren) : ∃ l op r, e = .binaryOp l op r := by
  unfold Expression.opening at h
  split at h <;> simp_all

theorem opening_eq_minus (h : e.opening = .minus) : ∃ x, e = .unaryOp .neg x := by
  unfold Expression.opening at h
  split at h <;> simp_all

theorem opening_eq_star (h : e.opening = .star) : e = .wildcard := by
  unfold Expression.opening at h
  split at h <;> simp_all

theorem opening_eq_digit (h : e.opening = .digit) : ∃ l, e = .literal l ∧ l.isNumber = true := by
  unfold Expression.opening at h
  split at h <;> simp_all
  rename_i l _ _ _
  cases l <;> simp_all [Literal.isNumber]

theorem opening_eq_name {s : String} (hs : IsName s) (h : e.opening = .word s.toList none) :
    e = .column none s := by
  unfold Expression.opening at h
  split at h <;> simp only [reduceCtorEq, Opening.word.injEq, and_true, and_false] at h
  · rw [String.toList_inj.mp h]
  · split at h
    · exact absurd h.symm (hs.not_keyword (by decide))
    · exact absurd h.symm (hs.not_keyword (by decide))
  · exact absurd h.symm (hs.not_keyword (by decide))
  · exact absurd h.symm (hs.not_keyword (by decide))

theorem opening_eq_table {s : String} (h : e.opening = .word s.toList (some '.')) :
    ∃ c, e = .column (some s) c := by
  unfold Expression.opening at h
  split at h <;> simp only [reduceCtorEq, Opening.word.injEq, and_true, and_false] at h
  · exact ⟨_, by rw [String.toList_inj.mp h]⟩
  · exact absurd h.2 (by decide)

theorem opening_eq_call {s : String} (h : e.opening = .word s.toList (some '(')) :
    ∃ args, e = .function s args := by
  unfold Expression.opening at h
  split at h <;> simp only [reduceCtorEq, Opening.word.injEq, and_true, and_false] at h
  · exact absurd h.2 (by decide)
  · exact ⟨_, by rw [String.toList_inj.mp h]⟩

/-- A keyword starts a literal or a negation. -/
theorem opening_eq_keyword {w : List Char} (he : e.Produced)
    (hw : String.ofList (w.map Char.toUpper) ∈ Lexer.keywords.map Prod.fst)
    (h : e.opening = .word w none) : (∃ b, e = .literal (.boolean b)) ∨ e = .literal .null ∨
      ∃ x, e = .unaryOp .not x := by
  unfold Expression.opening at h
  split at h <;> simp only [reduceCtorEq, Opening.word.injEq, and_true, and_false] at h
  · exact absurd h (IsName.not_keyword he hw)
  · exact .inl ⟨_, rfl⟩
  · exact .inr (.inl rfl)
  · exact .inr (.inr ⟨_, rfl⟩)

end

/-! ### Expressions -/

theorem afterExpr_cons {c : Char} (h : c ∈ [' ', ',', ')']) (rest : List Char) :
    AfterExpr (c :: rest) := by
  rintro d ⟨⟩
  exact h

/-- The column of a column reference, up to what follows it. -/
theorem column_unique {c c' : String} (hc : IsName c ∨ c = "*") (hc' : IsName c' ∨ c' = "*")
    {r r' : List Char} (hr : AfterExpr r) (hr' : AfterExpr r')
    (h : c.toList ++ r = c'.toList ++ r') : c = c' ∧ r = r' := by
  have hword : ∀ {s : String}, IsName s ∨ s = "*" →
      ∀ d ∈ s.toList, (Lexer.isWordChar d || d == '*') = true := by
    rintro s (hs | rfl) d hd
    · rw [hs.word d hd, Bool.true_or]
    · rw [List.mem_singleton.mp hd]
      rfl
  obtain ⟨hlist, hrest⟩ := word_unique (hword hc) (hword hc') (hr.not (by decide))
    (hr'.not (by decide)) h
  exact ⟨String.toList_inj.mp hlist, hrest⟩

theorem printNumber_unique {l l' : Literal} (hl : l.isNumber = true) (hl' : l'.isNumber = true)
    (hw : l.Written) (hw' : l'.Written) {r r' : List Char} (hr : AfterExpr r) (hr' : AfterExpr r')
    (h : printLiteral l ++ r = printLiteral l' ++ r') : l.Alike l' ∧ r = r' := by
  obtain ⟨-, -, -, -, hall⟩ := isDigit_of_printNumber hl hw
  obtain ⟨-, -, -, -, hall'⟩ := isDigit_of_printNumber hl' hw'
  obtain ⟨htext, hrest⟩ := word_unique hall hall' (hr.not (by decide)) (hr'.not (by decide)) h
  exact ⟨.inr ⟨hl, hl', htext⟩, hrest⟩

theorem printString_unique {s s' : String} (hs : '\'' ∉ s.toList) (hs' : '\'' ∉ s'.toList)
    {r r' : List Char} (h : s.toList ++ '\'' :: r = s'.toList ++ '\'' :: r') : s = s' ∧ r = r' := by
  have hword : ∀ {s : String}, '\'' ∉ s.toList → ∀ d ∈ s.toList, (d != '\'') = true := by
    intro s hs d hd
    rw [bne_iff_ne]
    rintro rfl
    exact hs hd
  have hquote : ∀ r : List Char, ∀ d ∈ ('\'' :: r).head?, (d != '\'') = false := by
    rintro r d ⟨⟩
    rfl
  obtain ⟨hlist, hrest⟩ := word_unique (hword hs) (hword hs') (hquote r) (hquote r') h
  exact ⟨String.toList_inj.mp hlist, List.tail_eq_of_cons_eq hrest⟩

theorem binaryOpName_unique {op op' : BinaryOperator} {r r' : List Char}
    (h : binaryOpName op ++ ' ' :: r = binaryOpName op' ++ ' ' :: r') : op = op' ∧ r = r' := by
  have hname : ∀ op : BinaryOperator, ∀ d ∈ binaryOpName op, (d != ' ') = true := by
    intro op
    cases op <;> exact List.all_eq_true.mp rfl
  have hblank : ∀ r : List Char, ∀ d ∈ (' ' :: r).head?, (d != ' ') = false := by
    rintro r d ⟨⟩
    rfl
  obtain ⟨htext, hrest⟩ := word_unique (hname op) (hname op') (hblank r) (hblank r') h
  refine ⟨?_, List.tail_eq_of_cons_eq hrest⟩
  cases op <;> cases op' <;> first | rfl | exact absurd htext (by decide)

/-- The arguments of a call after the first. -/
def moreArguments (es : List Expression) : List Char :=
  (printExprs es).flatMap ([',', ' '] ++ ·)

theorem commaList_printExprs (e : Expression) (es : List Expression) :
    commaList (printExprs (e :: es)) = printExpr e ++ moreArguments es :=
  intercalate_cons _ _ _

theorem follows_moreArguments (es : List Expression) (r : List Char) :
    AfterExpr (moreArguments es ++ ')' :: r) := by
  cases es with
  | nil => exact afterExpr_cons (by decide) _
  | cons e es => exact afterExpr_cons (c := ',') (by decide) _

theorem printExpr_ne_rparen {e : Expression} (h : e.Produced) {r r' : List Char}
    (hr : AfterExpr r) : printExpr e ++ r ≠ ')' :: r' := by
  intro heq
  have hopening := opening_printExpr h hr
  rw [heq] at hopening
  have hempty : e.opening = .word [] none := hopening.symm
  have hname : ∀ {s : String}, IsName s → s.toList ≠ [] := by
    intro s hs
    obtain ⟨c, cs, hlist, -⟩ := hs.head
    simp [hlist]
  unfold Expression.opening at hempty
  split at hempty <;> simp only [reduceCtorEq, Opening.word.injEq, and_true, and_false] at hempty
  · exact hname h hempty
  · split at hempty <;> cases hempty

mutual

theorem printExpr_unique : ∀ {e e' : Expression} {r r' : List Char}, e.Produced → e'.Produced →
    AfterExpr r → AfterExpr r' → printExpr e ++ r = printExpr e' ++ r' → e.Alike e' ∧ r = r'
  | .column none c, e', r, r', he, he', hr, hr', h => by
    have hopening := opening_eq he he' hr hr' h
    obtain rfl := opening_eq_name he hopening
    exact ⟨rfl, List.append_cancel_left h⟩
  | .column (some t) c, e', r, r', he, he', hr, hr', h => by
    have hopening := opening_eq he he' hr hr' h
    obtain ⟨c', rfl⟩ := opening_eq_table hopening
    simp only [printExpr, printColumn, List.append_assoc, List.cons_append] at h
    obtain ⟨rfl, hrest⟩ := column_unique he.2 he'.2 hr hr'
      (List.tail_eq_of_cons_eq (List.append_cancel_left h))
    exact ⟨rfl, hrest⟩
  | .literal (.str s), e', r, r', he, he', hr, hr', h => by
    have hopening := opening_eq he he' hr hr' h
    obtain ⟨s', rfl⟩ := opening_eq_quote hopening
    simp only [printExpr, printLiteral, List.append_assoc, List.cons_append, List.cons.injEq,
      true_and, List.nil_append] at h
    obtain ⟨rfl, hrest⟩ := printString_unique he he' h
    exact ⟨.inl rfl, hrest⟩
  | .literal (.integer v), e', r, r', he, he', hr, hr', h => by
    have hopening := opening_eq he he' hr hr' h
    obtain ⟨l', rfl, hl'⟩ := opening_eq_digit hopening
    exact printNumber_unique rfl hl' he he' hr hr' h
  | .literal (.floating x), e', r, r', he, he', hr, hr', h => by
    have hopening := opening_eq he he' hr hr' h
    obtain ⟨l', rfl, hl'⟩ := opening_eq_digit hopening
    exact printNumber_unique rfl hl' he he' hr hr' h
  | .literal (.boolean b), e', r, r', he, he', hr, hr', h => by
    have hopening := opening_eq he he' hr hr' h
    have hkeyword : String.ofList ((if b then ['T', 'R', 'U', 'E'] else
        ['F', 'A', 'L', 'S', 'E']).map Char.toUpper) ∈ Lexer.keywords.map Prod.fst := by
      cases b <;> decide
    obtain ⟨b', rfl⟩ | rfl | ⟨x', rfl⟩ := opening_eq_keyword he' hkeyword hopening
    · have hb : b = b' := by
        cases b <;> cases b' <;> first | rfl | simp [Expression.opening] at hopening
      subst hb
      exact ⟨.inl rfl, List.append_cancel_left h⟩
    · cases b <;> simp [Expression.opening] at hopening
    · cases b <;> simp [Expression.opening] at hopening
  | .literal .null, e', r, r', he, he', hr, hr', h => by
    have hopening := opening_eq he he' hr hr' h
    obtain ⟨b', rfl⟩ | rfl | ⟨x', rfl⟩ := opening_eq_keyword he' (by decide) hopening
    · cases b' <;> simp [Expression.opening] at hopening
    · exact ⟨.inl rfl, List.append_cancel_left h⟩
    · simp [Expression.opening] at hopening
  | .binaryOp l op x, e', r, r', he, he', hr, hr', h => by
    have hopening := opening_eq he he' hr hr' h
    obtain ⟨l', op', x', rfl⟩ := opening_eq_paren hopening
    simp only [printExpr, List.append_assoc, List.cons_append, List.cons.injEq, true_and,
      List.nil_append] at h
    obtain ⟨hl, h⟩ := printExpr_unique he.1 he'.1 (afterExpr_cons (by decide) _)
      (afterExpr_cons (by decide) _) h
    obtain ⟨hop, hright⟩ := binaryOpName_unique (List.tail_eq_of_cons_eq h)
    obtain ⟨hx, hend⟩ := printExpr_unique he.2 he'.2 (afterExpr_cons (by decide) _)
      (afterExpr_cons (by decide) _) hright
    exact ⟨⟨hl, hop, hx⟩, List.tail_eq_of_cons_eq hend⟩
  | .unaryOp .neg x, e', r, r', he, he', hr, hr', h => by
    have hopening := opening_eq he he' hr hr' h
    obtain ⟨x', rfl⟩ := opening_eq_minus hopening
    simp only [printExpr, unaryOpName, List.cons_append, List.nil_append, List.cons.injEq,
      true_and] at h
    have hproduced : x.Produced ∧ x'.Produced := ⟨he, he'⟩
    obtain ⟨hx, hrest⟩ := printExpr_unique hproduced.1 hproduced.2 hr hr' h
    exact ⟨⟨rfl, hx⟩, hrest⟩
  | .unaryOp .not x, e', r, r', he, he', hr, hr', h => by
    have hopening := opening_eq he he' hr hr' h
    obtain ⟨b', rfl⟩ | rfl | ⟨x', rfl⟩ := opening_eq_keyword he' (by decide) hopening
    · cases b' <;> simp [Expression.opening] at hopening
    · simp [Expression.opening] at hopening
    · have hproduced : x.Produced ∧ x'.Produced := ⟨he, he'⟩
      simp only [printExpr, unaryOpName, List.cons_append, List.nil_append, List.cons.injEq,
        true_and] at h
      obtain ⟨hx, hrest⟩ := printExpr_unique hproduced.1 hproduced.2 hr hr' h
      exact ⟨⟨rfl, hx⟩, hrest⟩
  | .function name args, e', r, r', he, he', hr, hr', h => by
    have hopening := opening_eq he he' hr hr' h
    obtain ⟨args', rfl⟩ := opening_eq_call hopening
    simp only [printExpr, List.append_assoc, List.cons_append, List.nil_append] at h
    have h := List.tail_eq_of_cons_eq (List.append_cancel_left h)
    cases args with
    | nil =>
      cases args' with
      | nil => exact ⟨⟨rfl, trivial⟩, List.tail_eq_of_cons_eq h⟩
      | cons x' args' =>
        rw [commaList_printExprs, List.append_assoc] at h
        exact absurd h.symm (printExpr_ne_rparen he'.2.1 (follows_moreArguments _ _))
    | cons x args =>
      cases args' with
      | nil =>
        rw [commaList_printExprs, List.append_assoc] at h
        exact absurd h (printExpr_ne_rparen he.2.1 (follows_moreArguments _ _))
      | cons x' args' =>
        rw [commaList_printExprs, commaList_printExprs, List.append_assoc, List.append_assoc] at h
        obtain ⟨hx, h⟩ := printExpr_unique he.2.1 he'.2.1 (follows_moreArguments _ _)
          (follows_moreArguments _ _) h
        obtain ⟨hargs, hrest⟩ := moreArguments_unique he.2.2 he'.2.2 h
        exact ⟨⟨rfl, hx, hargs⟩, hrest⟩
  | .wildcard, e', r, r', he, he', hr, hr', h => by
    have hopening := opening_eq he he' hr hr' h
    obtain rfl := opening_eq_star hopening
    exact ⟨rfl, List.append_cancel_left h⟩

theorem moreArguments_unique : ∀ {es es' : List Expression} {r r' : List Char}, ProducedAll es →
    ProducedAll es' → moreArguments es ++ ')' :: r = moreArguments es' ++ ')' :: r' →
    AlikeAll es es' ∧ r = r'
  | [], [], r, r', _, _, h => ⟨trivial, List.tail_eq_of_cons_eq h⟩
  | [], e' :: es', r, r', _, _, h => by
    have hhead := List.head_eq_of_cons_eq h
    exact absurd hhead (by decide)
  | e :: es, [], r, r', _, _, h => by
    have hhead := List.head_eq_of_cons_eq h
    exact absurd hhead (by decide)
  | e :: es, e' :: es', r, r', hes, hes', h => by
    have hcons : ∀ (x : Expression) (xs : List Expression) (t : List Char),
        moreArguments (x :: xs) ++ t = ',' :: ' ' :: (printExpr x ++ (moreArguments xs ++ t)) :=
      fun x xs t => by simp [moreArguments, printExprs]
    rw [hcons, hcons] at h
    obtain ⟨he, h⟩ := printExpr_unique hes.1 hes'.1 (follows_moreArguments _ _)
      (follows_moreArguments _ _) (List.tail_eq_of_cons_eq (List.tail_eq_of_cons_eq h))
    obtain ⟨hall, hrest⟩ := moreArguments_unique hes.2 hes'.2 h
    exact ⟨⟨he, hall⟩, hrest⟩

end

/-! ### Clauses -/

/-- The word after a blank. -/
def leadWord (text : List Char) : List Char := (text.drop 1).takeWhile Lexer.isWordChar

/-- The words that may follow an expression or a table, after a blank. -/
def clauseWords : List (List Char) :=
  ["FROM", "INNER", "LEFT", "RIGHT", "CROSS", "ON", "WHERE", "GROUP", "HAVING", "ORDER",
    "LIMIT"].map String.toList

/-- What follows a clause: a blank and one of the words, or nothing. -/
structure Leads (words : List (List Char)) (rest : List Char) : Prop where
  blank : ∀ c ∈ rest.head?, c = ' '
  word : leadWord rest ∈ [] :: words

theorem leads_nil (words : List (List Char)) : Leads words [] := ⟨nofun, List.mem_cons_self⟩

theorem Leads.mono {words words' : List (List Char)} {rest : List Char} (h : Leads words rest)
    (hsub : words ⊆ words') : Leads words' rest :=
  ⟨h.blank, List.cons_subset_cons _ hsub h.word⟩

theorem Leads.follows {words : List (List Char)} {rest : List Char} (h : Leads words rest) :
    AfterExpr rest := fun c hc => by
  rw [h.blank c hc]
  decide

theorem Leads.not_comma {words : List (List Char)} {rest : List Char} (h : Leads words rest) :
    ¬[',', ' '] <+: rest := by
  rintro ⟨t, rfl⟩
  exact absurd (h.blank ',' rfl) (by decide)

theorem IsName.not_lead {s : String} (h : IsName s) {rest : List Char}
    (hrest : Leads clauseWords rest) : leadWord rest ≠ s.toList := by
  intro heq
  have hall : ∀ w ∈ clauseWords, String.ofList (w.map Char.toUpper) ∈
      Lexer.keywords.map Prod.fst := by decide
  have hword := hrest.word
  rw [heq] at hword
  rcases List.mem_cons.mp hword with hnil | hmem
  · obtain ⟨c, cs, hlist, -⟩ := h.head
    rw [hnil] at hlist
    cases hlist
  · exact h.not_keyword (hall _ hmem) rfl

/-- An optional name after a blank. -/
def printAlias (aliasName : Option String) : List Char :=
  match aliasName with
  | some a => ' ' :: a.toList
  | none => []

theorem Leads.not_word {words : List (List Char)} {rest : List Char} (h : Leads words rest) :
    ∀ c ∈ rest.head?, Lexer.isWordChar c = false := h.follows.not (by decide)

theorem leadWord_name {s : String} (h : IsName s) {rest : List Char}
    (hrest : ∀ c ∈ rest.head?, Lexer.isWordChar c = false) :
    leadWord (' ' :: s.toList ++ rest) = s.toList :=
  takeWhile_append h.word hrest

theorem printAlias_unique {a a' : Option String} (ha : ∀ s ∈ a, IsName s)
    (ha' : ∀ s ∈ a', IsName s) {r r' : List Char} (hr : Leads clauseWords r)
    (hr' : Leads clauseWords r') (h : printAlias a ++ r = printAlias a' ++ r') :
    a = a' ∧ r = r' := by
  have hmiss : ∀ {s : String} {t t' : List Char}, IsName s → Leads clauseWords t →
      Leads clauseWords t' → printAlias (some s) ++ t ≠ t' := by
    intro s t t' hs ht ht' heq
    have hlead := leadWord_name hs ht.not_word
    rw [show ' ' :: s.toList ++ t = t' from heq] at hlead
    exact hs.not_lead ht' hlead
  cases a with
  | none =>
    cases a' with
    | none => exact ⟨rfl, h⟩
    | some s' => exact absurd h.symm (hmiss (ha' s' rfl) hr' hr)
  | some s =>
    cases a' with
    | none => exact absurd h (hmiss (ha s rfl) hr hr')
    | some s' =>
      obtain ⟨hlist, hrest⟩ := word_unique (ha s rfl).word (ha' s' rfl).word hr.not_word
        hr'.not_word (List.tail_eq_of_cons_eq h)
      exact ⟨congrArg some (String.toList_inj.mp hlist), hrest⟩

theorem printTableRef_eq (ref : TableRef) :
    printTableRef ref = ref.tableName.toList ++ printAlias ref.aliasName := by
  unfold printTableRef printAlias
  cases ref.aliasName with
  | none => exact (List.append_nil _).symm
  | some a => rfl

theorem printTableRef_unique {ref ref' : TableRef} (h : ref.Produced) (h' : ref'.Produced)
    {r r' : List Char} (hr : Leads clauseWords r) (hr' : Leads clauseWords r')
    (heq : printTableRef ref ++ r = printTableRef ref' ++ r') : ref = ref' ∧ r = r' := by
  have hnot : ∀ {a : Option String} {t : List Char}, Leads clauseWords t →
      ∀ c ∈ (printAlias a ++ t).head?, Lexer.isWordChar c = false := by
    intro a t ht
    cases a with
    | none => exact ht.not_word
    | some s =>
      rintro c ⟨⟩
      rfl
  rw [printTableRef_eq, printTableRef_eq, List.append_assoc, List.append_assoc] at heq
  obtain ⟨hlist, heq⟩ := word_unique h.tableName.word h'.tableName.word (hnot hr) (hnot hr') heq
  obtain ⟨halias, hrest⟩ := printAlias_unique h.aliasName h'.aliasName hr hr' heq
  obtain ⟨tableName, aliasName⟩ := ref
  obtain ⟨tableName', aliasName'⟩ := ref'
  obtain rfl := String.toList_inj.mp hlist
  obtain rfl : aliasName = aliasName' := halias
  exact ⟨rfl, hrest⟩

section Clause

variable {α : Type} {keyword : String} {w : List Char} {words : List (List Char)}
  {print : α → List Char} {same : α → α → Prop} {r r' : List Char}

/-- A clause starts with its word, or is left out. -/
theorem leads_printClause (hblank : keyword.toList.head? = some ' ')
    (hkeyword : ∀ t, leadWord (keyword.toList ++ t) = w) (hr : Leads words r)
    (o : Option (List Char)) : Leads (w :: words) (printClause keyword o ++ r) := by
  cases o with
  | none => exact hr.mono (List.subset_cons_self _ _)
  | some text =>
    rw [printClause, List.append_assoc]
    refine ⟨fun c hc => ?_, ?_⟩
    · cases hk : keyword.toList with
      | nil => simp [hk] at hblank
      | cons d ds =>
        simp only [hk, List.head?_cons, Option.some.injEq] at hblank
        simp only [hk, List.cons_append, List.head?_cons, Option.mem_def, Option.some.injEq] at hc
        rw [← hc, hblank]
    · rw [hkeyword]
      simp

theorem printClause_unique (hkeyword : ∀ t, leadWord (keyword.toList ++ t) = w)
    (hw : w ∉ [] :: words) {o o' : Option α}
    (hitem : ∀ a ∈ o, ∀ a' ∈ o', print a ++ r = print a' ++ r' → same a a' ∧ r = r')
    (hr : Leads words r) (hr' : Leads words r')
    (h : printClause keyword (o.map print) ++ r = printClause keyword (o'.map print) ++ r') :
    Option.Rel same o o' ∧ r = r' := by
  have hmiss : ∀ {a : α} {t t' : List Char}, Leads words t' →
      printClause keyword (some (print a)) ++ t ≠ t' := by
    intro a t t' ht' heq
    have hword := ht'.word
    rw [← heq, printClause, List.append_assoc, hkeyword] at hword
    exact hw hword
  cases o with
  | none =>
    cases o' with
    | none => exact ⟨.none, h⟩
    | some a' => exact absurd h.symm (hmiss hr)
  | some a =>
    cases o' with
    | none => exact absurd h (hmiss hr')
    | some a' =>
      simp only [Option.map_some, printClause, List.append_assoc] at h
      obtain ⟨hsame, hrest⟩ := hitem a rfl a' rfl (List.append_cancel_left h)
      exact ⟨.some hsame, hrest⟩

/-- A list as a clause: nothing when it is empty. -/
def listClause (as : List α) : Option (List α) := if as.isEmpty then none else some as

theorem printListClause_eq (as : List α) : printListClause keyword (as.map print) =
    printClause keyword ((listClause as).map fun as => commaList (as.map print)) := by
  cases as <;> rfl

theorem printListClause_unique {follow : List Char → Prop}
    (hkeyword : ∀ t, leadWord (keyword.toList ++ t) = w) (hw : w ∉ [] :: words) {as as' : List α}
    (hitem : ∀ a ∈ as, ∀ a' ∈ as', ∀ t t', follow t → follow t' →
      print a ++ t = print a' ++ t' → same a a' ∧ t = t')
    (hcomma : ∀ t, follow ([',', ' '] ++ t)) (hfollow : ∀ t, Leads words t → follow t)
    (hr : Leads words r) (hr' : Leads words r')
    (h : printListClause keyword (as.map print) ++ r =
      printListClause keyword (as'.map print) ++ r') :
    List.Forall₂ same as as' ∧ r = r' := by
  rw [printListClause_eq, printListClause_eq] at h
  have hlist : ∀ {bs bs' : List α}, bs ∈ listClause as → bs' ∈ listClause as' →
      (bs = as ∧ as ≠ []) ∧ (bs' = as' ∧ as' ≠ []) := by
    intro bs bs' hbs hbs'
    simp only [listClause, Option.mem_def, Option.ite_none_left_eq_some, List.isEmpty_iff,
      Option.some.injEq] at hbs hbs'
    exact ⟨⟨hbs.2.symm, hbs.1⟩, ⟨hbs'.2.symm, hbs'.1⟩⟩
  have hlists : ∀ bs ∈ listClause as, ∀ bs' ∈ listClause as',
      commaList (bs.map print) ++ r = commaList (bs'.map print) ++ r' →
        List.Forall₂ same bs bs' ∧ r = r' := by
    intro bs hbs bs' hbs' heq
    obtain ⟨⟨rfl, hne⟩, rfl, hne'⟩ := hlist hbs hbs'
    exact Delimited.unique hne hne' hitem hcomma (hfollow _ hr) (hfollow _ hr') hr.not_comma
      hr'.not_comma heq
  obtain ⟨hrel, hrest⟩ := printClause_unique hkeyword hw hlists hr hr' h
  refine ⟨?_, hrest⟩
  cases as with
  | nil =>
    cases as' with
    | nil => exact .nil
    | cons => cases hrel
  | cons =>
    cases as' with
    | nil => cases hrel
    | cons =>
      cases hrel with
      | some hall => exact hall

end Clause

/-! ### SELECT items -/

def SelectItem.Alike : SelectItem → SelectItem → Prop
  | .expression e a, .expression e' a' => e.Alike e' ∧ a = a'
  | item, item' => item = item'

/-- The expression that an item prints. -/
def SelectItem.expr : SelectItem → Expression
  | .wildcard => .wildcard
  | .qualifiedWildcard t => .column (some t) "*"
  | .expression e _ => e

def SelectItem.aliasName : SelectItem → Option String
  | .expression _ a => a
  | _ => none

def printAs (aliasName : Option String) : List Char :=
  match aliasName with
  | some a => " AS ".toList ++ a.toList
  | none => []

theorem printSelectItem_eq (item : SelectItem) :
    printSelectItem item = printExpr item.expr ++ printAs item.aliasName := by
  cases item with
  | wildcard => rfl
  | qualifiedWildcard t => exact (List.append_nil _).symm
  | expression e a =>
    cases a with
    | none => exact (List.append_nil _).symm
    | some a => exact List.append_assoc _ _ _

/-- What may follow a SELECT item. -/
structure AfterItem (rest : List Char) : Prop where
  follows : AfterExpr rest
  noAlias : leadWord rest ≠ ['A', 'S']

theorem printAs_unique {a a' : Option String} (ha : ∀ s ∈ a, IsName s) (ha' : ∀ s ∈ a', IsName s)
    {r r' : List Char} (hr : AfterItem r) (hr' : AfterItem r')
    (h : printAs a ++ r = printAs a' ++ r') : a = a' ∧ r = r' := by
  cases a with
  | none =>
    cases a' with
    | none => exact ⟨rfl, h⟩
    | some s' =>
      refine absurd ?_ hr.noAlias
      rw [show r = _ from h]
      rfl
  | some s =>
    cases a' with
    | none =>
      refine absurd ?_ hr'.noAlias
      rw [show r' = _ from h.symm]
      rfl
    | some s' =>
      simp only [printAs, List.append_assoc] at h
      obtain ⟨hlist, hrest⟩ := word_unique (ha s rfl).word (ha' s' rfl).word
        (hr.follows.not (by decide)) (hr'.follows.not (by decide)) (List.append_cancel_left h)
      exact ⟨congrArg some (String.toList_inj.mp hlist), hrest⟩

theorem alike_wildcard {e : Expression} (h : e.Alike .wildcard) : e = .wildcard := by
  cases e <;> simp_all [Expression.Alike]

theorem alike_column {e : Expression} {t : Option String} {c : String}
    (h : e.Alike (.column t c)) : e = .column t c := by
  cases e <;> simp_all [Expression.Alike]

theorem printSelectItem_unique {item item' : SelectItem} (hi : item.Produced) (hi' : item'.Produced)
    {r r' : List Char} (hr : AfterItem r) (hr' : AfterItem r')
    (h : printSelectItem item ++ r = printSelectItem item' ++ r') :
    item.Alike item' ∧ r = r' := by
  have hexpr : ∀ {item : SelectItem}, item.Produced → item.expr.Produced := by
    intro item hi
    cases item with
    | wildcard => trivial
    | qualifiedWildcard t => exact ⟨hi, .inr rfl⟩
    | expression e a => exact hi.1.1
  have halias : ∀ {item : SelectItem}, item.Produced → ∀ s ∈ item.aliasName, IsName s := by
    intro item hi
    cases item with
    | wildcard | qualifiedWildcard => nofun
    | expression e a => exact hi.2.2
  have hfollows : ∀ (a : Option String) {t : List Char}, AfterItem t →
      AfterExpr (printAs a ++ t) := by
    intro a t ht
    cases a with
    | none => exact ht.follows
    | some s => exact afterExpr_cons (c := ' ') (by decide) _
  rw [printSelectItem_eq, printSelectItem_eq, List.append_assoc, List.append_assoc] at h
  obtain ⟨he, h⟩ := printExpr_unique (hexpr hi) (hexpr hi') (hfollows _ hr) (hfollows _ hr') h
  obtain ⟨ha, hrest⟩ := printAs_unique (halias hi) (halias hi') hr hr' h
  refine ⟨?_, hrest⟩
  cases item with
  | wildcard =>
    cases item' with
    | wildcard => rfl
    | qualifiedWildcard => cases he
    | expression e' a' => exact absurd he hi'.1.2
  | qualifiedWildcard t =>
    cases item' with
    | wildcard => cases he
    | qualifiedWildcard => cases he; rfl
    | expression e' a' => exact absurd he (hi'.2.1 t)
  | expression e a =>
    cases item' with
    | wildcard => exact absurd (alike_wildcard he) hi.1.2
    | qualifiedWildcard t' => exact absurd (alike_column he) (hi.2.1 t')
    | expression e' a' => exact ⟨he, ha⟩

/-! ### Joins -/

structure Join.Alike (join join' : Join) : Prop where
  joinType : join.joinType = join'.joinType
  table : join.table = join'.table
  condition : join.condition.Alike join'.condition

def joinWords : List (List Char) := ["INNER", "LEFT", "RIGHT", "CROSS"].map String.toList

/-- The word of a join type. -/
def joinWord : JoinType → List Char
  | .inner => "INNER".toList
  | .left => "LEFT".toList
  | .right => "RIGHT".toList
  | .cross => "CROSS".toList

theorem leadWord_joinTypeName (joinType : JoinType) (t : List Char) :
    leadWord (joinTypeName joinType ++ t) = joinWord joinType := by
  cases joinType <;> rfl

theorem joinTypeName_unique {joinType joinType' : JoinType} {r r' : List Char}
    (h : joinTypeName joinType ++ r = joinTypeName joinType' ++ r') :
    joinType = joinType' ∧ r = r' := by
  have hword : joinWord joinType = joinWord joinType' := by
    rw [← leadWord_joinTypeName joinType r, h, leadWord_joinTypeName]
  have htype : joinType = joinType' := by
    cases joinType <;> cases joinType' <;> first | rfl | exact absurd hword (by decide)
  subst htype
  exact ⟨rfl, List.append_cancel_left h⟩

theorem leads_on (t : List Char) : Leads clauseWords (" ON ".toList ++ t) :=
  ⟨by rintro c ⟨⟩; rfl, by
    rw [show leadWord (" ON ".toList ++ t) = ['O', 'N'] from rfl]
    decide⟩

theorem printJoin_unique {join join' : Join} (hj : join.Produced) (hj' : join'.Produced)
    {r r' : List Char} (hr : AfterExpr r) (hr' : AfterExpr r')
    (h : printJoin join ++ r = printJoin join' ++ r') : join.Alike join' ∧ r = r' := by
  simp only [printJoin, List.append_assoc] at h
  obtain ⟨htype, h⟩ := joinTypeName_unique h
  obtain ⟨htable, h⟩ := printTableRef_unique hj.table hj'.table (leads_on _) (leads_on _) h
  obtain ⟨hcondition, hrest⟩ := printExpr_unique hj.condition.1 hj'.condition.1 hr hr'
    (List.append_cancel_left h)
  exact ⟨⟨htype, htable, hcondition⟩, hrest⟩

section

variable {words : List (List Char)}

theorem leads_joins {r : List Char} (hr : Leads words r) (joins : List Join) :
    Leads (joinWords ++ words) (joins.flatMap printJoin ++ r) := by
  cases joins with
  | nil => exact hr.mono (List.subset_append_right _ _)
  | cons join joins =>
    simp only [List.flatMap_cons, printJoin, List.append_assoc]
    refine ⟨?_, ?_⟩
    · cases join.joinType <;> rintro c ⟨⟩ <;> rfl
    · rw [leadWord_joinTypeName]
      refine List.mem_cons_of_mem _ (List.mem_append_left _ ?_)
      cases join.joinType <;> decide

theorem printJoins_unique (hwords : ∀ w ∈ joinWords, w ∉ [] :: words) {joins joins' : List Join}
    (hj : ∀ join ∈ joins, join.Produced) (hj' : ∀ join ∈ joins', join.Produced) {r r' : List Char}
    (hr : Leads words r) (hr' : Leads words r')
    (h : joins.flatMap printJoin ++ r = joins'.flatMap printJoin ++ r') :
    List.Forall₂ Join.Alike joins joins' ∧ r = r' := by
  have hmiss : ∀ {join : Join} {t t' : List Char}, Leads words t' → printJoin join ++ t ≠ t' := by
    intro join t t' ht' heq
    have hword := ht'.word
    rw [← heq] at hword
    simp only [printJoin, List.append_assoc] at hword
    rw [leadWord_joinTypeName] at hword
    refine hwords _ ?_ hword
    cases join.joinType <;> decide
  induction joins generalizing joins' with
  | nil =>
    cases joins' with
    | nil => exact ⟨.nil, h⟩
    | cons join' joins' =>
      rw [List.flatMap_cons, List.append_assoc] at h
      exact absurd h.symm (hmiss hr)
  | cons join joins ih =>
    cases joins' with
    | nil =>
      rw [List.flatMap_cons, List.append_assoc] at h
      exact absurd h (hmiss hr')
    | cons join' joins' =>
      rw [List.flatMap_cons, List.flatMap_cons, List.append_assoc, List.append_assoc] at h
      obtain ⟨hfirst, h⟩ := printJoin_unique (hj join (by simp)) (hj' join' (by simp))
        (leads_joins hr joins).follows (leads_joins hr' joins').follows h
      obtain ⟨hall, hrest⟩ := ih (fun j hmem => hj j (by simp [hmem]))
        (fun j hmem => hj' j (by simp [hmem])) h
      exact ⟨.cons hfirst hall, hrest⟩

end

/-! ### Statements -/

structure OrderByItem.Alike (item item' : OrderByItem) : Prop where
  expression : item.expression.Alike item'.expression
  ascending : item.ascending = item'.ascending

theorem printOrderByItem_unique {item item' : OrderByItem} (hi : item.expression.Produced)
    (hi' : item'.expression.Produced) {r r' : List Char}
    (h : printOrderByItem item ++ r = printOrderByItem item' ++ r') :
    item.Alike item' ∧ r = r' := by
  have hfollows : ∀ (b : Bool) (t : List Char),
      AfterExpr ((if b then " ASC" else " DESC").toList ++ t) := by
    intro b t
    cases b <;> exact afterExpr_cons (c := ' ') (by decide) _
  simp only [printOrderByItem, List.append_assoc] at h
  obtain ⟨he, h⟩ := printExpr_unique hi hi' (hfollows _ _) (hfollows _ _) h
  have hdirection : item.ascending = item'.ascending := by
    have hthird := congrArg (·[1]?) h
    cases ha : item.ascending <;> cases ha' : item'.ascending <;> simp [ha, ha'] at hthird ⊢
  rw [hdirection] at h
  exact ⟨⟨he, hdirection⟩, List.append_cancel_left h⟩

/-- Two statements that differ in numbers that print alike at most. -/
structure SelectStatement.Alike (s s' : SelectStatement) : Prop where
  columns : List.Forall₂ SelectItem.Alike s.columns s'.columns
  fromTable : s.fromTable = s'.fromTable
  joins : List.Forall₂ Join.Alike s.joins s'.joins
  whereClause : Option.Rel Expression.Alike s.whereClause s'.whereClause
  groupBy : List.Forall₂ Expression.Alike s.groupBy s'.groupBy
  having : Option.Rel Expression.Alike s.having s'.having
  orderBy : List.Forall₂ OrderByItem.Alike s.orderBy s'.orderBy
  limit : s.limit = s'.limit

theorem printExprs_eq (es : List Expression) : printExprs es = es.map printExpr := by
  induction es with
  | nil => rfl
  | cons e es ih => rw [printExprs, ih, List.map_cons]

theorem printLimit_unique {l l' : Option Nat}
    (h : printClause " LIMIT " (l.map Binary64.decimal) =
      printClause " LIMIT " (l'.map Binary64.decimal)) : l = l' := by
  cases l with
  | none => cases l' with
    | none => rfl
    | some n' => cases h
  | some n => cases l' with
    | none => cases h
    | some n' => exact congrArg some (Binary64.decimal_injective (List.append_cancel_left h))

namespace SelectStatement

variable (s : SelectStatement)

/-! The text of a statement from each clause on. -/

def fromLimit : List Char := printClause " LIMIT " (s.limit.map Binary64.decimal)

def fromOrderBy : List Char :=
  printListClause " ORDER BY " (s.orderBy.map printOrderByItem) ++ s.fromLimit

def fromHaving : List Char := printClause " HAVING " (s.having.map printExpr) ++ s.fromOrderBy

def fromGroupBy : List Char := printListClause " GROUP BY " (s.groupBy.map printExpr) ++ s.fromHaving

def fromWhereClause : List Char :=
  printClause " WHERE " (s.whereClause.map printExpr) ++ s.fromGroupBy

def fromJoins : List Char := s.joins.flatMap printJoin ++ s.fromWhereClause

theorem printStatement_eq (stmt : Statement) : printStatement stmt =
    "SELECT ".toList ++ (commaList (stmt.select.columns.map printSelectItem) ++
      (" FROM ".toList ++ (printTableRef stmt.select.fromTable ++ stmt.select.fromJoins))) := by
  have hassoc : ∀ a b c d e f g h i j : List Char, a ++ b ++ c ++ d ++ e ++ f ++ g ++ h ++ i ++ j =
      a ++ (b ++ (c ++ (d ++ (e ++ (f ++ (g ++ (h ++ (i ++ j)))))))) :=
    fun _ _ _ _ _ _ _ _ _ _ => by simp only [List.append_assoc]
  unfold printStatement fromJoins fromWhereClause fromGroupBy fromHaving fromOrderBy fromLimit
  rw [← printExprs_eq]
  exact hassoc _ _ _ _ _ _ _ _ _ _

theorem leadWord_where (t : List Char) : leadWord (" WHERE ".toList ++ t) = "WHERE".toList := rfl

theorem leadWord_group (t : List Char) :
    leadWord (" GROUP BY ".toList ++ t) = "GROUP".toList := rfl

theorem leadWord_having (t : List Char) :
    leadWord (" HAVING ".toList ++ t) = "HAVING".toList := rfl

theorem leadWord_order (t : List Char) :
    leadWord (" ORDER BY ".toList ++ t) = "ORDER".toList := rfl

theorem leadWord_limit (t : List Char) : leadWord (" LIMIT ".toList ++ t) = "LIMIT".toList := rfl

theorem leads_fromLimit : Leads ["LIMIT".toList] s.fromLimit := by
  have h := leads_printClause rfl leadWord_limit (leads_nil []) (s.limit.map Binary64.decimal)
  rwa [List.append_nil] at h

theorem leads_fromOrderBy : Leads ["ORDER".toList, "LIMIT".toList] s.fromOrderBy := by
  rw [fromOrderBy, printListClause_eq]
  exact leads_printClause rfl leadWord_order s.leads_fromLimit _

theorem leads_fromHaving :
    Leads ["HAVING".toList, "ORDER".toList, "LIMIT".toList] s.fromHaving :=
  leads_printClause rfl leadWord_having s.leads_fromOrderBy _

theorem leads_fromGroupBy :
    Leads ["GROUP".toList, "HAVING".toList, "ORDER".toList, "LIMIT".toList] s.fromGroupBy := by
  rw [fromGroupBy, printListClause_eq]
  exact leads_printClause rfl leadWord_group s.leads_fromHaving _

theorem leads_fromWhereClause :
    Leads ["WHERE".toList, "GROUP".toList, "HAVING".toList, "ORDER".toList, "LIMIT".toList]
      s.fromWhereClause :=
  leads_printClause rfl leadWord_where s.leads_fromGroupBy _

theorem leads_fromJoins : Leads clauseWords s.fromJoins :=
  (leads_joins s.leads_fromWhereClause s.joins).mono (by decide)

variable {s}

/-- Statements print alike only when they differ in numbers that print alike at most. -/
theorem alike_of_print {s' : SelectStatement} (h : s.Produced) (h' : s'.Produced)
    (heq : printStatement ⟨s⟩ = printStatement ⟨s'⟩) : s.Alike s' := by
  rw [printStatement_eq, printStatement_eq] at heq
  have hexpr : ∀ {o o' : Option Expression}, (∀ e ∈ o, e.Stands) → (∀ e ∈ o', e.Stands) →
      ∀ {r r' : List Char}, AfterExpr r → AfterExpr r' → ∀ e ∈ o, ∀ e' ∈ o',
        printExpr e ++ r = printExpr e' ++ r' → e.Alike e' ∧ r = r' :=
    fun ho ho' _ _ hr hr' e he e' he' => printExpr_unique (ho e he).1 (ho' e' he').1 hr hr'
  have hfrom : ∀ t : List Char, AfterItem (" FROM ".toList ++ t) := fun t =>
    ⟨afterExpr_cons (c := ' ') (by decide) _, by
      rw [show leadWord (" FROM ".toList ++ t) = ['F', 'R', 'O', 'M'] from rfl]
      decide⟩
  obtain ⟨hcolumns, heq⟩ := Delimited.unique h.columns.1 h'.columns.1
    (fun i hi i' hi' r r' => printSelectItem_unique (h.columns.2 i hi) (h'.columns.2 i' hi'))
    (fun t => ⟨afterExpr_cons (c := ',') (by decide) _, by
      rw [show leadWord ([',', ' '] ++ t) = [] from rfl]
      decide⟩)
    (hfrom _) (hfrom _) (by simp [List.cons_prefix_cons]) (by simp [List.cons_prefix_cons])
    (List.append_cancel_left heq)
  obtain ⟨htable, heq⟩ := printTableRef_unique h.fromTable h'.fromTable s.leads_fromJoins
    s'.leads_fromJoins (List.append_cancel_left heq)
  obtain ⟨hjoins, heq⟩ := printJoins_unique (by decide) h.joins h'.joins s.leads_fromWhereClause
    s'.leads_fromWhereClause heq
  obtain ⟨hwhere, heq⟩ := printClause_unique leadWord_where (by decide)
    (hexpr h.whereClause h'.whereClause s.leads_fromGroupBy.follows s'.leads_fromGroupBy.follows)
    s.leads_fromGroupBy s'.leads_fromGroupBy heq
  obtain ⟨hgroupBy, heq⟩ := printListClause_unique leadWord_group (by decide)
    (fun e he e' he' _ _ => printExpr_unique (h.groupBy e he).1 (h'.groupBy e' he').1)
    (fun _ => afterExpr_cons (c := ',') (by decide) _) (fun _ ht => ht.follows)
    s.leads_fromHaving s'.leads_fromHaving heq
  obtain ⟨hhaving, heq⟩ := printClause_unique leadWord_having (by decide)
    (hexpr h.having h'.having s.leads_fromOrderBy.follows s'.leads_fromOrderBy.follows)
    s.leads_fromOrderBy s'.leads_fromOrderBy heq
  obtain ⟨horderBy, heq⟩ := printListClause_unique leadWord_order (by decide)
    (fun i hi i' hi' _ _ (_ : True) (_ : True) =>
      printOrderByItem_unique (h.orderBy i hi).1 (h'.orderBy i' hi').1)
    (fun _ => trivial) (fun _ _ => trivial) s.leads_fromLimit s'.leads_fromLimit heq
  exact ⟨hcolumns, htable, hjoins, hwhere, hgroupBy, hhaving, horderBy, printLimit_unique heq⟩

theorem print_of_alike {s' : SelectStatement} (h : s.Alike s') :
    printStatement ⟨s⟩ = printStatement ⟨s'⟩ := by
  have hitems : ∀ i i' : SelectItem, i.Alike i' → printSelectItem i = printSelectItem i' := by
    intro i i' hi
    cases i <;> cases i' <;> simp only [SelectItem.Alike, reduceCtorEq] at hi
    case expression.expression =>
      rw [printSelectItem_eq, printSelectItem_eq]
      simp only [SelectItem.expr, SelectItem.aliasName, printExpr_alike hi.1, hi.2]
    case qualifiedWildcard.qualifiedWildcard => rw [hi]
    case wildcard.wildcard => rfl
  have hjoins : ∀ j j' : Join, j.Alike j' → printJoin j = printJoin j' := fun j j' hj => by
    simp only [printJoin, hj.joinType, hj.table, printExpr_alike hj.condition]
  have horder : ∀ o o' : OrderByItem, o.Alike o' → printOrderByItem o = printOrderByItem o' :=
    fun o o' ho => by simp only [printOrderByItem, printExpr_alike ho.expression, ho.ascending]
  have hclause : ∀ {o o' : Option Expression}, Option.Rel Expression.Alike o o' →
      o.map printExpr = o'.map printExpr := by
    intro o o' ho
    cases ho with
    | some he => exact congrArg some (printExpr_alike he)
    | none => rfl
  simp only [printStatement_eq, fromJoins, fromWhereClause, fromGroupBy, fromHaving, fromOrderBy,
    fromLimit, List.flatMap_def, map_eq_of_forall₂ h.columns hitems, h.fromTable,
    map_eq_of_forall₂ h.joins hjoins, hclause h.whereClause,
    map_eq_of_forall₂ h.groupBy fun _ _ => printExpr_alike, hclause h.having,
    map_eq_of_forall₂ h.orderBy horder, h.limit]

end SelectStatement

section

variable [NumberText] {text text' : List Char} {stmt stmt' : Statement}

open SqlOptimizer.Parser

theorem toCanonicalSql_eq_iff (hstod : ReadsUnsigned) (h : Produces text stmt)
    (h' : Produces text' stmt') :
    toCanonicalSql stmt = toCanonicalSql stmt' ↔ stmt.select.Alike stmt'.select := by
  rw [toCanonicalSql, toCanonicalSql, String.ofList_inj]
  exact ⟨SelectStatement.alike_of_print (h.produced hstod) (h'.produced hstod),
    SelectStatement.print_of_alike⟩

/-- The canonical text tells two statements of the parser apart unless they differ in numbers that
print alike and in nothing else. -/
theorem toCanonicalSql_separates_iff (hstod : ReadsUnsigned) (h : Produces text stmt)
    (h' : Produces text' stmt') :
    (toCanonicalSql stmt = toCanonicalSql stmt' → stmt = stmt') ↔
      (stmt = stmt' ∨ ¬ stmt.select.Alike stmt'.select) := by
  rw [toCanonicalSql_eq_iff hstod h h', imp_iff_or_not]

end

section

open SqlOptimizer.Parser

/-- `std::stod` of one text. -/
local instance oneAsFloat : NumberText :=
  ⟨fun _ _ => ['1'], fun text => if text = "1.0".toList then .ok (.fin false 1) else .error .invalidArgument⟩

/-- `SELECT <value> FROM t`. -/
def selectLiteral (value : Literal) : Statement :=
  ⟨⟨[.expression (.literal value) none], ⟨"t", none⟩, [], none, [], none, [], none⟩⟩

theorem produces_integer : Produces "SELECT 1 FROM t".toList (selectLiteral (.integer 1)) :=
  ⟨_, rfl, rfl⟩

theorem produces_float :
    Produces "SELECT 1.0 FROM t".toList (selectLiteral (.floating (.fin false 1))) :=
  ⟨_, rfl, rfl⟩

theorem readsUnsigned_oneAsFloat : ReadsUnsigned := by
  intro digits fraction x _ _ hx
  simp only [NumberText.stod] at hx
  split at hx
  · cases hx
    exact ⟨1, rfl⟩
  · cases hx

/-- `1` and `1.0` have the same text. -/
theorem toCanonicalSql_confuses :
    Produces "SELECT 1 FROM t".toList (selectLiteral (.integer 1)) ∧
      Produces "SELECT 1.0 FROM t".toList (selectLiteral (.floating (.fin false 1))) ∧
      toCanonicalSql (selectLiteral (.integer 1)) =
        toCanonicalSql (selectLiteral (.floating (.fin false 1))) ∧
      selectLiteral (.integer 1) ≠ selectLiteral (.floating (.fin false 1)) := by
  refine ⟨produces_integer, produces_float, by decide, ?_⟩
  simp [selectLiteral]

theorem toCanonicalSql_separates_iff_one :
    (toCanonicalSql (selectLiteral (.integer 1)) =
        toCanonicalSql (selectLiteral (.floating (.fin false 1))) →
      selectLiteral (.integer 1) = selectLiteral (.floating (.fin false 1))) ↔
    (selectLiteral (.integer 1) = selectLiteral (.floating (.fin false 1)) ∨
      ¬ (selectLiteral (.integer 1)).select.Alike
        (selectLiteral (.floating (.fin false 1))).select) :=
  toCanonicalSql_separates_iff readsUnsigned_oneAsFloat produces_integer produces_float

end

end SqlOptimizer
