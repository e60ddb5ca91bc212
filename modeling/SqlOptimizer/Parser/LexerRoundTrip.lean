import Mathlib.Data.List.Chain
import Mathlib.Tactic.IntervalCases
import SqlOptimizer.Library.Delimited
import SqlOptimizer.Parser.Lexer

/-! Texts of tokens, and what `tokenize` reads from them: each token is read up to the first
character that cannot belong to it. -/

namespace SqlOptimizer.Lexer

open Delimited

section

variable [NumberText]

/-- The operators and the punctuation. -/
def symbols : List (Token × List Char) :=
  [(.eq, ['=']), (.neq, ['<', '>']), (.neq, ['!', '=']), (.lt, ['<']), (.gt, ['>']),
    (.lte, ['<', '=']), (.gte, ['>', '=']), (.plus, ['+']), (.minus, ['-']), (.star, ['*']),
    (.slash, ['/']), (.comma, [',']), (.dot, ['.']), (.lparen, ['(']), (.rparen, [')'])]

def IsNumeral (digits : List Char) : Prop := digits ≠ [] ∧ ∀ c ∈ digits, c.isDigit = true

/-- The texts of a token.  A keyword is spelled in any case. -/
inductive Spells : Token → List Char → Prop
  | keyword {k : Keyword} {word : List Char}
      (h : (String.ofList (word.map Char.toUpper), k) ∈ keywords) : Spells (.keyword k) word
  | identifier {c : Char} {cs : List Char} (hc : c.isAlpha ∨ c = '_')
      (hcs : ∀ d ∈ cs, isWordChar d = true)
      (h : String.ofList ((c :: cs).map Char.toUpper) ∉ keywords.map Prod.fst) :
      Spells (.identifier (String.ofList (c :: cs))) (c :: cs)
  | integer {digits : List Char} (h : IsNumeral digits)
      (hv : Nat.ofDigitChars 10 digits 0 < 2 ^ 63) :
      Spells (.integer (Int64.ofNat (Nat.ofDigitChars 10 digits 0))) digits
  | float {digits fraction : List Char} {x : Binary64} (h : IsNumeral digits)
      (hf : IsNumeral fraction) (hx : NumberText.stod (digits ++ '.' :: fraction) = .ok x) :
      Spells (.float x) (digits ++ '.' :: fraction)
  | stringLit {cs : List Char} (h : '\'' ∉ cs) :
      Spells (.stringLit (String.ofList cs)) ('\'' :: (cs ++ ['\'']))
  | symbol {tok : Token} {text : List Char} (h : (tok, text) ∈ symbols) : Spells tok text

/-- Tokens of one character that belongs to no other one. -/
def delimiters : List (Token × Char) :=
  [(.comma, ','), (.lparen, '('), (.rparen, ')'), (.plus, '+'), (.minus, '-'), (.star, '*'),
    (.slash, '/')]

def IsDelimiter (tok : Token) : Prop := tok ∈ delimiters.map Prod.fst

/-- A token with its text and the whitespace in front of it. -/
structure Lexeme where
  gap : List Char
  token : Token
  text : List Char
  isSpace_gap : ∀ c ∈ gap, isSpace c = true
  spells : Spells token text

def Lexeme.chars (l : Lexeme) : List Char := l.gap ++ l.text

/-- Two tokens in a row stand apart, unless one of them is a delimiter. -/
def Lexeme.Apart (l l' : Lexeme) : Prop :=
  l'.gap ≠ [] ∨ IsDelimiter l.token ∨ IsDelimiter l'.token

end

/-! ### Characters -/

/-- Whitespace and delimiters end every token. -/
def breakChars : List Char :=
  [' ', Char.ofNat 9, Char.ofNat 10, Char.ofNat 11, Char.ofNat 12, Char.ofNat 13, ',', '(', ')',
    '+', '-', '*', '/']

theorem mem_breakChars_of_isSpace {c : Char} (h : isSpace c = true) : c ∈ breakChars := by
  simp only [isSpace, Bool.or_eq_true, Bool.and_eq_true, decide_eq_true_eq] at h
  obtain rfl | ⟨hlo, hhi⟩ := h
  · decide
  · rw [← Char.ofNat_toNat c]
    interval_cases c.toNat <;> decide

/-- The rest of a text ends the token in front of it. -/
def Breaks (rest : List Char) : Prop := ∀ c ∈ rest.head?, c ∈ breakChars

theorem Breaks.head_ne {rest : List Char} (h : Breaks rest) {p : Char → Bool}
    (hp : breakChars.all (!p ·) = true) : ∀ c ∈ rest.head?, p c = false :=
  fun c hc => Bool.not_eq_true' _ ▸ List.all_eq_true.mp hp c (h c hc)

theorem peek_of_breaks {rest : List Char} (h : Breaks rest) {d : Char} (hd : d ∉ breakChars)
    (hnul : d ≠ Char.ofNat 0) : peek rest ≠ d := by
  cases rest with
  | nil => exact hnul.symm
  | cons c rest =>
    rintro rfl
    exact hd (h _ rfl)

theorem breaks_space {gap rest : List Char} (hgap : ∀ c ∈ gap, isSpace c = true)
    (hne : gap ≠ []) : Breaks (gap ++ rest) := by
  cases gap with
  | nil => exact absurd rfl hne
  | cons c cs =>
    rintro d ⟨⟩
    exact mem_breakChars_of_isSpace (hgap c List.mem_cons_self)

/-! ### Words -/

theorem isWordChar_of_isAlpha {c : Char} (h : c.isAlpha = true) : isWordChar c = true := by
  simp [isWordChar, Char.isAlphanum, h]

theorem isWordChar_of_isDigit {c : Char} (h : c.isDigit = true) : isWordChar c = true := by
  simp [isWordChar, Char.isAlphanum, h]

theorem isDigit_of_isAlpha {c : Char} (h : c.isAlpha = true) : c.isDigit = false := by
  rw [Bool.eq_false_iff]
  intro hdigit
  have hletter : (decide ('A'.val ≤ c.val ∧ c.val ≤ 'Z'.val) ||
      (decide ('a'.val ≤ c.val) && decide (c.val ≤ 'z'.val))) = true := h
  have hdigit : '0'.toNat ≤ c.val.toNat ∧ c.val.toNat ≤ '9'.toNat := Char.isDigit_iff_toNat.mp hdigit
  simp [UInt32.le_iff_toNat_le] at hletter hdigit
  omega

/-- Only letters have upper case letters. -/
theorem isAlpha_of_toUpper {c : Char} (h : c.toUpper.isUpper = true) : c.isAlpha = true := by
  show (c.isUpper || c.isLower) = true
  rw [Bool.or_eq_true]
  by_cases hlower : 'a'.val ≤ c.val ∧ c.val ≤ 'z'.val
  · exact .inr (Bool.and_eq_true_iff.mpr ⟨decide_eq_true hlower.1, decide_eq_true hlower.2⟩)
  · have hself : c.toUpper = c := dif_neg hlower
    exact .inl (hself ▸ h)

theorem lookup_keywords {word : String} {k : Keyword} (h : (word, k) ∈ keywords) :
    keywords.lookup word = some k := by
  have hall : ∀ p ∈ keywords, keywords.lookup p.1 = some p.2 := by decide
  exact hall _ h

theorem toUpper_ofList (word : List Char) :
    toUpper (String.ofList word) = String.ofList (word.map Char.toUpper) := by
  rw [toUpper, String.toList_ofList]

theorem isAlpha_of_keyword {word : List Char} {k : Keyword}
    (h : (String.ofList (word.map Char.toUpper), k) ∈ keywords) :
    word ≠ [] ∧ ∀ c ∈ word, c.isAlpha = true := by
  have hall : ∀ p ∈ keywords, p.1.toList ≠ [] ∧ p.1.toList.all Char.isUpper = true := by decide
  obtain ⟨hne, hupper⟩ := hall _ h
  rw [String.toList_ofList] at hne hupper
  exact ⟨fun heq => hne (by rw [heq]; rfl), fun c hc =>
    isAlpha_of_toUpper (List.all_eq_true.mp hupper _ (List.mem_map_of_mem hc))⟩

/-! ### One token -/

/-- A character of a word starts no operator, no string and no whitespace. -/
theorem isWordChar_special {c d : Char} (h : isWordChar c = true) (hd : isWordChar d = false) :
    c ≠ d := by
  rintro rfl
  rw [h] at hd
  cases hd

theorem lookup_singleTokens {c : Char} (h : isWordChar c = true) :
    singleTokens.lookup c = none := by
  rw [List.lookup_eq_none_iff]
  intro p hp
  have hall : ∀ p ∈ singleTokens, isWordChar p.1 = false := by decide
  exact bne_iff_ne.mpr (isWordChar_special h (hall p hp))

theorem isSpace_of_isWordChar {c : Char} (h : isWordChar c = true) : isSpace c = false := by
  rw [Bool.eq_false_iff]
  intro hspace
  have hall : breakChars.all (!isWordChar ·) = true := by decide
  have hword := List.all_eq_true.mp hall c (mem_breakChars_of_isSpace hspace)
  rw [h] at hword
  cases hword

section

variable [NumberText]

theorem nextToken_gap {gap : List Char} (hgap : ∀ c ∈ gap, isSpace c = true) (rest : List Char) :
    nextToken (gap ++ rest) = nextToken rest := by
  have hskip : skipWhitespace (gap ++ rest) = skipWhitespace rest :=
    List.dropWhile_append_of_pos hgap
  rw [nextToken, hskip]
  rfl

theorem nextToken_word {c : Char} (hc : c.isAlpha ∨ c = '_') (cs : List Char) :
    nextToken (c :: cs) = .ok (wordToken (String.ofList ((c :: cs).takeWhile isWordChar)),
      (c :: cs).dropWhile isWordChar) := by
  have hword : isWordChar c = true := by
    obtain h | rfl := hc
    · exact isWordChar_of_isAlpha h
    · rfl
  have hdigit : c.isDigit = false := by
    obtain h | rfl := hc
    · exact isDigit_of_isAlpha h
    · rfl
  have hspace : skipWhitespace (c :: cs) = c :: cs := by
    simp [skipWhitespace, isSpace_of_isWordChar hword]
  have hlt := isWordChar_special hword (d := '<') rfl
  have hgt := isWordChar_special hword (d := '>') rfl
  have hbang := isWordChar_special hword (d := '!') rfl
  have hquote := isWordChar_special hword (d := '\'') rfl
  simp only [nextToken, hspace, lookup_singleTokens hword, if_neg hlt, if_neg hgt, if_neg hbang,
    if_neg hquote, hdigit]
  simp [hc]

theorem nextToken_digit {c : Char} (hc : c.isDigit = true) (cs : List Char) :
    nextToken (c :: cs) = scanNumber (c :: cs) := by
  have hword := isWordChar_of_isDigit hc
  have hspace : skipWhitespace (c :: cs) = c :: cs := by
    simp [skipWhitespace, isSpace_of_isWordChar hword]
  have hlt := isWordChar_special hword (d := '<') rfl
  have hgt := isWordChar_special hword (d := '>') rfl
  have hbang := isWordChar_special hword (d := '!') rfl
  have hquote := isWordChar_special hword (d := '\'') rfl
  simp only [nextToken, hspace, lookup_singleTokens hword, if_neg hlt, if_neg hgt, if_neg hbang,
    if_neg hquote, if_pos hc]

/-! ### The texts of a token -/

variable {tok : Token} {text rest : List Char}

/-- A word is read up to the first character that is none of a word. -/
theorem nextToken_spelled_word {c : Char} {cs : List Char} (hc : c.isAlpha ∨ c = '_')
    (hcs : ∀ d ∈ c :: cs, isWordChar d = true) (hrest : Breaks rest) :
    nextToken (c :: cs ++ rest) = .ok (wordToken (String.ofList (c :: cs)), rest) := by
  have hbreak : ∀ d ∈ rest.head?, isWordChar d = false := hrest.head_ne (by decide)
  rw [List.cons_append, nextToken_word hc, ← List.cons_append, takeWhile_append hcs hbreak,
    dropWhile_append hcs hbreak]

theorem nextToken_numeral {digits : List Char} (h : IsNumeral digits) (rest : List Char) :
    nextToken (digits ++ rest) = scanNumber (digits ++ rest) := by
  obtain ⟨hne, hdigits⟩ := h
  cases digits with
  | nil => exact absurd rfl hne
  | cons c cs => exact nextToken_digit (hdigits c List.mem_cons_self) (cs ++ rest)

theorem nextToken_integer {digits : List Char} (h : IsNumeral digits) (hrest : Breaks rest) :
    nextToken (digits ++ rest) = (do return (← integerToken digits, rest)) := by
  have hbreak : ∀ d ∈ rest.head?, d.isDigit = false := hrest.head_ne (by decide)
  have hdot : peek rest ≠ '.' := peek_of_breaks hrest (by decide) (by decide)
  rw [nextToken_numeral h, scanNumber, takeWhile_append h.2 hbreak, dropWhile_append h.2 hbreak,
    if_neg fun hpoint => hdot hpoint.1]

theorem nextToken_float {digits fraction : List Char} (h : IsNumeral digits)
    (hf : IsNumeral fraction) (hrest : Breaks rest) :
    nextToken (digits ++ '.' :: fraction ++ rest) =
      (do return (← floatToken (digits ++ '.' :: fraction), rest)) := by
  have hbreak : ∀ d ∈ rest.head?, d.isDigit = false := hrest.head_ne (by decide)
  have hpoint : ∀ d ∈ ('.' :: (fraction ++ rest)).head?, d.isDigit = false := by simp
  have hdigit : (peek (fraction ++ rest)).isDigit = true := by
    obtain ⟨hne, hdigits⟩ := hf
    cases fraction with
    | nil => exact absurd rfl hne
    | cons c cs => exact hdigits c List.mem_cons_self
  rw [List.append_assoc, List.cons_append, nextToken_numeral h, scanNumber,
    takeWhile_append h.2 hpoint, dropWhile_append h.2 hpoint, if_pos ⟨rfl, hdigit⟩,
    List.tail_cons, takeWhile_append hf.2 hbreak, dropWhile_append hf.2 hbreak]

theorem nextToken_string {cs : List Char} (h : '\'' ∉ cs) (rest : List Char) :
    nextToken ('\'' :: (cs ++ '\'' :: rest)) = .ok (.stringLit (String.ofList cs), rest) := by
  have hcs : ∀ c ∈ cs, (c != '\'') = true := fun c hc =>
    bne_iff_ne.mpr fun heq => h (heq ▸ hc)
  have hquote : ∀ c ∈ ('\'' :: rest).head?, (c != '\'') = false := by simp
  have hscan : nextToken ('\'' :: (cs ++ '\'' :: rest)) = scanString (cs ++ '\'' :: rest) := rfl
  rw [hscan, scanString, takeWhile_append hcs hquote, dropWhile_append hcs hquote]

/-- `<` and `>` are the symbols that another character could go on with. -/
theorem nextToken_symbol (h : (tok, text) ∈ symbols) (hrest : IsDelimiter tok ∨ Breaks rest) :
    nextToken (text ++ rest) = .ok (tok, rest) := by
  have hlt' : ¬ IsDelimiter .lt := by simp [IsDelimiter, delimiters]
  have hgt' : ¬ IsDelimiter .gt := by simp [IsDelimiter, delimiters]
  have hlt : Breaks rest → nextToken ('<' :: rest) = .ok (.lt, rest) := fun hbreak => by
    change (if peek rest = '=' then _ else if peek rest = '>' then _ else _) = _
    rw [if_neg (peek_of_breaks hbreak (by decide) (by decide)),
      if_neg (peek_of_breaks hbreak (by decide) (by decide))]
  have hgt : Breaks rest → nextToken ('>' :: rest) = .ok (.gt, rest) := fun hbreak => by
    change (if peek rest = '=' then _ else _) = _
    rw [if_neg (peek_of_breaks hbreak (by decide) (by decide))]
  simp only [symbols, List.mem_cons, Prod.mk.injEq, List.not_mem_nil, or_false] at h
  obtain ⟨rfl, rfl⟩ | ⟨rfl, rfl⟩ | ⟨rfl, rfl⟩ | ⟨rfl, rfl⟩ | ⟨rfl, rfl⟩ | ⟨rfl, rfl⟩ | ⟨rfl, rfl⟩ |
    ⟨rfl, rfl⟩ | ⟨rfl, rfl⟩ | ⟨rfl, rfl⟩ | ⟨rfl, rfl⟩ | ⟨rfl, rfl⟩ | ⟨rfl, rfl⟩ | ⟨rfl, rfl⟩ |
    ⟨rfl, rfl⟩ := h
  case inr.inr.inr.inl => exact hlt (hrest.resolve_left hlt')
  case inr.inr.inr.inr.inl => exact hgt (hrest.resolve_left hgt')
  all_goals rfl

/-- The text of a token, up to a character that ends it. -/
theorem nextToken_spelled (h : Spells tok text) (hrest : IsDelimiter tok ∨ Breaks rest) :
    nextToken (text ++ rest) = .ok (tok, rest) := by
  cases h with
  | keyword hword =>
    have hbreak := hrest.resolve_left (by simp [IsDelimiter, delimiters])
    obtain ⟨hne, halpha⟩ := isAlpha_of_keyword hword
    cases text with
    | nil => exact absurd rfl hne
    | cons c cs =>
      rw [nextToken_spelled_word (.inl (halpha c List.mem_cons_self))
        (fun d hd => isWordChar_of_isAlpha (halpha d hd)) hbreak, wordToken, toUpper_ofList,
        lookup_keywords hword]
  | @identifier c cs hc hcs hword =>
    have hbreak := hrest.resolve_left (by simp [IsDelimiter, delimiters])
    have hchars : ∀ d ∈ c :: cs, isWordChar d = true := by
      rintro d (_ | ⟨_, hd⟩)
      · obtain h | rfl := hc
        · exact isWordChar_of_isAlpha h
        · rfl
      · exact hcs d hd
    have hlookup : keywords.lookup (String.ofList ((c :: cs).map Char.toUpper)) = none := by
      rw [List.lookup_eq_none_iff]
      exact fun p hp => bne_iff_ne.mpr fun heq => hword (heq ▸ List.mem_map_of_mem hp)
    rw [nextToken_spelled_word hc hchars hbreak, wordToken, toUpper_ofList, hlookup]
  | integer hdigits hv =>
    have hbreak := hrest.resolve_left (by simp [IsDelimiter, delimiters])
    rw [nextToken_integer hdigits hbreak, integerToken, if_pos hv]
    rfl
  | float hdigits hf hx =>
    have hbreak := hrest.resolve_left (by simp [IsDelimiter, delimiters])
    rw [nextToken_float hdigits hf hbreak, floatToken, hx]
    rfl
  | @stringLit cs hcs =>
    have hstring := nextToken_string hcs rest
    rwa [List.cons_append, List.append_assoc]
  | symbol hsymbol => exact nextToken_symbol hsymbol hrest

/-! ### All tokens -/

theorem Spells.ne_eof (h : Spells tok text) : tok ≠ .eof := by
  cases h with
  | symbol hsymbol =>
    have hall : ∀ p ∈ symbols, p.1 ≠ .eof := by decide
    exact hall _ hsymbol
  | _ => exact fun heq => by cases heq

theorem Spells.text_ne_nil (h : Spells tok text) : text ≠ [] := by
  cases h with
  | keyword hword => exact (isAlpha_of_keyword hword).1
  | integer hdigits => exact hdigits.1
  | symbol hsymbol =>
    have hall : ∀ p ∈ symbols, p.2 ≠ [] := by decide
    exact hall _ hsymbol
  | _ => simp

/-- A delimiter breaks the token in front of it. -/
theorem Spells.breaks (h : Spells tok text) (htok : IsDelimiter tok) (rest : List Char) :
    Breaks (text ++ rest) := by
  cases h with
  | symbol hsymbol =>
    have hall : ∀ p ∈ symbols, p.1 ∈ delimiters.map Prod.fst →
        p.2 ≠ [] ∧ p.2.all (· ∈ breakChars) = true := by decide
    obtain ⟨hne, hchars⟩ := hall _ hsymbol htok
    cases text with
    | nil => exact absurd rfl hne
    | cons c cs =>
      rintro d ⟨⟩
      exact of_decide_eq_true (List.all_eq_true.mp hchars c List.mem_cons_self)
  | _ => exact absurd htok (by simp [IsDelimiter, delimiters])

/-- What follows a lexeme ends it. -/
theorem Lexeme.breaks {l : Lexeme} {ls : List Lexeme} {trailing : List Char}
    (h : (l :: ls).IsChain Lexeme.Apart) (htrailing : ∀ c ∈ trailing, isSpace c = true) :
    IsDelimiter l.token ∨ Breaks (ls.flatMap Lexeme.chars ++ trailing) := by
  cases ls with
  | nil =>
    right
    by_cases hne : trailing = []
    · rw [hne]
      rintro c ⟨⟩
    · rw [List.flatMap_nil, List.nil_append, ← List.append_nil trailing]
      exact breaks_space htrailing hne
  | cons l' ls =>
    simp only [List.flatMap_cons, Lexeme.chars, List.append_assoc]
    obtain hgap | hl | hl' := List.isChain_cons_cons.mp h |>.1
    · exact .inr (breaks_space l'.isSpace_gap hgap)
    · exact .inl hl
    · by_cases hgap : l'.gap = []
      · rw [hgap]
        exact .inr (l'.spells.breaks hl' _)
      · exact .inr (breaks_space l'.isSpace_gap hgap)

theorem tokenizeFrom_lexemes {ls : List Lexeme} {trailing : List Char}
    (h : ls.IsChain Lexeme.Apart) (htrailing : ∀ c ∈ trailing, isSpace c = true) {fuel : Nat}
    (hfuel : (ls.flatMap Lexeme.chars ++ trailing).length < fuel) :
    tokenizeFrom fuel (ls.flatMap Lexeme.chars ++ trailing) =
      .ok (ls.map Lexeme.token ++ [.eof]) := by
  induction ls generalizing fuel with
  | nil =>
    obtain ⟨fuel, rfl⟩ := Nat.exists_eq_succ_of_ne_zero (Nat.ne_zero_of_lt hfuel)
    have heof : nextToken trailing = .ok (.eof, []) := by
      have hgap := nextToken_gap htrailing []
      rwa [List.append_nil] at hgap
    rw [List.flatMap_nil, List.nil_append, tokenizeFrom, heof]
    rfl
  | cons l ls ih =>
    obtain ⟨fuel, rfl⟩ := Nat.exists_eq_succ_of_ne_zero (Nat.ne_zero_of_lt hfuel)
    have hpos := List.length_pos_iff.mpr l.spells.text_ne_nil
    have hlt : (ls.flatMap Lexeme.chars ++ trailing).length < fuel := by
      simp only [List.flatMap_cons, Lexeme.chars, List.length_append] at hfuel ⊢
      omega
    rw [List.flatMap_cons, Lexeme.chars, List.append_assoc, List.append_assoc, tokenizeFrom,
      nextToken_gap l.isSpace_gap, nextToken_spelled l.spells (Lexeme.breaks h htrailing),
      Except.ok_bind]
    dsimp only
    rw [if_neg l.spells.ne_eof, ih h.tail hlt]
    rfl

/-- `tokenize` returns the tokens that a text is written with. -/
theorem tokenize_lexemes (ls : List Lexeme) (trailing : List Char)
    (h : ls.IsChain Lexeme.Apart) (htrailing : ∀ c ∈ trailing, isSpace c = true) :
    tokenize (ls.flatMap Lexeme.chars ++ trailing) = .ok (ls.map Lexeme.token ++ [.eof]) :=
  tokenizeFrom_lexemes h htrailing (Nat.lt_succ_self _)

end

section

/-- `std::stod` of one text. -/
local instance oneNumber : NumberText :=
  ⟨fun _ _ => ['1', '.', '5'],
    fun text => if text = ['1', '.', '5'] then .ok (.fin false ((3 : ℕ) / (2 : ℕ)))
      else .error .invalidArgument⟩

/-- A text with a keyword in mixed case, and tokens in a row without whitespace. -/
def mixedCase : List Lexeme :=
  [⟨[], .keyword .select, "sElEcT".toList, by simp, .keyword (by decide)⟩,
    ⟨[' '], .identifier "a", ['a'], by simp [isSpace],
      .identifier (.inl rfl) (by simp) (by decide)⟩,
    ⟨[], .comma, [','], by simp, .symbol (by decide)⟩,
    ⟨[], .float (.fin false ((3 : ℕ) / (2 : ℕ))), "1.5".toList, by simp,
      .float (show IsNumeral ['1'] from ⟨by simp, by simp [Char.isDigit]⟩)
        (show IsNumeral ['5'] from ⟨by simp, by simp [Char.isDigit]⟩) rfl⟩,
    ⟨[' '], .neq, ['<', '>'], by simp [isSpace], .symbol (by decide)⟩,
    ⟨[' '], .stringLit "x y", "'x y'".toList, by simp [isSpace], .stringLit (by simp)⟩]

theorem tokenize_mixedCase :
    tokenize "sElEcT a,1.5 <> 'x y' ".toList =
      .ok [.keyword .select, .identifier "a", .comma, .float (.fin false (3 / 2)), .neq,
        .stringLit "x y", .eof] :=
  tokenize_lexemes mixedCase [' ']
    (by simp [mixedCase, Lexeme.Apart, IsDelimiter, delimiters]) (by simp [isSpace])

end

end SqlOptimizer.Lexer
