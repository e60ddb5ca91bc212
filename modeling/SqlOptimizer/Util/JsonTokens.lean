import SqlOptimizer.Library.Delimited
import SqlOptimizer.Library.JsonGrammar
import SqlOptimizer.Util.JsonRoundTrip
import Mathlib.Data.List.TakeWhile

/-! The tokens of the JSON parser against those of RFC 8259: every number and every string of the RFC
is one to the parser. -/

namespace SqlOptimizer

open JsonGrammar

/-! ### The next character -/

theorem cons_tail_of_peek {text : List Char} {c : Char} (h : peek text = c) (hc : c ≠ Char.ofNat 0) :
    c :: text.tail = text := by
  cases text with
  | nil => exact absurd h.symm hc
  | cons d text =>
    obtain rfl : d = c := h
    rfl

theorem peek_cons (c : Char) (rest : List Char) : peek (c :: rest) = c := rfl

theorem exists_cons_of_peek {text : List Char} {c : Char} (h : peek text = c)
    (hc : c ≠ Char.ofNat 0) : ∃ rest, text = c :: rest :=
  ⟨_, (cons_tail_of_peek h hc).symm⟩

/-! ### Strings -/

/-- What `parse_raw_string` reads up to the closing quote: any character after a backslash, and any
other character as itself. -/
inductive Unquoted : List Char → Prop
  | nil : Unquoted []
  | plain {c : Char} {s : List Char} (hq : c ≠ '"') (hb : c ≠ '\\') (h : Unquoted s) :
      Unquoted (c :: s)
  | escape (c : Char) {s : List Char} (h : Unquoted s) : Unquoted ('\\' :: c :: s)

theorem Unquoted.of_chars {s : List Char} (h : Chars s) : Unquoted s := by
  induction h with
  | nil => exact .nil
  | unescaped hcontrol hq hb h ih => exact .plain hq hb ih
  | escape hc h ih => exact .escape _ ih
  | unicode hhex h ih =>
    have hplain : ∀ {x : Char}, isHexDigit x = true → x ≠ '"' ∧ x ≠ '\\' := by
      rintro x hx
      constructor <;> rintro rfl <;> revert hx <;> decide
    simp only [List.mem_cons, List.not_mem_nil, or_false, forall_eq_or_imp, forall_eq] at hhex
    obtain ⟨ha, hb, hc, hd⟩ := hhex
    exact .escape 'u' (.plain (hplain ha).1 (hplain ha).2 (.plain (hplain hb).1 (hplain hb).2
      (.plain (hplain hc).1 (hplain hc).2 (.plain (hplain hd).1 (hplain hd).2 ih))))

theorem parseStringBody_of_unquoted {s : List Char} (h : Unquoted s) (rest : List Char) :
    ∃ t, parseStringBody (s ++ '"' :: rest) = .ok (t, rest) := by
  induction h with
  | nil => exact ⟨[], parseStringBody_quote rest⟩
  | plain hq hb h ih =>
    obtain ⟨t, ht⟩ := ih
    exact ⟨_, parseStringBody_plain hq hb ht⟩
  | escape c h ih =>
    obtain ⟨t, ht⟩ := ih
    exact ⟨_, parseStringBody_escape c ht⟩

theorem unquoted_of_parseStringBody {text t rest : List Char}
    (h : parseStringBody text = .ok (t, rest)) :
    ∃ s, Unquoted s ∧ text = s ++ '"' :: rest := by
  fun_induction parseStringBody text generalizing t rest with
  | case1 => cases h
  | case2 text =>
    cases h
    exact ⟨[], .nil, rfl⟩
  | case3 => cases h
  | case4 esc text hq ih =>
    obtain ⟨⟨t', rest'⟩, ht, h⟩ := Except.bind_eq_ok.mp h
    cases h
    obtain ⟨s, hs, rfl⟩ := ih ht
    exact ⟨_, hs.escape esc, rfl⟩
  | case5 c text hq hb ih =>
    obtain ⟨⟨t', rest'⟩, ht, h⟩ := Except.bind_eq_ok.mp h
    cases h
    obtain ⟨s, hs, rfl⟩ := ih ht
    exact ⟨_, hs.plain hq hb, rfl⟩

/-! ### Numbers -/

/-- A scanner splits its text. -/
def SplitsText (scan : List Char → List Char × List Char) : Prop :=
  ∀ text, (scan text).1 ++ (scan text).2 = text

theorem splits_scanSign : SplitsText scanSign := by
  intro text
  unfold scanSign
  split
  · next h => exact cons_tail_of_peek h (by decide)
  · rfl

theorem splits_scanFraction : SplitsText scanFraction := by
  intro text
  unfold scanFraction
  split
  · next h =>
    rw [List.cons_append, List.takeWhile_append_dropWhile]
    exact cons_tail_of_peek h (by decide)
  · rfl

theorem splits_scanExponentSign : SplitsText scanExponentSign := by
  intro text
  unfold scanExponentSign
  split
  · next h =>
    refine cons_tail_of_peek rfl ?_
    rcases h with h | h <;> rw [h] <;> decide
  · rfl

theorem splits_scanExponent : SplitsText scanExponent := by
  intro text
  unfold scanExponent
  split
  · next h =>
    have hsign := splits_scanExponentSign text.tail
    have hnul : peek text ≠ Char.ofNat 0 := by
      rcases h with h | h <;> rw [h] <;> decide
    dsimp only
    rw [List.cons_append, List.cons_append, List.append_assoc, List.takeWhile_append_dropWhile, hsign]
    exact cons_tail_of_peek rfl hnul
  · rfl

theorem splits_scanNumber : SplitsText scanNumber := by
  intro text
  unfold scanNumber
  simp only [List.append_assoc]
  rw [splits_scanExponent, splits_scanFraction, List.takeWhile_append_dropWhile, splits_scanSign]

theorem takeWhile_digits {ds rest : List Char} (h : ∀ c ∈ ds, c.isDigit = true)
    (hrest : (peek rest).isDigit = false) :
    (ds ++ rest).takeWhile Char.isDigit = ds ∧ (ds ++ rest).dropWhile Char.isDigit = rest := by
  have hhead : ∀ c ∈ rest.head?, c.isDigit = false := by
    cases rest with
    | nil => nofun
    | cons c rest =>
      rintro d ⟨⟩
      exact hrest
  exact ⟨Delimited.takeWhile_append h hhead, Delimited.dropWhile_append h hhead⟩

theorem scanExponentSign_fst (rest : List Char) : (scanExponentSign rest).1 = [] ∨
    (scanExponentSign rest).1 = ['+'] ∨ (scanExponentSign rest).1 = ['-'] := by
  unfold scanExponentSign
  split
  · next h => exact .inr (h.imp (congrArg ([·])) (congrArg ([·])))
  · exact .inl rfl

theorem scanExponentSign_of_sign {sign ds : List Char}
    (hsign : sign = [] ∨ sign = ['+'] ∨ sign = ['-']) (hds : ∀ c ∈ ds, c.isDigit = true) :
    scanExponentSign (sign ++ ds) = (sign, ds) := by
  rcases hsign with rfl | rfl | rfl
  · refine if_neg ?_
    cases ds with
    | nil => decide
    | cons d ds =>
      have hd := hds d List.mem_cons_self
      rintro (h | h) <;> obtain rfl := h <;> exact absurd hd (by decide)
  · rfl
  · rfl

/-! ### The pieces of a number -/

def fractionParts (rest : List Char) : Option (List Char) × List Char :=
  if peek rest = '.' then
    (some (rest.tail.takeWhile Char.isDigit), rest.tail.dropWhile Char.isDigit)
  else (none, rest)

def exponentParts (rest : List Char) : Option Exponent × List Char :=
  if peek rest = 'e' ∨ peek rest = 'E' then
    let (sign, digits) := scanExponentSign rest.tail
    (some ⟨peek rest, sign, digits.takeWhile Char.isDigit⟩, digits.dropWhile Char.isDigit)
  else (none, rest)

/-- The number at the front of a text, as far as it goes. -/
def numberParts (rest : List Char) : NumberParts × List Char :=
  let afterSign := (scanSign rest).2
  let (frac, afterFrac) := fractionParts (afterSign.dropWhile Char.isDigit)
  let (exp, afterExp) := exponentParts afterFrac
  (⟨decide (peek rest = '-'), afterSign.takeWhile Char.isDigit, frac, exp⟩, afterExp)

theorem scanSign_eq (rest : List Char) :
    (scanSign rest).1 = minusText (decide (peek rest = '-')) := by
  unfold scanSign minusText
  split <;> simp_all

theorem scanFraction_eq (rest : List Char) :
    scanFraction rest = (fracText (fractionParts rest).1, (fractionParts rest).2) := by
  unfold scanFraction fractionParts
  split <;> rfl

theorem scanExponent_eq (rest : List Char) :
    scanExponent rest = (expText (exponentParts rest).1, (exponentParts rest).2) := by
  unfold scanExponent exponentParts
  split <;> rfl

/-- The scanner takes the text of the pieces. -/
theorem scanNumber_eq (rest : List Char) :
    scanNumber rest = ((numberParts rest).1.text, (numberParts rest).2) := by
  simp only [scanNumber, numberParts, NumberParts.text, scanFraction_eq, scanExponent_eq, scanSign_eq]

theorem wellFormed_numberParts (rest : List Char) : (numberParts rest).1.WellFormed := by
  have hfrac : ∀ rest, ∀ ds ∈ (fractionParts rest).1, ∀ c ∈ ds, c.isDigit = true := by
    intro rest ds hds c hc
    unfold fractionParts at hds
    split at hds
    · cases hds
      exact List.mem_takeWhile_imp hc
    · cases hds
  have hexp : ∀ rest, ∀ e ∈ (exponentParts rest).1, (e.letter = 'e' ∨ e.letter = 'E') ∧
      (e.sign = [] ∨ e.sign = ['+'] ∨ e.sign = ['-']) ∧ ∀ c ∈ e.digits, c.isDigit = true := by
    intro rest e he
    unfold exponentParts at he
    split at he
    · next hletter =>
      obtain rfl := (Option.mem_some_iff.mp he).symm
      exact ⟨hletter, scanExponentSign_fst _, fun c hc => List.mem_takeWhile_imp hc⟩
    · cases he
  exact ⟨fun c hc => List.mem_takeWhile_imp hc, hfrac _, fun e he => (hexp _ e he).1,
    fun e he => (hexp _ e he).2.1, fun e he => (hexp _ e he).2.2⟩

theorem exponentParts_expText {exp : Option Exponent}
    (hletter : ∀ e ∈ exp, e.letter = 'e' ∨ e.letter = 'E')
    (hsign : ∀ e ∈ exp, e.sign = [] ∨ e.sign = ['+'] ∨ e.sign = ['-'])
    (hdigits : ∀ e ∈ exp, ∀ c ∈ e.digits, c.isDigit = true) :
    exponentParts (expText exp) = (exp, []) := by
  cases exp with
  | none => rfl
  | some e =>
    have hds := @takeWhile_digits e.digits [] (hdigits e rfl) rfl
    rw [List.append_nil] at hds
    rw [expText, exponentParts, peek_cons, if_pos (hletter e rfl), List.tail_cons,
      scanExponentSign_of_sign (hsign e rfl) (hdigits e rfl)]
    simp only [hds]

theorem peek_expText {exp : Option Exponent}
    (hletter : ∀ e ∈ exp, e.letter = 'e' ∨ e.letter = 'E') :
    (peek (expText exp)).isDigit = false ∧ peek (expText exp) ≠ '.' ∧ peek (expText exp) ≠ '-' := by
  cases exp with
  | none => decide
  | some e =>
    rw [expText, peek_cons]
    rcases hletter e rfl with h | h <;> rw [h] <;> decide

/-- The pieces of a number are read off its text. -/
theorem numberParts_text {p : NumberParts} (hp : p.WellFormed) : numberParts p.text = (p, []) := by
  obtain ⟨minus, int, frac, exp⟩ := p
  obtain ⟨hint, hfrac, hletter, hsign, hdigits⟩ := hp
  obtain ⟨hexpDigit, hexpPoint, hexpMinus⟩ := peek_expText hletter
  have hpoint : fractionParts (fracText frac ++ expText exp) = (frac, expText exp) := by
    cases frac with
    | none => exact if_neg hexpPoint
    | some ds =>
      obtain ⟨htake, hdrop⟩ := takeWhile_digits (hfrac ds rfl) hexpDigit
      rw [fracText, List.cons_append, fractionParts, peek_cons, if_pos rfl, List.tail_cons, htake,
        hdrop]
  have hrest : (peek (fracText frac ++ expText exp)).isDigit = false ∧
      peek (fracText frac ++ expText exp) ≠ '-' := by
    cases frac with
    | none => exact ⟨hexpDigit, hexpMinus⟩
    | some ds => exact ⟨rfl, show '.' ≠ '-' by decide⟩
  have hminus : peek (int ++ (fracText frac ++ expText exp)) ≠ '-' := by
    cases int with
    | nil => exact hrest.2
    | cons c int =>
      rintro rfl
      exact absurd (hint _ List.mem_cons_self) (by decide)
  have hscan : scanSign (minusText minus ++ (int ++ (fracText frac ++ expText exp))) =
        (minusText minus, int ++ (fracText frac ++ expText exp)) ∧
      decide (peek (minusText minus ++ (int ++ (fracText frac ++ expText exp))) = '-') = minus := by
    cases minus with
    | false => exact ⟨if_neg hminus, decide_eq_false hminus⟩
    | true => exact ⟨rfl, rfl⟩
  obtain ⟨htake, hdrop⟩ := takeWhile_digits hint hrest.1
  rw [NumberParts.text, List.append_assoc, List.append_assoc, numberParts]
  simp only [hscan.1, hscan.2, htake, hdrop, hpoint,
    exponentParts_expText hletter hsign hdigits]

theorem text_injective {p q : NumberParts} (hp : p.WellFormed) (hq : q.WellFormed)
    (h : p.text = q.text) : p = q := by
  have heq := numberParts_text hp
  rw [h, numberParts_text hq] at heq
  exact (congrArg Prod.fst heq).symm

/-- Every number of RFC 8259 is one to the scanner. -/
theorem scanNumber_of_number {n : List Char} (h : Number n) : scanNumber n = (n, []) := by
  obtain ⟨p, hp, -, rfl⟩ := NumberParts.exists_of_number h
  rw [scanNumber_eq, numberParts_text hp]

theorem number_ne_nil {n : List Char} (h : Number n) : n ≠ [] := by
  obtain ⟨hminus, hint, hfrac, hexp⟩ := h
  simp [(digits_of_intPart hint).1]

/-! ### The lexis -/

section

variable [NumberText]

/-- A number text of the parser, as far as it goes, that `std::stod` refuses. -/
def Refused (text : List Char) : Prop :=
  ∃ n rest e, scanNumber text = (n, rest) ∧ n ≠ [] ∧ NumberText.stod n = .error e

/-- The tokens of the parser.  A number goes as far as it can. -/
def scanned : Lexis where
  space := isSpace
  number text rest := ∃ n x, scanNumber text = (n, rest) ∧ n ≠ [] ∧ NumberText.stod n = .ok x
  body := Unquoted

end

/-! ### What `std::stod` refuses -/

section

-- whether the conversion reports a magnitude below the normal doubles, which its standard leaves to
-- the implementation
variable (underflow : ℚ≥0 → Bool)

/-- No digit in front of the exponent, or no double near enough. -/
def RefusedParts (p : NumberParts) : Prop :=
  p.mantissa = [] ∨ Binary64.Overflows p.magnitude ∨
    Binary64.Underflows p.magnitude ∧ underflow p.magnitude = true

instance (p : NumberParts) : Decidable (RefusedParts underflow p) :=
  inferInstanceAs (Decidable (_ ∨ _))

/-- `std::stod` on a number text.  A sign without digits, and an exponent without digits, are not
part of the number that it converts. -/
def stod (p : NumberParts) : Except StodError Binary64 :=
  if p.mantissa = [] then .error .invalidArgument
  else if RefusedParts underflow p then .error .outOfRange
  else .ok (.fin p.minus (Binary64.nearestDouble p.magnitude))

theorem stod_eq_error {p : NumberParts} :
    (∃ e, stod underflow p = .error e) ↔ RefusedParts underflow p := by
  unfold stod
  by_cases hdigits : p.mantissa = []
  · rw [if_pos hdigits]
    exact ⟨fun _ => .inl hdigits, fun _ => ⟨_, rfl⟩⟩
  · rw [if_neg hdigits]
    by_cases hrefused : RefusedParts underflow p
    · rw [if_pos hrefused]
      exact ⟨fun _ => hrefused, fun _ => ⟨_, rfl⟩⟩
    · rw [if_neg hrefused]
      exact ⟨nofun, fun h => absurd h hrefused⟩

theorem stod_eq_ok {p : NumberParts} :
    (∃ x, stod underflow p = .ok x) ↔ ¬ RefusedParts underflow p := by
  rw [← stod_eq_error]
  cases stod underflow p <;> simp

/-- The conversions of the parser, given what `%.17g` prints. -/
@[reducible] def stodText (print : Bool → ℚ≥0 → List Char) : NumberText where
  print := print
  stod n := stod underflow (numberParts n).1

/-- The tokens that the parser takes: any character after a backslash, any character but a quote as
itself, and numbers with empty runs of digits or with zeros in front. -/
def lenient : Lexis where
  space := isSpace
  number text rest := ∃ p, numberParts text = (p, rest) ∧ ¬ RefusedParts underflow p
  body := Unquoted

def RefusedNumber (text : List Char) : Prop :=
  ∃ p rest, numberParts text = (p, rest) ∧ p.text ≠ [] ∧ RefusedParts underflow p

variable (print : Bool → ℚ≥0 → List Char)

theorem stod_scanned (text : List Char) :
    (stodText underflow print).stod (numberParts text).1.text =
      stod underflow (numberParts text).1 := by
  show stod underflow (numberParts (numberParts text).1.text).1 = _
  rw [numberParts_text (wellFormed_numberParts text)]

theorem text_ne_nil {p : NumberParts} (h : p.mantissa ≠ []) : p.text ≠ [] := by
  intro htext
  simp only [NumberParts.text, List.append_eq_nil_iff] at htext
  obtain ⟨⟨⟨-, hint⟩, hfrac⟩, -⟩ := htext
  refine h ?_
  rw [NumberParts.mantissa, hint, NumberParts.fracDigits]
  cases hp : p.frac with
  | none => rfl
  | some ds =>
    rw [hp] at hfrac
    cases hfrac

theorem scanned_eq : @scanned (stodText underflow print) = lenient underflow := by
  have hnumber : ∀ text rest, (∃ n x, scanNumber text = (n, rest) ∧ n ≠ [] ∧
      (stodText underflow print).stod n = .ok x) ↔
      ∃ p, numberParts text = (p, rest) ∧ ¬ RefusedParts underflow p := by
    intro text rest
    constructor
    · rintro ⟨n, x, hscan, -, hx⟩
      rw [scanNumber_eq] at hscan
      cases hscan
      rw [stod_scanned] at hx
      exact ⟨_, rfl, (stod_eq_ok underflow).mp ⟨x, hx⟩⟩
    · rintro ⟨p, hp, hrefused⟩
      obtain ⟨x, hx⟩ := (stod_eq_ok underflow).mpr hrefused
      have hstod := stod_scanned underflow print text
      rw [hp] at hstod
      refine ⟨p.text, x, ?_, text_ne_nil fun h => hrefused (.inl h), hstod.trans hx⟩
      rw [scanNumber_eq, hp]
  unfold scanned lenient
  congr 1
  funext text rest
  exact propext (hnumber text rest)

theorem refused_eq : @Refused (stodText underflow print) = RefusedNumber underflow := by
  funext text
  refine propext ⟨?_, ?_⟩
  · rintro ⟨n, rest, e, hscan, hne, he⟩
    rw [scanNumber_eq] at hscan
    cases hscan
    rw [stod_scanned] at he
    exact ⟨_, _, rfl, hne, (stod_eq_error underflow).mp ⟨e, he⟩⟩
  · rintro ⟨p, rest, hp, hne, hrefused⟩
    obtain ⟨e, he⟩ := (stod_eq_error underflow).mpr hrefused
    have hstod := stod_scanned underflow print text
    rw [hp] at hstod
    refine ⟨p.text, rest, e, ?_, hne, hstod.trans he⟩
    rw [scanNumber_eq, hp]

end

end SqlOptimizer
