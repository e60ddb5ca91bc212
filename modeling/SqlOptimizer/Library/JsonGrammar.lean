import Mathlib.Data.NNRat.Floor

/-! The grammar of JSON texts over a choice of its tokens: which characters are white space, what is
a number and what may stand between two quotes.  A relation on `text` and `rest` says that `text`
starts with a phrase and goes on with `rest`. -/

namespace JsonGrammar

/-- The tokens in which dialects of JSON differ. -/
structure Lexis where
  space : Char → Bool
  number : List Char → List Char → Prop
  /-- the characters between the quotes of a string -/
  body : List Char → Prop

/-- White space. -/
def Blank (space : Char → Bool) (text : List Char) : Prop := ∀ c ∈ text, space c = true

inductive Quoted (body : List Char → Prop) : List Char → List Char → Prop
  | intro {s : List Char} (h : body s) (rest : List Char) :
      Quoted body ('"' :: (s ++ '"' :: rest)) rest

/-- The key of a member and its colon. -/
inductive Key (L : Lexis) : List Char → List Char → Prop
  | intro {a b text rest : List Char} (ha : Blank L.space a) (hb : Blank L.space b)
      (h : Quoted L.body text (b ++ ':' :: rest)) : Key L (a ++ text) rest

/-- The nonterminals that nest. -/
inductive Symbol where
  | value
  /-- a value between white space -/
  | padded
  | elements | members

inductive Derives (L : Lexis) : Symbol → List Char → List Char → Prop
  | nullName (rest : List Char) : Derives L .value ('n' :: 'u' :: 'l' :: 'l' :: rest) rest
  | trueName (rest : List Char) : Derives L .value ('t' :: 'r' :: 'u' :: 'e' :: rest) rest
  | falseName (rest : List Char) : Derives L .value ('f' :: 'a' :: 'l' :: 's' :: 'e' :: rest) rest
  | number {text rest : List Char} (h : L.number text rest) : Derives L .value text rest
  | string {text rest : List Char} (h : Quoted L.body text rest) : Derives L .value text rest
  | emptyArray {a : List Char} (ha : Blank L.space a) (rest : List Char) :
      Derives L .value ('[' :: (a ++ ']' :: rest)) rest
  | array {text rest : List Char} (h : Derives L .elements text (']' :: rest)) :
      Derives L .value ('[' :: text) rest
  | emptyObject {a : List Char} (ha : Blank L.space a) (rest : List Char) :
      Derives L .value ('{' :: (a ++ '}' :: rest)) rest
  | object {text rest : List Char} (h : Derives L .members text ('}' :: rest)) :
      Derives L .value ('{' :: text) rest
  | padded {a b text rest : List Char} (ha : Blank L.space a) (hb : Blank L.space b)
      (h : Derives L .value text (b ++ rest)) : Derives L .padded (a ++ text) rest
  | lastElement {text rest : List Char} (h : Derives L .padded text rest) :
      Derives L .elements text rest
  | nextElement {text more rest : List Char} (h : Derives L .padded text (',' :: more))
      (hs : Derives L .elements more rest) : Derives L .elements text rest
  | lastMember {text v rest : List Char} (hk : Key L text v) (h : Derives L .padded v rest) :
      Derives L .members text rest
  | nextMember {text v more rest : List Char} (hk : Key L text v)
      (h : Derives L .padded v (',' :: more)) (hs : Derives L .members more rest) :
      Derives L .members text rest

/-- A text that is one value between white space. -/
def Document (L : Lexis) (text : List Char) : Prop := Derives L .padded text []

/-- Read from the left, the text comes to a value that is `bad`. -/
inductive Stuck (L : Lexis) (bad : List Char → Prop) : Symbol → List Char → Prop
  | bad {text : List Char} (h : bad text) : Stuck L bad .value text
  | array {text : List Char} (h : Stuck L bad .elements text) : Stuck L bad .value ('[' :: text)
  | object {text : List Char} (h : Stuck L bad .members text) : Stuck L bad .value ('{' :: text)
  | padded {a text : List Char} (ha : Blank L.space a) (h : Stuck L bad .value text) :
      Stuck L bad .padded (a ++ text)
  | element {text : List Char} (h : Stuck L bad .padded text) : Stuck L bad .elements text
  | laterElement {text more : List Char} (h : Derives L .padded text (',' :: more))
      (hs : Stuck L bad .elements more) : Stuck L bad .elements text
  | member {text v : List Char} (hk : Key L text v) (h : Stuck L bad .padded v) :
      Stuck L bad .members text
  | laterMember {text v more : List Char} (hk : Key L text v)
      (h : Derives L .padded v (',' :: more)) (hs : Stuck L bad .members more) :
      Stuck L bad .members text

section

variable {L M : Lexis} {text rest : List Char} {symbol : Symbol}

/-! ### What follows a phrase -/

/-- What may follow a value: nothing, white space, or a separator. -/
def Follows (space : Char → Bool) (rest : List Char) : Prop :=
  ∀ c ∈ rest.head?, space c = true ∨ c = ',' ∨ c = ']' ∨ c = '}'

theorem Follows.nil (space : Char → Bool) : Follows space [] := nofun

theorem Follows.cons {space : Char → Bool} {c : Char} (h : c = ',' ∨ c = ']' ∨ c = '}')
    (rest : List Char) : Follows space (c :: rest) := by
  rintro d ⟨⟩
  exact .inr h

theorem Follows.blank_append {space : Char → Bool} {b : List Char} (hb : Blank space b)
    (h : Follows space rest) : Follows space (b ++ rest) := by
  cases b with
  | nil => exact h
  | cons c b =>
    rintro d ⟨⟩
    exact .inl (hb c List.mem_cons_self)

theorem Quoted.length_lt {body : List Char → Prop} (h : Quoted body text rest) :
    rest.length < text.length := by
  cases h
  simp only [List.length_cons, List.length_append]
  omega

theorem Key.length_lt (h : Key L text rest) : rest.length < text.length := by
  obtain ⟨ha, hb, h⟩ := h
  have hlt := h.length_lt
  simp only [List.length_cons, List.length_append] at hlt ⊢
  omega

/-- A phrase has a character, when a number has. -/
theorem Derives.length_lt (hnumber : ∀ {text rest}, L.number text rest → rest.length < text.length)
    (h : Derives L symbol text rest) : rest.length < text.length := by
  induction h with
  | nullName | trueName | falseName =>
    simp only [List.length_cons]
    omega
  | number h => exact hnumber h
  | string h => exact h.length_lt
  | emptyArray | emptyObject =>
    simp only [List.length_cons, List.length_append]
    omega
  | array h ih | object h ih | padded ha hb h ih =>
    simp only [List.length_cons, List.length_append] at ih ⊢
    omega
  | lastElement h ih => exact ih
  | nextElement h hs ih ihs =>
    rw [List.length_cons] at ih
    omega
  | lastMember hk h ih => exact Nat.lt_trans ih hk.length_lt
  | nextMember hk h hs ih ihs =>
    have hlt := hk.length_lt
    rw [List.length_cons] at ih
    omega

/-! ### White space around a phrase -/

theorem Blank.append {space : Char → Bool} {a b : List Char} (ha : Blank space a)
    (hb : Blank space b) : Blank space (a ++ b) := by
  intro c hc
  exact (List.mem_append.mp hc).elim (ha c) (hb c)

theorem Key.blank_append {a : List Char} (ha : Blank L.space a) (h : Key L text rest) :
    Key L (a ++ text) rest := by
  obtain ⟨ha', hb, h⟩ := h
  rw [← List.append_assoc]
  exact .intro (ha.append ha') hb h

theorem Derives.blank_append {a : List Char} (ha : Blank L.space a) (hsymbol : symbol ≠ .value)
    (h : Derives L symbol text rest) : Derives L symbol (a ++ text) rest := by
  induction h with
  | padded ha' hb h =>
    rw [← List.append_assoc]
    exact .padded (ha.append ha') hb h
  | lastElement h ih => exact .lastElement (ih nofun)
  | nextElement h hs ih => exact .nextElement (ih nofun) hs
  | lastMember hk h => exact .lastMember (hk.blank_append ha) h
  | nextMember hk h hs => exact .nextMember (hk.blank_append ha) h hs
  | _ => exact absurd rfl hsymbol

/-- White space after a phrase belongs to it as well. -/
theorem Derives.append_blank {b : List Char} (hb : Blank L.space b) (hsymbol : symbol ≠ .value)
    (h : Derives L symbol text (b ++ rest)) : Derives L symbol text rest := by
  generalize hr : b ++ rest = r at h
  induction h with
  | padded ha hb' h =>
    subst hr
    rw [← List.append_assoc] at h
    exact .padded ha (hb'.append hb) h
  | lastElement h ih => exact .lastElement (ih nofun hr)
  | nextElement h hs ih ihs => exact .nextElement h (ihs nofun hr)
  | lastMember hk h ih => exact .lastMember hk (ih nofun hr)
  | nextMember hk h hs ih ihs => exact .nextMember hk h (ihs nofun hr)
  | _ => exact absurd rfl hsymbol

theorem Stuck.blank_append {bad : List Char → Prop} {a : List Char} (ha : Blank L.space a)
    (hsymbol : symbol ≠ .value) (h : Stuck L bad symbol text) : Stuck L bad symbol (a ++ text) := by
  induction h with
  | padded ha' h =>
    rw [← List.append_assoc]
    exact .padded (ha.append ha') h
  | element h ih => exact .element (ih nofun)
  | laterElement h hs => exact .laterElement (h.blank_append ha nofun) hs
  | member hk h => exact .member (hk.blank_append ha) h
  | laterMember hk h hs => exact .laterMember (hk.blank_append ha) h hs
  | _ => exact absurd rfl hsymbol

/-! ### Two readings of one text -/

theorem Quoted.mono {body body' : List Char → Prop} (hbody : ∀ s, body s → body' s)
    (h : Quoted body text rest) : Quoted body' text rest := by
  obtain ⟨h, _⟩ := h
  exact .intro (hbody _ h) _

theorem Key.mono (hspace : ∀ c, L.space c = true → M.space c = true)
    (hbody : ∀ s, L.body s → M.body s) (h : Key L text rest) : Key M text rest := by
  obtain ⟨ha, hb, h⟩ := h
  exact .intro (fun c hc => hspace c (ha c hc)) (fun c hc => hspace c (hb c hc)) (h.mono hbody)

/-- A phrase of one lexis is one of another, unless the reading comes to a number that the other does
not have. -/
theorem Derives.or_stuck {bad : List Char → Prop}
    (hspace : ∀ c, L.space c = true → M.space c = true) (hbody : ∀ s, L.body s → M.body s)
    (hnumber : ∀ {text rest}, L.number text rest → Follows L.space rest →
      M.number text rest ∨ bad text)
    (h : Derives L symbol text rest) (hrest : Follows L.space rest) :
    Derives M symbol text rest ∨ Stuck M bad symbol text := by
  have hblank : ∀ {a : List Char}, Blank L.space a → Blank M.space a :=
    fun ha c hc => hspace c (ha c hc)
  induction h with
  | nullName rest => exact .inl (.nullName rest)
  | trueName rest => exact .inl (.trueName rest)
  | falseName rest => exact .inl (.falseName rest)
  | number h => exact (hnumber h hrest).imp .number .bad
  | string h => exact .inl (.string (h.mono hbody))
  | emptyArray ha rest => exact .inl (.emptyArray (hblank ha) rest)
  | array h ih => exact (ih (.cons (.inr (.inl rfl)) _)).imp .array .array
  | emptyObject ha rest => exact .inl (.emptyObject (hblank ha) rest)
  | object h ih => exact (ih (.cons (.inr (.inr rfl)) _)).imp .object .object
  | padded ha hb h ih =>
    exact (ih (hrest.blank_append hb)).imp (.padded (hblank ha) (hblank hb)) (.padded (hblank ha))
  | lastElement h ih => exact (ih hrest).imp .lastElement .element
  | nextElement h hs ih ihs =>
    rcases ih (.cons (.inl rfl) _) with h | h
    · exact (ihs hrest).imp (.nextElement h) (.laterElement h)
    · exact .inr (.element h)
  | lastMember hk h ih =>
    have hk := hk.mono hspace hbody
    exact (ih hrest).imp (.lastMember hk) (.member hk)
  | nextMember hk h hs ih ihs =>
    have hk := hk.mono hspace hbody
    rcases ih (.cons (.inl rfl) _) with h | h
    · exact (ihs hrest).imp (.nextMember hk h) (.laterMember hk h)
    · exact .inr (.member hk h)

end

/-! ### RFC 8259 -/

/-- One or more digits. -/
def Digits (ds : List Char) : Prop := ds ≠ [] ∧ ∀ c ∈ ds, c.isDigit = true

/-- `int`: no zero in front of other digits -/
def IntPart (ds : List Char) : Prop := ds = ['0'] ∨ Digits ds ∧ ds.head? ≠ some '0'

theorem digits_of_intPart {int : List Char} (h : IntPart int) : Digits int := by
  rcases h with rfl | ⟨h, -⟩
  · exact ⟨List.cons_ne_nil _ _, fun c hc => List.mem_singleton.mp hc ▸ rfl⟩
  · exact h

/-- `[ frac ]` -/
def FracPart (text : List Char) : Prop := text = [] ∨ ∃ ds, Digits ds ∧ text = '.' :: ds

/-- `[ exp ]` -/
def ExpPart (text : List Char) : Prop :=
  text = [] ∨ ∃ e sign ds, (e = 'e' ∨ e = 'E') ∧ (sign = [] ∨ sign = ['+'] ∨ sign = ['-']) ∧
    Digits ds ∧ text = e :: (sign ++ ds)

/-- `number = [ minus ] int [ frac ] [ exp ]` -/
inductive Number : List Char → Prop
  | intro {minus int frac exp : List Char} (hminus : minus = [] ∨ minus = ['-']) (hint : IntPart int)
      (hfrac : FracPart frac) (hexp : ExpPart exp) : Number (minus ++ int ++ frac ++ exp)

def isHexDigit (c : Char) : Bool :=
  c.isDigit || (('a' ≤ c && c ≤ 'f') || ('A' ≤ c && c ≤ 'F'))

/-- `*char`: no control character, and only the listed escapes -/
inductive Chars : List Char → Prop
  | nil : Chars []
  | unescaped {c : Char} {s : List Char} (hcontrol : 0x20 ≤ c.toNat) (hquote : c ≠ '"')
      (hbackslash : c ≠ '\\') (h : Chars s) : Chars (c :: s)
  | escape {c : Char} {s : List Char} (hc : c ∈ ['"', '\\', '/', 'b', 'f', 'n', 'r', 't'])
      (h : Chars s) : Chars ('\\' :: c :: s)
  | unicode {a b c d : Char} {s : List Char}
      (hhex : ∀ x ∈ [a, b, c, d], isHexDigit x = true) (h : Chars s) :
      Chars ('\\' :: 'u' :: a :: b :: c :: d :: s)

/-! ### The pieces of a number -/

structure Exponent where
  letter : Char
  sign : List Char
  digits : List Char

/-- A number token, any run of digits in which may be empty. -/
structure NumberParts where
  minus : Bool
  int : List Char
  /-- the digits after the point, when there is one -/
  frac : Option (List Char)
  exp : Option Exponent

def minusText (minus : Bool) : List Char := if minus then ['-'] else []

def fracText : Option (List Char) → List Char
  | none => []
  | some ds => '.' :: ds

def expText : Option Exponent → List Char
  | none => []
  | some e => e.letter :: (e.sign ++ e.digits)

namespace NumberParts

def text (p : NumberParts) : List Char :=
  minusText p.minus ++ p.int ++ fracText p.frac ++ expText p.exp

def fracDigits (p : NumberParts) : List Char := p.frac.getD []

/-- The digits before the exponent. -/
def mantissa (p : NumberParts) : List Char := p.int ++ p.fracDigits

def exponent (p : NumberParts) : Int :=
  match p.exp with
  | none => 0
  | some e =>
    let n : Int := Nat.ofDigitChars 10 e.digits 0
    if e.sign = ['-'] then -n else n

/-- The number without its sign.  A run without digits is zero. -/
def magnitude (p : NumberParts) : ℚ≥0 :=
  let e := p.exponent - p.fracDigits.length
  ((Nat.ofDigitChars 10 p.mantissa 0 * 10 ^ e.toNat : Nat) : ℚ≥0) /
    ((10 ^ (-e).toNat : Nat) : ℚ≥0)

structure WellFormed (p : NumberParts) : Prop where
  int : ∀ c ∈ p.int, c.isDigit = true
  frac : ∀ ds ∈ p.frac, ∀ c ∈ ds, c.isDigit = true
  letter : ∀ e ∈ p.exp, e.letter = 'e' ∨ e.letter = 'E'
  sign : ∀ e ∈ p.exp, e.sign = [] ∨ e.sign = ['+'] ∨ e.sign = ['-']
  exp : ∀ e ∈ p.exp, ∀ c ∈ e.digits, c.isDigit = true

/-- What RFC 8259 asks of the pieces: digits in each of them, and no zero in front of others. -/
structure Standard (p : NumberParts) : Prop where
  int : p.int ≠ []
  zero : p.int.head? = some '0' → p.int = ['0']
  frac : ∀ ds ∈ p.frac, ds ≠ []
  exp : ∀ e ∈ p.exp, e.digits ≠ []

variable {p : NumberParts}

theorem number_text (hp : p.WellFormed) (h : p.Standard) : Number p.text := by
  obtain ⟨minus, int, frac, exp⟩ := p
  refine .intro ?_ ?_ ?_ ?_
  · cases minus
    · exact .inl rfl
    · exact .inr rfl
  · by_cases hzero : int.head? = some '0'
    · exact .inl (h.zero hzero)
    · exact .inr ⟨⟨h.int, hp.int⟩, hzero⟩
  · cases frac with
    | none => exact .inl rfl
    | some ds => exact .inr ⟨ds, ⟨h.frac ds rfl, hp.frac ds rfl⟩, rfl⟩
  · cases exp with
    | none => exact .inl rfl
    | some e =>
      exact .inr ⟨e.letter, e.sign, e.digits, hp.letter e rfl, hp.sign e rfl,
        ⟨h.exp e rfl, hp.exp e rfl⟩, rfl⟩

theorem exists_frac {text : List Char} (h : FracPart text) :
    ∃ frac, fracText frac = text ∧ ∀ ds ∈ frac, Digits ds := by
  rcases h with rfl | ⟨ds, hds, rfl⟩
  · exact ⟨none, rfl, nofun⟩
  · exact ⟨some ds, rfl, fun _ h => Option.some.inj h ▸ hds⟩

theorem exists_exp {text : List Char} (h : ExpPart text) :
    ∃ exp : Option Exponent, expText exp = text ∧ ∀ e ∈ exp, (e.letter = 'e' ∨ e.letter = 'E') ∧
      (e.sign = [] ∨ e.sign = ['+'] ∨ e.sign = ['-']) ∧ Digits e.digits := by
  rcases h with rfl | ⟨letter, sign, ds, hletter, hsign, hds, rfl⟩
  · exact ⟨none, rfl, nofun⟩
  · exact ⟨some ⟨letter, sign, ds⟩, rfl, fun _ h => Option.some.inj h ▸ ⟨hletter, hsign, hds⟩⟩

theorem exists_of_number {n : List Char} (h : Number n) :
    ∃ p : NumberParts, p.WellFormed ∧ p.Standard ∧ p.text = n := by
  obtain ⟨hminus, hint, hfrac, hexp⟩ := h
  rename_i minus int frac exp
  obtain ⟨frac, rfl, hds⟩ := exists_frac hfrac
  obtain ⟨exp, rfl, he⟩ := exists_exp hexp
  obtain ⟨minus, rfl⟩ : ∃ b, minusText b = minus := by
    rcases hminus with rfl | rfl
    · exact ⟨false, rfl⟩
    · exact ⟨true, rfl⟩
  have hdigits := digits_of_intPart hint
  refine ⟨⟨minus, int, frac, exp⟩, ⟨hdigits.2, fun ds h => (hds ds h).2, fun e h => (he e h).1,
    fun e h => (he e h).2.1, fun e h => (he e h).2.2.2⟩, ⟨hdigits.1, fun hzero => ?_,
    fun ds h => (hds ds h).1, fun e h => (he e h).2.2.1⟩, rfl⟩
  exact hint.resolve_right fun h => h.2 hzero

end NumberParts

/-- The tokens of RFC 8259, with the given white space. -/
def rfc8259 (space : Char → Bool) : Lexis where
  space := space
  number text rest := ∃ n, Number n ∧ text = n ++ rest
  body := Chars

end JsonGrammar
