import SqlOptimizer.Library.Failure
import SqlOptimizer.Library.Binary64

/-! `util/json.cpp`: JSON values, their text, and the parser.  Texts are lists of characters, one for
each byte. -/

namespace SqlOptimizer

/-- The exceptions of `std::stod`: no number, and a number out of range. -/
inductive StodError where
  | invalidArgument | outOfRange

/-- What `snprintf` prints for a finite double under `%.17g`, and what `std::stod` makes of a
text. -/
class NumberText where
  print : Bool → ℚ≥0 → List Char
  stod : List Char → Except StodError Binary64

/-- The exceptions that leave `parse_json`: its own, each a `std::runtime_error`, and those of
`std::stod`. -/
inductive JsonError where
  | runtimeError (what : String)
  | stod (e : StodError)

/-- `what()` -/
def JsonError.what : JsonError → String
  | runtimeError what => what
  | stod _ => "stod"

inductive JsonValue where
  | null
  | bool (b : Bool)
  | number (x : Binary64)
  | string (s : String)
  | array (elements : List JsonValue)
  /-- the entries of a `JsonObject`, in insertion order -/
  | object (entries : List (String × JsonValue))

namespace JsonValue

/-- `JsonObject::operator[]` with an assignment. -/
def setEntry (entries : List (String × JsonValue)) (key : String) (v : JsonValue) :
    List (String × JsonValue) :=
  if entries.any (·.1 == key) then entries.map fun e => if e.1 == key then (key, v) else e
  else entries ++ [(key, v)]

def find (j : JsonValue) (key : String) : Option JsonValue :=
  match j with
  | .object entries => (entries.find? (·.1 == key)).map (·.2)
  | _ => none

def asNumber : JsonValue → Binary64
  | .number x => x
  | _ => Binary64.zero

def asString : JsonValue → String
  | .string s => s
  | _ => ""

def asBool : JsonValue → Bool
  | .bool b => b
  | _ => false

mutual

/-- The number of nested calls that read a value, more than its depth. -/
def calls : JsonValue → Nat
  | .array elements => callsElements elements + 1
  | .object entries => callsEntries entries + 1
  | _ => 1

def callsElements : List JsonValue → Nat
  | [] => 0
  | v :: vs => max v.calls (callsElements vs) + 1

def callsEntries : List (String × JsonValue) → Nat
  | [] => 0
  | (_, v) :: es => max v.calls (callsEntries es) + 1

end

theorem calls_pos (v : JsonValue) : 0 < v.calls := by
  cases v <;> simp [calls]

theorem calls_lt_of_mem_elements {vs : List JsonValue} {v : JsonValue} (h : v ∈ vs) :
    v.calls < (array vs).calls := by
  induction vs with
  | nil => cases h
  | cons w vs ih =>
    simp only [calls, callsElements] at ih ⊢
    rcases List.mem_cons.mp h with rfl | h
    · omega
    · have hlt := ih h
      omega

theorem calls_lt_of_mem_entries {es : List (String × JsonValue)} {e : String × JsonValue}
    (h : e ∈ es) : e.2.calls < (object es).calls := by
  induction es with
  | nil => cases h
  | cons e' es ih =>
    simp only [calls, callsEntries] at ih ⊢
    rcases List.mem_cons.mp h with rfl | h
    · omega
    · have hlt := ih h
      omega

end JsonValue

/-! ### Writing -/

/-- What `write_escaped_string` prints for a byte. -/
def escapedChar (c : Char) : List Char :=
  if c = '"' then ['\\', '"']
  else if c = '\\' then ['\\', '\\']
  else if c = '\n' then ['\\', 'n']
  else if c = '\t' then ['\\', 't']
  else if c = '\r' then ['\\', 'r']
  else if c.toNat < 0x20 then
    ['\\', 'u', '0', '0', Nat.digitChar (c.toNat / 16), Nat.digitChar (c.toNat % 16)]
  else [c]

def escapedString (s : String) : List Char := '"' :: s.toList.flatMap escapedChar ++ ['"']

section

variable [NumberText]

/-- The text of a number. -/
def numberText : Binary64 → List Char
  | .nan => ['n', 'a', 'n']
  | .inf neg => Binary64.signText neg ++ ['i', 'n', 'f']
  | .fin neg mag => NumberText.print neg mag

/-- The separator before an element or an entry. -/
def comma (first : Bool) : List Char := if first then [] else [',']

mutual

/-- `write_json` -/
def writeJson : JsonValue → List Char
  | .null => ['n', 'u', 'l', 'l']
  | .bool b => if b then ['t', 'r', 'u', 'e'] else ['f', 'a', 'l', 's', 'e']
  | .number x => numberText x
  | .string s => escapedString s
  | .array elements => '[' :: writeElements true elements ++ [']']
  | .object entries => '{' :: writeEntries true entries ++ ['}']

def writeElements (first : Bool) : List JsonValue → List Char
  | [] => []
  | v :: vs => comma first ++ writeJson v ++ writeElements false vs

def writeEntries (first : Bool) : List (String × JsonValue) → List Char
  | [] => []
  | (key, v) :: es =>
    comma first ++ escapedString key ++ ':' :: writeJson v ++ writeEntries false es

end

end

/-! ### Parsing

The parser keeps the rest of the text; a position is its distance from the end. -/

/-- `peek`, a NUL at the end. -/
def peek (rest : List Char) : Char := rest.headD (Char.ofNat 0)

def isSpace (c : Char) : Bool := c = ' ' || (9 ≤ c.toNat && c.toNat ≤ 13)

def skipWhitespace (rest : List Char) : List Char := rest.dropWhile isSpace

/-- What an escape sequence stands for.  Those that are not listed stand for their letter. -/
def unescaped (esc : Char) : Char :=
  if esc = 'n' then '\n' else if esc = 't' then '\t' else esc

/-- The loop of `parse_raw_string`. -/
def parseStringBody : List Char → Except JsonError (List Char × List Char)
  | [] => .error (.runtimeError "json: unterminated string")
  | c :: rest =>
    if c = '"' then .ok ([], rest)
    else if c = '\\' then
      match rest with
      | [] => .error (.runtimeError "json: unterminated string")
      | esc :: rest => do
        let (s, rest) ← parseStringBody rest
        return (unescaped esc :: s, rest)
    else do
      let (s, rest) ← parseStringBody rest
      return (c :: s, rest)

/-- An optional sign, an optional fraction and an optional exponent around digits. -/
def scanSign (rest : List Char) : List Char × List Char :=
  if peek rest = '-' then (['-'], rest.tail) else ([], rest)

def scanFraction (rest : List Char) : List Char × List Char :=
  if peek rest = '.' then
    ('.' :: rest.tail.takeWhile Char.isDigit, rest.tail.dropWhile Char.isDigit)
  else ([], rest)

def scanExponentSign (rest : List Char) : List Char × List Char :=
  if peek rest = '+' ∨ peek rest = '-' then ([peek rest], rest.tail) else ([], rest)

def scanExponent (rest : List Char) : List Char × List Char :=
  if peek rest = 'e' ∨ peek rest = 'E' then
    let (sign, digits) := scanExponentSign rest.tail
    (peek rest :: sign ++ digits.takeWhile Char.isDigit, digits.dropWhile Char.isDigit)
  else ([], rest)

/-- The text of a number and the rest. -/
def scanNumber (rest : List Char) : List Char × List Char :=
  let (sign, rest) := scanSign rest
  let digits := rest.takeWhile Char.isDigit
  let (fraction, rest) := scanFraction (rest.dropWhile Char.isDigit)
  let (exponent, rest) := scanExponent rest
  (sign ++ digits ++ fraction ++ exponent, rest)

section

-- the length of the text
variable (size : Nat)

def position (rest : List Char) : String := toString (size - rest.length)

def expect (c : Char) (rest : List Char) : Except JsonError (List Char) :=
  if peek rest = c then .ok rest.tail
  else .error (.runtimeError
    ("json: expected '" ++ String.singleton c ++ "' at position " ++ position size rest))

def parseRawString (rest : List Char) : Except JsonError (String × List Char) := do
  let rest ← expect size '"' rest
  let (s, rest) ← parseStringBody rest
  return (String.ofList s, rest)

def parseBool (rest : List Char) : Except JsonError (JsonValue × List Char) :=
  if ['t', 'r', 'u', 'e'].isPrefixOf rest then .ok (.bool true, rest.drop 4)
  else if ['f', 'a', 'l', 's', 'e'].isPrefixOf rest then .ok (.bool false, rest.drop 5)
  else .error (.runtimeError ("json: invalid literal at position " ++ position size rest))

def parseNull (rest : List Char) : Except JsonError (JsonValue × List Char) :=
  if ['n', 'u', 'l', 'l'].isPrefixOf rest then .ok (.null, rest.drop 4)
  else .error (.runtimeError ("json: invalid literal at position " ++ position size rest))

variable [NumberText]

def parseNumber (rest : List Char) : Except JsonError (JsonValue × List Char) := do
  let (text, rest') := scanNumber rest
  if text = [] then
    .error (.runtimeError ("json: invalid number at position " ++ position size rest))
  else return (.number (← (NumberText.stod text).mapError .stod), rest')

mutual

/-- `parse_value`.  The fuel decreases with every call; it bounds twice the characters left. -/
def parseValue : Nat → List Char → Except JsonError (JsonValue × List Char)
  | 0, _ => .error (.runtimeError "json: out of fuel")
  | fuel + 1, rest =>
    let rest := skipWhitespace rest
    if peek rest = '{' then do
      let rest := skipWhitespace (← expect size '{' rest)
      if peek rest = '}' then return (.object [], rest.tail)
      else
        let (entries, rest) ← parseEntries fuel [] rest
        return (.object entries, ← expect size '}' (skipWhitespace rest))
    else if peek rest = '[' then do
      let rest := skipWhitespace (← expect size '[' rest)
      if peek rest = ']' then return (.array [], rest.tail)
      else
        let (elements, rest) ← parseElements fuel rest
        return (.array elements, ← expect size ']' (skipWhitespace rest))
    else if peek rest = '"' then do
      let (s, rest) ← parseRawString size rest
      return (.string s, rest)
    else if peek rest = 't' ∨ peek rest = 'f' then parseBool size rest
    else if peek rest = 'n' then parseNull size rest
    else parseNumber size rest

/-- The loop of `parse_object`. -/
def parseEntries : Nat → List (String × JsonValue) → List Char →
    Except JsonError (List (String × JsonValue) × List Char)
  | 0, _, _ => .error (.runtimeError "json: out of fuel")
  | fuel + 1, entries, rest => do
    let (key, rest) ← parseRawString size (skipWhitespace rest)
    let rest ← expect size ':' (skipWhitespace rest)
    let (v, rest) ← parseValue fuel rest
    let entries := JsonValue.setEntry entries key v
    let rest := skipWhitespace rest
    if peek rest = ',' then parseEntries fuel entries rest.tail else return (entries, rest)

/-- The loop of `parse_array`. -/
def parseElements : Nat → List Char → Except JsonError (List JsonValue × List Char)
  | 0, _ => .error (.runtimeError "json: out of fuel")
  | fuel + 1, rest => do
    let (v, rest) ← parseValue fuel rest
    let rest := skipWhitespace rest
    if peek rest = ',' then
      let (vs, rest) ← parseElements fuel (skipWhitespace rest.tail)
      return (v :: vs, rest)
    else return ([v], rest)

end

end

/-- `parse_json`.  Text after the value is ignored. -/
def parseJson [NumberText] (text : List Char) : Except JsonError JsonValue := do
  return (← parseValue text.length (2 * text.length + 2) text).1

end SqlOptimizer
