import SqlOptimizer.Parser.Ast
import SqlOptimizer.Util.Json

/-! `parser/token.hpp` and `parser/lexer.cpp`: the tokens of a SQL text.  A text is a list of
characters, one for each byte. -/

namespace SqlOptimizer

inductive Keyword where
  | select | fromKw | whereKw | join | inner | left | right | cross | onKw
  | and | or | not | asKw | order | byKw | group | limit | asc | desc | having
  | nullKw | trueKw | falseKw
  deriving DecidableEq

inductive Token where
  | keyword (k : Keyword)
  | identifier (s : String)
  | integer (v : Int64)
  | float (x : Binary64)
  | stringLit (s : String)
  | eq | neq | lt | gt | lte | gte | plus | minus | star | slash
  | comma | dot | lparen | rparen
  | eof
  deriving DecidableEq

namespace Lexer

/-- The keywords, in upper case. -/
def keywords : List (String × Keyword) :=
  [("SELECT", .select), ("FROM", .fromKw), ("WHERE", .whereKw), ("JOIN", .join), ("INNER", .inner),
    ("LEFT", .left), ("RIGHT", .right), ("CROSS", .cross), ("ON", .onKw), ("AND", .and),
    ("OR", .or), ("NOT", .not), ("AS", .asKw), ("ORDER", .order), ("BY", .byKw), ("GROUP", .group),
    ("LIMIT", .limit), ("ASC", .asc), ("DESC", .desc), ("HAVING", .having), ("NULL", .nullKw),
    ("TRUE", .trueKw), ("FALSE", .falseKw)]

/-- The token of a word: a keyword in any case, or an identifier. -/
def wordToken (word : String) : Token :=
  match keywords.lookup (toUpper word) with
  | some k => .keyword k
  | none => .identifier word

/-- The tokens of one character that no other token starts with. -/
def singleTokens : List (Char × Token) :=
  [(',', .comma), ('.', .dot), ('(', .lparen), (')', .rparen), ('+', .plus), ('-', .minus),
    ('*', .star), ('/', .slash), ('=', .eq)]

/-- A string literal after its opening quote. -/
def scanString (input : List Char) : Except String (Token × List Char) :=
  match input.dropWhile (· != '\'') with
  | [] => .error "unterminated string literal"
  | _ :: rest => .ok (.stringLit (String.ofList (input.takeWhile (· != '\''))), rest)

/-- `std::stoll` of digits. -/
def integerToken (digits : List Char) : Except String Token :=
  if Nat.ofDigitChars 10 digits 0 < 2 ^ 63 then
    .ok (.integer (Int64.ofNat (Nat.ofDigitChars 10 digits 0)))
  else .error "invalid integer"

section

variable [NumberText]

def floatToken (text : List Char) : Except String Token :=
  match NumberText.stod text with
  | .ok x => .ok (.float x)
  | .error _ => .error "invalid float"

/-- A number: a fraction follows when there is a digit after the dot. -/
def scanNumber (input : List Char) : Except String (Token × List Char) :=
  let digits := input.takeWhile Char.isDigit
  let rest := input.dropWhile Char.isDigit
  if peek rest = '.' ∧ (peek rest.tail).isDigit then do
    return (← floatToken (digits ++ '.' :: rest.tail.takeWhile Char.isDigit),
      rest.tail.dropWhile Char.isDigit)
  else do return (← integerToken digits, rest)

def isWordChar (c : Char) : Bool := c.isAlphanum || c = '_'

/-- `next_token` -/
def nextToken (input : List Char) : Except String (Token × List Char) :=
  match skipWhitespace input with
  | [] => .ok (.eof, [])
  | ch :: rest =>
    match singleTokens.lookup ch with
    | some tok => .ok (tok, rest)
    | none =>
      if ch = '<' then
        if peek rest = '=' then .ok (.lte, rest.tail)
        else if peek rest = '>' then .ok (.neq, rest.tail)
        else .ok (.lt, rest)
      else if ch = '>' then
        if peek rest = '=' then .ok (.gte, rest.tail) else .ok (.gt, rest)
      else if ch = '!' then
        if peek rest = '=' then .ok (.neq, rest.tail) else .error "expected '=' after '!'"
      else if ch = '\'' then scanString rest
      else if ch.isDigit then scanNumber (ch :: rest)
      else if ch.isAlpha || ch = '_' then
        .ok (wordToken (String.ofList ((ch :: rest).takeWhile isWordChar)),
          (ch :: rest).dropWhile isWordChar)
      else .error ("unexpected character: '" ++ String.singleton ch ++ "'")

/-- The loop of `tokenize`; every token but the last takes a character. -/
def tokenizeFrom : Nat → List Char → Except String (List Token)
  | 0, _ => .error "lexer: out of fuel"
  | fuel + 1, input => do
    let (tok, rest) ← nextToken input
    if tok = .eof then return [.eof] else return tok :: (← tokenizeFrom fuel rest)

def tokenize (input : List Char) : Except String (List Token) :=
  tokenizeFrom (input.length + 1) input

end

end Lexer

end SqlOptimizer
