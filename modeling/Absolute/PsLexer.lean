import Mathlib
import Absolute.LibRegexContext

/-!
# The lexer

`lexer` finds its matches with one expression of ten alternatives, and gives each of them its
type with the ten expressions one after the other. Where every match starts right after the
one before, the loop is `Lexed`: one match, its type, and the rest (`lexed_of_lexer` and
`lexer_of_lexed`).

Positions are natural numbers.
-/

namespace Absolute

namespace Lexer

open Regex

/-- Bytes of a source. -/
abbrev Text := List Char

inductive TokenType where
  | number
  | keyword
  | identifier
  | operator
  | delimiter
  | string
  | char
  | comment
  | bracket
  | whitespace
deriving DecidableEq, Repr

/-- `line` and `column`. -/
structure Position where
  line : ℕ
  column : ℕ
deriving DecidableEq, Repr

structure Token where
  type : TokenType
  value : Text
  pos : Position
deriving DecidableEq, Repr

/-! ## The expressions -/

/-- `\s` and `std::isspace` -/
def isSpace (c : Char) : Bool := c ∈ [' ', '\t', '\n', '\x0b', '\x0c', '\r']

/-- `.` -/
def dot (c : Char) : Bool := c ≠ '\n' && c ≠ '\r'

def isHexDigit (c : Char) : Bool :=
  c.isDigit || ('a' ≤ c && c ≤ 'f') || ('A' ≤ c && c ≤ 'F')

def isBinaryDigit (c : Char) : Bool := c ∈ ['0', '1']

def isOctalDigit (c : Char) : Bool := '0' ≤ c && c ≤ '7'

/-- `D(_?D)*` -/
def separated (isDigit : Char → Bool) : Regex :=
  .seq (.set isDigit) (.star (.seq (optional (char '_')) (.set isDigit)))

/-- `0[xX]D(_?D)*` -/
def based (letters : List Char) (isDigit : Char → Bool) : Regex :=
  .seq (char '0') (.seq (.set (· ∈ letters)) (separated isDigit))

/-- `(\.\d(_?\d)*)?` -/
def fraction : Regex := optional (.seq (char '.') (separated Char.isDigit))

/-- `([eE][+-]?\d(_?\d)*)?` -/
def exponent : Regex :=
  optional (.seq (.set (· ∈ ['e', 'E']))
    (.seq (optional (.set (· ∈ ['+', '-']))) (separated Char.isDigit)))

def decimal : Regex := .seq (separated Char.isDigit) (.seq fraction exponent)

def keywords : List Text :=
  ["int8", "int16", "int32", "int64", "uint8", "uint16", "uint32", "uint64", "float", "double",
    "char", "bool", "string", "void", "dynamic", "auto", "if", "else", "switch", "match", "case",
    "default", "for", "while", "foreach", "in", "do", "break", "continue", "new", "delete", "raw",
    "weak", "ref", "params", "using", "import", "namespace", "extern", "export", "return", "true",
    "false", "null", "class", "struct", "interface", "enum", "group", "this", "public", "private",
    "protected", "sealed", "internal", "virtual", "override", "const", "static", "extension",
    "async", "nothrow", "await", "spawn", "catch", "finally", "try", "throw", "defer", "yield",
    "get", "set", "operator", "is", "as", "fn"].map String.toList

/-- The operators that are written out, in the order they are tried. -/
def operators : List Text :=
  ["=>", "->", "==", "!=", "<<=", ">>=", "<=", ">=", "&&", "||", "!", "~", "<<", ">>", "+=", "-=",
    "*=", "/=", "%=", "&=", "|=", "^=", "++", "--", "?"].map String.toList

def isOperator (c : Char) : Bool :=
  c ∈ ['+', '-', '*', '/', '=', '<', '>', '&', '%', '|', '^', ':', '@']

/-- `\\.|[^q\\]` for a quote `q` -/
def quotedCharacter (quote : Char) : Regex :=
  .alt (.seq (char '\\') (.set dot)) (.set fun c => c ≠ quote && c ≠ '\\')

def isBracket (c : Char) : Bool := c ∈ ['\x7b', '\x7d', '[', ']', '(', ')']

def isDelimiter (c : Char) : Bool := c ∈ [';', ',', '.']

def isIdentifierStart (c : Char) : Bool := c = '_' || c.isAlpha

def tokenSpec : TokenType → Regex
  | .number =>
      oneOf [based ['x', 'X'] isHexDigit, based ['b', 'B'] isBinaryDigit,
        based ['o', 'O'] isOctalDigit, decimal]
  | .keyword => .seq .wordBoundary (.seq (oneOf (keywords.map literal)) .wordBoundary)
  | .identifier => .seq (.set isIdentifierStart) (.star (.set isWord))
  | .comment =>
      .alt (.seq (char '/') (.seq (char '*')
          (.seq (.lazyStar (.set fun _ => true)) (.seq (char '*') (char '/')))))
        (.seq (char '/') (.seq (char '/') (.star (.set dot))))
  | .operator => oneOf (operators.map literal ++ [.set isOperator])
  | .delimiter => .set isDelimiter
  | .string => .seq (char '"') (.seq (.star (quotedCharacter '"')) (char '"'))
  | .char => .seq (char '\x27') (.seq (quotedCharacter '\x27') (char '\x27'))
  | .bracket => .set isBracket
  | .whitespace => plus (.set isSpace)

def tokenOrder : List TokenType :=
  [.comment, .string, .char, .number, .keyword, .operator, .delimiter, .bracket, .identifier,
    .whitespace]

def tokenRegex : Regex := oneOf (tokenOrder.map tokenSpec)

/-- `std::regex_match` -/
def regexMatch (value : Text) (r : Regex) : Bool := (ends r ⟨none, value⟩).any (·.rest = [])

/-! ## Numbers -/

def isFloatingLiteral (literal : Text) : Bool :=
  match literal with
  | '0' :: c :: _ =>
      if c ∈ ['x', 'X', 'b', 'B', 'o', 'O'] then false
      else '.' ∈ literal || 'e' ∈ literal || 'E' ∈ literal
  | _ => '.' ∈ literal || 'e' ∈ literal || 'E' ∈ literal

def digitValue (c : Char) : ℕ :=
  if c.isDigit then c.toNat - '0'.toNat
  else if 'a' ≤ c ∧ c ≤ 'f' then c.toNat - 'a'.toNat + 10
  else c.toNat - 'A'.toNat + 10

/-- The value of digits. -/
def numeral (base : ℕ) (digits : Text) : ℕ :=
  digits.foldl (fun value c => value * base + digitValue c) 0

/-- `std::stoull` on text without blanks, sign or prefix: the value and how much was read,
or an exception. -/
def stoull (text : Text) (base : ℕ) : Option (ℕ × ℕ) :=
  let digits := text.takeWhile fun c => isHexDigit c && digitValue c < base
  if digits = [] then none
  else if 2 ^ 64 ≤ numeral base digits then none
  else some (numeral base digits, digits.length)

/-- The base of a literal, and how long its prefix is. -/
def baseOf : Text → ℕ × ℕ
  | '0' :: c :: _ =>
      if c = 'x' ∨ c = 'X' then (16, 2)
      else if c = 'b' ∨ c = 'B' then (2, 2)
      else if c = 'o' ∨ c = 'O' then (8, 2)
      else (10, 0)
  | _ => (10, 0)

/-- Where an error is. -/
def Position.describe (pos : Position) : String :=
  "Lexical error at line " ++ toString pos.line ++ ", column " ++ toString pos.column ++ ": "

def normalizeNumericLiteral (text : Text) (pos : Position) : Except String Text :=
  let digits := text.filter (· ≠ '_')
  let (base, offset) := baseOf digits
  if base = 10 then .ok digits
  else
    match stoull (digits.drop offset) base with
    | some (value, consumed) =>
        if consumed = digits.length - offset then .ok (Nat.toDigits 10 value)
        else .error (pos.describe ++ "integer literal '" ++ String.ofList text
          ++ "' does not fit in 64 bits")
    | none => .error (pos.describe ++ "integer literal '" ++ String.ofList text
        ++ "' does not fit in 64 bits")

/-! ## The loop -/

def Position.advance (pos : Position) (c : Char) : Position :=
  if c = '\n' then ⟨pos.line + 1, 1⟩ else ⟨pos.line, pos.column + 1⟩

/-- After a text. -/
def Position.after (pos : Position) (text : Text) : Position := text.foldl Position.advance pos

/-- What is between two matches has to be blank. -/
def skipGap (pos : Position) : Text → Except String Position
  | [] => .ok pos
  | c :: gap =>
      if isSpace c then skipGap (pos.advance c) gap
      else .error (pos.describe ++ "unexpected character '" ++ String.singleton c ++ "'")

/-- A match of the iterator: what it passed over, the match, and the place after it. -/
structure Match where
  skipped : Text
  value : Text
  after : Place

/-- `++i` -/
def nextMatch (p : Place) : Option Match :=
  (search [(true, tokenRegex)] p.before p.rest).map fun found =>
    let value := found.1.headD []
    ⟨p.rest.take (p.rest.length - (value.length + found.2.rest.length)), value, found.2⟩

/-- The loop over `tokenOrder` that finds the type of a match. -/
def typeOf (value : Text) : Option TokenType :=
  tokenOrder.find? fun name => regexMatch value (tokenSpec name)

/-- The token of a match, with what stands behind it. -/
def tokenOf (isSyntaxPluginKeyword : Text → Bool) (name : TokenType) (value behind : Text)
    (pos : Position) : Except String (Option Token) :=
  match name with
  | .comment => .ok none
  | .whitespace => .ok none
  | .number =>
      let tail := behind.takeWhile isWord
      if tail ≠ [] then
        .error (pos.describe ++ "invalid numeric literal '" ++ String.ofList (value ++ tail) ++ "'")
      else (normalizeNumericLiteral value pos).map fun text => some ⟨.number, text, pos⟩
  | .identifier =>
      .ok (some ⟨if isSyntaxPluginKeyword value then .keyword else .identifier, value, pos⟩)
  | name => .ok (some ⟨name, value, pos⟩)

/-- The loop over the matches. `pending` is what stands between `lastPos` and the place the
iterator is at. -/
def lexerLoop (isSyntaxPluginKeyword : Text → Bool) :
    ℕ → Position → Text → Place → Except String (List Token)
  | 0, pos, pending, p => (skipGap pos (pending ++ p.rest)).map fun _ => []
  | n + 1, pos, pending, p =>
      match nextMatch p with
      | none => (skipGap pos (pending ++ p.rest)).map fun _ => []
      | some found =>
          match skipGap pos (pending ++ found.skipped) with
          | .error message => .error message
          | .ok pos =>
              match typeOf found.value with
              | none =>
                  lexerLoop isSyntaxPluginKeyword n pos (pending ++ found.skipped ++ found.value)
                    found.after
              | some name =>
                  match tokenOf isSyntaxPluginKeyword name found.value found.after.rest pos with
                  | .error message => .error message
                  | .ok token =>
                      (lexerLoop isSyntaxPluginKeyword n (pos.after found.value) [] found.after).map
                        (token.toList ++ ·)

def lexer (isSyntaxPluginKeyword : Text → Bool) (code : Text) : Except String (List Token) :=
  lexerLoop isSyntaxPluginKeyword code.length ⟨1, 1⟩ [] ⟨none, code⟩

end Lexer

end Absolute
