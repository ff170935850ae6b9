import Absolute.LibBinary64
import Mathlib.Data.Nat.Digits.Defs

/-!
# The JSON parser and printer of the runtime

`JsonParser`, `stringifyHelper` and the two functions over them that the library calls.
A text is its bytes. The position of the parser is the part of the text that is left, and
a routine that returns no node returns the text of its error.

The nesting of `parseValue` and the rounds of the loops of `parseArray` and
`parseObject` are bounded by the length of the text that is left: each takes a byte of it,
so that at the bound no text is left and the error is the one the source reports there.
-/

namespace Absolute

namespace Json

abbrev Text := List UInt8

/-- A character of the source. -/
abbrev byte (c : Char) : UInt8 := UInt8.ofNat c.toNat

def bytes (s : String) : Text := s.toList.map byte

/-- What a `const char*` denotes: the bytes before the first NUL. -/
def cString (t : Text) : Text := t.takeWhile (· ≠ 0)

/-! ## Nodes -/

/-- `AbsoluteJsonNode`. The properties of an object are in the order of their keys. -/
inductive Node where
  | null
  | bool (boolValue : Bool)
  | number (numberValue : Binary64)
  | string (stringValue : Text)
  | array (arrayElements : List Node)
  | object (objectProperties : List (Text × Node))

/-- `objectProperties[key] = value` -/
def assign {α : Type*} (key : Text) (value : α) : List (Text × α) → List (Text × α)
  | [] => [(key, value)]
  | (k, v) :: rest =>
    if key < k then (key, value) :: (k, v) :: rest
    else if key = k then (key, value) :: rest
    else (k, v) :: assign key value rest

/-- The keys of a map are in their order. -/
def Sorted {α : Type*} (l : List (Text × α)) : Prop := (l.map Prod.fst).Pairwise (· < ·)

theorem lt_of_not_lt {key k : Text} (hlt : ¬key < k) (hne : key ≠ k) : k < key :=
  (List.le_iff_lt_or_eq.mp (List.not_lt.mp hlt)).resolve_right hne.symm

theorem key_of_mem_assign {α : Type*} {key : Text} {value : α} {l : List (Text × α)}
    {p : Text × α} (hp : p ∈ assign key value l) : p.1 = key ∨ p ∈ l := by
  induction l with
  | nil => exact .inl (congrArg Prod.fst (List.mem_singleton.mp hp))
  | cons q l ih =>
    rw [assign] at hp
    split_ifs at hp with hlt heq
    · exact (List.mem_cons.mp hp).imp_left fun h => congrArg Prod.fst h
    · exact (List.mem_cons.mp hp).imp (fun h => congrArg Prod.fst h) (List.mem_cons_of_mem _)
    · rcases List.mem_cons.mp hp with rfl | hp
      · exact .inr List.mem_cons_self
      · exact (ih hp).imp_right (List.mem_cons_of_mem _)

theorem sorted_cons {α : Type*} {p : Text × α} {l : List (Text × α)} :
    Sorted (p :: l) ↔ (∀ q ∈ l, p.1 < q.1) ∧ Sorted l := by
  simp [Sorted]

theorem sorted_assign {α : Type*} (key : Text) (value : α) {l : List (Text × α)}
    (h : Sorted l) : Sorted (assign key value l) := by
  induction l with
  | nil => exact List.pairwise_singleton _ _
  | cons q l ih =>
    obtain ⟨hq, hl⟩ := sorted_cons.mp h
    rw [assign]
    split_ifs with hlt heq
    · refine sorted_cons.mpr ⟨List.forall_mem_cons.mpr ⟨hlt, fun q' hq' => ?_⟩, h⟩
      exact List.lt_trans hlt (hq q' hq')
    · exact sorted_cons.mpr ⟨fun q' hq' => heq ▸ hq q' hq', hl⟩
    · refine sorted_cons.mpr ⟨fun q' hq' => ?_, ih hl⟩
      rcases key_of_mem_assign hq' with heq' | hmem
      · exact heq' ▸ lt_of_not_lt hlt heq
      · exact hq q' hmem

/-! ## Errors -/

inductive ParseError where
  | emptyText
  | unexpectedEnd
  | unexpectedCharacter (c : UInt8)
  | expectedNull
  | expectedBoolean
  | invalidNumber
  | noQuote
  | unterminatedEscape
  | incompleteUnicode
  | invalidUnicode
  | unterminatedString
  | expectedCommaOrBracket
  | unterminatedArray
  | expectedKey
  | expectedColon
  | expectedCommaOrBrace
  | unterminatedObject

/-- What `absolute_json_get_last_error` returns after it. -/
def ParseError.text : ParseError → Text
  | .emptyText => bytes "Empty JSON text"
  | .unexpectedEnd => bytes "Unexpected end of JSON input"
  | .unexpectedCharacter c => bytes "Unexpected character '" ++ c :: bytes "' in JSON"
  | .expectedNull => bytes "Expected 'null'"
  | .expectedBoolean => bytes "Expected boolean 'true' or 'false'"
  | .invalidNumber => bytes "Invalid number"
  | .noQuote => []
  | .unterminatedEscape => bytes "Unterminated escape sequence in string"
  | .incompleteUnicode => bytes "Incomplete \\uXXXX escape"
  | .invalidUnicode => bytes "Invalid \\uXXXX escape"
  | .unterminatedString => bytes "Unterminated string literal"
  | .expectedCommaOrBracket => bytes "Expected ',' or ']' in array"
  | .unterminatedArray => bytes "Unterminated array"
  | .expectedKey => bytes "Expected property key string"
  | .expectedColon => bytes "Expected ':' after property key"
  | .expectedCommaOrBrace => bytes "Expected ',' or '\x7d' in object"
  | .unterminatedObject => bytes "Unterminated object"

/-- A result and the text that is left after it. -/
abbrev Parsed (α : Type) := Except ParseError (α × Text)

/-! ## Characters -/

def isWhitespace (c : UInt8) : Bool :=
  c = byte ' ' || c = byte '\t' || c = byte '\r' || c = byte '\n'

def isdigit (c : UInt8) : Bool := byte '0' ≤ c && c ≤ byte '9'

def isHex (c : UInt8) : Bool :=
  isdigit c || (byte 'a' ≤ c && c ≤ byte 'f') || (byte 'A' ≤ c && c ≤ byte 'F')

def hexValue (c : UInt8) : ℕ :=
  if isdigit c then c.toNat - '0'.toNat
  else if byte 'a' ≤ c then c.toNat - 'a'.toNat + 10
  else c.toNat - 'A'.toNat + 10

/-- `strtoul` to the base 16, of hexadecimal digits. -/
def strtoul (hexStr : Text) : ℕ := hexStr.foldl (fun n c => 16 * n + hexValue c) 0

def skipWhitespace (src : Text) : Text := src.dropWhile isWhitespace

/-! ## Literals -/

def parseNull (src : Text) : Parsed Node :=
  if (bytes "null").isPrefixOf src then .ok (.null, src.drop 4) else .error .expectedNull

def parseBool (src : Text) : Parsed Node :=
  if (bytes "true").isPrefixOf src then .ok (.bool true, src.drop 4)
  else if (bytes "false").isPrefixOf src then .ok (.bool false, src.drop 5)
  else .error .expectedBoolean

/-! ## Numbers -/

/-- The characters that the scanner of a number takes, by their part of it. -/
structure NumberText where
  sign : Text
  whole : Text
  fraction : Text
  exponent : Text

def NumberText.text (n : NumberText) : Text := n.sign ++ n.whole ++ n.fraction ++ n.exponent

def scanSign : Text → Text × Text
  | c :: rest => if c = byte '-' then ([c], rest) else ([], c :: rest)
  | [] => ([], [])

def scanDigits (src : Text) : Text × Text := (src.takeWhile isdigit, src.dropWhile isdigit)

def scanFraction : Text → Text × Text
  | c :: rest =>
    if c = byte '.' then (c :: (scanDigits rest).1, (scanDigits rest).2) else ([], c :: rest)
  | [] => ([], [])

def scanExponentSign : Text → Text × Text
  | c :: rest => if c = byte '+' ∨ c = byte '-' then ([c], rest) else ([], c :: rest)
  | [] => ([], [])

def scanExponent : Text → Text × Text
  | c :: rest =>
    if c = byte 'e' ∨ c = byte 'E' then
      let (sign, rest) := scanExponentSign rest
      let (digits, rest) := scanDigits rest
      (c :: (sign ++ digits), rest)
    else ([], c :: rest)
  | [] => ([], [])

def scanNumber (src : Text) : NumberText × Text :=
  let (sign, src) := scanSign src
  let (whole, src) := scanDigits src
  let (fraction, src) := scanFraction src
  let (exponent, src) := scanExponent src
  (⟨sign, whole, fraction, exponent⟩, src)

def digitsValue (digits : Text) : ℕ := digits.foldl (fun n c => 10 * n + (c.toNat - '0'.toNat)) 0

def exponentValue (exponent : Text) : ℤ :=
  let digits := digitsValue (exponent.filter isdigit)
  if byte '-' ∈ exponent then -digits else digits

/-- `strtod` on the decimal form, the only one that the scanner of a number leaves to it:
nothing where there is no digit to convert. An exponent without digits is not read. -/
def strtod (numStr : Text) : Option Binary64 :=
  let n := (scanNumber numStr).1
  let digits := n.whole ++ n.fraction.drop 1
  if digits = [] then none
  else
    let places : ℕ := n.fraction.length - 1
    some (.nearest (n.sign ≠ []) (digitsValue digits * 10 ^ (exponentValue n.exponent - places)))

def parseNumber (src : Text) : Parsed Node :=
  let (n, rest) := scanNumber src
  match strtod n.text with
  | none => .error .invalidNumber
  | some val => .ok (.number val, rest)

/-! ## Strings -/

/-- `switch (esc)`, `u` apart. -/
def unescape (esc : UInt8) : UInt8 :=
  if esc = byte 'b' then 0x08
  else if esc = byte 'f' then 0x0C
  else if esc = byte 'n' then byte '\n'
  else if esc = byte 'r' then byte '\r'
  else if esc = byte 't' then byte '\t'
  else esc

/-- What is appended for the code of a `\uXXXX`. -/
def encodeCode (code : ℕ) : Text :=
  if code ≤ 0x7F then [UInt8.ofNat code]
  else if code ≤ 0x7FF then
    [UInt8.ofNat (0xC0 ||| ((code >>> 6) &&& 0x1F)), UInt8.ofNat (0x80 ||| (code &&& 0x3F))]
  else
    [UInt8.ofNat (0xE0 ||| ((code >>> 12) &&& 0x0F)),
      UInt8.ofNat (0x80 ||| ((code >>> 6) &&& 0x3F)), UInt8.ofNat (0x80 ||| (code &&& 0x3F))]

/-- The loop of `parseString`, after the opening quote. -/
def parseStringBody (res : Text) : Text → Parsed Text
  | [] => .error .unterminatedString
  | c :: src =>
    if c = byte '"' then .ok (res, src)
    else if c = byte '\\' then
      match src with
      | [] => .error .unterminatedEscape
      | esc :: src =>
        if esc = byte 'u' then
          match src with
          | h₁ :: h₂ :: h₃ :: h₄ :: src =>
            if [h₁, h₂, h₃, h₄].all isHex then
              parseStringBody (res ++ encodeCode (strtoul [h₁, h₂, h₃, h₄])) src
            else .error .invalidUnicode
          | _ => .error .incompleteUnicode
        else parseStringBody (res ++ [unescape esc]) src
    else parseStringBody (res ++ [c]) src

def parseString : Text → Parsed Text
  | c :: src => if c = byte '"' then parseStringBody [] src else .error .noQuote
  | [] => .error .noQuote

/-! ## Arrays and objects -/

section Nested

variable (parseValue : Text → Parsed Node)

/-- The loop of `parseArray`. -/
def parseElements : ℕ → List Node → Text → Parsed Node
  | 0, _, _ => .error .unterminatedArray
  | _ + 1, _, [] => .error .unterminatedArray
  | rounds + 1, arrayElements, c :: src =>
    match parseValue (c :: src) with
    | .error e => .error e
    | .ok (elem, src) =>
      match skipWhitespace src with
      | [] => .error .expectedCommaOrBracket
      | c :: src =>
        if c = byte ']' then .ok (.array (arrayElements ++ [elem]), src)
        else if c = byte ',' then parseElements rounds (arrayElements ++ [elem]) src
        else .error .expectedCommaOrBracket

/-- After the opening bracket. -/
def parseArray (src : Text) : Parsed Node :=
  match skipWhitespace src with
  | [] => .error .unterminatedArray
  | c :: rest =>
    if c = byte ']' then .ok (.array [], rest)
    else parseElements parseValue (c :: rest).length [] (c :: rest)

/-- The loop of `parseObject`. At the end of the text the source reads the NUL that stands
there, which is not a quote. -/
def parseMembers : ℕ → List (Text × Node) → Text → Parsed Node
  | 0, _, _ => .error .unterminatedObject
  | _ + 1, _, [] => .error .unterminatedObject
  | rounds + 1, objectProperties, c :: src =>
    match skipWhitespace (c :: src) with
    | [] => .error .expectedKey
    | c :: src =>
      if c ≠ byte '"' then .error .expectedKey
      else
        match parseString (c :: src) with
        | .error e => .error e
        | .ok (key, src) =>
          match skipWhitespace src with
          | [] => .error .expectedColon
          | c :: src =>
            if c ≠ byte ':' then .error .expectedColon
            else
              match parseValue src with
              | .error e => .error e
              | .ok (value, src) =>
                let objectProperties := assign key value objectProperties
                match skipWhitespace src with
                | [] => .error .expectedCommaOrBrace
                | c :: src =>
                  if c = byte '\x7d' then .ok (.object objectProperties, src)
                  else if c = byte ',' then parseMembers rounds objectProperties src
                  else .error .expectedCommaOrBrace

/-- After the opening brace. -/
def parseObject (src : Text) : Parsed Node :=
  match skipWhitespace src with
  | [] => .error .unterminatedObject
  | c :: rest =>
    if c = byte '\x7d' then .ok (.object [], rest)
    else parseMembers parseValue (c :: rest).length [] (c :: rest)

end Nested

def parseValue : ℕ → Text → Parsed Node
  | 0, _ => .error .unexpectedEnd
  | depth + 1, src =>
    match skipWhitespace src with
    | [] => .error .unexpectedEnd
    | c :: rest =>
      if c = byte 'n' then parseNull (c :: rest)
      else if c = byte 't' ∨ c = byte 'f' then parseBool (c :: rest)
      else if c = byte '"' then (parseString (c :: rest)).map fun (s, rest) => (.string s, rest)
      else if c = byte '[' then parseArray (parseValue depth) rest
      else if c = byte '\x7b' then parseObject (parseValue depth) rest
      else if c = byte '-' ∨ isdigit c then parseNumber (c :: rest)
      else .error (.unexpectedCharacter c)

/-- `absolute_json_parse` -/
def jsonParse (jsonText : Option Text) : Except ParseError Node :=
  match jsonText with
  | none => .error .emptyText
  | some text =>
    let src := cString text
    if src = [] then .error .emptyText
    else (parseValue src.length src).map Prod.fst

/-! ## The printer -/

/-- What the printer writes for a character of a string. -/
def escape (c : UInt8) : Text :=
  if c = byte '"' then bytes "\\\""
  else if c = byte '\\' then bytes "\\\\"
  else if c = byte '\n' then bytes "\\n"
  else if c = byte '\r' then bytes "\\r"
  else if c = byte '\t' then bytes "\\t"
  else [c]

def decimalDigits (n : ℕ) : Text :=
  if n = 0 then bytes "0" else (Nat.digits 10 n).reverse.map fun d => UInt8.ofNat ('0'.toNat + d)

/-- `ss << i` of an `int64_t` -/
def decimal (i : ℤ) : Text := (if i < 0 then bytes "-" else []) ++ decimalDigits i.natAbs

section Printer

variable (general : Binary64 → Text)

/-- An integer is written as one, and another number `d` as `ss << d` does. The conversion of
what does not fit an `int64_t` is undefined; here it is not equal to the number. -/
def numberText (d : Binary64) : Text :=
  match d.toInt64 with
  | some i => if d.value = some (i : ℚ) then decimal i else general d
  | none => general d

variable (pretty : Bool)

def separator : Text := if pretty then bytes ", " else bytes ","

mutual

def stringifyHelper : Node → Text
  | .null => bytes "null"
  | .bool boolValue => if boolValue then bytes "true" else bytes "false"
  | .number d => numberText general d
  | .string s => byte '"' :: s.flatMap escape ++ bytes "\""
  | .array arrayElements => bytes "[" ++ stringifyElements 0 arrayElements ++ bytes "]"
  | .object objectProperties =>
    bytes "\x7b" ++ stringifyProperties 0 objectProperties ++ bytes "\x7d"

def stringifyElements (idx : ℕ) : List Node → Text
  | [] => []
  | element :: rest =>
    (if 0 < idx then separator pretty else []) ++ stringifyHelper element
      ++ stringifyElements (idx + 1) rest

def stringifyProperties (idx : ℕ) : List (Text × Node) → Text
  | [] => []
  | (key, value) :: rest =>
    (if 0 < idx then separator pretty else []) ++ byte '"' :: key ++ bytes "\":"
      ++ (if pretty then bytes " " else []) ++ stringifyHelper value
      ++ stringifyProperties (idx + 1) rest

end

/-- `absolute_json_stringify` -/
def jsonStringify (handle : Option Node) : Text :=
  match handle with
  | none => bytes "null"
  | some node => stringifyHelper general pretty node

end Printer

end Json

end Absolute
