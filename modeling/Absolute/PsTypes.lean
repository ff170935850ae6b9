import Absolute.PsLexer

/-!
# Types in the parser

The parser of types with their template arguments, and the look ahead that decides whether a
`<` opens a list of them. The parser reads the tokens that are left; a close that is part of
`>>` is taken off its token. What calls itself counts down a number that the callers choose
large enough.
-/

namespace Absolute

namespace Parser

open Lexer

/-- A function of the parser: from the tokens that are left to its result and what it
leaves, or to the error it throws. -/
abbrev Parse := StateT (List Token) (Except String)

/-! ## Tokens -/

def TokenType.text : TokenType → String
  | .number => "NUMBER"
  | .keyword => "KEYWORD"
  | .identifier => "IDENTIFIER"
  | .operator => "OPERATOR"
  | .delimiter => "DELIMITER"
  | .string => "STRING"
  | .char => "CHAR"
  | .comment => "COMMENT"
  | .bracket => "BRACKET"
  | .whitespace => "WHITESPACE"

def currentToken : Parse (Option Token) := return (← get).head?

def requireCurrent : Parse Token := do
  match ← currentToken with
  | some token => return token
  | none => throw "Unexpected end of file"

/-- The message of a token that is not the expected one. -/
def unexpected (token : Option Token) (expected : String) : String :=
  "Unexpected token: " ++ (token.elim "EOF" fun token => String.ofList token.value)
    ++ ", expected: '" ++ expected ++ "'"

def consumeType (type : TokenType) : Parse Token := do
  match ← get with
  | token :: rest =>
      if token.type = type then do
        set rest
        return token
      else throw (unexpected (some token) (TokenType.text type))
  | [] => throw (unexpected none (TokenType.text type))

def isValidTokenValue (type : TokenType) (value : Text) : Bool := regexMatch value (tokenSpec type)

def consume (type : TokenType) (expectedValue : Text) : Parse Token := do
  if isValidTokenValue type expectedValue = false then
    throw ("Invalid expected value '" ++ String.ofList expectedValue ++ "' for token type "
      ++ toString type.ctorIdx)
  match ← get with
  | token :: rest =>
      if token.type = type ∧ token.value = expectedValue then do
        set rest
        return token
      else throw (unexpected (some token) (String.ofList expectedValue))
  | [] => throw (unexpected none (String.ofList expectedValue))

def primitiveTypes : List Text :=
  ["int8", "int16", "int32", "int64", "uint8", "uint16", "uint32", "uint64", "float", "double",
    "bool", "string", "char", "dynamic", "void", "auto"].map String.toList

def isPrimitiveType (value : Text) : Bool := primitiveTypes.contains value

/-- A token that a type can start with after `sub`. -/
def isTypeName (token : Token) : Bool :=
  token.type = .identifier || (token.type = .keyword && isPrimitiveType token.value)

/-! ## Looking ahead -/

/-- Whether `SkipOwnershipQualifier` steps over a token, with what stands behind it. -/
def isOwnershipQualifier (token : Token) (behind : List Token) : Bool :=
  (token.type = .keyword && (token.value = "raw".toList || token.value = "weak".toList))
    || (token.type = .identifier && token.value = "sub".toList && behind.head?.any isTypeName)

/-- The loop of `IsTemplateArgumentList`: the tokens from the close on. -/
def scanTemplateArguments (depth : ℕ) (expectType : Bool) : List Token → Option (List Token)
  | [] => none
  | token :: rest =>
      if token.value = ['<'] then
        if expectType then none else scanTemplateArguments (depth + 1) true rest
      else if token.value = ['>'] ∨ token.value = ['>', '>'] ∨ token.value = ['>', '>', '='] then
        if expectType then none
        else
          let closes := if token.value = ['>'] then 1 else 2
          if depth ≤ closes then some (token :: rest)
          else scanTemplateArguments (depth - closes) expectType rest
      else if token.value = [','] then
        if expectType then none else scanTemplateArguments depth true rest
      else if token.value = ['.'] then
        if expectType then none else scanTemplateArguments depth true rest
      else if token.value = ['*'] ∨ token.value = ['['] ∨ token.value = [']'] then
        scanTemplateArguments depth expectType rest
      else if expectType && isOwnershipQualifier token rest then
        scanTemplateArguments depth expectType rest
      else if !isTypeName token || !expectType then none
      else scanTemplateArguments depth false rest

def isTemplateArgumentList : List Token → Option (List Token)
  | [] => none
  | token :: rest => if token.value ≠ ['<'] then none else scanTemplateArguments 1 true rest

/-! ## Types -/

inductive Ownership where
  | unique
  | raw
  | weak
  | sub
deriving DecidableEq, Repr

/-- `CanonicalOwnershipPrefix` without its blank. -/
def Ownership.text : Ownership → String
  | unique => ""
  | raw => "raw"
  | weak => "weak"
  | sub => "sub"

mutual

/-- What a type is called. -/
inductive TypeName where
  | identifier (name : Text)
  | member (base : TypeName) (name : Text)
  | template (base : TypeName) (types : List TypeExpr)

/-- `unstarred` marks a qualifier on a name without a star. -/
inductive TypeExpr where
  | primitive (name : Text)
  | user (name : TypeName)
  | pointer (base : TypeExpr) (ownership : Ownership) (unstarred : Bool)
  | array (base : TypeExpr)

end

/-- The qualifier a type starts with. -/
def parseOwnership : Parse Ownership := do
  match ← get with
  | token :: rest =>
      if token.type = .keyword ∧ (token.value = "raw".toList ∨ token.value = "weak".toList) then do
        set rest
        return if token.value = "raw".toList then .raw else .weak
      else if token.type = .identifier ∧ token.value = "sub".toList
          ∧ rest.head?.any isTypeName then do
        set rest
        return .sub
      else return .unique
  | [] => return .unique

def parsePrimitiveType : Parse TypeExpr := do
  let token ← requireCurrent
  if isPrimitiveType token.value then do
    let _ ← consumeType .keyword
    return .primitive token.value
  else throw "Expected primitive type"

/-- The loop over the stars: the type, the qualifier that no star took, whether there was a
star, and what is left. -/
def pointerStars (base : TypeExpr) (ownership : Ownership) (foundPointer : Bool) :
    List Token → (TypeExpr × Ownership × Bool) × List Token
  | [] => ((base, ownership, foundPointer), [])
  | token :: rest =>
      if token.type = .operator ∧ token.value = ['*'] then
        pointerStars (.pointer base ownership false) .unique true rest
      else ((base, ownership, foundPointer), token :: rest)

def parsePointerSuffix (base : TypeExpr) (ownership : Ownership) : Parse TypeExpr := do
  let ((base, ownership, foundPointer), rest) := pointerStars base ownership false (← get)
  set rest
  if ownership ≠ .unique ∧ foundPointer = false then
    match base with
    | .user _ => return .pointer base ownership true
    | _ => throw "Invalid pointer qualifier"
  else return base

/-- The loop over `[]`. -/
def arrayBrackets (base : TypeExpr) : List Token → TypeExpr × List Token
  | [] => (base, [])
  | [token] => (base, [token])
  | token :: next :: rest =>
      if token.type = .bracket ∧ token.value = ['['] ∧ next.type = .bracket ∧ next.value = [']'] then
        arrayBrackets (.array base) rest
      else (base, token :: next :: rest)

def parseArraySuffix (base : TypeExpr) : Parse TypeExpr := do
  let (base, rest) := arrayBrackets base (← get)
  set rest
  return base

/-- `ParseMemberAccess`: the name behind the dot. -/
def parseMemberName : Parse Text := do
  let _ ← consume .delimiter ['.']
  match ← currentToken with
  | some token =>
      if token.type = .identifier then do
        let _ ← consumeType .identifier
        return token.value
      else throw "Expected identifier after '.'"
  | none => throw "Expected identifier after '.'"

def consumeTemplateClose : Parse Unit := do
  let token ← requireCurrent
  if 1 < token.value.length ∧ token.value.head? = some '>' then
    modify fun tokens =>
      { token with value := token.value.tail, pos.column := token.pos.column + 1 } :: tokens.tail
  else do
    let _ ← consume .operator ['>']

mutual

def parseType : ℕ → Parse (Option TypeExpr)
  | 0 => throw "out of fuel"
  | fuel + 1 => do
      let ownership ← parseOwnership
      let token ← requireCurrent
      let base ← match token.type with
        | .identifier => do
            let name ← consumeType .identifier
            let name ← parseTypeName fuel (.identifier name.value)
            pure (some (TypeExpr.user name))
        | .keyword => do
            let type ← parsePrimitiveType
            pure (some type)
        | _ => pure none
      match base with
      | none => return none
      | some base => do
          let base ← parsePointerSuffix base ownership
          let base ← parseArraySuffix base
          return some base

/-- The loop over what a type's name goes on with. -/
def parseTypeName : ℕ → TypeName → Parse TypeName
  | 0, _ => throw "out of fuel"
  | fuel + 1, name => do
      match ← currentToken with
      | none => return name
      | some token =>
          if token.type = .delimiter ∧ token.value = ['.'] then do
            let member ← parseMemberName
            parseTypeName fuel (.member name member)
          else if token.type = .operator ∧ token.value = ['<'] then do
            let types ← parseTemplateExpr fuel
            parseTypeName fuel (.template name types)
          else return name

/-- `ParseTemplateExpr`: the arguments. -/
def parseTemplateExpr : ℕ → Parse (List TypeExpr)
  | 0 => throw "out of fuel"
  | fuel + 1 => do
      let _ ← consume .operator ['<']
      parseTemplateArguments fuel

/-- Its loop. -/
def parseTemplateArguments : ℕ → Parse (List TypeExpr)
  | 0 => throw "out of fuel"
  | fuel + 1 => do
      let token ← requireCurrent
      if token.value = ['>'] then return []
      else
        match ← parseType fuel with
        | none => throw "Invalid template argument"
        | some type => do
            let token ← requireCurrent
            if token.value = [','] then do
              let _ ← consume .delimiter [',']
              let types ← parseTemplateArguments fuel
              return type :: types
            else do
              consumeTemplateClose
              return [type]

end

end Parser

end Absolute
