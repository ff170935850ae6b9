import Absolute.PsTypes

/-!
# Expressions in the parser

`ParseExpression` and what it calls. Reading the text of literals, lambdas, constructor and
destructor calls and array values are parameters (`Beyond`); an expression has no position
here. No function returns a null expression: what would make one throws before.
-/

namespace Absolute

namespace Parser

open Lexer

/-! ## Operators -/

def precedences : List (Text × ℤ) :=
  [("=", 1), ("+=", 1), ("-=", 1), ("*=", 1), ("/=", 1), ("%=", 1), ("&=", 1), ("|=", 1), ("^=", 1),
    ("<<=", 1), (">>=", 1), ("?", 2), ("||", 3), ("&&", 4), ("|", 5), ("^", 6), ("&", 7), ("==", 8),
    ("!=", 8), ("<", 9), ("<=", 9), (">", 9), (">=", 9), ("<<", 10), (">>", 10), ("+", 11),
    ("-", 11), ("*", 12), ("/", 12), ("%", 12), ("!", 13), ("~", 13), ("++", 14), ("--", 14)].map
    fun entry => (entry.1.toList, entry.2)

/-- `GetOperatorPrecedence` -/
def getOperatorPrecedence (op : Text) : ℤ := (precedences.lookup op).getD (-1)

/-- `GetOperatorCategory(op) == OperatorCategory::Assignment` -/
def isAssignment (op : Text) : Bool :=
  (["=", "+=", "-=", "*=", "/=", "%=", "&=", "|=", "^=", "<<=", ">>="].map String.toList).contains op

def isPrefixUnary (token : Token) : Bool :=
  (token.type = .operator
      && (["*", "&", "+", "-", "++", "--", "!", "~"].map String.toList).contains token.value)
    || (token.type = .keyword && (token.value = "await".toList || token.value = "spawn".toList))

def isPostfixUnary (token : Token) : Bool :=
  token.type = .operator && (token.value = "++".toList || token.value = "--".toList)

def isLiteral (type : TokenType) : Bool := type = .number || type = .string || type = .char

/-! ## Expressions -/

inductive Expr (Other : Type) where
  | literal (type : TokenType) (text : Text)
  | boolean (value : Bool)
  | null
  | primitive (type : TypeExpr)
  | identifier (name : Text)
  | prefixUnary (op : Text) (operand : Expr Other)
  | postfixUnary (op : Text) (operand : Expr Other)
  | binary (op : Text) (left right : Expr Other)
  | ternary (condition trueExpr falseExpr : Expr Other)
  | assignment (target : Expr Other) (op : Text) (value : Expr Other)
  | call (callee : Expr Other) (arguments : List (Bool × Bool × Expr Other))
  | access (base : Expr Other) (indexes : List (Option (Expr Other)))
  | slice (base : Expr Other) (ranges : List (Option (Expr Other) × Option (Expr Other) × Bool))
  | member (base : Expr Other) (name : Text)
  | template (base : Expr Other) (types : List TypeExpr)
  | cast (operation : Text) (type : Option TypeExpr) (base : Expr Other)
  | other (expression : Other)

/-- What the parser of expressions leaves to others. -/
structure Beyond (Other : Type) where
  /-- What is wrong with the text of a literal. -/
  literalError : TokenType → Text → Option String
  /-- What starts with `fn`, `new`, `delete` or an opening brace. -/
  parse : Text → Parse Other

variable {Other : Type} (B : Beyond Other) (maximum : ℕ)

def parseLiteralExpr : Parse (Expr Other) := do
  let token ← requireCurrent
  match B.literalError token.type token.value with
  | some message => throw message
  | none => do
      let _ ← consumeType token.type
      return .literal token.type token.value

/-- `RecursionGuard` -/
def recursionGuard (depth : ℕ) : Parse Unit := do
  if maximum < depth + 1 then throw "Expression or statement nesting is too deep"

/-- `out` and `ref` in front of an argument. -/
def parseArgumentMode : Parse (Bool × Bool) := do
  match ← get with
  | token :: rest =>
      if (token.type = .keyword ∨ token.type = .identifier) ∧ token.value = "out".toList then do
        set rest
        return (true, false)
      else if (token.type = .keyword ∨ token.type = .identifier) ∧ token.value = "ref".toList then do
        set rest
        return (false, true)
      else return (false, false)
  | [] => return (false, false)

mutual

def parseExpression : ℕ → ℕ → Parse (Expr Other)
  | 0, _ => throw "out of fuel"
  | fuel + 1, depth => do
      recursionGuard maximum depth
      match ← currentToken with
      | none => throw "Token is null"
      | some _ => do
          let left ← parsePrimaryExpr fuel (depth + 1)
          let left ← match ← currentToken with
            | some token =>
                if isAssignment token.value then parseAssignmentExpr fuel (depth + 1) left
                else pure left
            | none => pure left
          match ← currentToken with
          | some next =>
              if next.type = .operator then parseBinaryExpr fuel (depth + 1) 0 left
              else return left
          | none => return left

def parsePrimaryExpr : ℕ → ℕ → Parse (Expr Other)
  | 0, _ => throw "out of fuel"
  | fuel + 1, depth => do
      let base ← parseBaseExpr fuel depth
      parseSuffixExpr fuel depth base

def parseBaseExpr : ℕ → ℕ → Parse (Expr Other)
  | 0, _ => throw "out of fuel"
  | fuel + 1, depth => do
      recursionGuard maximum depth
      match ← currentToken with
      | none => throw "Null token"
      | some token =>
          if isPrefixUnary token then parsePrefixUnaryExpr fuel (depth + 1)
          else if token.type = .keyword ∧ token.value = "fn".toList then
            return .other (← B.parse token.value)
          else if token.type = .keyword
              ∧ (token.value = "true".toList ∨ token.value = "false".toList) then do
            let _ ← consumeType .keyword
            return .boolean (token.value = "true".toList)
          else if token.type = .keyword ∧ token.value = "null".toList then do
            let _ ← consumeType .keyword
            return .null
          else if token.type = .keyword ∧ isPrimitiveType token.value then
            return .primitive (← parsePrimitiveType)
          else if isLiteral token.type then parseLiteralExpr B
          else if token.type = .identifier then parseIdentifierExpr fuel (depth + 1) false
          else if token.value = "this".toList then do
            let _ ← consume .keyword "this".toList
            return .identifier "this".toList
          else if token.value = "new".toList ∨ token.value = "delete".toList then
            return .other (← B.parse token.value)
          else if token.type = .bracket ∧ token.value = ['('] then do
            let _ ← consume .bracket ['(']
            let expr ← parseExpression fuel (depth + 1)
            match ← currentToken with
            | some comma =>
                if comma.type = .delimiter ∧ comma.value = [','] then do
                  let values ← parseTuple fuel (depth + 1)
                  let _ ← consume .bracket [')']
                  return .call (.identifier "tuple".toList)
                    ((expr :: values).map fun value => (false, false, value))
                else do
                  let _ ← consume .bracket [')']
                  return expr
            | none => do
                let _ ← consume .bracket [')']
                return expr
          else if token.type = .bracket ∧ token.value = ['\x7b'] then
            return .other (← B.parse token.value)
          else throw "Expected primary expression"

/-- The values of a tuple after the first. -/
def parseTuple : ℕ → ℕ → Parse (List (Expr Other))
  | 0, _ => throw "out of fuel"
  | fuel + 1, depth => do
      match ← currentToken with
      | some comma =>
          if comma.type = .delimiter ∧ comma.value = [','] then do
            let _ ← consume .delimiter [',']
            let value ← parseExpression fuel depth
            let values ← parseTuple fuel depth
            return value :: values
          else return []
      | none => return []

def parsePrefixUnaryExpr : ℕ → ℕ → Parse (Expr Other)
  | 0, _ => throw "out of fuel"
  | fuel + 1, depth => do
      let token ← requireCurrent
      if isPrefixUnary token then do
        let _ ← consume token.type token.value
        let operand ← parsePrefixUnaryExpr fuel depth
        return .prefixUnary token.value operand
      else parsePrimaryExpr fuel depth

/-- The loop of `ParseSuffixExpr`. -/
def parseSuffixExpr : ℕ → ℕ → Expr Other → Parse (Expr Other)
  | 0, _, _ => throw "out of fuel"
  | fuel + 1, depth, base => do
      match ← currentToken with
      | none => return base
      | some token =>
          if token.value = ['('] then do
            let base ← parseFunctionCallExpr fuel depth base
            parseSuffixExpr fuel depth base
          else if token.value = ['['] then do
            let base ← parseArrayAccess fuel depth base
            parseSuffixExpr fuel depth base
          else if token.value = ['.'] then do
            let name ← parseMemberName
            parseSuffixExpr fuel depth (.member base name)
          else if isPostfixUnary token then do
            let _ ← consume .operator token.value
            parseSuffixExpr fuel depth (.postfixUnary token.value base)
          else if token.value = "as".toList ∨ token.value = "is".toList then do
            let _ ← consume .keyword token.value
            let type ← parseType fuel
            parseSuffixExpr fuel depth (.cast token.value type base)
          else return base

def parseIdentifierExpr : ℕ → ℕ → Bool → Parse (Expr Other)
  | 0, _, _ => throw "out of fuel"
  | fuel + 1, depth, allowTemplate => do
      match ← currentToken with
      | none => throw "Expected identifier"
      | some identifier =>
          if identifier.type ≠ .identifier then throw "Expected identifier"
          else do
            let _ ← consumeType .identifier
            parseIdentifierSuffix fuel depth allowTemplate (.identifier identifier.value)

/-- The loop of `ParseIdentifierExpr`. -/
def parseIdentifierSuffix : ℕ → ℕ → Bool → Expr Other → Parse (Expr Other)
  | 0, _, _, _ => throw "out of fuel"
  | fuel + 1, depth, allowTemplate, expr => do
      match ← currentToken with
      | none => return expr
      | some next =>
          if next.value = ['('] then do
            let expr ← parseFunctionCallExpr fuel depth expr
            parseIdentifierSuffix fuel depth allowTemplate expr
          else if next.value = ['['] then do
            let expr ← parseArrayAccess fuel depth expr
            parseIdentifierSuffix fuel depth allowTemplate expr
          else if next.value = ['.'] then do
            let name ← parseMemberName
            parseIdentifierSuffix fuel depth allowTemplate (.member expr name)
          else if next.value = ['<'] then do
            match isTemplateArgumentList (← get) with
            | none => return expr
            | some close =>
                let followedByPostfix := (close.drop 1).head?.any fun after =>
                  after.value = ['('] || after.value = ['.'] || after.value = ['[']
                if allowTemplate = false ∧ followedByPostfix = false then return expr
                else do
                  let types ← parseTemplateExpr fuel
                  parseIdentifierSuffix fuel depth allowTemplate (.template expr types)
          else return expr

def parseFunctionCallExpr : ℕ → ℕ → Expr Other → Parse (Expr Other)
  | 0, _, _ => throw "out of fuel"
  | fuel + 1, depth, base => do
      match ← currentToken with
      | some bracket =>
          if bracket.type = .bracket then do
            let _ ← consume .bracket ['(']
            let arguments ← parseArguments fuel depth
            let _ ← consume .bracket [')']
            return .call base arguments
          else throw "Expected bracket '('"
      | none => throw "Expected bracket '('"

/-- The loop of `ParseArguments`. -/
def parseArguments : ℕ → ℕ → Parse (List (Bool × Bool × Expr Other))
  | 0, _ => throw "out of fuel"
  | fuel + 1, depth => do
      let token ← requireCurrent
      if token.type = .bracket ∧ token.value = [')'] then return []
      else do
        let (isOutArg, isRefArg) ← parseArgumentMode
        let argument ← parseExpression fuel depth
        let token ← requireCurrent
        if token.type = .delimiter ∧ token.value = [','] then do
          let _ ← consume .delimiter [',']
          let arguments ← parseArguments fuel depth
          return (isOutArg, isRefArg, argument) :: arguments
        else if token.type = .bracket ∧ token.value = [')'] then
          return [(isOutArg, isRefArg, argument)]
        else throw "Invalid argument list"

/-- The outer loop of `ParseArrayAccess`. -/
def parseArrayAccess : ℕ → ℕ → Expr Other → Parse (Expr Other)
  | 0, _, _ => throw "out of fuel"
  | fuel + 1, depth, base => do
      match ← currentToken with
      | none => return base
      | some token =>
          if token.value = ['['] then do
            let _ ← consume .bracket ['[']
            let ranges ← parseSliceRanges fuel depth
            let _ ← consume .bracket [']']
            if ranges.any fun range => range.2.2 then
              parseArrayAccess fuel depth (.slice base ranges)
            else
              parseArrayAccess fuel depth (.access base (ranges.map fun range => range.1))
          else return base

/-- Its inner loop: the begin and end of each range, and whether it is a slice. -/
def parseSliceRanges : ℕ → ℕ → Parse (List (Option (Expr Other) × Option (Expr Other) × Bool))
  | 0, _ => throw "out of fuel"
  | fuel + 1, depth => do
      let token ← requireCurrent
      let firstExpr ←
        if token.value ≠ [']'] ∧ token.value ≠ [','] ∧ token.value ≠ [':'] then do
          let expr ← parseExpression fuel depth
          pure (some expr)
        else pure none
      let range ← match ← currentToken with
        | some colon =>
            if colon.type = .operator ∧ colon.value = [':'] then do
              let _ ← consume .operator [':']
              let token ← requireCurrent
              if token.value ≠ [']'] ∧ token.value ≠ [','] then do
                let endExpr ← parseExpression fuel depth
                pure (firstExpr, some endExpr, true)
              else pure (firstExpr, none, true)
            else pure (firstExpr, none, false)
        | none => pure (firstExpr, none, false)
      match ← currentToken with
      | some comma =>
          if comma.value = [','] then do
            let _ ← consume .delimiter [',']
            let ranges ← parseSliceRanges fuel depth
            return range :: ranges
          else return [range]
      | none => return [range]

def parseAssignmentExpr : ℕ → ℕ → Expr Other → Parse (Expr Other)
  | 0, _, _ => throw "out of fuel"
  | fuel + 1, depth, leftValue => do
      match ← currentToken with
      | some op =>
          if isAssignment op.value then do
            let _ ← consumeType .operator
            let rightValue ← parseExpression fuel depth
            return .assignment leftValue op.value rightValue
          else throw "Expected assignment operator"
      | none => throw "Expected assignment operator"

/-- The outer loop of `ParseBinaryExpr`. -/
def parseBinaryExpr : ℕ → ℕ → ℤ → Expr Other → Parse (Expr Other)
  | 0, _, _, _ => throw "out of fuel"
  | fuel + 1, depth, minPrecedence, left => do
      match ← currentToken with
      | none => return left
      | some opToken =>
          if opToken.type ≠ .operator then return left
          else if getOperatorPrecedence opToken.value < minPrecedence then return left
          else if opToken.value = ['?'] then parseTernaryExpr fuel depth left
          else do
            let _ ← consumeType .operator
            let right ← parsePrimaryExpr fuel depth
            let right ← parseRight fuel depth (getOperatorPrecedence opToken.value) right
            parseBinaryExpr fuel depth minPrecedence (.binary opToken.value left right)

/-- Its inner loop. -/
def parseRight : ℕ → ℕ → ℤ → Expr Other → Parse (Expr Other)
  | 0, _, _, _ => throw "out of fuel"
  | fuel + 1, depth, precedence, right => do
      match ← currentToken with
      | none => return right
      | some nextOp =>
          if nextOp.type ≠ .operator then return right
          else if getOperatorPrecedence nextOp.value ≤ precedence then return right
          else do
            let right ← parseBinaryExpr fuel depth (precedence + 1) right
            parseRight fuel depth precedence right

def parseTernaryExpr : ℕ → ℕ → Expr Other → Parse (Expr Other)
  | 0, _, _ => throw "out of fuel"
  | fuel + 1, depth, condition => do
      let _ ← consume .operator ['?']
      let trueExpr ← parseExpression fuel depth
      let _ ← consume .operator [':']
      let falseExpr ← parseExpression fuel depth
      return .ternary condition trueExpr falseExpr

end

end Parser

end Absolute
