import Mathlib.Data.List.Basic
import Mathlib.Tactic.Common
import Absolute.AnTypeNames

/-!
# Conversions and unification

What an argument may be passed as: `IsAssignable` and `ConversionCost`
(`Absolute-Analyzer/src/analyzer.cpp`) and the unification of a parameter's
pattern with an argument's type (`analyzer_internal.h`). The type table is
asked through `TypeQueries`; everything else is read off the names.

A recursion over a name runs on a bound of its length, as in `AnTypeNames`.
-/

namespace Absolute

/-- The answers of the analyzer's type table. -/
structure TypeQueries where
  /-- `types.find(base)`: the generic parameters of a declared type. -/
  genericParameters : TypeName → Option (List TypeName)
  currentType : TypeName
  isDerivedFrom : TypeName → TypeName → Bool
  isOpenGenericParameter : TypeName → Bool
  typeOwnsUniqueResource : TypeName → Bool

/-! ## Kinds of types -/

def integerTypeNames : List TypeName :=
  ["int8".toList, "uint8".toList, "int16".toList, "uint16".toList, "int32".toList,
    "uint32".toList, "int64".toList, "uint64".toList]

def isIntegerTypeName (type : TypeName) : Bool := integerTypeNames.contains type

def isNumeric (name : TypeName) : Bool :=
  name = "float".toList ∨ name = "double".toList ∨ isIntegerTypeName name
    ∨ name = "char".toList

/-- `PrimitiveStringToEnum(name).has_value()`. -/
def isPrimitiveName (name : TypeName) : Bool :=
  (integerTypeNames ++ ["float".toList, "double".toList, "bool".toList, "string".toList,
    "char".toList, "void".toList, "dynamic".toList, "auto".toList]).contains name

def isRawPointerType (type : TypeName) : Bool := canonicalOwnership type = .Raw
def isWeakPointerType (type : TypeName) : Bool := canonicalOwnership type = .Weak
def isSubscriberPointerType (type : TypeName) : Bool := canonicalOwnership type = .Sub
def isStrongManagedPointerType (type : TypeName) : Bool := canonicalOwnership type = .Unique
def isPointerType (type : TypeName) : Bool := canonicalOwnership type ≠ .None

def isManagedPointerType (type : TypeName) : Bool :=
  canonicalOwnership type ≠ .None ∧ canonicalOwnership type ≠ .Raw

/-- The return and parameter types of `cfunc<Return,Parameter,..>`. -/
def parseCFunctionType (type : TypeName) : Option (TypeName × List TypeName) :=
  match parseGenericTypeName type with
  | some (base, returnType :: parameterTypes) =>
      if base = "cfunc".toList then some (returnType, parameterTypes) else none
  | _ => none

/-- `ArrayElementType(type, dimensions)`. -/
def arrayElementTypeOf (type : TypeName) : Nat → TypeName
  | 0 => type
  | dimensions + 1 =>
      if endsWith type "[]".toList then arrayElementTypeOf (dropBrackets type) dimensions
      else type

/-! ## Assignability -/

/-- The ownership arrow between two handles. -/
def compatibleMode (target source : TypeName) : Bool :=
  isRawPointerType target && isRawPointerType source ||
    isWeakPointerType target && isManagedPointerType source ||
    isSubscriberPointerType target && isManagedPointerType source
      && !isWeakPointerType source ||
    isStrongManagedPointerType target && isStrongManagedPointerType source

/-- From the test of open qualifiers on; nothing in it recurses. -/
def isAssignableHandle (q : TypeQueries) (target source : TypeName) : Bool :=
  if canonicalOpenOwnership target ≠ .None ∧ source = canonicalOpenBaseName target then true
  else if canonicalOpenOwnership target ≠ .None ∧ canonicalOpenOwnership source ≠ .None then
    canonicalOpenBaseName source = canonicalOpenBaseName target
  else if q.isOpenGenericParameter target ∧ canonicalOpenOwnership source = .Sub
      ∧ canonicalOpenBaseName source = target then true
  else if isPointerType target ∧ source = "null".toList then true
  else if isPointerType target ∧ isPointerType source ∧ compatibleMode target source then
    q.isDerivedFrom (canonicalPointeeName source) (canonicalPointeeName target)
  else if isNumeric target ∧ isNumeric source then true
  else source = "null".toList ∧ !isPrimitiveName target

def isAssignableGo (q : TypeQueries) : Nat → TypeName → TypeName → Bool
  | 0, _, _ => false
  | n + 1, target, source =>
      if isValueReferenceType target then
        isAssignableGo q n (valueReferenceBaseType target) source
      else if target = "error".toList ∨ source = "error".toList ∨ target = "dynamic".toList
          ∨ source = "dynamic".toList then true
      else if target = source then true
      else match parseCFunctionType target, parseCFunctionType source with
        | some targetSignature, some sourceSignature => targetSignature = sourceSignature
        | targetSignature, _ =>
            if targetSignature.isSome ∧ source = "null".toList then true
            else if endsWith target "[]".toList ∧ endsWith source "[]".toList then
              -- an array may be seen at a lower rank than it has, never at a higher
              if arrayRank target > arrayRank source then false
              else isAssignableGo q n (arrayElementTypeOf target (arrayRank target))
                (arrayElementTypeOf source (arrayRank source))
            else isAssignableHandle q target source

def isAssignable (q : TypeQueries) (target source : TypeName) : Bool :=
  isAssignableGo q (target.length + 1) target source

def isFloating (type : TypeName) : Bool := type = "float".toList ∨ type = "double".toList

def conversionCostGo (q : TypeQueries) : Nat → TypeName → TypeName → Option Nat
  | 0, _, _ => none
  | n + 1, target, source =>
      if isValueReferenceType target then
        conversionCostGo q n (valueReferenceBaseType target) source
      else if target = source then some 0
      else if ¬isAssignable q target source then none
      else if target = "dynamic".toList then some 4
      else if source = "null".toList then some 3
      else if isNumeric target ∧ isNumeric source then
        if isFloating target = isFloating source then some 1 else some 2
      else some 1

/-- `ConversionCost`, with `none` for its `-1`. -/
def conversionCost (q : TypeQueries) (target source : TypeName) : Option Nat :=
  conversionCostGo q (target.length + 1) target source

/-! ## Unification -/

/-- A map of substitutions; `emplace` keeps what is there. -/
abbrev Bindings := List (TypeName × TypeName)

def Bindings.find (b : Bindings) (name : TypeName) : Option TypeName :=
  (List.find? (fun entry => entry.1 = name) b).map Prod.snd

def Bindings.emplace (b : Bindings) (name type : TypeName) : Bindings :=
  if (b.find name).isSome then b else b ++ [(name, type)]

def mentionsGenericParameterGo (parameters : List TypeName) : Nat → TypeName → Bool
  | 0, _ => false
  | n + 1, pattern =>
      if parameters.contains pattern then true
      else if endsWith pattern "[]".toList then
        mentionsGenericParameterGo parameters n (dropBrackets pattern)
      else if isPointerType pattern then
        mentionsGenericParameterGo parameters n (canonicalPointeeName pattern)
      else match parseGenericTypeName pattern with
        | none => false
        | some (_, arguments) => arguments.any (mentionsGenericParameterGo parameters n)

def mentionsGenericParameter (pattern : TypeName) (parameters : List TypeName) : Bool :=
  mentionsGenericParameterGo parameters (pattern.length + 1) pattern

/-- The substitutions after a unification that succeeds. -/
def unifyGenericTypeGo (parameters : List TypeName) :
    Nat → TypeName → TypeName → Bindings → Option Bindings
  | 0, _, _, _ => none
  | n + 1, pattern, actual, substitutions =>
      if ¬mentionsGenericParameter pattern parameters then some substitutions
      else if parameters.contains pattern then
        -- a parameter is never bound to a qualified form of itself
        if canonicalOpenOwnership actual ≠ .None ∧ canonicalOpenBaseName actual = pattern then
          some substitutions
        else match substitutions.find pattern with
          | none => some (substitutions.emplace pattern actual)
          | some found => if found = actual then some substitutions else none
      else if endsWith pattern "[]".toList ∧ endsWith actual "[]".toList then
        unifyGenericTypeGo parameters n (dropBrackets pattern) (dropBrackets actual)
          substitutions
      else if canonicalOwnership pattern ≠ .None
          ∧ canonicalOwnership pattern = canonicalOwnership actual then
        unifyGenericTypeGo parameters n (canonicalPointeeName pattern)
          (canonicalPointeeName actual) substitutions
      else match parseGenericTypeName pattern, parseGenericTypeName actual with
        | some (patternBase, patternArguments), some (actualBase, actualArguments) =>
            if patternBase ≠ actualBase ∨ patternArguments.length ≠ actualArguments.length then
              none
            else (patternArguments.zip actualArguments).foldlM
              (fun s pair => unifyGenericTypeGo parameters n pair.1 pair.2 s) substitutions
        | _, _ => if pattern = actual then some substitutions else none

def unifyGenericType (pattern actual : TypeName) (parameters : List TypeName)
    (substitutions : Bindings) : Option Bindings :=
  unifyGenericTypeGo parameters (pattern.length + 1) pattern actual substitutions

end Absolute
