import Absolute.LibRaising
import Absolute.PkgResolve

/-!
# The registries of the syntax plugins

The tables of `syntax_plugins.cpp` and what fills and empties them. A library's
descriptors are taken as the values its exports return; a `const char *` that may be
null is an optional text, and a callback is the address it is.

`RegisterSyntaxPlugin`, `RegisterPluginBinaryOperators` and
`RegisterOpaqueSyntaxRules` look at a whole table before they write;
`RegisterPluginResources` writes each descriptor before it looks at the next one.
-/

namespace Absolute

namespace Plugin

open Function Raising

abbrev Text := Package.Text

abbrev Path := Package.Path

scoped instance : LawfulBEq Text := inferInstance

/-! ## What a library exports -/

/-- A row count and a pointer to the rows, which may be null. -/
inductive Table (α : Type) where
  | null (count : ℕ)
  | rows (rows : List α)
deriving DecidableEq

namespace Table

variable {α : Type}

/-- Rows are counted that are not there. -/
def isMissing : Table α → Bool
  | .null count => count ≠ 0
  | .rows _ => false

def list : Table α → List α
  | .null _ => []
  | .rows l => l

end Table

structure SyntaxRule where
  keyword : Option Text
  expand : Option ℕ
  userData : ℕ := 0
deriving DecidableEq

structure SyntaxPlugin where
  abiVersion : ℕ
  name : Option Text
  rules : Table SyntaxRule
deriving DecidableEq

structure BinaryOperatorRule where
  leftType : Option Text
  operatorText : Option Text
  rightType : Option Text
  functionName : Option Text
  resultType : Option Text
deriving DecidableEq

structure OpaqueSyntaxRule where
  keyword : Option Text
  ruleNamespace : Option Text
  parse : Option ℕ
  userData : ℕ := 0
deriving DecidableEq

/-- `structSize` is how much of the descriptor there is. -/
structure ResourceDescriptor where
  structSize : ℕ
  typeName : Option Text
  isResource : Bool
  destroyFunction : Option Text
  moveIntoFunction : Option Text
  copyMessageFunction : Option Text
  makeImmutableFunction : Option Text
  rehomeFunction : Option Text
deriving DecidableEq

structure VirtualModule where
  moduleName : Option Text
  moduleSource : Option Text
deriving DecidableEq

/-! ## The tables -/

structure RegisteredRule where
  pluginName : Text
  keyword : Text
  callback : ℕ
  userData : ℕ
deriving DecidableEq

structure RegisteredPrelude where
  pluginName : Text
  source : Text
deriving DecidableEq

structure PluginBinaryOperator where
  pluginName : Text
  leftType : Text
  operatorText : Text
  rightType : Text
  functionName : Text
  resultType : Text
deriving DecidableEq

structure PluginResourceDescriptor where
  pluginName : Text
  typeName : Text
  isResource : Bool
  destroyFunction : Text
  moveIntoFunction : Text
  copyMessageFunction : Text
  makeImmutableFunction : Text
  rehomeFunction : Text
deriving DecidableEq

structure RegisteredVirtualModule where
  pluginName : Text
  source : Text
deriving DecidableEq

/-- The rules of both kinds are the same data: a keyword and a callback. -/
@[ext]
structure Registries where
  rules : List RegisteredRule := []
  rulesByKeyword : Text → Option ℕ := fun _ => none
  opaqueRules : List RegisteredRule := []
  opaqueRulesByKeyword : Text → Option ℕ := fun _ => none
  preludes : List RegisteredPrelude := []
  binaryOperators : List PluginBinaryOperator := []
  binaryOperatorsBySignature : Text → Option ℕ := fun _ => none
  resourcesByTypeName : Text → Option PluginResourceDescriptor := fun _ => none
  virtualModulesByName : Text → Option RegisteredVirtualModule := fun _ => none

/-- `emplace`: an entry that is there stays. -/
def emplace {α β : Type} [DecidableEq α] (map : α → Option β) (key : α) (value : β) :
    α → Option β :=
  if (map key).isSome then map else update map key (some value)

theorem emplace_of_none {α β : Type} [DecidableEq α] {f : α → Option β} {key : α} (value : β)
    (hnone : f key = none) : emplace f key value = update f key (some value) := by
  unfold emplace
  rw [hnone]
  rfl

/-! ## What can be thrown -/

inductive RegisterError where
  | nullDescriptor
  | unsupportedAbi (abiVersion : ℕ)
  | unnamed
  | noRuleTable (name : Text)
  | invalidKeyword (name keyword : Text)
  | noAdapter (keyword : Text)
  | coreKeyword (keyword : Text)
  | keywordTaken (keyword : Text)
  | nullPrelude (name : Text)
  | noOperatorTable (name : Text)
  | incompleteOperator (name : Text)
  | operatorTaken (key : Text)
  | noOpaqueTable (name : Text)
  | invalidOpaqueKeyword (name keyword : Text)
  | noParser (keyword : Text)
  | noResourceTable (name : Text)
  | incompatibleDescriptor (name : Text)
  | invalidResourceType (name typeName : Text)
  | resourceTaken (typeName : Text)
deriving DecidableEq

abbrev Registration := EStateM RegisterError Registries PUnit

/-! ## Keywords -/

def isIdentifier : Text → Bool
  | [] => false
  | first :: rest =>
      (first = '_' || first.isAlpha) && rest.all fun character =>
        character = '_' || character.isAlphanum

/-- The keywords of `token_spec`. -/
def coreKeywords : List Text :=
  ["int8", "int16", "int32", "int64", "uint8", "uint16", "uint32", "uint64", "float", "double",
    "char", "bool", "string", "void", "dynamic", "auto", "if", "else", "switch", "match", "case",
    "default", "for", "while", "foreach", "in", "do", "break", "continue", "new", "delete", "raw",
    "weak", "ref", "params", "using", "import", "namespace", "extern", "export", "return", "true",
    "false", "null", "class", "struct", "interface", "enum", "group", "this", "public", "private",
    "protected", "sealed", "internal", "virtual", "override", "const", "static", "extension",
    "async", "nothrow", "await", "spawn", "catch", "finally", "try", "throw", "defer", "yield",
    "get", "set", "operator", "is", "as", "fn"].map String.toList

/-- `ABSOLUTE_SYNTAX_PLUGIN_ABI_VERSION` -/
def abiVersion : ℕ := 1

namespace Registries

def hasKeyword (r : Registries) (keyword : Text) : Bool :=
  (r.rulesByKeyword keyword).isSome || (r.opaqueRulesByKeyword keyword).isSome

/-- The first row of a table that is refused; `seen` are the keys of the rows before. -/
def rowsFault {α : Type} (fault : α → List Text → Option RegisterError) (key : α → Text) :
    List Text → List α → Option RegisterError
  | _, [] => none
  | seen, row :: rows =>
      match fault row seen with
      | some e => some e
      | none => rowsFault fault key (key row :: seen) rows

/-! ## Syntax rules -/

def ruleFault (r : Registries) (name : Text) (rule : SyntaxRule) (seen : List Text) :
    Option RegisterError :=
  let keyword := rule.keyword.getD []
  if isIdentifier keyword = false then some (.invalidKeyword name keyword)
  else if rule.expand = none then some (.noAdapter keyword)
  else if keyword ∈ coreKeywords then some (.coreKeyword keyword)
  else if r.hasKeyword keyword = true ∨ keyword ∈ seen then some (.keywordTaken keyword)
  else none

def addRule (name : Text) (r : Registries) (rule : SyntaxRule) : Registries :=
  let keyword := rule.keyword.getD []
  { r with
    rules := r.rules ++ [⟨name, keyword, rule.expand.getD 0, rule.userData⟩]
    rulesByKeyword := emplace r.rulesByKeyword keyword r.rules.length }

def syntaxPluginFault (r : Registries) (plugin : SyntaxPlugin) : Option RegisterError :=
  let name := plugin.name.getD []
  if plugin.abiVersion ≠ Plugin.abiVersion then some (.unsupportedAbi plugin.abiVersion)
  else if name = [] then some .unnamed
  else if plugin.rules.isMissing then some (.noRuleTable name)
  else rowsFault (r.ruleFault name) (fun rule => rule.keyword.getD []) [] plugin.rules.list

def addSyntaxPlugin (plugin : SyntaxPlugin) (r : Registries) : Registries :=
  plugin.rules.list.foldl (addRule (plugin.name.getD [])) r

/-! ## Preludes -/

def preludeFault (name : Text) (source : Option Text) (_ : Registries) : Option RegisterError :=
  if source = none then some (.nullPrelude name) else none

def addPrelude (name : Text) (source : Option Text) (r : Registries) : Registries :=
  if source.getD [] = [] then r
  else { r with preludes := r.preludes ++ [⟨name, source.getD []⟩] }

/-! ## Binary operators -/

/-- `OperatorKey` -/
def operatorKey (leftType operatorText rightType : Text) : Text :=
  leftType ++ '\n' :: operatorText ++ '\n' :: rightType

def ruleKey (rule : BinaryOperatorRule) : Text :=
  operatorKey (rule.leftType.getD []) (rule.operatorText.getD []) (rule.rightType.getD [])

def operatorFault (r : Registries) (name : Text) (rule : BinaryOperatorRule) (seen : List Text) :
    Option RegisterError :=
  if rule.leftType = none ∨ rule.operatorText = none ∨ rule.rightType = none
      ∨ rule.functionName = none ∨ rule.resultType = none then some (.incompleteOperator name)
  else if (r.binaryOperatorsBySignature (ruleKey rule)).isSome = true ∨ ruleKey rule ∈ seen then
    some (.operatorTaken (ruleKey rule))
  else none

def addOperator (name : Text) (r : Registries) (rule : BinaryOperatorRule) : Registries :=
  { r with
    binaryOperators := r.binaryOperators ++ [⟨name, rule.leftType.getD [],
      rule.operatorText.getD [], rule.rightType.getD [], rule.functionName.getD [],
      rule.resultType.getD []⟩]
    binaryOperatorsBySignature :=
      emplace r.binaryOperatorsBySignature (ruleKey rule) r.binaryOperators.length }

def operatorTableFault (name : Text) (operators : Table BinaryOperatorRule) (r : Registries) :
    Option RegisterError :=
  if operators.isMissing then some (.noOperatorTable name)
  else rowsFault (r.operatorFault name) ruleKey [] operators.list

def addOperatorTable (name : Text) (operators : Table BinaryOperatorRule) (r : Registries) :
    Registries :=
  operators.list.foldl (addOperator name) r

/-! ## Opaque rules -/

def opaqueKeyword (rule : OpaqueSyntaxRule) : Text :=
  if rule.ruleNamespace.getD [] = [] then rule.keyword.getD []
  else rule.ruleNamespace.getD [] ++ '.' :: rule.keyword.getD []

def opaqueRuleFault (r : Registries) (name : Text) (rule : OpaqueSyntaxRule) (seen : List Text) :
    Option RegisterError :=
  let keyword := opaqueKeyword rule
  if isIdentifier (rule.keyword.getD []) = false then some (.invalidOpaqueKeyword name keyword)
  else if rule.parse = none then some (.noParser keyword)
  else if keyword ∈ coreKeywords then some (.coreKeyword keyword)
  else if r.hasKeyword keyword = true ∨ keyword ∈ seen then some (.keywordTaken keyword)
  else none

def addOpaqueRule (name : Text) (r : Registries) (rule : OpaqueSyntaxRule) : Registries :=
  { r with
    opaqueRules := r.opaqueRules ++ [⟨name, opaqueKeyword rule, rule.parse.getD 0, rule.userData⟩]
    opaqueRulesByKeyword := emplace r.opaqueRulesByKeyword (opaqueKeyword rule)
      r.opaqueRules.length }

def opaqueTableFault (name : Text) (table : Table OpaqueSyntaxRule) (r : Registries) :
    Option RegisterError :=
  if table.isMissing then some (.noOpaqueTable name)
  else rowsFault (r.opaqueRuleFault name) opaqueKeyword [] table.list

def addOpaqueTable (name : Text) (table : Table OpaqueSyntaxRule) (r : Registries) : Registries :=
  table.list.foldl (addOpaqueRule name) r

/-! ## Resources -/

/-- The offset of the field `copy_message_function`; a field takes 8 bytes. -/
def copyMessageOffset : ℕ := 40

/-- A field that the descriptor has room for. -/
def optionalField (descriptor : ResourceDescriptor) (index : ℕ) (field : Option Text) : Text :=
  if copyMessageOffset + 8 * (index + 1) ≤ descriptor.structSize then field.getD [] else []

def resourceFault (name : Text) (descriptor : ResourceDescriptor) (r : Registries) :
    Option RegisterError :=
  let typeName := descriptor.typeName.getD []
  if descriptor.structSize < copyMessageOffset then some (.incompatibleDescriptor name)
  else if isIdentifier typeName = false then some (.invalidResourceType name typeName)
  else if (r.resourcesByTypeName typeName).isSome then some (.resourceTaken typeName)
  else none

def addResource (name : Text) (descriptor : ResourceDescriptor) (r : Registries) : Registries :=
  { r with
    resourcesByTypeName := update r.resourcesByTypeName (descriptor.typeName.getD [])
      (some ⟨name, descriptor.typeName.getD [], descriptor.isResource,
        descriptor.destroyFunction.getD [], descriptor.moveIntoFunction.getD [],
        optionalField descriptor 0 descriptor.copyMessageFunction,
        optionalField descriptor 1 descriptor.makeImmutableFunction,
        optionalField descriptor 2 descriptor.rehomeFunction⟩) }

def resourceTableFault (name : Text) (resources : Table ResourceDescriptor) (_ : Registries) :
    Option RegisterError :=
  if resources.isMissing then some (.noResourceTable name) else none

/-! ## Virtual modules -/

def addVirtualModule (name : Text) (r : Registries) (mod : VirtualModule) : Registries :=
  match mod.moduleName, mod.moduleSource with
  | some moduleName, some source =>
      { r with
        virtualModulesByName := update r.virtualModulesByName moduleName (some ⟨name, source⟩) }
  | _, _ => r

/-! ## Emptying -/

/-- The index of a list by a key, rebuilt: the first of each key counts. -/
def indexOf {α : Type} (key : α → Text) (rows : List α) : Text → Option ℕ := fun k =>
  rows.findIdx? fun row => key row = k

/-- `UnregisterSyntaxPlugin` -/
def unregister (pluginName : Text) (r : Registries) : Registries :=
  let rules := r.rules.filter (·.pluginName ≠ pluginName)
  let opaqueRules := r.opaqueRules.filter (·.pluginName ≠ pluginName)
  let operators := r.binaryOperators.filter (·.pluginName ≠ pluginName)
  { rules := rules
    rulesByKeyword := indexOf (·.keyword) rules
    opaqueRules := opaqueRules
    opaqueRulesByKeyword := indexOf (·.keyword) opaqueRules
    preludes := r.preludes.filter (·.pluginName ≠ pluginName)
    binaryOperators := operators
    binaryOperatorsBySignature :=
      indexOf (fun op => operatorKey op.leftType op.operatorText op.rightType) operators
    resourcesByTypeName := fun typeName =>
      (r.resourcesByTypeName typeName).filter (·.pluginName ≠ pluginName)
    virtualModulesByName := fun moduleName =>
      (r.virtualModulesByName moduleName).filter (·.pluginName ≠ pluginName) }

end Registries

open Registries

/-! ## The registration functions -/

def registerSyntaxPlugin : Option SyntaxPlugin → Registration
  | none => throw .nullDescriptor
  | some plugin => guarded (fun r => r.syntaxPluginFault plugin) (addSyntaxPlugin plugin)

def registerSyntaxPluginPrelude (name : Text) (source : Option Text) : Registration :=
  guarded (preludeFault name source) (addPrelude name source)

/-- A null table is accepted, here and below. -/
def registerPluginBinaryOperators (name : Text) : Option (Table BinaryOperatorRule) → Registration
  | none => pure ⟨⟩
  | some operators => guarded (operatorTableFault name operators) (addOperatorTable name operators)

def registerOpaqueSyntaxRules (name : Text) : Option (Table OpaqueSyntaxRule) → Registration
  | none => pure ⟨⟩
  | some table => guarded (opaqueTableFault name table) (addOpaqueTable name table)

def registerResource (name : Text) (descriptor : ResourceDescriptor) : Registration :=
  guarded (resourceFault name descriptor) (addResource name descriptor)

def registerPluginResources (name : Text) : Option (Table ResourceDescriptor) → Registration
  | none => pure ⟨⟩
  | some resources => do
      guarded (resourceTableFault name resources) id
      resources.list.forM (registerResource name)

def registerPluginVirtualModules (name : Text) :
    Option (List VirtualModule) → Registries → Registries
  | none, r => r
  | some modules, r => modules.foldl (addVirtualModule name) r

end Plugin

end Absolute
