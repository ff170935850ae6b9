import Mathlib.Data.List.Basic
import Absolute.AnTargets
import Absolute.LibFolds

/-!
# What a const method can still write to

`inReceiver` says which targets denote storage of the receiver: its fields by name
or through `this`, and what lies in them without a pointer in between.
`IsConstMutationTarget` refuses such a target in three ways: by the symbol of the
whole target, by a bare field with subscripts, and by the symbol the path starts
from, where `this` counts as const. A path of members that starts from a field, or
from `*this`, gets past all three.
-/

namespace Absolute

namespace Hierarchy

open Folded (bind_eq_ok)

/-! ## Storage of the receiver -/

/-- A member that has a place of its own in the base. -/
def namesStorage (C : Scope) (mode : AccessMode) (base : Result) (member : TypeName) : Bool :=
  match evaluateMember C mode base member with
  | .error _ => false
  | .ok result => result.isLValue ∧ result.symbol.all fun symbol => symbol.kind ≠ .Property

/-- `pointer[..]` that is no indexer. -/
def isRawSubscript (C : Scope) (base : Result) (indexes : List (Option TypeName)) : Bool :=
  match C.selectIndexer base.type indexes.reduceOption with
  | .ok none => true
  | _ => false

/-- The receiver, or a part of it that is not behind a pointer. -/
def inReceiver (C : Scope) (mode : AccessMode) : Expr → Bool
  | .identifier name => (C.lookupSymbol name).any fun symbol =>
      symbol.kind = .Field ∧ !symbol.isStatic
  | .memberAccess base member => !isQualified C base member &&
      match evaluate C mode base with
      | .error _ => false
      | .ok result => namesStorage C mode result member &&
          if isPointerType result.type then isThis base else inReceiver C mode base
  | .arrayAccess base indexes =>
      match evaluate C mode base with
      | .error _ => false
      | .ok result =>
          if arrayRank result.type = 0 then isThis base && isRawSubscript C result indexes
          else inReceiver C mode base
  | .slice base _ => inReceiver C mode base
  | .dereference operand => isThis operand
  | .other _ _ => false

/-- The body of a const method: `this` is a const parameter. -/
structure ConstMethod where
  scope : Scope
  isConst : scope.currentMethodConst = true
  notStatic : scope.currentMethodStatic = false
  notConstructor : scope.currentConstructor = false
  receiver : Symbol
  lookup_this : scope.lookupSymbol "this".toList = some receiver
  receiver_kind : receiver.kind = .Parameter
  receiver_const : receiver.isConst = true
  receiver_raw : isRawPointerType receiver.type = true

/-- A place of the receiver is what the mutation is written for. -/
def TargetsReceiver (C : Scope) (m : Mutation) (target : Expr) : Prop :=
  inReceiver C m.accessMode target = true ∧
    ∃ result, evaluate C m.accessMode target = .ok result ∧ result.isLValue = true

/-- The symbol the path starts from is declared const. -/
def startsConst (C : Scope) (mode : AccessMode) (target : Expr) : Bool :=
  ((evaluate C mode (receiverRoot target)).toOption.bind (·.symbol)).any (·.isConst)

/-- The ways of writing a target that the check follows: the last field is declared
const, there is nothing but subscripts behind a field, or the path starts from
`this` or something else that is const. -/
def Followed (C : Scope) (m : Mutation) (target : Expr) : Prop :=
  (∃ result symbol, evaluate C m.accessMode target = .ok result ∧ result.symbol = some symbol ∧
      (symbol.isConst = true ∨ hasExplicitReceiver target = false))
    ∨ startsConst C m.accessMode target = true

variable {C : Scope} {mode : AccessMode}

/-! ## Evaluations that report nothing -/

theorem tupleElements_of_isPointerType {type : TypeName} (h : isPointerType type = true) :
    tupleElements type = none := by
  simp [tupleElements, parseGenericTypeName_of_isPointerType h]

theorem isPointerType_of_isRawPointerType {type : TypeName}
    (h : isRawPointerType type = true) : isPointerType type = true := by
  simp only [isRawPointerType, decide_eq_true_eq] at h
  simp [isPointerType, h]

/-- No lambda gets hold of the receiver. -/
theorem ConstMethod.not_captured (M : ConstMethod)
    (h : recordCapture M.scope M.receiver = .ok ()) : isCaptured M.scope M.receiver = false := by
  have hpointer := isPointerType_of_isRawPointerType M.receiver_raw
  have hfunction : isFunctionType M.receiver.type = false := by
    simp [isFunctionType, parseGenericTypeName_of_isPointerType hpointer]
  unfold recordCapture at h
  by_contra hcaptured
  simp [hcaptured, hpointer, hfunction] at h
  split at h <;> cases h

theorem evaluate_field (M : ConstMethod) {name : TypeName} {symbol : Symbol} {result : Result}
    (hlookup : M.scope.lookupSymbol name = some symbol) (hkind : symbol.kind = .Field)
    (hstatic : symbol.isStatic = false)
    (h : evaluate M.scope mode (.identifier name) = .ok result) :
    result = ⟨some symbol, symbol.type, true⟩ := by
  have hcaptured : capturedSymbol M.scope symbol = some M.receiver := by
    rw [capturedSymbol, if_neg (by simp [hkind]), if_pos (by simp [hkind, hstatic]),
      M.lookup_this]
  rw [evaluate, evaluateIdentifier, hlookup] at h
  simp only [M.notStatic, Bool.false_eq_true, false_and, if_false, hcaptured,
    Option.map_some, Option.getD_some, Option.any_some] at h
  obtain ⟨-, -, h⟩ := bind_eq_ok.mp h
  obtain ⟨⟨⟩, hrecord, h⟩ := bind_eq_ok.mp h
  rw [M.not_captured hrecord] at h
  simpa [hkind, eq_comm] using h

/-! ## What evaluates to a place of the receiver -/

/-- The symbol of a place in the receiver, where it has one, is a field, and the
place is one, or the view of an array. -/
def PlaceResult (result : Result) : Prop :=
  (∀ symbol, result.symbol = some symbol → symbol.kind = .Field) ∧
    (result.isLValue = true ∨ 0 < arrayRank result.type)

theorem not_isPointerType_of_tuple {type : TypeName} {elements : List TypeName}
    (h : tupleElements type = some elements) : isPointerType type = false := by
  by_contra hpointer
  simp [tupleElements_of_isPointerType (by simpa using hpointer)] at h

theorem evaluateCount_lvalue {result : Result} (h : evaluateCount mode = .ok result) :
    result.isLValue = false := by
  unfold evaluateCount at h
  split at h
  · cases h; rfl
  · cases h

/-- A member that has storage is a field, or an item of a tuple. -/
theorem evaluateMember_storage {base result : Result} {member : TypeName}
    (h : evaluateMember C mode base member = .ok result)
    (hstorage : namesStorage C mode base member = true) :
    result.isLValue = true ∧
      ((∃ symbol, result.symbol = some symbol ∧ symbol.kind = .Field)
        ∨ (result.symbol = base.symbol ∧ base.isLValue = true ∧
            isPointerType base.type = false)) := by
  simp only [namesStorage, h, decide_eq_true_eq] at hstorage
  obtain ⟨hlvalue, hkind⟩ := hstorage
  refine ⟨hlvalue, ?_⟩
  unfold evaluateMember at h
  split at h
  · simp [evaluateCount_lvalue h] at hlvalue
  split at h
  · rename_i elements htuple
    split at h
    · simp [evaluateCount_lvalue h] at hlvalue
    split at h
    · cases h
      exact .inr ⟨rfl, hlvalue, not_isPointerType_of_tuple htuple⟩
    · cases h
  · unfold evaluateField at h
    dsimp only at h
    split at h
    · rename_i property hfind
      obtain ⟨-, -, h⟩ := bind_eq_ok.mp h
      cases h
      have hproperty := List.find?_some hfind
      simp [MemberSignature.declared] at hkind hproperty
      exact absurd hproperty.1 hkind
    · split at h
      · rename_i field hfind
        obtain ⟨-, -, h⟩ := bind_eq_ok.mp h
        cases h
        have hfield := List.find?_some hfind
        simp only [decide_eq_true_eq] at hfield
        exact .inl ⟨_, rfl, hfield.1⟩
      · split at h <;> cases h

/-- The subscript of an array keeps the symbol of the array. -/
theorem evaluateAccess_array {base result : Result} {indexes : List (Option TypeName)}
    (h : evaluateAccess C mode base indexes = .ok result) (hrank : arrayRank base.type ≠ 0) :
    result.symbol = base.symbol ∧ (result.isLValue = true ∨ 0 < arrayRank result.type) := by
  unfold evaluateAccess at h
  split at h
  · cases h
    exact ⟨rfl, .inr (Nat.pos_of_ne_zero hrank)⟩
  iterate 3
    split at h
    · cases h
  cases h
  exact ⟨rfl, .inl rfl⟩

/-- The subscript of a raw pointer has no symbol. -/
theorem evaluateAccess_pointer {base result : Result} {indexes : List (Option TypeName)}
    (h : evaluateAccess C mode base indexes = .ok result) (hrank : arrayRank base.type = 0)
    (hraw : isRawSubscript C base indexes = true) :
    result.symbol = none ∧ result.isLValue = true := by
  have hslice : isFullSlice base indexes = false := by simp [isFullSlice, hrank]
  unfold evaluateAccess at h
  rw [hslice] at h
  simp only [Bool.false_eq_true, if_false] at h
  split at h
  · cases h
  rw [evaluateSubscript] at h
  unfold isRawSubscript at hraw
  split at hraw
  · rename_i hselect
    rw [hselect] at h
    change evaluatePointer base _ = _ at h
    unfold evaluatePointer at h
    iterate 3
      split at h
      · cases h
    cases h
    exact ⟨rfl, rfl⟩
  · cases hraw

theorem evaluateSlice_eq {base result : Result}
    {ranges : List (Option TypeName × Option TypeName)}
    (h : evaluateSlice base ranges = .ok result) :
    result.symbol = base.symbol ∧ 0 < arrayRank result.type := by
  unfold evaluateSlice at h
  split at h
  · cases h
  rename_i hrank
  iterate 2
    split at h
    · cases h
  cases h
  exact ⟨rfl, Nat.pos_of_ne_zero hrank⟩

theorem evaluateDereference_eq {operand result : Result}
    (h : evaluateDereference operand = .ok result) :
    result.symbol = none ∧ result.isLValue = true := by
  unfold evaluateDereference at h
  split at h
  · cases h
    exact ⟨rfl, rfl⟩
  · cases h

theorem placeResult_of_inReceiver (M : ConstMethod) {target : Expr} {result : Result}
    (hin : inReceiver M.scope mode target = true)
    (h : evaluate M.scope mode target = .ok result) : PlaceResult result := by
  induction target generalizing result with
  | identifier name =>
      simp only [inReceiver, Option.any_eq_true, decide_eq_true_eq, Bool.not_eq_true'] at hin
      obtain ⟨symbol, hlookup, hkind, hstatic⟩ := hin
      rw [evaluate_field M hlookup hkind hstatic h]
      refine ⟨fun s hs => ?_, .inl rfl⟩
      obtain rfl := Option.some.inj hs
      exact hkind
  | memberAccess base member ih =>
      simp only [inReceiver, Bool.and_eq_true, Bool.not_eq_true'] at hin
      obtain ⟨hqualified, hin⟩ := hin
      rw [evaluate, if_neg (by simp [hqualified])] at h
      obtain ⟨b, hbase, h⟩ := bind_eq_ok.mp h
      simp only [hbase, Bool.and_eq_true] at hin
      obtain ⟨hstorage, hin⟩ := hin
      obtain ⟨hlvalue, ⟨symbol, hsymbol, hkind⟩ | ⟨hsymbol, -, hpointer⟩⟩ :=
        evaluateMember_storage h hstorage
      · refine ⟨fun s hs => ?_, .inl hlvalue⟩
        obtain rfl := Option.some.inj (hsymbol.symm.trans hs)
        exact hkind
      · rw [if_neg (by simp [hpointer])] at hin
        exact ⟨fun s hs => (ih hin hbase).1 s (hsymbol ▸ hs), .inl hlvalue⟩
  | arrayAccess base indexes ih =>
      rw [evaluate] at h
      obtain ⟨b, hbase, h⟩ := bind_eq_ok.mp h
      simp only [inReceiver, hbase] at hin
      split at hin
      · rename_i hrank
        obtain ⟨hsymbol, hlvalue⟩ :=
          evaluateAccess_pointer h hrank (Bool.and_eq_true _ _ ▸ hin).2
        exact ⟨fun s hs => by simp [hsymbol] at hs, .inl hlvalue⟩
      · rename_i hrank
        obtain ⟨hsymbol, hplace⟩ := evaluateAccess_array h hrank
        exact ⟨fun s hs => (ih hin hbase).1 s (hsymbol ▸ hs), hplace⟩
  | slice base ranges ih =>
      rw [evaluate] at h
      obtain ⟨b, hbase, h⟩ := bind_eq_ok.mp h
      obtain ⟨hsymbol, hrank⟩ := evaluateSlice_eq h
      exact ⟨fun s hs => (ih hin hbase).1 s (hsymbol ▸ hs), .inr hrank⟩
  | dereference operand _ =>
      rw [evaluate] at h
      obtain ⟨_, -, h⟩ := bind_eq_ok.mp h
      obtain ⟨hsymbol, hlvalue⟩ := evaluateDereference_eq h
      exact ⟨fun s hs => by simp [hsymbol] at hs, .inl hlvalue⟩
  | other => simp [inReceiver] at hin

/-! ## The two walks over a target -/

/-- A place is addressable, and the view of an array is no copy. -/
theorem PlaceResult.not_isCopy {result : Result} (h : PlaceResult result) :
    isCopy result = false := by
  rcases h.2 with hlvalue | hrank
  · have hplace : addressable result = true := by
      simp only [addressable, decide_eq_true_eq, hlvalue, true_and, Option.all_eq_true_iff_get]
      intro hsome
      rw [h.1 _ (Option.some_get hsome).symm]
      decide
    simp [isCopy, hplace]
  · simp [isCopy, Nat.ne_of_gt hrank]

/-- A step along a path that stays in the receiver. -/
theorem inReceiver_base (M : ConstMethod) {base : Expr} {member : TypeName} {result : Result}
    (hin : inReceiver M.scope mode (.memberAccess base member) = true)
    (h : evaluate M.scope mode (.memberAccess base member) = .ok result) :
    isQualified M.scope base member = false ∧
      ∃ b, evaluate M.scope mode base = .ok b ∧
        evaluateMember M.scope mode b member = .ok result ∧
        namesStorage M.scope mode b member = true ∧
        (if isPointerType b.type then isThis base else inReceiver M.scope mode base) = true := by
  simp only [inReceiver, Bool.and_eq_true, Bool.not_eq_true'] at hin
  obtain ⟨hqualified, hin⟩ := hin
  rw [evaluate, if_neg (by simp [hqualified])] at h
  obtain ⟨b, hbase, h⟩ := bind_eq_ok.mp h
  simp only [hbase, Bool.and_eq_true] at hin
  exact ⟨hqualified, b, hbase, h, hin⟩

theorem isThis_iff {e : Expr} : isThis e = true ↔ e = .identifier "this".toList := by
  cases e <;> simp [isThis]

theorem evaluate_this (M : ConstMethod) {result : Result}
    (h : evaluate M.scope mode (.identifier "this".toList) = .ok result) :
    result = ⟨some M.receiver, M.receiver.type, true⟩ := by
  have hcaptured : capturedSymbol M.scope M.receiver = some M.receiver := by
    rw [capturedSymbol, if_pos (by simp [M.receiver_kind])]
  rw [evaluate, evaluateIdentifier, M.lookup_this] at h
  simp only [M.notStatic, Bool.false_eq_true, false_and, if_false, hcaptured,
    Option.map_some, Option.getD_some, Option.any_some] at h
  obtain ⟨-, -, h⟩ := bind_eq_ok.mp h
  obtain ⟨⟨⟩, hrecord, h⟩ := bind_eq_ok.mp h
  rw [M.not_captured hrecord] at h
  simpa [M.receiver_kind, eq_comm] using h

theorem isConstSymbol_eq (M : ConstMethod) : isConstSymbol M.scope = (·.isConst) := by
  funext symbol
  simp [isConstSymbol, M.notConstructor]

theorem startsConst_eq (M : ConstMethod) (target : Expr) :
    startsConst M.scope mode target
      = ((expressionInfo M.scope mode true (receiverRoot target)).bind (·.symbol)).any
          (isConstSymbol M.scope) := by
  rw [isConstSymbol_eq M]
  rfl

theorem hasConstRoot_identifier (M : ConstMethod) (name : TypeName) :
    hasConstRoot M.scope mode true (.identifier name)
      = startsConst M.scope mode (.identifier name) := by
  rw [startsConst_eq M]
  rfl

/-- On a path through the receiver the second walk gets to where the path starts,
unless it starts from `this` and the target is a field. -/
theorem hasConstRoot_of_inReceiver (M : ConstMethod) {target : Expr} {result : Result}
    (hin : inReceiver M.scope mode target = true)
    (h : evaluate M.scope mode target = .ok result) :
    hasConstRoot M.scope mode true target = startsConst M.scope mode target
      ∨ isThis (receiverRoot target) = true ∧ result.symbol.isSome = true := by
  induction target generalizing result with
  | identifier name => exact .inl (hasConstRoot_identifier M name)
  | memberAccess base member ih =>
      obtain ⟨hqualified, b, hbase, hmember, hstorage, hin⟩ := inReceiver_base M hin h
      obtain ⟨-, hfield⟩ := evaluateMember_storage hmember hstorage
      split at hin
      · rename_i hpointer
        obtain rfl := Iff.mp isThis_iff hin
        rcases hfield with ⟨symbol, hsymbol, -⟩ | ⟨-, -, hvalue⟩
        · exact .inr ⟨hin, by simp [hsymbol]⟩
        · simp [hpointer] at hvalue
      · rename_i hpointer
        have hstep : hasConstRoot M.scope mode true (.memberAccess base member)
            = hasConstRoot M.scope mode true base := by
          simp [hasConstRoot, hqualified, expressionInfo, hbase, Except.toOption, hpointer]
        rw [hstep]
        refine (ih hin hbase).imp id fun ⟨hthis, hsome⟩ => ⟨hthis, ?_⟩
        rcases hfield with ⟨symbol, hsymbol, -⟩ | ⟨hsymbol, -, -⟩
        · simp [hsymbol]
        · rwa [hsymbol]
  | arrayAccess base indexes ih =>
      rw [evaluate] at h
      obtain ⟨b, hbase, h⟩ := bind_eq_ok.mp h
      simp only [inReceiver, hbase] at hin
      split at hin
      · obtain rfl := Iff.mp isThis_iff ((Bool.and_eq_true _ _).mp hin).1
        exact .inl (hasConstRoot_identifier M _)
      · rename_i hrank
        rw [(evaluateAccess_array h hrank).1]
        exact ih hin hbase
  | slice base ranges _ =>
      left
      rw [startsConst_eq M]
      rfl
  | dereference operand _ =>
      left
      rw [startsConst_eq M]
      rfl
  | other => simp [inReceiver] at hin

theorem not_isCopy_of_isPointerType {result : Result} (h : isPointerType result.type = true) :
    isCopy result = false := by
  simp [isCopy, h]

/-- Nothing on a path through the receiver is a copy. -/
theorem writesThroughCopy_of_inReceiver (M : ConstMethod) {target : Expr} {result : Result}
    (hin : inReceiver M.scope mode target = true)
    (h : evaluate M.scope mode target = .ok result) :
    writesThroughCopy M.scope mode true target = false := by
  induction target generalizing result with
  | memberAccess base member ih =>
      obtain ⟨hqualified, b, hbase, -, -, hin⟩ := inReceiver_base M hin h
      have hstep : writesThroughCopy M.scope mode true (.memberAccess base member)
          = (isCopy b || writesThroughCopy M.scope mode true base) := by
        simp [writesThroughCopy, hqualified, expressionInfo, hbase, Except.toOption]
      rw [hstep]
      split at hin
      · rename_i hpointer
        obtain rfl := Iff.mp isThis_iff hin
        simp [not_isCopy_of_isPointerType hpointer, writesThroughCopy]
      · simp [(placeResult_of_inReceiver M hin hbase).not_isCopy, ih hin hbase]
  | arrayAccess base indexes ih =>
      rw [evaluate] at h
      obtain ⟨b, hbase, h⟩ := bind_eq_ok.mp h
      have hstep : writesThroughCopy M.scope mode true (.arrayAccess base indexes)
          = (isCopy b || writesThroughCopy M.scope mode true base) := by
        simp [writesThroughCopy, expressionInfo, hbase, Except.toOption]
      rw [hstep]
      simp only [inReceiver, hbase] at hin
      split at hin
      · obtain rfl := Iff.mp isThis_iff ((Bool.and_eq_true _ _).mp hin).1
        have hpointer : isPointerType b.type = true := by
          rw [evaluate_this M hbase]
          exact isPointerType_of_isRawPointerType M.receiver_raw
        simp [not_isCopy_of_isPointerType hpointer, writesThroughCopy]
      · simp [(placeResult_of_inReceiver M hin hbase).not_isCopy, ih hin hbase]
  | _ => rfl

theorem startsConst_of_isThis (M : ConstMethod) {target : Expr} {result : Result}
    (hthis : isThis (receiverRoot target) = true)
    (h : evaluate M.scope mode (receiverRoot target) = .ok result) :
    startsConst M.scope mode target = true := by
  rw [Iff.mp isThis_iff hthis] at h
  obtain rfl := evaluate_this M h
  rw [startsConst, Iff.mp isThis_iff hthis, h]
  exact M.receiver_const

/-- What evaluates on a path through the receiver evaluates from its start. -/
theorem evaluate_receiverRoot (M : ConstMethod) {target : Expr} {result : Result}
    (hin : inReceiver M.scope mode target = true)
    (h : evaluate M.scope mode target = .ok result) :
    ∃ root, evaluate M.scope mode (receiverRoot target) = .ok root := by
  induction target generalizing result with
  | memberAccess base member ih =>
      obtain ⟨-, b, hbase, -, -, hin⟩ := inReceiver_base M hin h
      split at hin
      · obtain rfl := Iff.mp isThis_iff hin
        exact ⟨b, hbase⟩
      · exact ih hin hbase
  | arrayAccess base indexes ih =>
      rw [evaluate] at h
      obtain ⟨b, hbase, h⟩ := bind_eq_ok.mp h
      simp only [inReceiver, hbase] at hin
      split at hin
      · obtain rfl := Iff.mp isThis_iff ((Bool.and_eq_true _ _).mp hin).1
        exact ⟨b, hbase⟩
      · exact ih hin hbase
  | _ => exact ⟨result, h⟩

/-! ## The verdict -/

/-- On a place of the receiver the check says yes where it follows the spelling. -/
theorem isConstMutationTarget_iff (M : ConstMethod) (m : Mutation) {target : Expr}
    {result : Result} (hin : inReceiver M.scope m.accessMode target = true)
    (h : evaluate M.scope m.accessMode target = .ok result) :
    isConstMutationTarget M.scope m.accessMode target result = true
      ↔ Followed M.scope m target := by
  obtain ⟨root, hroot⟩ := evaluate_receiverRoot M hin h
  have hfield := (placeResult_of_inReceiver M hin h).1
  constructor
  · intro hconst
    rcases (Bool.or_eq_true _ _).mp hconst with hsymbol | hstart
    · obtain ⟨symbol, hsome, hcheck⟩ := (Option.any_eq_true _ _).mp hsymbol
      simp only [isConstSymbol_eq M, decide_eq_true_eq] at hcheck
      rcases hcheck with hdeclared | ⟨-, -, hbare | hthis⟩
      · exact .inl ⟨result, symbol, h, hsome, .inl hdeclared⟩
      · exact .inl ⟨result, symbol, h, hsome, .inr (by simpa using hbare)⟩
      · exact .inr (startsConst_of_isThis M hthis hroot)
    · rcases hasConstRoot_of_inReceiver M hin h with heq | ⟨hthis, -⟩
      · exact .inr (heq ▸ hstart)
      · exact .inr (startsConst_of_isThis M hthis hroot)
  · have hsymbol_check : ∀ symbol, result.symbol = some symbol →
        (symbol.isConst = true ∨ hasExplicitReceiver target = false
          ∨ isThis (receiverRoot target) = true) →
        isConstMutationTarget M.scope m.accessMode target result = true := by
      intro symbol hsome hcheck
      refine (Bool.or_eq_true _ _).mpr (.inl ?_)
      rw [hsome, Option.any_some, decide_eq_true_eq, isConstSymbol_eq M]
      rcases hcheck with hdeclared | hbare | hthis
      · exact .inl hdeclared
      · exact .inr ⟨M.isConst, .inl (hfield symbol hsome), .inl (by simp [hbare])⟩
      · exact .inr ⟨M.isConst, .inl (hfield symbol hsome), .inr hthis⟩
    rintro (⟨result', symbol, h', hsome, hcheck⟩ | hstart)
    · obtain rfl : result = result' := Except.ok.inj (h.symm.trans h')
      exact hsymbol_check symbol hsome (hcheck.imp id .inl)
    · rcases hasConstRoot_of_inReceiver M hin h with heq | ⟨hthis, hsome⟩
      · exact (Bool.or_eq_true _ _).mpr (.inr (heq ▸ hstart))
      · obtain ⟨symbol, hsome⟩ := Option.isSome_iff_exists.mp hsome
        exact hsymbol_check symbol hsome (.inr (.inr hthis))

/-- A place of the receiver is refused for being const, or not at all. -/
theorem acceptsTarget_iff (M : ConstMethod) (m : Mutation) {target : Expr}
    (h : TargetsReceiver M.scope m target) :
    acceptsTarget M.scope m target = true ↔ ¬Followed M.scope m target := by
  obtain ⟨hin, result, heval, hlvalue⟩ := h
  rw [← isConstMutationTarget_iff M m hin heval]
  simp [acceptsTarget, heval, hlvalue, writesThroughCopy_of_inReceiver M hin heval]

/-- `struct Inner { int32 x; }` and `class C { Inner inner; .. }`, in a const method
of `C`. -/
def nestedMethod : ConstMethod where
  scope := {
    lookupSymbol := fun name =>
      if name = "this".toList then
        some { kind := .Parameter, type := "raw C*".toList, isConst := true, scopeDepth := 2 }
      else if name = "inner".toList then
        some { kind := .Field, type := "Inner".toList, memberOwner := "C".toList, scopeDepth := 1 }
      else none
    typeReceiver := fun _ => none
    findMembers := fun type member =>
      if type = "Inner".toList ∧ member = "x".toList then
        [{ type := "int32".toList, symbol := 0, owner := "Inner".toList }]
      else []
    selectIndexer := fun _ _ => .ok none
    canAccess := fun _ _ => true
    typeOwnsUniqueResource := fun _ => false
    indexerBorrowProjection := id
    lambdaContexts := []
    currentMethodStatic := false
    currentMethodConst := true
    currentConstructor := false }
  isConst := rfl
  notStatic := rfl
  notConstructor := rfl
  receiver := { kind := .Parameter, type := "raw C*".toList, isConst := true, scopeDepth := 2 }
  lookup_this := rfl
  receiver_kind := rfl
  receiver_const := rfl
  receiver_raw := by decide

example : acceptsTarget nestedMethod.scope .assignment
    (.memberAccess (.memberAccess (.identifier "this".toList) "inner".toList) "x".toList)
      = false := by decide

end Hierarchy

end Absolute
