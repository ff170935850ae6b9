import Mathlib.Data.List.Basic
import Absolute.AnConstMethods

/-!
# What can still be done to a const value

A const variable or parameter of value type, the statements around it, and the const
methods these call on it or on a part of it. A mutation goes through
`IsConstMutationTarget`, which follows members and subscripts back to the variable,
but not a slice. A call is asked only whether it stands in a const method, so that a
method that is not const is called on a const value like any other.
-/

namespace Absolute

namespace Hierarchy

open Folded (bind_eq_ok)

/-! ## Const variables -/

/-- What is selected for a subscript is an indexer. -/
def SelectsIndexers (C : Scope) : Prop :=
  ∀ type indexTypes indexer, C.selectIndexer type indexTypes = .ok (some indexer) →
    indexer.kind = .Indexer

/-- A const variable or parameter where it is in scope, not captured: in a lambda its
name stands for a copy. -/
structure ConstVariable where
  scope : Scope
  name : TypeName
  symbol : Symbol
  lookup_name : scope.lookupSymbol name = some symbol
  symbol_kind : symbol.kind = .Variable ∨ symbol.kind = .Parameter
  isConst : symbol.isConst = true
  notPointer : isPointerType symbol.type = false
  notCaptured : isCaptured scope symbol = false
  indexers : SelectsIndexers scope

structure ConstBody extends ConstMethod where
  indexers : SelectsIndexers scope

/-- The variable, or a part of it that is not behind a pointer. -/
def inVariable (C : Scope) (mode : AccessMode) (name : TypeName) : Expr → Bool
  | .identifier n => n = name
  | .memberAccess base member => !isQualified C base member &&
      match evaluate C mode base with
      | .error _ => false
      | .ok result => namesStorage C mode result member && !isPointerType result.type
          && inVariable C mode name base
  | .arrayAccess base _ =>
      match evaluate C mode base with
      | .error _ => false
      | .ok result => arrayRank result.type ≠ 0 && inVariable C mode name base
  | .slice base _ => inVariable C mode name base
  | .dereference _ => false
  | .other _ _ => false

/-- It evaluates, and to no pointer. -/
def isValue (C : Scope) (mode : AccessMode) (e : Expr) : Bool :=
  (evaluate C mode e).toOption.any fun result => !isPointerType result.type

/-! ## Statements -/

/-- What a call reads of the symbol it selects. -/
structure Callee where
  symbol : Symbol
  extensionFunction : Bool := false
  parameterTypes : List TypeName := []

namespace Callee

def isInstanceMethod (callee : Callee) : Bool :=
  callee.symbol.kind = .Method ∧ !callee.symbol.isStatic

def isConstMethod (callee : Callee) : Bool := callee.isInstanceMethod && callee.symbol.isConst

/-- The receiver of an extension is its first argument. -/
def borrowsReceiver (callee : Callee) : Bool :=
  callee.extensionFunction && callee.parameterTypes.head?.any fun type =>
    isValueReferenceType type && !isConstValueReferenceType type

def mutatesReceiver (callee : Callee) : Bool :=
  callee.isInstanceMethod && !callee.symbol.isConst || callee.borrowsReceiver

end Callee

/-- A call stands with the symbol that is selected, and the bodies that may run for
it. -/
inductive Statement (ι : Type) where
  | mutate (m : Mutation) (target : Expr)
  | call (mode : AccessMode) (receiver : Option Expr) (callee : Callee) (bodies : List ι)

/-- The methods there are; `none` is one that is not const. -/
structure Program (ι : Type) where
  constMethod : ι → Option ConstBody
  statements : ι → List (Statement ι)

/-- The receiver evaluates, and the method is accessible. -/
def callable (C : Scope) (mode : AccessMode) (receiver : Option Expr) (callee : Callee) : Bool :=
  (receiver.all fun e => (evaluate C mode e).toOption.isSome)
    && (callee.symbol.kind ≠ .Method || C.canAccess callee.symbol.access callee.symbol.memberOwner)

/-- `Visit(FunctionCallExpr)`, as far as it looks at the receiver. -/
def acceptsCall (C : Scope) (mode : AccessMode) (receiver : Option Expr) (callee : Callee) : Bool :=
  callable C mode receiver callee
    && !(C.currentMethodConst && callee.isInstanceMethod && !callee.symbol.isConst)

variable {ι : Type}

def Accepts (C : Scope) : Statement ι → Prop
  | .mutate m target => acceptsTarget C m target = true
  | .call mode receiver callee _ => acceptsCall C mode receiver callee = true

def Program.Accepted (P : Program ι) : Prop :=
  ∀ i M, P.constMethod i = some M → ∀ s ∈ P.statements i, Accepts M.scope s

/-! ## What a statement does to an object -/

/-- The object as a place in the program sees it: a const variable, or the receiver of
a const method. -/
inductive Frame where
  | ofVariable (V : ConstVariable)
  | ofReceiver (M : ConstBody)

namespace Frame

def scope : Frame → Scope
  | .ofVariable V => V.scope
  | .ofReceiver M => M.scope

/-- The object, or a part of it that is not behind a pointer. -/
def holds (mode : AccessMode) : Frame → Expr → Bool
  | .ofVariable V => inVariable V.scope mode V.name
  | .ofReceiver M => inReceiver M.scope mode

/-- It names the object by itself. -/
def isWhole : Frame → Expr → Bool
  | .ofVariable _ => fun _ => false
  | .ofReceiver _ => isThis

/-- A member of the receiver by its bare name. -/
def isBareMember : Frame → TypeName → Bool
  | .ofVariable V => fun n => n = V.name
  | .ofReceiver M => fun n => (M.scope.lookupSymbol n).any fun symbol =>
      isMember symbol ∧ !symbol.isStatic

/-- A part of the object, or a property or an indexer of one. -/
def reaches (F : Frame) (mode : AccessMode) : Expr → Bool
  | .identifier n => F.isBareMember n
  | .memberAccess base member => !isQualified F.scope base member
      && (F.isWhole base || isValue F.scope mode base && F.holds mode base)
  | .arrayAccess base _ => F.isWhole base || isValue F.scope mode base && F.holds mode base
  | .slice base _ => F.holds mode base
  | .dereference operand => F.isWhole operand
  | .other _ _ => false

/-- The call is made on the object or on a part of it. -/
def CalledOn (F : Frame) (mode : AccessMode) (receiver : Option Expr) (callee : Callee) : Prop :=
  callable F.scope mode receiver callee = true ∧
    match F, receiver with
    | .ofVariable _, none => False
    | .ofReceiver _, none => callee.isInstanceMethod = true
    | F, some e => F.isWhole e = true ∨ isValue F.scope mode e = true ∧ F.holds mode e = true

end Frame

/-- The statement writes to the object by itself: it is a mutation of a part of it, or
it calls on a part of it what is not const, or what may run a body that is not. -/
def WritesHere (P : Program ι) (F : Frame) : Statement ι → Prop
  | .mutate m target => F.reaches m.accessMode target = true ∧
      ∃ result, evaluate F.scope m.accessMode target = .ok result ∧ result.isLValue = true
  | .call mode receiver callee bodies => F.CalledOn mode receiver callee ∧
      (callee.mutatesReceiver = true
        ∨ callee.isConstMethod = true ∧ ∃ i ∈ bodies, P.constMethod i = none)

/-- The statement writes to the object, by itself or in a const method it calls. -/
inductive Writes (P : Program ι) : Frame → Statement ι → Prop where
  | here {F : Frame} {s : Statement ι} : WritesHere P F s → Writes P F s
  | call {F : Frame} {mode : AccessMode} {receiver : Option Expr} {callee : Callee}
      {bodies : List ι} {i : ι} {M : ConstBody} {s : Statement ι} :
      F.CalledOn mode receiver callee → callee.isConstMethod = true → i ∈ bodies →
      P.constMethod i = some M → s ∈ P.statements i → Writes P (.ofReceiver M) s →
      Writes P F (.call mode receiver callee bodies)

/-- What is run on the object by a statement: itself, and what stands in the const
methods that are called. -/
inductive Reaches (P : Program ι) : Frame → Statement ι → Frame → Statement ι → Prop where
  | refl (F : Frame) (s : Statement ι) : Reaches P F s F s
  | call {F F' : Frame} {mode : AccessMode} {receiver : Option Expr} {callee : Callee}
      {bodies : List ι} {i : ι} {M : ConstBody} {s s' : Statement ι} :
      F.CalledOn mode receiver callee → callee.isConstMethod = true → i ∈ bodies →
      P.constMethod i = some M → s ∈ P.statements i → Reaches P (.ofReceiver M) s F' s' →
      Reaches P F (.call mode receiver callee bodies) F' s'

/-! ## What the checks follow -/

/-- The symbol the path starts from counts as const. -/
def startsConstHere (C : Scope) (mode : AccessMode) (target : Expr) : Bool :=
  ((expressionInfo C mode true (receiverRoot target)).bind (·.symbol)).any (isConstSymbol C)

/-- The path of members and subscripts starts from what is const, so not from a slice;
or what it ends in is declared const, or is written in a const method with nothing but
subscripts. -/
def Traced (C : Scope) (m : Mutation) (target : Expr) : Prop :=
  (∃ result symbol, evaluate C m.accessMode target = .ok result ∧ result.symbol = some symbol ∧
      (isConstSymbol C symbol = true
        ∨ C.currentMethodConst = true ∧ hasExplicitReceiver target = false))
    ∨ startsConstHere C m.accessMode target = true

/-- What is checked refuses the statement: a call only where it stands in a const
method and is of a method that is not const. -/
def TracedHere (F : Frame) : Statement ι → Prop
  | .mutate m target => Traced F.scope m target
  | .call _ _ callee _ => F.scope.currentMethodConst = true ∧ callee.isInstanceMethod = true
      ∧ callee.symbol.isConst = false

variable {C : Scope} {mode : AccessMode} {e base : Expr} {b result : Result}

/-! ## One step of a path -/

/-- What the checks find of an expression that evaluates. -/
structure Checked (C : Scope) (mode : AccessMode) (e : Expr) (result : Result) : Prop where
  evaluates : evaluate C mode e = .ok result
  kind : ∀ symbol, result.symbol = some symbol → isConstSymbol C symbol = true
    ∨ symbol.kind = .Field ∨ symbol.kind = .Property ∨ symbol.kind = .Indexer
  root : hasConstRoot C mode true e = startsConstHere C mode e
    ∨ isThis (receiverRoot e) = true ∧ result.symbol.isSome = true ∧ C.currentMethodConst = true
  this : isThis (receiverRoot e) = true → startsConstHere C mode e = true
  noCopy : writesThroughCopy C mode true e = false

/-- An expression that denotes a place. -/
structure Stored (C : Scope) (mode : AccessMode) (e : Expr) (result : Result) : Prop
    extends Checked C mode e result where
  place : ∀ symbol, result.symbol = some symbol →
    symbol.kind ≠ .Property ∧ symbol.kind ≠ .Indexer
  lvalue : result.isLValue = true ∨ 0 < arrayRank result.type

theorem Checked.isConstMutationTarget_iff {m : Mutation} (h : Checked C m.accessMode e result) :
    isConstMutationTarget C m.accessMode e result = true ↔ Traced C m e := by
  unfold isConstMutationTarget
  rw [Bool.or_eq_true, Option.any_eq_true]
  constructor
  · rintro (⟨symbol, hsymbol, hcheck⟩ | hroot)
    · rw [decide_eq_true_eq] at hcheck
      rcases hcheck with hconst | ⟨hmethod, -, hbare | hthis⟩
      · exact .inl ⟨result, symbol, h.evaluates, hsymbol, .inl hconst⟩
      · rw [Bool.not_eq_true'] at hbare
        exact .inl ⟨result, symbol, h.evaluates, hsymbol, .inr ⟨hmethod, hbare⟩⟩
      · exact .inr (h.this hthis)
    · rcases h.root with heq | ⟨hthis, -⟩
      · exact .inr (heq ▸ hroot)
      · exact .inr (h.this hthis)
  · have hsymbol_check : ∀ symbol, result.symbol = some symbol →
        (isConstSymbol C symbol = true ∨ C.currentMethodConst = true ∧
          (hasExplicitReceiver e = false ∨ isThis (receiverRoot e) = true)) →
        ∃ symbol, result.symbol = some symbol ∧ decide (isConstSymbol C symbol = true ∨
          C.currentMethodConst = true ∧
            (symbol.kind = .Field ∨ symbol.kind = .Property ∨ symbol.kind = .Indexer) ∧
            ((!hasExplicitReceiver e) = true ∨ isThis (receiverRoot e) = true)) = true := by
      intro symbol hsymbol hcheck
      refine ⟨symbol, hsymbol, decide_eq_true ?_⟩
      rcases hcheck with hconst | ⟨hmethod, hspelled⟩
      · exact .inl hconst
      · rcases h.kind symbol hsymbol with hconst | hkind
        · exact .inl hconst
        · exact .inr ⟨hmethod, hkind, hspelled.imp_left fun hbare => by rw [hbare]; rfl⟩
    rintro (⟨result', symbol, hresult, hsymbol, hcheck⟩ | hstart)
    · have heq : result' = result := Except.ok.inj (hresult.symm.trans h.evaluates)
      rw [heq] at hsymbol
      rcases hcheck with hconst | ⟨hmethod, hbare⟩
      · exact .inl (hsymbol_check symbol hsymbol (.inl hconst))
      · exact .inl (hsymbol_check symbol hsymbol (.inr ⟨hmethod, .inl hbare⟩))
    · rcases h.root with heq | ⟨hthis, hsome, hmethod⟩
      · exact .inr (heq ▸ hstart)
      · rcases Option.isSome_iff_exists.mp hsome with ⟨symbol, hsymbol⟩
        exact .inl (hsymbol_check symbol hsymbol (.inr ⟨hmethod, .inr hthis⟩))

/-- A target of these is refused where it is traced, and nowhere else. -/
theorem Checked.acceptsTarget_iff {m : Mutation} (h : Checked C m.accessMode e result)
    (hlvalue : result.isLValue = true) : acceptsTarget C m e = true ↔ ¬Traced C m e := by
  rw [← h.isConstMutationTarget_iff]
  simp [acceptsTarget, h.evaluates, hlvalue, h.noCopy]

theorem Stored.not_isCopy (h : Stored C mode e result) : isCopy result = false := by
  rcases h.lvalue with hlvalue | hrank
  · have hplace : addressable result = true := by
      simp only [addressable, decide_eq_true_eq, hlvalue, true_and, Option.all_eq_true_iff_get]
      intro hsome
      exact h.place _ (Option.some_get hsome).symm
    simp [isCopy, hplace]
  · simp [isCopy, Nat.ne_of_gt hrank]

/-- A member that is an lvalue is a field or a property, or an item of a tuple. -/
theorem evaluateMember_kind {member : TypeName}
    (h : evaluateMember C mode b member = .ok result)
    (hlvalue : result.isLValue = true) :
    (∃ symbol, result.symbol = some symbol ∧ (symbol.kind = .Field ∨ symbol.kind = .Property))
      ∨ result.symbol = b.symbol ∧ b.isLValue = true ∧ isPointerType b.type = false := by
  unfold evaluateMember at h
  split at h
  · simp [evaluateCount_lvalue h] at hlvalue
  split at h
  · rename_i elements htuple
    split at h
    · simp [evaluateCount_lvalue h] at hlvalue
    split at h
    · cases h
      exact .inr ⟨rfl, hlvalue, not_isPointerType_of_tuple htuple⟩
    · cases h
  · unfold evaluateField at h
    dsimp only at h
    split at h
    · rename_i property hfind
      obtain ⟨-, -, h⟩ := bind_eq_ok.mp h
      cases h
      have hproperty := List.find?_some hfind
      simp only [decide_eq_true_eq] at hproperty
      exact .inl ⟨_, rfl, .inr hproperty.1⟩
    · split at h
      · rename_i field hfind
        obtain ⟨-, -, h⟩ := bind_eq_ok.mp h
        cases h
        have hfield := List.find?_some hfind
        simp only [decide_eq_true_eq] at hfield
        exact .inl ⟨_, rfl, .inl hfield.1⟩
      · split at h <;> cases h

theorem Stored.member {member : TypeName} (h : Stored C mode base b)
    (hqualified : isQualified C base member = false)
    (hpointer : isPointerType b.type = false)
    (heval : evaluate C mode (.memberAccess base member) = .ok result)
    (hlvalue : result.isLValue = true) : Checked C mode (.memberAccess base member) result := by
  have hmember : evaluateMember C mode b member = .ok result := by
    rw [evaluate, if_neg (by simp [hqualified]), h.evaluates] at heval
    exact heval
  have hkind := evaluateMember_kind hmember hlvalue
  refine ⟨heval, ?_, ?_, h.this, ?_⟩
  · intro symbol hsymbol
    rcases hkind with ⟨symbol', hsymbol', hmember⟩ | ⟨heq, -, -⟩
    · rw [Option.some.inj (hsymbol.symm.trans hsymbol')]
      exact .inr (hmember.imp_right .inl)
    · exact h.kind symbol (heq ▸ hsymbol)
  · have hstep : hasConstRoot C mode true (.memberAccess base member)
        = hasConstRoot C mode true base := by
      simp [hasConstRoot, hqualified, expressionInfo, h.evaluates, Except.toOption, hpointer]
    rw [hstep]
    rcases h.root with heq | ⟨hthis, hsome, hmethod⟩
    · exact .inl heq
    · refine .inr ⟨hthis, ?_, hmethod⟩
      rcases hkind with ⟨symbol, hsymbol, -⟩ | ⟨heq, -, -⟩
      · rw [hsymbol]
        rfl
      · rwa [heq]
  · have hstep : writesThroughCopy C mode true (.memberAccess base member)
        = (isCopy b || writesThroughCopy C mode true base) := by
      simp [writesThroughCopy, hqualified, expressionInfo, h.evaluates, Except.toOption]
    rw [hstep, h.not_isCopy, h.noCopy]
    rfl

/-- A subscript selects an indexer, keeps the symbol of an array, or has none. -/
theorem evaluateAccess_kind (hindexers : SelectsIndexers C) {indexes : List (Option TypeName)}
    (h : evaluateAccess C mode b indexes = .ok result) (hlvalue : result.isLValue = true) :
    (∃ symbol, result.symbol = some symbol ∧ symbol.kind = .Indexer)
      ∨ result.symbol = b.symbol ∨ result.symbol = none ∧ isPointerType b.type = true := by
  unfold evaluateAccess at h
  split at h
  · cases h
    cases hlvalue
  split at h
  · cases h
  split at h
  · unfold evaluateSubscript at h
    obtain ⟨selected, hselect, h⟩ := bind_eq_ok.mp h
    cases selected with
    | none =>
        change evaluatePointer b _ = _ at h
        unfold evaluatePointer at h
        split at h
        · cases h
        rename_i hraw
        rw [Bool.not_eq_true, Bool.not_eq_false'] at hraw
        iterate 2
          split at h
          · cases h
        cases h
        exact .inr (.inr ⟨rfl, isPointerType_of_isRawPointerType hraw⟩)
    | some indexer =>
        have hkind : indexer.declared.kind = .Indexer := hindexers _ _ indexer hselect
        change evaluateIndexer C mode indexer = _ at h
        unfold evaluateIndexer at h
        split at h
        · split at h
          · cases h
          obtain ⟨-, -, h⟩ := bind_eq_ok.mp h
          cases h
          exact .inl ⟨_, rfl, hkind⟩
        · split at h
          · cases h
          obtain ⟨-, -, h⟩ := bind_eq_ok.mp h
          cases h
          exact .inl ⟨_, rfl, hkind⟩
        · cases h
        · cases h
  · split at h
    · cases h
    split at h
    · cases h
    cases h
    exact .inr (.inl rfl)

theorem Stored.access {indexes : List (Option TypeName)} (h : Stored C mode base b)
    (heval : evaluate C mode (.arrayAccess base indexes) = .ok result)
    (hkind : (∃ symbol, result.symbol = some symbol ∧ symbol.kind = .Indexer)
      ∨ result.symbol = b.symbol
      ∨ result.symbol = none ∧ hasConstRoot C mode true base = startsConstHere C mode base) :
    Checked C mode (.arrayAccess base indexes) result := by
  refine ⟨heval, ?_, ?_, h.this, ?_⟩
  · intro symbol hsymbol
    rcases hkind with ⟨symbol', hsymbol', hindexer⟩ | heq | ⟨hnone, -⟩
    · rw [Option.some.inj (hsymbol.symm.trans hsymbol')]
      exact .inr (.inr (.inr hindexer))
    · exact h.kind symbol (heq ▸ hsymbol)
    · rw [hnone] at hsymbol
      cases hsymbol
  · rcases h.root with heq | ⟨hthis, hsome, hmethod⟩
    · exact .inl heq
    · rcases hkind with ⟨symbol, hsymbol, -⟩ | heq | ⟨-, hroot⟩
      · refine .inr ⟨hthis, ?_, hmethod⟩
        rw [hsymbol]
        rfl
      · exact .inr ⟨hthis, heq ▸ hsome, hmethod⟩
      · exact .inl hroot
  · have hstep : writesThroughCopy C mode true (.arrayAccess base indexes)
        = (isCopy b || writesThroughCopy C mode true base) := by
      simp [writesThroughCopy, expressionInfo, h.evaluates, Except.toOption]
    rw [hstep, h.not_isCopy, h.noCopy]
    rfl

/-! ## Places of a const variable -/

theorem evaluate_name (V : ConstVariable)
    (h : evaluate V.scope mode (.identifier V.name) = .ok result) :
    result = ⟨some V.symbol, V.symbol.type, true⟩ := by
  have hcaptured : capturedSymbol V.scope V.symbol = some V.symbol := by
    rw [capturedSymbol, if_pos V.symbol_kind]
  have hmember : isMember V.symbol = false := by
    rcases V.symbol_kind with hkind | hkind <;> simp [isMember, hkind]
  rw [evaluate, evaluateIdentifier, V.lookup_name] at h
  simp only [hmember, Bool.false_eq_true, false_and, and_false, if_false, hcaptured,
    Option.map_some, Option.getD_some, Option.any_some, V.notCaptured] at h
  obtain ⟨-, -, h⟩ := bind_eq_ok.mp h
  obtain ⟨⟨⟩, -, h⟩ := bind_eq_ok.mp h
  rcases V.symbol_kind with hkind | hkind <;> simpa [hkind, eq_comm] using h

theorem stored_name (V : ConstVariable)
    (h : evaluate V.scope mode (.identifier V.name) = .ok result) :
    Stored V.scope mode (.identifier V.name) result := by
  have hresult := evaluate_name V h
  have hconst : isConstSymbol V.scope V.symbol = true := by
    have hfield : V.symbol.kind ≠ .Field := by
      rcases V.symbol_kind with hkind | hkind <;> simp [hkind]
    simp [isConstSymbol, V.isConst, hfield]
  have hsymbol : ∀ symbol, result.symbol = some symbol → symbol = V.symbol := by
    intro symbol hsome
    rw [hresult] at hsome
    exact (Option.some.inj hsome).symm
  have hstart : startsConstHere V.scope mode (.identifier V.name) = true := by
    change ((evaluate V.scope mode (.identifier V.name)).toOption.bind (·.symbol)).any _ = true
    rw [h, hresult]
    exact hconst
  refine ⟨⟨h, ?_, .inl rfl, fun _ => hstart, rfl⟩, ?_, ?_⟩
  · intro symbol hsome
    rw [hsymbol symbol hsome]
    exact .inl hconst
  · intro symbol hsome
    rw [hsymbol symbol hsome]
    rcases V.symbol_kind with hkind | hkind <;> simp [hkind]
  · rw [hresult]
    exact .inl rfl

theorem Stored.slice {ranges : List (Option TypeName × Option TypeName)}
    (h : Stored C mode base b) (heval : evaluate C mode (.slice base ranges) = .ok result) :
    Stored C mode (.slice base ranges) result := by
  have hslice : evaluateSlice b ranges = .ok result := by
    rw [evaluate, h.evaluates] at heval
    exact heval
  rcases evaluateSlice_eq hslice with ⟨hsymbol, hrank⟩
  refine ⟨⟨heval, ?_, .inl rfl, (fun hthis => by cases hthis), rfl⟩, ?_, .inr hrank⟩
  · exact fun symbol hsome => h.kind symbol (hsymbol ▸ hsome)
  · exact fun symbol hsome => h.place symbol (hsymbol ▸ hsome)

theorem Stored.of_member {member : TypeName} (h : Stored C mode base b)
    (hqualified : isQualified C base member = false) (hpointer : isPointerType b.type = false)
    (heval : evaluate C mode (.memberAccess base member) = .ok result)
    (hstorage : namesStorage C mode b member = true) :
    Stored C mode (.memberAccess base member) result := by
  have hmember : evaluateMember C mode b member = .ok result := by
    rw [evaluate, if_neg (by simp [hqualified]), h.evaluates] at heval
    exact heval
  rcases evaluateMember_storage hmember hstorage with ⟨hlvalue, hsymbol⟩
  refine ⟨h.member hqualified hpointer heval hlvalue, fun symbol hsome => ?_, .inl hlvalue⟩
  rcases hsymbol with ⟨symbol', hsymbol', hfield⟩ | ⟨heq, -, -⟩
  · rw [Option.some.inj (hsome.symm.trans hsymbol'), hfield]
    decide
  · exact h.place symbol (heq ▸ hsome)

theorem Stored.of_access {indexes : List (Option TypeName)} (h : Stored C mode base b)
    (hrank : arrayRank b.type ≠ 0)
    (heval : evaluate C mode (.arrayAccess base indexes) = .ok result) :
    Stored C mode (.arrayAccess base indexes) result := by
  have haccess : evaluateAccess C mode b indexes = .ok result := by
    rw [evaluate, h.evaluates] at heval
    exact heval
  rcases evaluateAccess_array haccess hrank with ⟨hsymbol, hplace⟩
  exact ⟨h.access heval (.inr (.inl hsymbol)), fun symbol hsome => h.place symbol (hsymbol ▸ hsome),
    hplace⟩

theorem stored_of_inVariable (V : ConstVariable)
    (hin : inVariable V.scope mode V.name e = true)
    (h : evaluate V.scope mode e = .ok result) : Stored V.scope mode e result := by
  induction e generalizing result with
  | identifier n =>
      rw [inVariable, decide_eq_true_eq] at hin
      subst hin
      exact stored_name V h
  | memberAccess base member ih =>
      rw [inVariable, Bool.and_eq_true, Bool.not_eq_true'] at hin
      rcases hin with ⟨hqualified, hin⟩
      have hbase := h
      rw [evaluate, if_neg (by simp [hqualified])] at hbase
      rcases bind_eq_ok.mp hbase with ⟨b, hb, -⟩
      simp only [hb, Bool.and_eq_true, Bool.not_eq_true'] at hin
      rcases hin with ⟨⟨hstorage, hpointer⟩, hin⟩
      exact (ih hin hb).of_member hqualified hpointer h hstorage
  | arrayAccess base indexes ih =>
      have hbase := h
      rw [evaluate] at hbase
      rcases bind_eq_ok.mp hbase with ⟨b, hb, -⟩
      simp only [inVariable, hb, Bool.and_eq_true, decide_eq_true_eq] at hin
      exact (ih hin.2 hb).of_access hin.1 h
  | slice base ranges ih =>
      have hbase := h
      rw [evaluate] at hbase
      rcases bind_eq_ok.mp hbase with ⟨b, hb, -⟩
      exact (ih hin hb).slice h
  | dereference operand => cases hin
  | other => cases hin

/-! ## Places of the receiver -/

theorem startsConstHere_eq (M : ConstMethod) (e : Expr) :
    startsConstHere M.scope mode e = startsConst M.scope mode e := (startsConst_eq M e).symm

theorem stored_of_inReceiver (M : ConstMethod) (hin : inReceiver M.scope mode e = true)
    (h : evaluate M.scope mode e = .ok result) : Stored M.scope mode e result := by
  have hplace := placeResult_of_inReceiver M hin h
  rcases evaluate_receiverRoot M hin h with ⟨root, hroot⟩
  have hthis : isThis (receiverRoot e) = true → startsConstHere M.scope mode e = true := by
    intro hthis
    rw [startsConstHere_eq]
    exact startsConst_of_isThis M hthis hroot
  refine ⟨⟨h, ?_, ?_, hthis, writesThroughCopy_of_inReceiver M hin h⟩, ?_, hplace.2⟩
  · exact fun symbol hsome => .inr (.inl (hplace.1 symbol hsome))
  · rw [startsConstHere_eq]
    exact (hasConstRoot_of_inReceiver M hin h).imp id fun hthis => ⟨hthis.1, hthis.2, M.isConst⟩
  · intro symbol hsome
    rw [hplace.1 symbol hsome]
    decide

theorem receiverRoot_of_isThis (hthis : isThis e = true) : receiverRoot e = e := by
  rw [isThis_iff.mp hthis]
  rfl

theorem evaluate_of_isThis (M : ConstMethod) (hthis : isThis e = true)
    (h : evaluate M.scope mode e = .ok result) :
    result = ⟨some M.receiver, M.receiver.type, true⟩ :=
  evaluate_this M (isThis_iff.mp hthis ▸ h)

theorem startsConstHere_of_isThis (M : ConstMethod) (hthis : isThis (receiverRoot e) = true)
    (h : evaluate M.scope mode (receiverRoot e) = .ok result) :
    startsConstHere M.scope mode e = true := by
  rw [startsConstHere_eq]
  exact startsConst_of_isThis M hthis h

theorem stored_this (M : ConstMethod) (hthis : isThis e = true)
    (h : evaluate M.scope mode e = .ok result) : Stored M.scope mode e result := by
  have hresult := evaluate_of_isThis M hthis h
  have hroot := receiverRoot_of_isThis hthis
  have hstart : startsConstHere M.scope mode e = true :=
    startsConstHere_of_isThis M (hroot.symm ▸ hthis) (hroot.symm ▸ h)
  have hname := isThis_iff.mp hthis
  have hsymbol : ∀ symbol, result.symbol = some symbol → symbol = M.receiver := by
    intro symbol hsome
    rw [hresult] at hsome
    exact (Option.some.inj hsome).symm
  refine ⟨⟨h, ?_, .inl ?_, fun _ => hstart, ?_⟩, ?_, .inl ?_⟩
  · intro symbol hsome
    rw [hsymbol symbol hsome, isConstSymbol_eq M]
    exact .inl M.receiver_const
  · rw [hname]
    rfl
  · rw [hname]
    rfl
  · intro symbol hsome
    rw [hsymbol symbol hsome, M.receiver_kind]
    decide
  · rw [hresult]

/-- A member of `this` of any kind: the walk to the root stops at the pointer. -/
theorem checked_this_member (M : ConstMethod) {member : TypeName} (hthis : isThis base = true)
    (hqualified : isQualified M.scope base member = false)
    (heval : evaluate M.scope mode (.memberAccess base member) = .ok result)
    (hlvalue : result.isLValue = true) :
    Checked M.scope mode (.memberAccess base member) result := by
  have hbase := heval
  rw [evaluate, if_neg (by simp [hqualified])] at hbase
  rcases bind_eq_ok.mp hbase with ⟨b, hb, hmember⟩
  have hstored := stored_this M hthis hb
  have hroot := receiverRoot_of_isThis hthis
  have hpointer : isPointerType b.type = true := by
    rw [evaluate_of_isThis M hthis hb]
    exact isPointerType_of_isRawPointerType M.receiver_raw
  rcases evaluateMember_kind hmember hlvalue with ⟨symbol, hsymbol, hkind⟩ | ⟨-, -, hvalue⟩
  · refine ⟨heval, ?_, .inr ⟨?_, ?_, M.isConst⟩, hstored.this, ?_⟩
    · intro symbol' hsome
      rw [Option.some.inj (hsome.symm.trans hsymbol)]
      exact .inr (hkind.imp_right .inl)
    · rw [receiverRoot, hroot]
      exact hthis
    · rw [hsymbol]
      rfl
    · have hstep : writesThroughCopy M.scope mode true (.memberAccess base member)
          = (isCopy b || writesThroughCopy M.scope mode true base) := by
        simp [writesThroughCopy, hqualified, expressionInfo, hb, Except.toOption]
      rw [hstep, hstored.not_isCopy, hstored.noCopy]
      rfl
  · rw [hpointer] at hvalue
    cases hvalue

/-- A subscript of `this`: an indexer, or the object itself. -/
theorem checked_this_access (M : ConstBody) {indexes : List (Option TypeName)}
    (hthis : isThis base = true)
    (heval : evaluate M.scope mode (.arrayAccess base indexes) = .ok result)
    (hlvalue : result.isLValue = true) :
    Checked M.scope mode (.arrayAccess base indexes) result := by
  have hbase := heval
  rw [evaluate] at hbase
  rcases bind_eq_ok.mp hbase with ⟨b, hb, haccess⟩
  have hstored := stored_this M.toConstMethod hthis hb
  have hroot : hasConstRoot M.scope mode true base = startsConstHere M.scope mode base := by
    rw [isThis_iff.mp hthis]
    rfl
  refine hstored.access heval ?_
  rcases evaluateAccess_kind M.indexers haccess hlvalue with hindexer | heq | ⟨hnone, -⟩
  · exact .inl hindexer
  · exact .inr (.inl heq)
  · exact .inr (.inr ⟨hnone, hroot⟩)

/-! ## The verdict on a mutation -/

theorem Frame.indexers (F : Frame) : SelectsIndexers F.scope := by
  cases F with
  | ofVariable V => exact V.indexers
  | ofReceiver M => exact M.indexers

theorem Frame.stored {F : Frame} (hin : F.holds mode e = true)
    (h : evaluate F.scope mode e = .ok result) : Stored F.scope mode e result := by
  cases F with
  | ofVariable V => exact stored_of_inVariable V hin h
  | ofReceiver M => exact stored_of_inReceiver M.toConstMethod hin h

theorem not_pointer_of_isValue (hvalue : isValue C mode e = true)
    (h : evaluate C mode e = .ok result) : isPointerType result.type = false := by
  rw [isValue, h] at hvalue
  simpa [Except.toOption] using hvalue

/-- A member of the receiver by its bare name evaluates to its symbol. -/
theorem evaluate_bareMember (M : ConstMethod) {n : TypeName} {symbol : Symbol}
    (hlookup : M.scope.lookupSymbol n = some symbol) (hmember : isMember symbol = true)
    (hstatic : symbol.isStatic = false)
    (h : evaluate M.scope mode (.identifier n) = .ok result) : result.symbol = some symbol := by
  rw [isMember, decide_eq_true_eq] at hmember
  have hcaptured : capturedSymbol M.scope symbol = some M.receiver := by
    have hnot : ¬(symbol.kind = .Variable ∨ symbol.kind = .Parameter) := by
      rcases hmember with hkind | hkind <;> simp [hkind]
    rw [capturedSymbol, if_neg hnot, if_pos ⟨hmember, by simp [hstatic]⟩, M.lookup_this]
  rw [evaluate, evaluateIdentifier, hlookup] at h
  simp only [M.notStatic, Bool.false_eq_true, false_and, if_false, hcaptured,
    Option.map_some, Option.getD_some, Option.any_some] at h
  obtain ⟨-, -, h⟩ := bind_eq_ok.mp h
  obtain ⟨⟨⟩, hrecord, h⟩ := bind_eq_ok.mp h
  rw [M.not_captured hrecord] at h
  simp only [Bool.false_eq_true, if_false] at h
  rcases hmember with hkind | hkind
  · rw [hkind] at h
    cases h
    rfl
  · rw [hkind] at h
    cases h
    rfl

theorem checked_bareMember (F : Frame) {n : TypeName} (hin : F.isBareMember n = true)
    (h : evaluate F.scope mode (.identifier n) = .ok result) :
    Checked F.scope mode (.identifier n) result := by
  cases F with
  | ofVariable V =>
      have hname : n = V.name := of_decide_eq_true hin
      subst hname
      exact (stored_name V h).toChecked
  | ofReceiver M =>
      rcases (Option.any_eq_true _ _).mp hin with ⟨symbol, hlookup, hmember⟩
      rw [decide_eq_true_eq, Bool.not_eq_true'] at hmember
      have hresult := evaluate_bareMember M.toConstMethod hlookup hmember.1 hmember.2 h
      refine ⟨h, ?_, .inl rfl, fun hthis => ?_, rfl⟩
      · intro symbol' hsome
        rw [Option.some.inj (hsome.symm.trans hresult)]
        have hkind := of_decide_eq_true hmember.1
        exact .inr (hkind.imp_right .inl)
      · exact startsConstHere_of_isThis M.toConstMethod hthis h

/-- What is reached is refused where it is traced, and nowhere else. -/
theorem checked_of_reaches (F : Frame) (hin : F.reaches mode e = true)
    (h : evaluate F.scope mode e = .ok result) (hlvalue : result.isLValue = true) :
    Checked F.scope mode e result := by
  cases e with
  | identifier n => exact checked_bareMember F hin h
  | memberAccess base member =>
      rw [Frame.reaches, Bool.and_eq_true, Bool.not_eq_true', Bool.or_eq_true,
        Bool.and_eq_true] at hin
      rcases hin with ⟨hqualified, hwhole | ⟨hvalue, hin⟩⟩
      · cases F with
        | ofVariable V => cases hwhole
        | ofReceiver M => exact checked_this_member M.toConstMethod hwhole hqualified h hlvalue
      · have hbase := h
        rw [evaluate, if_neg (by simp [hqualified])] at hbase
        rcases bind_eq_ok.mp hbase with ⟨b, hb, -⟩
        exact (F.stored hin hb).member hqualified (not_pointer_of_isValue hvalue hb) h hlvalue
  | arrayAccess base indexes =>
      rw [Frame.reaches, Bool.or_eq_true, Bool.and_eq_true] at hin
      rcases hin with hwhole | ⟨hvalue, hin⟩
      · cases F with
        | ofVariable V => cases hwhole
        | ofReceiver M => exact checked_this_access M hwhole h hlvalue
      · have hbase := h
        rw [evaluate] at hbase
        rcases bind_eq_ok.mp hbase with ⟨b, hb, haccess⟩
        refine (F.stored hin hb).access h ?_
        rcases evaluateAccess_kind F.indexers haccess hlvalue with hindexer | heq | ⟨-, hpointer⟩
        · exact .inl hindexer
        · exact .inr (.inl heq)
        · rw [not_pointer_of_isValue hvalue hb] at hpointer
          cases hpointer
  | slice base ranges =>
      have hbase := h
      rw [evaluate] at hbase
      rcases bind_eq_ok.mp hbase with ⟨b, hb, -⟩
      exact ((F.stored hin hb).slice h).toChecked
  | dereference operand =>
      cases F with
      | ofVariable V => cases hin
      | ofReceiver M =>
          have hplace : inReceiver M.scope mode (.dereference operand) = true := hin
          exact (stored_of_inReceiver M.toConstMethod hplace h).toChecked
  | other => cases hin

/-- What is written for the object is refused where it is traced, and nowhere else. -/
theorem accepts_iff {P : Program ι} {F : Frame} {s : Statement ι} (h : WritesHere P F s) :
    Accepts F.scope s ↔ ¬TracedHere F s := by
  cases s with
  | mutate m target =>
      rcases h with ⟨hreaches, result, heval, hlvalue⟩
      exact (checked_of_reaches F hreaches heval hlvalue).acceptsTarget_iff hlvalue
  | call mode receiver callee bodies =>
      have hcallable := h.1.1
      change acceptsCall F.scope mode receiver callee = true ↔ ¬(F.scope.currentMethodConst = true
        ∧ callee.isInstanceMethod = true ∧ callee.symbol.isConst = false)
      rw [acceptsCall, hcallable, Bool.true_and, Bool.not_eq_true', ← Bool.not_eq_true,
        Bool.and_eq_true, Bool.and_eq_true, Bool.not_eq_true', and_assoc]

/-! ## Bodies that are called -/

variable {P : Program ι} {F F' : Frame} {s s' : Statement ι}

theorem Reaches.writes (h : Reaches P F s F' s') (hwrites : WritesHere P F' s') :
    Writes P F s := by
  induction h with
  | refl F s => exact .here hwrites
  | call hcalled hconst hi hM hs _ ih => exact .call hcalled hconst hi hM hs (ih hwrites)

/-- What writes reaches an accepted statement that writes by itself: in the bodies of
an accepted program all are. -/
theorem Writes.reaches (hP : P.Accepted) (h : Writes P F s) (haccepts : Accepts F.scope s) :
    ∃ F' s', Reaches P F s F' s' ∧ WritesHere P F' s' ∧ Accepts F'.scope s' := by
  induction h with
  | here hwrites => exact ⟨_, _, .refl _ _, hwrites, haccepts⟩
  | call hcalled hconst hi hM hs _ ih =>
      rcases ih (hP _ _ hM _ hs) with ⟨F', s', hreaches, hrest⟩
      exact ⟨F', s', .call hcalled hconst hi hM hs hreaches, hrest⟩

theorem accepts_constMethod {mode : AccessMode} {receiver : Option Expr} {callee : Callee}
    {bodies : List ι} (hcalled : F.CalledOn mode receiver callee)
    (hconst : callee.isConstMethod = true) :
    Accepts F.scope (.call mode receiver callee bodies : Statement ι) := by
  rw [Callee.isConstMethod, Bool.and_eq_true] at hconst
  simp [Accepts, acceptsCall, hcalled.1, hconst.2]

/-- `const Counter c = ..;` in a function, where `Counter` has an array of items. -/
def counterVariable : ConstVariable where
  scope := {
    lookupSymbol := fun name =>
      if name = "c".toList then
        some { kind := .Variable, type := "Counter".toList, isConst := true, scopeDepth := 1 }
      else none
    typeReceiver := fun _ => none
    findMembers := fun type member =>
      if type = "Counter".toList ∧ member = "items".toList then
        [{ type := "int32[]".toList, symbol := 0, owner := "Counter".toList }]
      else []
    selectIndexer := fun _ _ => .ok none
    canAccess := fun _ _ => true
    typeOwnsUniqueResource := fun _ => false
    indexerBorrowProjection := id
    lambdaContexts := []
    currentMethodStatic := false
    currentMethodConst := false
    currentConstructor := false }
  name := "c".toList
  symbol := { kind := .Variable, type := "Counter".toList, isConst := true, scopeDepth := 1 }
  lookup_name := rfl
  symbol_kind := .inl rfl
  isConst := rfl
  notPointer := by decide
  notCaptured := rfl
  indexers := fun _ _ _ h => by cases h

/-- `int32 get() const` and `void bump()` of the counter. -/
def counterMethod (isConst : Bool) : Callee where
  symbol := { kind := .Method, type := "int32".toList, isConst := isConst
              memberOwner := "Counter".toList }

def counterBody : ConstBody where
  toConstMethod := nestedMethod
  indexers := fun _ _ _ h => by cases h

/-- A const method that calls itself. -/
def counterProgram : Program Unit where
  constMethod _ := some counterBody
  statements _ := [.call .Read none (counterMethod true) [()]]

/-- `c.get()`. -/
def getCall : Statement Unit :=
  .call .Read (some (.identifier "c".toList)) (counterMethod true) [()]

/-- `c.items[0] = 1` is refused, and `c.items[0:2][0] = 1` is not. -/
example : acceptsTarget counterVariable.scope .assignment
      (.arrayAccess (.memberAccess (.identifier "c".toList) "items".toList)
        [some "int32".toList]) = false
    ∧ acceptsTarget counterVariable.scope .assignment
      (.arrayAccess (.slice (.memberAccess (.identifier "c".toList) "items".toList)
        [(some "int32".toList, some "int32".toList)]) [some "int32".toList]) = true := by decide

end Hierarchy

end Absolute
