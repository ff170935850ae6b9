import Absolute.AnConversion
import Absolute.AnTypeTerms
import Absolute.CgArithmetic

/-!
# The labels of a switch

`Visit(SwitchStmt)` of the analyzer gives each label a key and reports the labels that share
one; `Visit(SwitchStmt)` of the backend converts each label to the selector's type and
compares them with the selector in turn. The keys are of the labels as they are written, and
they are read with `stoll`.

`eachCaseReached_iff` says when the cases the analyzer lets through are the ones the
comparisons tell apart.
-/

namespace Absolute

namespace Switch

/-! ## Selectors and labels -/

def integerTypeName : IntegerType → TypeName
  | .int8 => "int8".toList
  | .uint8 => "uint8".toList
  | .int16 => "int16".toList
  | .uint16 => "uint16".toList
  | .int32 => "int32".toList
  | .uint32 => "uint32".toList
  | .int64 => "int64".toList
  | .uint64 => "uint64".toList
  | .char => "char".toList

/-- The members of an enum with their values, as `Visit(EnumDeclStmt)` lets them through. -/
structure EnumDecl where
  members : List (TypeName × ℤ)
  names_differ : (members.map Prod.fst).Nodup
  values_differ : (members.map Prod.snd).Nodup
  values_fit : ∀ member ∈ members, -2 ^ 31 ≤ member.2 ∧ member.2 < 2 ^ 31

/-- The declared enums. `null` is a keyword, and `error` is the analyzer's name for a type
that did not resolve. -/
structure EnumTable where
  find : Ident → Option EnumDecl
  declarable : ∀ name, (find name).isSome = true →
    isPrimitiveName name.1 = false ∧ name.1 ∉ ["error".toList, "null".toList]

inductive Selector (enums : EnumTable) where
  | integer (type : IntegerType)
  | bool
  | enum (name : Ident) (declared : (enums.find name).isSome = true)

/-- A member of an enum, as a label that resolves to one. -/
structure Enumerator (enums : EnumTable) where
  enum : Ident
  decl : EnumDecl
  member : TypeName
  value : ℤ
  found : enums.find enum = some decl
  declared : (member, value) ∈ decl.members

/-- The literals a label can be, with or without a sign, and the members of enums. A number
is the value its digits spell. -/
inductive Label (enums : EnumTable) where
  | number (magnitude : ℕ)
  | floating (text : List Char)
  | character (value : BitVec 8)
  | boolean (value : Bool)
  | signedNumber (minus : Bool) (magnitude : ℕ)
  | signedFloating (minus : Bool) (text : List Char)
  | enumerator (e : Enumerator enums)

variable {enums : EnumTable}

def Selector.typeName : Selector enums → TypeName
  | .integer type => integerTypeName type
  | .bool => "bool".toList
  | .enum name _ => name.1

/-- The width of the LLVM type; an enum is an `i32`. -/
def Selector.width : Selector enums → ℕ
  | .integer type => type.width
  | .bool => 1
  | .enum _ _ => 32

/-- The type the analyzer saves for a label. -/
def Label.typeName : Label enums → TypeName
  | .number magnitude => integerTypeName (integerLiteralType magnitude false)
  | .floating _ => "double".toList
  | .character _ => "char".toList
  | .boolean _ => "bool".toList
  | .signedNumber minus magnitude => integerTypeName (integerLiteralType magnitude minus)
  | .signedFloating _ _ => "double".toList
  | .enumerator e => e.enum.1

/-! ## The analyzer -/

/-- What `constantKey` returns: `integer:..`, `bool:..` or `enum:..`. -/
inductive Key where
  | integer (value : ℤ)
  | bool (value : Bool)
  | enum (name : TypeName)
deriving DecidableEq

/-- `key->substr(separator + 1)` -/
def Key.text : Key → List Char
  | .integer value => (toString value).toList
  | .bool value => if value then "true".toList else "false".toList
  | .enum name => name

/-- The exception of `std::stoll`. -/
inductive Thrown where
  | outOfRange
deriving DecidableEq

/-- `std::stoll` of digits. -/
def stoll (magnitude : ℕ) : Except Thrown ℤ :=
  if magnitude < 2 ^ 63 then .ok magnitude else .error .outOfRange

/-- `symbol->name` of a member. -/
def Enumerator.symbolName (e : Enumerator enums) : TypeName := e.enum.1 ++ '.' :: e.member

def constantKey : Label enums → Except Thrown (Option Key)
  | .boolean value => .ok (some (.bool value))
  | .number magnitude => do return some (.integer (← stoll magnitude))
  | .floating _ => .ok none
  | .character value => .ok (some (.integer value.toNat))
  | .signedNumber minus magnitude => do
      let value ← stoll magnitude
      return some (.integer (if minus then -value else value))
  | .signedFloating _ _ => .ok none
  | .enumerator e => .ok (some (.enum e.symbolName))

structure Report where
  message : List Char
  code : String
deriving DecidableEq

section Analyzer

variable (q : TypeQueries) (selector : Selector enums)

def typeReports (label : Label enums) : List Report :=
  if isAssignable q selector.typeName label.typeName then []
  else [⟨"case label has type '".toList ++ label.typeName ++ "', expected '".toList
    ++ selector.typeName ++ "'".toList, "E_SWITCH_CASE_TYPE"⟩]

def keyReports (labels : List Key) : Option Key → List Report
  | none => [⟨"case label must be a compile-time bool, integer, char, or enum constant".toList,
      "E_SWITCH_CASE_CONSTANT"⟩]
  | some key =>
      if key ∈ labels then
        [⟨"duplicate case label '".toList ++ key.text ++ "'".toList, "E_DUPLICATE_SWITCH_CASE"⟩]
      else []

/-- The loop over the cases, with the keys of the labels so far. -/
def checkLabels : List Key → List (Label enums) → Except Thrown (List Report)
  | _, [] => .ok []
  | labels, label :: rest => do
      let key ← constantKey label
      let reports ← checkLabels (labels ++ key.toList) rest
      return typeReports q selector label ++ keyReports labels key ++ reports

/-- The analyzer has nothing to say against the labels. -/
def Accepted (labels : List (Label enums)) : Prop := checkLabels q selector [] labels = .ok []

end Analyzer

/-! ## The backend -/

/-- What `Coerce` makes of an integer expression at a width. -/
def coerceExpr (width : ℕ) (expr : IntegerExpr Empty) : Emit (BitVec width) := do
  let value ← emit Empty.elim (fun x => x.elim) expr
  match typeOf Empty.elim false expr with
  | some type => return type.extension.cast width value.word.bits
  | none => .error (.fail "incompatible value conversion")

/-- `Coerce(Evaluate(label), selectorType)`; `saturate` is the conversion of a floating
literal. -/
def coerceLabel (saturate : (width : ℕ) → Bool → List Char → BitVec width) (width : ℕ) :
    Label enums → Emit (BitVec width)
  | .number magnitude => coerceExpr width (.number magnitude)
  | .floating text => .ok (saturate width false text)
  | .character value => coerceExpr width (.character value)
  | .boolean value => .ok (ValueType.bool.extension.cast width (BitVec.ofBool value))
  | .signedNumber minus magnitude =>
      coerceExpr width (.unary (if minus then .minus else .plus) (.number magnitude))
  | .signedFloating minus text => .ok (saturate width minus text)
  | .enumerator e =>
      let sign := if startsWith e.enum.1 "uint".toList then Signedness.unsigned else .signed
      .ok (sign.cast width (BitVec.ofInt 32 e.value))

/-- The chain of comparisons: the case a value of the selector runs. -/
def selectedCase {width : ℕ} (labels : List (BitVec width)) (value : BitVec width) : Option ℕ :=
  labels.findIdx? fun label => value == label

/-- What is asked of a switch: the labels are checked without an exception, and where the
analyzer accepts them each one is the first that its own value is equal to. -/
structure EachCaseReached (q : TypeQueries)
    (saturate : (width : ℕ) → Bool → List Char → BitVec width) (selector : Selector enums)
    (labels : List (Label enums)) : Prop where
  checked : ∃ reports, checkLabels q selector [] labels = .ok reports
  reached : Accepted q selector labels →
    ∃ values, labels.mapM (coerceLabel saturate selector.width) = .ok values ∧ values.Nodup
      ∧ ∀ i value, values[i]? = some value → selectedCase values value = some i

/-! ## The types of labels -/

theorem endsWith_name {name : TypeName} (h : IsName name) {front : List Char} {c : Char}
    (hc : ¬NameChar c) : endsWith name (front ++ [c]) = false := by
  rw [Bool.eq_false_iff, ne_eq, endsWith_iff]
  rintro ⟨start, rfl⟩
  exact hc (h.2 c (by simp))

/-- Types that are plain names are assignable where they are the same or both numbers. -/
theorem isAssignable_names {q : TypeQueries} {target source : TypeName} (ht : IsName target)
    (hs : IsName source) (htarget : target ∉ ["error".toList, "dynamic".toList])
    (hsource : source ∉ ["error".toList, "dynamic".toList, "null".toList]) :
    isAssignable q target source = true
      ↔ target = source ∨ (isNumeric target = true ∧ isNumeric source = true) := by
  simp only [List.mem_cons, List.not_mem_nil, or_false, not_or] at htarget hsource
  have href : isValueReferenceType target = false :=
    @endsWith_name _ ht [] '&' (by decide)
  have harray : endsWith target "[]".toList = false := @endsWith_name _ ht ['['] ']' (by decide)
  have hhead : TypeTerm.NameHead target := ⟨target, [], by simp, ht.2, by simp⟩
  have hhead' : TypeTerm.NameHead source := ⟨source, [], by simp, hs.2, by simp⟩
  have hopen := TypeTerm.canonicalOpenOwnership_nameHead hhead
  have hopen' := TypeTerm.canonicalOpenOwnership_nameHead hhead'
  have hpointer : isPointerType target = false := by
    have hnone := TypeTerm.canonicalOwnership_of_not_pointer (t := .name ⟨target, ht⟩)
      (fun _ _ h => by cases h)
    rw [TypeTerm.canonicalName] at hnone
    simp [isPointerType, hnone]
  have hparse : parseCFunctionType target = none := by
    rw [parseCFunctionType, TypeTerm.parseGenericTypeName_name ⟨target, ht⟩]
  rw [isAssignable, isAssignableGo, if_neg (Bool.eq_false_iff.mp href), if_neg]
  · by_cases heq : target = source
    · rw [if_pos heq]
      exact ⟨fun _ => .inl heq, fun _ => rfl⟩
    · rw [if_neg heq, hparse]
      simp only [Option.isSome_none, Bool.false_eq_true, false_and, if_false, harray,
        isAssignableHandle, hopen, hopen', hpointer, ne_eq, not_true_eq_false, reduceCtorEq,
        and_false, hsource.2.2, decide_false, heq, false_or]
      split_ifs with hnumeric
      · exact ⟨fun _ => hnumeric, fun _ => rfl⟩
      · exact ⟨fun h => absurd h (by simp), fun h => absurd h hnumeric⟩
  · rintro (h | h | h | h)
    exacts [htarget.1 h, hsource.1 h, htarget.2 h, hsource.2.1 h]

/-! ## The words of labels -/

/-- The value of a label. -/
def Label.value : Label enums → ℤ
  | .number magnitude => magnitude
  | .character value => value.toNat
  | .boolean value => value.toNat
  | .signedNumber minus magnitude => if minus then -magnitude else magnitude
  | .enumerator e => e.value
  | .floating _ | .signedFloating _ _ => 0

theorem coerceExpr_of_emit {width : ℕ} {expr : IntegerExpr Empty} {word : Word}
    {constant : Bool} {type : ValueType}
    (hemit : emit Empty.elim (fun x => x.elim) expr = .ok ⟨word, constant⟩)
    (htype : typeOf Empty.elim false expr = some type) :
    coerceExpr width expr = .ok (type.extension.cast width word.bits) := by
  rw [coerceExpr, hemit, ok_bind, htype]
  rfl

/-- What a literal that fits is emitted as. -/
theorem emit_number {V : Type*} (typing : V → IntegerType)
    (env : (x : V) → BitVec (typing x).width) {magnitude : ℕ} (h : magnitude < 2 ^ 63) :
    emit typing env (.number magnitude) =
      if magnitude ≤ 2 ^ 31 - 1 then .ok ⟨⟨32, BitVec.ofInt 32 magnitude⟩, true⟩
      else .ok ⟨⟨64, BitVec.ofInt 64 magnitude⟩, true⟩ := by
  rw [emit, if_neg (by omega)]
  simp only [BitVec.ofInt_natCast]

theorem emit_unary {V : Type*} {typing : V → IntegerType} {env : (x : V) → BitVec (typing x).width}
    {operand : IntegerExpr V} {word : Word} {constant : Bool}
    (h : emit typing env operand = .ok ⟨word, constant⟩) (op : UnaryOp) :
    emit typing env (.unary op operand) = .ok ⟨applyUnary op word, constant⟩ := by
  rw [emit, h]
  rfl

theorem integerLiteralType_of_le {magnitude : ℕ} (h : magnitude ≤ 2 ^ 31 - 1) (negated : Bool) :
    integerLiteralType magnitude negated = .int32 := by
  rw [integerLiteralType, if_neg (by omega), if_pos (by split <;> omega)]

theorem read_signed_ofInt {x : ℤ} (h : -2 ^ 31 ≤ x ∧ x < 2 ^ 31) :
    Signedness.signed.read (BitVec.ofInt 32 x) = x := by
  rw [Signedness.read_signed, BitVec.toInt_ofInt]
  exact Int.bmod_eq_of_le (by norm_num; omega) (by norm_num; omega)

theorem coerceExpr_number {width : ℕ} (hwidth : width ≤ 64) {magnitude : ℕ}
    (h : magnitude < 2 ^ 63) :
    coerceExpr width (.number magnitude) = .ok (BitVec.ofInt width magnitude) := by
  have hemit := emit_number Empty.elim (fun x => x.elim) h
  split_ifs at hemit with hnarrow
  · rw [coerceExpr_of_emit hemit rfl, integerLiteralType_of_le hnarrow]
    exact congrArg _ (Signedness.signed.cast_ofInt (read_signed_ofInt (by omega)))
  · rw [coerceExpr_of_emit hemit rfl]
    exact congrArg _ (Signedness.cast_ofInt_of_le _ hwidth _)

theorem coerceExpr_minus {width : ℕ} (hwidth : width ≤ 64) {magnitude : ℕ}
    (h : magnitude < 2 ^ 63) :
    coerceExpr width (.unary .minus (.number magnitude))
      = .ok (BitVec.ofInt width (-magnitude)) := by
  have hnumber := emit_number Empty.elim (fun x => x.elim) h
  split_ifs at hnumber with hnarrow
  · rw [coerceExpr_of_emit (emit_unary hnumber .minus) rfl, integerLiteralType_of_le hnarrow,
      applyUnary, Signedness.neg_ofInt]
    exact congrArg _ (Signedness.signed.cast_ofInt (read_signed_ofInt (by omega)))
  · rw [coerceExpr_of_emit (emit_unary hnumber .minus) rfl, applyUnary, Signedness.neg_ofInt]
    exact congrArg _ (Signedness.cast_ofInt_of_le _ hwidth _)

theorem coerceExpr_plus {width : ℕ} (hwidth : width ≤ 64) {magnitude : ℕ}
    (h : magnitude < 2 ^ 63) :
    coerceExpr width (.unary .plus (.number magnitude))
      = .ok (BitVec.ofInt width magnitude) := by
  have hplus : coerceExpr width (.unary .plus (.number magnitude))
      = coerceExpr width (.number magnitude) := by
    have hnumber := emit_number Empty.elim (fun x => x.elim) h
    split_ifs at hnumber with hnarrow
    all_goals
      rw [coerceExpr_of_emit hnumber rfl, coerceExpr_of_emit (emit_unary hnumber .plus) rfl]
      rfl
  rw [hplus, coerceExpr_number hwidth h]

theorem coerceExpr_character {width : ℕ} (hwidth : 8 ≤ width) (value : BitVec 8) :
    coerceExpr width (.character value) = .ok (BitVec.ofInt width value.toNat) := by
  have hemit : emit Empty.elim (fun x => x.elim) (.character value) = .ok ⟨⟨8, value⟩, true⟩ :=
    rfl
  rw [coerceExpr_of_emit hemit rfl]
  exact congrArg _ (Signedness.unsigned.cast_eq_ofInt hwidth value)

/-! ## The labels of accepted switches -/

section Accepted

variable {q : TypeQueries} {selector : Selector enums}

theorem Selector.width_le (selector : Selector enums) : selector.width ≤ 64 := by
  cases selector with
  | integer type => exact type.width_le
  | bool => exact Nat.le_of_ble_eq_true rfl
  | enum name declared => exact Nat.le_of_ble_eq_true rfl

/-- The value of a label whose key is of an integer. -/
def Label.integer? : Label enums → Option ℤ
  | .number magnitude => some magnitude
  | .character value => some value.toNat
  | .signedNumber minus magnitude => some (if minus then -magnitude else magnitude)
  | _ => none

/-- Whether `stoll` reads the digits of a label. -/
def Label.fits : Label enums → Prop
  | .number magnitude | .signedNumber _ magnitude => magnitude < 2 ^ 63
  | _ => True

theorem stoll_of_lt {magnitude : ℕ} (h : magnitude < 2 ^ 63) : stoll magnitude = .ok magnitude :=
  if_pos h

theorem stoll_of_le {magnitude : ℕ} (h : ¬magnitude < 2 ^ 63) :
    stoll magnitude = .error .outOfRange :=
  if_neg h

theorem constantKey_of_fits {label : Label enums} (h : label.fits) :
    ∃ key, constantKey label = .ok key := by
  cases label with
  | number magnitude => exact ⟨_, by rw [constantKey, stoll_of_lt h]; rfl⟩
  | signedNumber minus magnitude => exact ⟨_, by rw [constantKey, stoll_of_lt h]; rfl⟩
  | floating text => exact ⟨_, rfl⟩
  | character value => exact ⟨_, rfl⟩
  | boolean value => exact ⟨_, rfl⟩
  | signedFloating minus text => exact ⟨_, rfl⟩
  | enumerator e => exact ⟨_, rfl⟩

theorem fits_of_constantKey {label : Label enums} {key : Option Key}
    (h : constantKey label = .ok key) : label.fits := by
  by_contra hfits
  cases label with
  | number magnitude => rw [constantKey, stoll_of_le hfits] at h; cases h
  | signedNumber minus magnitude => rw [constantKey, stoll_of_le hfits] at h; cases h
  | _ => exact hfits trivial

/-- The labels are checked without an exception where all their digits are read. -/
theorem checkLabels_ok_iff {keys : List Key} {labels : List (Label enums)} :
    (∃ reports, checkLabels q selector keys labels = .ok reports)
      ↔ ∀ label ∈ labels, label.fits := by
  induction labels generalizing keys with
  | nil => simp [checkLabels]
  | cons label rest ih =>
    rw [List.forall_mem_cons]
    constructor
    · rintro ⟨reports, h⟩
      rw [checkLabels] at h
      cases hkey : constantKey label with
      | error e => rw [hkey] at h; cases h
      | ok key =>
        refine ⟨fits_of_constantKey hkey, ?_⟩
        rw [hkey] at h
        cases hrest : checkLabels q selector (keys ++ key.toList) rest with
        | error e =>
          change (checkLabels q selector (keys ++ key.toList) rest >>= _) = _ at h
          rw [hrest] at h
          cases h
        | ok reports' => exact ih.mp ⟨_, hrest⟩
    · rintro ⟨hlabel, hrest⟩
      obtain ⟨key, hkey⟩ := constantKey_of_fits hlabel
      obtain ⟨reports, hreports⟩ := (@ih (keys ++ key.toList)).mpr hrest
      refine ⟨typeReports q selector label ++ keyReports keys key ++ reports, ?_⟩
      rw [checkLabels, hkey]
      change (checkLabels q selector (keys ++ key.toList) rest >>= _) = _
      rw [hreports]
      rfl

/-- A label nothing is said against. -/
def Admissible (q : TypeQueries) (selector : Selector enums) (label : Label enums)
    (key : Key) : Prop :=
  isAssignable q selector.typeName label.typeName = true ∧ constantKey label = .ok (some key)

theorem checkLabels_nil_of_cons {keys : List Key} {label : Label enums}
    {rest : List (Label enums)} (h : checkLabels q selector keys (label :: rest) = .ok []) :
    ∃ key, Admissible q selector label key ∧ key ∉ keys
      ∧ checkLabels q selector (keys ++ [key]) rest = .ok [] := by
  rw [checkLabels] at h
  cases hkey : constantKey label with
  | error e => rw [hkey] at h; cases h
  | ok key =>
    rw [hkey] at h
    change (checkLabels q selector (keys ++ key.toList) rest >>= _) = _ at h
    cases hrest : checkLabels q selector (keys ++ key.toList) rest with
    | error e => rw [hrest] at h; cases h
    | ok reports =>
      rw [hrest] at h
      obtain hnil := Except.ok.inj h
      obtain ⟨⟨htype, hreports⟩, rfl⟩ : (typeReports q selector label = []
          ∧ keyReports keys key = []) ∧ reports = [] := by
        simpa only [List.append_eq_nil_iff] using hnil
      have hassignable : isAssignable q selector.typeName label.typeName = true := by
        by_contra hnot
        rw [typeReports, if_neg hnot] at htype
        cases htype
      cases key with
      | none => cases hreports
      | some key =>
        have hnew : key ∉ keys := by
          intro hmem
          rw [keyReports, if_pos hmem] at hreports
          cases hreports
        exact ⟨key, ⟨hassignable, hkey⟩, hnew, hrest⟩

/-- What the analyzer accepts: labels it has nothing to say against, no two of one key. -/
theorem admissible_of_checkLabels {keys : List Key} {labels : List (Label enums)}
    (h : checkLabels q selector keys labels = .ok []) :
    (∀ label ∈ labels, ∃ key, Admissible q selector label key ∧ key ∉ keys)
      ∧ (labels.map constantKey).Nodup := by
  induction labels generalizing keys with
  | nil => simp
  | cons label rest ih =>
    obtain ⟨key, hkey, hnew, hrest⟩ := checkLabels_nil_of_cons h
    obtain ⟨hadmissible, hnodup⟩ := ih hrest
    refine ⟨List.forall_mem_cons.mpr ⟨⟨key, hkey, hnew⟩, fun other hother => ?_⟩, ?_⟩
    · obtain ⟨key', hkey', hnew'⟩ := hadmissible other hother
      exact ⟨key', hkey', fun hmem => hnew' (List.mem_append_left _ hmem)⟩
    · refine List.nodup_cons.mpr ⟨?_, hnodup⟩
      intro hmem
      obtain ⟨other, hother, heq⟩ := List.mem_map.mp hmem
      obtain ⟨key', hkey', hnew'⟩ := hadmissible other hother
      rw [hkey'.2, hkey.2] at heq
      injection heq with heq
      injection heq with heq
      exact hnew' (heq ▸ List.mem_append_right _ List.mem_cons_self)

/-! ## What an admissible label is -/

theorem isNumeric_integerTypeName (type : IntegerType) :
    isNumeric (integerTypeName type) = true := by
  cases type <;> rfl

theorem isName_integerTypeName (type : IntegerType) : IsName (integerTypeName type) := by
  cases type <;> decide

theorem isPrimitiveName_of_isNumeric {name : TypeName} (h : isNumeric name = true) :
    isPrimitiveName name = true := by
  simp only [isNumeric, isIntegerTypeName, decide_eq_true_eq, List.contains_iff_mem] at h
  simp only [isPrimitiveName, List.contains_iff_mem, List.mem_append]
  rcases h with rfl | rfl | h | rfl
  · exact .inr (by simp)
  · exact .inr (by simp)
  · exact .inl h
  · exact .inr (by simp)

/-- A plain name that `IsAssignable` gives no meaning of its own. -/
structure IsPlain (name : TypeName) : Prop where
  isName : IsName name
  ordinary : name ∉ ["error".toList, "dynamic".toList, "null".toList]

theorem isPlain_integerTypeName (type : IntegerType) : IsPlain (integerTypeName type) :=
  ⟨isName_integerTypeName type, by cases type <;> simp [integerTypeName]⟩

theorem isPlain_bool : IsPlain "bool".toList := ⟨by decide, by simp⟩

theorem isPlain_enum {name : Ident} (h : (enums.find name).isSome = true) : IsPlain name.1 := by
  obtain ⟨hprimitive, hreserved⟩ := enums.declarable name h
  refine ⟨name.2, fun hmem => ?_⟩
  simp only [List.mem_cons, List.not_mem_nil, or_false, not_or] at hmem hreserved
  rcases hmem with hmem | hmem | hmem
  · exact hreserved.1 hmem
  · rw [hmem] at hprimitive
    cases hprimitive
  · exact hreserved.2 hmem

theorem Enumerator.isSome (e : Enumerator enums) : (enums.find e.enum).isSome = true := by
  rw [e.found]
  rfl

theorem Selector.isPlain (selector : Selector enums) : IsPlain selector.typeName := by
  cases selector with
  | integer type => exact isPlain_integerTypeName type
  | bool => exact isPlain_bool
  | enum name declared => exact isPlain_enum declared

theorem Label.isPlain (label : Label enums) : IsPlain label.typeName := by
  have hdouble : IsPlain "double".toList := ⟨by decide, by simp⟩
  cases label with
  | number magnitude => exact isPlain_integerTypeName _
  | floating text => exact hdouble
  | character value => exact isPlain_integerTypeName .char
  | boolean value => exact isPlain_bool
  | signedNumber minus magnitude => exact isPlain_integerTypeName _
  | signedFloating minus text => exact hdouble
  | enumerator e => exact isPlain_enum e.isSome

theorem assignable_iff {label : Label enums} :
    isAssignable q selector.typeName label.typeName = true
      ↔ selector.typeName = label.typeName
        ∨ (isNumeric selector.typeName = true ∧ isNumeric label.typeName = true) := by
  refine isAssignable_names selector.isPlain.isName label.isPlain.isName ?_ label.isPlain.ordinary
  have hplain := selector.isPlain.ordinary
  simp only [List.mem_cons, List.not_mem_nil, or_false, not_or] at hplain ⊢
  exact ⟨hplain.1, hplain.2.1⟩

theorem not_isNumeric_enum {name : Ident} (h : (enums.find name).isSome = true) :
    isNumeric name.1 = false := by
  rw [Bool.eq_false_iff]
  intro hnumeric
  have hprimitive := isPrimitiveName_of_isNumeric hnumeric
  rw [(enums.declarable name h).1] at hprimitive
  cases hprimitive

theorem admissible_integer {type : IntegerType} {label : Label enums} {key : Key}
    (h : Admissible q (.integer type) label key) :
    ∃ value, label.integer? = some value ∧ key = .integer value ∧ label.value = value := by
  obtain ⟨hassignable, hkey⟩ := h
  have hnumeric : isNumeric label.typeName = true := by
    rcases assignable_iff.mp hassignable with heq | hboth
    · rw [← heq]
      exact isNumeric_integerTypeName type
    · exact hboth.2
  have hfits := fits_of_constantKey hkey
  cases label with
  | number magnitude =>
    rw [constantKey, stoll_of_lt hfits] at hkey
    cases hkey
    exact ⟨_, rfl, rfl, rfl⟩
  | floating text => cases hkey
  | character value =>
    cases hkey
    exact ⟨_, rfl, rfl, rfl⟩
  | boolean value => cases hnumeric
  | signedNumber minus magnitude =>
    rw [constantKey, stoll_of_lt hfits] at hkey
    cases hkey
    exact ⟨_, rfl, rfl, rfl⟩
  | signedFloating minus text => cases hkey
  | enumerator e =>
    rw [Label.typeName, not_isNumeric_enum e.isSome] at hnumeric
    cases hnumeric

theorem typeName_of_assignable {label : Label enums} (hnumeric : isNumeric selector.typeName = false)
    (h : isAssignable q selector.typeName label.typeName = true) :
    label.typeName = selector.typeName := by
  rcases assignable_iff.mp h with heq | hboth
  · exact heq.symm
  · rw [hnumeric] at hboth
    cases hboth.1

theorem admissible_bool {label : Label enums} {key : Key}
    (h : Admissible q .bool label key) : ∃ value, label = .boolean value := by
  have htype : label.typeName = "bool".toList := typeName_of_assignable rfl h.1
  have hne : ∀ type, integerTypeName type ≠ "bool".toList := by
    intro type heq
    have hnumeric := isNumeric_integerTypeName type
    rw [heq] at hnumeric
    cases hnumeric
  cases label with
  | boolean value => exact ⟨value, rfl⟩
  | number magnitude => exact absurd htype (hne _)
  | character value => exact absurd htype (hne .char)
  | signedNumber minus magnitude => exact absurd htype (hne _)
  | floating text => simp [Label.typeName] at htype
  | signedFloating minus text => simp [Label.typeName] at htype
  | enumerator e =>
    have hprimitive := (enums.declarable e.enum e.isSome).1
    rw [Label.typeName] at htype
    rw [htype] at hprimitive
    cases hprimitive

theorem admissible_enum {name : Ident} {declared : (enums.find name).isSome = true}
    {label : Label enums} {key : Key} (h : Admissible q (.enum name declared) label key) :
    ∃ e, label = .enumerator e ∧ e.enum = name ∧ key = .enum e.symbolName := by
  have htype : label.typeName = name.1 :=
    @typeName_of_assignable _ q (.enum name declared) _ (not_isNumeric_enum declared) h.1
  have hprimitive := (enums.declarable name declared).1
  rw [← htype] at hprimitive
  have hnumber : ∀ type, isPrimitiveName (integerTypeName type) = true :=
    fun type => isPrimitiveName_of_isNumeric (isNumeric_integerTypeName type)
  cases label with
  | enumerator e => exact ⟨e, rfl, Subtype.ext htype, (Option.some.inj (Except.ok.inj h.2)).symm⟩
  | number magnitude => exact absurd hprimitive (by rw [Label.typeName, hnumber]; decide)
  | character value => cases hprimitive
  | signedNumber minus magnitude => exact absurd hprimitive (by rw [Label.typeName, hnumber]; decide)
  | boolean value => cases hprimitive
  | floating text => cases hprimitive
  | signedFloating minus text => cases hprimitive

theorem coerceLabel_eq {saturate : (width : ℕ) → Bool → List Char → BitVec width}
    {label : Label enums} {key : Key} (h : Admissible q selector label key) :
    coerceLabel saturate selector.width label = .ok (BitVec.ofInt selector.width label.value) := by
  have hfits := fits_of_constantKey h.2
  have hwidth := selector.width_le
  cases selector with
  | integer type =>
    obtain ⟨value, hvalue, -, -⟩ := admissible_integer h
    have hbyte : 8 ≤ type.width := by cases type <;> decide
    cases label with
    | number magnitude => exact coerceExpr_number hwidth hfits
    | character value => exact coerceExpr_character hbyte value
    | signedNumber minus magnitude =>
      cases minus with
      | true => exact coerceExpr_minus hwidth hfits
      | false => exact coerceExpr_plus hwidth hfits
    | _ => cases hvalue
  | bool =>
    obtain ⟨value, rfl⟩ := admissible_bool h
    cases value <;> rfl
  | enum name declared =>
    obtain ⟨e, rfl, -, -⟩ := admissible_enum h
    rw [coerceLabel, Selector.width, Signedness.cast_self]
    rfl

/-- Two labels whose values, where they are integers, are the same or differ by no multiple
of `2 ^ width`. -/
def Apart (width : ℕ) (a b : Label enums) : Prop :=
  ∀ v v', a.integer? = some v → b.integer? = some v' → v ≠ v' → ¬(2 : ℤ) ^ width ∣ v - v'

theorem ofInt_eq_iff_dvd {width : ℕ} {x y : ℤ} :
    BitVec.ofInt width x = BitVec.ofInt width y ↔ (2 : ℤ) ^ width ∣ x - y := by
  rw [Signedness.ofInt_eq_ofInt, Int.emod_eq_emod_iff_emod_sub_eq_zero, Int.dvd_iff_emod_eq_zero]

/-- Labels of different keys are converted to different words. -/
theorem ofInt_value_ne {a b : Label enums} {key key' : Key}
    (ha : Admissible q selector a key) (hb : Admissible q selector b key') (hne : key ≠ key')
    (hapart : Apart selector.width a b) :
    BitVec.ofInt selector.width a.value ≠ BitVec.ofInt selector.width b.value := by
  rw [ne_eq, ofInt_eq_iff_dvd]
  cases selector with
  | integer type =>
    obtain ⟨v, hv, rfl, hav⟩ := admissible_integer ha
    obtain ⟨v', hv', rfl, hbv⟩ := admissible_integer hb
    rw [hav, hbv]
    exact hapart v v' hv hv' fun heq => hne (heq ▸ rfl)
  | bool =>
    obtain ⟨v, rfl⟩ := admissible_bool ha
    obtain ⟨v', rfl⟩ := admissible_bool hb
    have hkeys : Key.bool v ≠ Key.bool v' := by
      rwa [Option.some.inj (Except.ok.inj ha.2), Option.some.inj (Except.ok.inj hb.2)]
    change ¬(2 : ℤ) ^ 1 ∣ (v.toNat : ℤ) - v'.toNat
    cases v <;> cases v' <;> first | exact absurd rfl hkeys | decide
  | enum name declared =>
    obtain ⟨e, rfl, he, rfl⟩ := admissible_enum ha
    obtain ⟨e', rfl, he', rfl⟩ := admissible_enum hb
    have hdecl : e.decl = e'.decl := Option.some.inj
      (e.found.symm.trans ((congrArg enums.find (he.trans he'.symm)).trans e'.found))
    have hmem' := e'.declared
    rw [← hdecl] at hmem'
    have hvalues : e.value ≠ e'.value := by
      intro hvalue
      have hpair := List.inj_on_of_nodup_map e.decl.values_differ e.declared hmem' hvalue
      refine hne ?_
      rw [Enumerator.symbolName, Enumerator.symbolName, he, he', (Prod.mk.inj hpair).1]
    have hfit := e.decl.values_fit _ e.declared
    have hfit' := e.decl.values_fit _ hmem'
    change ¬(2 : ℤ) ^ 32 ∣ e.value - e'.value
    simp only at hfit hfit'
    omega

end Accepted

/-! ## Which switches are right -/

theorem selectedCase_of_nodup {width : ℕ} {values : List (BitVec width)} (h : values.Nodup)
    {i : ℕ} {value : BitVec width} (hi : values[i]? = some value) :
    selectedCase values value = some i := by
  obtain ⟨hlt, hget⟩ := List.getElem?_eq_some_iff.mp hi
  rw [selectedCase, List.findIdx?_eq_some_iff_getElem]
  refine ⟨hlt, by simp [hget], fun j hj heq => ?_⟩
  rw [beq_iff_eq, ← hget] at heq
  exact absurd (h.getElem_inj_iff.mp heq) (Nat.ne_of_gt hj)

theorem mapM_ok_iff {α β : Type} {f : α → Emit β} {g : α → β} {l : List α}
    (h : ∀ a ∈ l, f a = .ok (g a)) : l.mapM f = .ok (l.map g) := by
  induction l with
  | nil => rfl
  | cons a l ih =>
    rw [List.mapM_cons, h a List.mem_cons_self, ih fun b hb => h b (List.mem_cons_of_mem _ hb)]
    rfl

/-- The cases of a switch are told apart where `stoll` reads its labels and, if the analyzer
accepts them, no two of them wrap around to one value. -/
theorem eachCaseReached_iff {q : TypeQueries}
    {saturate : (width : ℕ) → Bool → List Char → BitVec width} {selector : Selector enums}
    {labels : List (Label enums)} :
    EachCaseReached q saturate selector labels
      ↔ (∀ label ∈ labels, label.fits)
        ∧ (Accepted q selector labels → ∀ a ∈ labels, ∀ b ∈ labels, Apart selector.width a b) := by
  have hwords : Accepted q selector labels → labels.mapM (coerceLabel saturate selector.width)
      = .ok (labels.map fun label => BitVec.ofInt selector.width label.value) := by
    intro haccepted
    refine mapM_ok_iff fun label hlabel => ?_
    obtain ⟨key, hkey, -⟩ := (admissible_of_checkLabels haccepted).1 label hlabel
    exact coerceLabel_eq hkey
  constructor
  · intro h
    refine ⟨checkLabels_ok_iff.mp h.checked, fun haccepted a ha b hb v v' hv hv' hne hdvd => ?_⟩
    obtain ⟨values, hvalues, hnodup, -⟩ := h.reached haccepted
    rw [hwords haccepted] at hvalues
    obtain rfl := Except.ok.inj hvalues
    have hvalue : ∀ {label : Label enums} {v}, label.integer? = some v → label.value = v := by
      intro label v hv
      cases label with
      | number magnitude => exact Option.some.inj hv
      | character value => exact Option.some.inj hv
      | signedNumber minus magnitude => exact Option.some.inj hv
      | _ => cases hv
    have hwrap : BitVec.ofInt selector.width a.value = BitVec.ofInt selector.width b.value := by
      rwa [ofInt_eq_iff_dvd, hvalue hv, hvalue hv']
    have heq := List.inj_on_of_nodup_map hnodup ha hb hwrap
    rw [← hvalue hv, ← hvalue hv', heq] at hne
    exact hne rfl
  · rintro ⟨hfits, hapart⟩
    refine ⟨checkLabels_ok_iff.mpr hfits, fun haccepted => ?_⟩
    obtain ⟨hadmissible, hkeys⟩ := admissible_of_checkLabels haccepted
    have hnodup : (labels.map fun label => BitVec.ofInt selector.width label.value).Nodup := by
      refine List.Nodup.map_on (fun a ha b hb heq => ?_) (List.Nodup.of_map _ hkeys)
      obtain ⟨key, hkey, -⟩ := hadmissible a ha
      obtain ⟨key', hkey', -⟩ := hadmissible b hb
      by_contra hne
      refine ofInt_value_ne hkey hkey' ?_ (hapart haccepted a ha b hb) heq
      rintro rfl
      exact hne (List.inj_on_of_nodup_map hkeys ha hb (hkey.2.trans hkey'.2.symm))
    exact ⟨_, hwords haccepted, hnodup, fun i value hi => selectedCase_of_nodup hnodup hi⟩

/-! ## Two switches on unsigned selectors -/

def noEnums : EnumTable where
  find _ := none
  declarable _ h := absurd h Bool.false_ne_true

def noQueries : TypeQueries where
  genericParameters _ := none
  currentType := []
  isDerivedFrom _ _ := false
  isOpenGenericParameter _ := false
  typeOwnsUniqueResource _ := false

/-- `case 1` and `case 257` of a `uint8`. -/
def wrappingLabels : List (Label noEnums) := [.number 1, .number 257]

theorem accepted_wrappingLabels : Accepted noQueries (.integer .uint8) wrappingLabels := by rfl

/-- `case 257` of a `uint8` is never reached after `case 1`, and `case 18446744073709551615`
of a `uint64` throws. -/
theorem not_eachCaseReached :
    (¬∀ saturate, EachCaseReached noQueries saturate (.integer .uint8) wrappingLabels)
      ∧ ¬∀ saturate, EachCaseReached noQueries saturate (.integer .uint64)
        ([.number (2 ^ 64 - 1)] : List (Label noEnums)) := by
  constructor
  · intro h
    obtain ⟨values, hvalues, hnodup, -⟩ := (h fun _ _ _ => 0).reached accepted_wrappingLabels
    obtain rfl : [1, 1] = values := Except.ok.inj hvalues
    simp at hnodup
  · intro h
    obtain ⟨reports, hreports⟩ := (h fun _ _ _ => 0).checked
    cases hreports

end Switch

end Absolute
