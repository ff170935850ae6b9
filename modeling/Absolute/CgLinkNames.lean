import Mathlib.Data.List.GetD
import Mathlib.Tactic.IntervalCases
import Absolute.AnTypeTerms
import Absolute.LibEscape

/-!
# Link names

`EncodeLinkComponent` and `CallableKey` of `codegen_internal.h` and the names built from
them: `ConstructorLinkName`, `FunctionLinkName` and the names of the wrapper and the value
that stand for a function. Every character of a type name but letters, digits and `_` is
written as `_` and two hexadecimal digits. A `_` is left as it is, and so is an identifier
that reads like an escape.

`linkNames_differ_iff` says which pairs of callables this confuses.
-/

namespace Absolute

namespace LinkNames

open EscapeScheme

/-! ## The functions of the source -/

/-- `std::isalnum(character) || character == '_'` -/
def isLinkCharacter (c : Char) : Bool := c.isAlphanum || c == '_'

def hexDigits : List Char :=
  ['0', '1', '2', '3', '4', '5', '6', '7', '8', '9', 'A', 'B', 'C', 'D', 'E', 'F']

def encodeCharacter (c : Char) : List Char :=
  if isLinkCharacter c then [c]
  else ['_', hexDigits.getD (c.toNat / 16) '0', hexDigits.getD (c.toNat % 16) '0']

def encodeLinkComponent (value : List Char) : List Char := value.flatMap encodeCharacter

def callableKey (name : TypeName) (parameterTypes : List TypeName) : List Char :=
  parameterTypes.foldl (fun result type => result ++ '$' :: encodeLinkComponent type) name

def constructorLinkName (typeName : TypeName) (parameterTypes : List TypeName) : List Char :=
  callableKey (typeName ++ ".__ctor".toList) parameterTypes

/-- The names `IsReservedRuntimeSymbol` lists. -/
def reservedNames : List String :=
  ["malloc", "calloc", "realloc", "free", "aligned_alloc", "posix_memalign", "strdup", "strndup",
    "memcpy", "memmove", "memset", "memcmp", "bcmp",
    "strlen", "strcmp", "strncmp", "strcpy", "strncpy", "strcat",
    "printf", "fprintf", "sprintf", "snprintf", "vprintf", "vfprintf",
    "puts", "putchar", "fputs", "fputc", "fwrite", "fread", "fopen", "fclose", "fflush",
    "abort", "exit", "_exit", "atexit", "setjmp", "longjmp", "raise",
    "pow", "powf", "sqrt", "sqrtf", "fmod", "fmodf",
    "sin", "cos", "tan", "exp", "log", "log2", "log10",
    "__cxa_atexit", "__cxa_throw", "__cxa_begin_catch", "__cxa_end_catch", "_Unwind_Resume"]

def isReservedRuntimeSymbol (name : TypeName) : Bool :=
  (reservedNames.map String.toList).contains name || startsWith name "absolute_".toList
    || startsWith name "pthread_".toList || startsWith name "llvm.".toList
    || startsWith name "__".toList

inductive CallableKind where
  | Function
  | Method
deriving DecidableEq, Repr

/-- Bytes, and no `$`, which no name of the language holds. -/
def isLinkText (s : List Char) : Bool := s.all fun c => decide (c.toNat < 256) && c != '$'

/-- What the link name of a callable is made of. -/
structure Callable where
  kind : CallableKind
  name : TypeName
  parameterTypes : List TypeName
  genericOrigin : Option Nat
  externalFunction : Bool
  exportedFunction : Bool
  name_text : isLinkText name = true
  types_text : ∀ type ∈ parameterTypes, isLinkText type = true

/-- `symbol.name.substr(symbol.name.rfind('.') + 1)` -/
def unqualified (name : TypeName) : TypeName :=
  (name.reverse.takeWhile (· ≠ '.')).reverse

/-- `overloadCount` is `Analyzer::FunctionOverloadCount`. -/
def functionLinkName (overloadCount : TypeName → Nat) (symbol : Callable) : List Char :=
  if symbol.kind = .Method then callableKey symbol.name symbol.parameterTypes
  else if symbol.genericOrigin.isSome then callableKey symbol.name symbol.parameterTypes
  else if symbol.externalFunction || symbol.exportedFunction || symbol.name = "main".toList
      || overloadCount symbol.name ≤ 1 then
    if symbol.externalFunction || symbol.exportedFunction then unqualified symbol.name
    else if symbol.name ≠ "main".toList ∧ isReservedRuntimeSymbol symbol.name then
      ".absolute.".toList ++ callableKey symbol.name symbol.parameterTypes
    else symbol.name
  else callableKey symbol.name symbol.parameterTypes

/-- The wrapper `FunctionClosure` makes for a function. -/
def closureInvokeName (linkName : List Char) : List Char :=
  "__absolute.closure.invoke.".toList ++ encodeLinkComponent linkName

/-- The constant `FunctionClosure` makes for a function. -/
def closureValueName (linkName : List Char) : List Char :=
  "__absolute.closure.value.".toList ++ encodeLinkComponent linkName

/-! ## The encoding as an escape -/

theorem idxOf_hexDigits {n : Nat} (h : n < 16) :
    hexDigits.idxOf (hexDigits.getD n '0') = n := by
  interval_cases n <;> rfl

theorem getD_idxOf_hexDigits {c : Char} (h : c ∈ hexDigits) :
    hexDigits.getD (hexDigits.idxOf c) '0' = c := by
  rw [List.getD_eq_getElem _ _ (List.idxOf_lt_length_of_mem h), List.getElem_idxOf]

theorem isLinkCharacter_hexDigits {c : Char} (h : c ∈ hexDigits) :
    isLinkCharacter c = true ∧ c ≠ '_' ∧ c ≠ '$' ∧ c.toNat < 256 := by
  have hall : hexDigits.all (fun c => isLinkCharacter c && c != '_' && c != '$'
      && decide (c.toNat < 256)) = true := rfl
  simpa [and_assoc] using List.all_eq_true.mp hall c h

theorem getD_mem_hexDigits {n : Nat} (h : n < 16) : hexDigits.getD n '0' ∈ hexDigits := by
  rw [List.getD_eq_getElem _ _ h]
  exact List.getElem_mem h

theorem toNat_ofNat_byte {n : Nat} (h : n < 256) : (Char.ofNat n).toNat = n := by
  have hvalid : n.isValidChar := Or.inl (by omega)
  rw [Char.ofNat, dif_pos hvalid]
  rfl

/-- The character two digits spell, where it is one that is escaped. -/
def readEscape (a b : Char) : Option Char :=
  if a ∈ hexDigits ∧ b ∈ hexDigits then
    if isLinkCharacter (Char.ofNat (16 * hexDigits.idxOf a + hexDigits.idxOf b)) then none
    else some (Char.ofNat (16 * hexDigits.idxOf a + hexDigits.idxOf b))
  else none

theorem readEscape_eq {a b c : Char} :
    readEscape a b = some c ↔ (isLinkCharacter c = false ∧ c.toNat < 256)
      ∧ (hexDigits.getD (c.toNat / 16) '0', hexDigits.getD (c.toNat % 16) '0') = (a, b) := by
  unfold readEscape
  constructor
  · intro h
    split_ifs at h with hdigits hlink
    obtain rfl := Option.some.inj h
    have ha := List.idxOf_lt_length_of_mem hdigits.1
    have hb := List.idxOf_lt_length_of_mem hdigits.2
    change _ < 16 at ha hb
    have hbyte : 16 * hexDigits.idxOf a + hexDigits.idxOf b < 256 := by omega
    rw [toNat_ofNat_byte hbyte]
    have hhigh : (16 * hexDigits.idxOf a + hexDigits.idxOf b) / 16 = hexDigits.idxOf a := by omega
    have hlow : (16 * hexDigits.idxOf a + hexDigits.idxOf b) % 16 = hexDigits.idxOf b := by omega
    rw [hhigh, hlow, getD_idxOf_hexDigits hdigits.1, getD_idxOf_hexDigits hdigits.2]
    exact ⟨⟨Bool.eq_false_iff.mpr hlink, hbyte⟩, rfl⟩
  · rintro ⟨⟨hlink, hbyte⟩, hdigits⟩
    simp only [Prod.mk.injEq] at hdigits
    obtain ⟨rfl, rfl⟩ := hdigits
    have hhigh : c.toNat / 16 < 16 := by omega
    have hlow : c.toNat % 16 < 16 := Nat.mod_lt _ (by omega)
    rw [if_pos ⟨getD_mem_hexDigits hhigh, getD_mem_hexDigits hlow⟩, idxOf_hexDigits hhigh, idxOf_hexDigits hlow]
    have hvalue : 16 * (c.toNat / 16) + c.toNat % 16 = c.toNat := by omega
    simp [hvalue, hlink]

theorem mem_of_readEscape {a b c : Char} (h : readEscape a b = some c) :
    a ∈ hexDigits ∧ b ∈ hexDigits := by
  unfold readEscape at h
  split_ifs at h with hdigits
  exact hdigits

def linkScheme : EscapeScheme Char where
  plain := isLinkCharacter
  escaped c := isLinkCharacter c = false ∧ c.toNat < 256
  mark := '_'
  digits c := (hexDigits.getD (c.toNat / 16) '0', hexDigits.getD (c.toNat % 16) '0')
  read := readEscape
  plain_mark := rfl
  not_plain h := h.1
  read_eq := readEscape_eq
  plain_digits h := ⟨(isLinkCharacter_hexDigits (mem_of_readEscape h).1).1,
    (isLinkCharacter_hexDigits (mem_of_readEscape h).2).1⟩
  ne_mark h := ⟨(isLinkCharacter_hexDigits (mem_of_readEscape h).1).2.1,
    (isLinkCharacter_hexDigits (mem_of_readEscape h).2).2.1⟩

theorem isLinkText_iff {s : List Char} :
    isLinkText s = true ↔ (∀ c ∈ s, c.toNat < 256) ∧ '$' ∉ s := by
  simp only [isLinkText, List.all_eq_true, Bool.and_eq_true, decide_eq_true_eq, bne_iff_ne]
  constructor
  · exact fun h => ⟨fun c hc => (h c hc).1, fun hc => (h '$' hc).2 rfl⟩
  · exact fun h c hc => ⟨h.1 c hc, fun heq => h.2 (heq ▸ hc)⟩

theorem encodeLinkComponent_eq (value : List Char) :
    encodeLinkComponent value = linkScheme.escape value := rfl

theorem isText_of_bytes {s : List Char} (h : ∀ c ∈ s, c.toNat < 256) : linkScheme.IsText s := by
  intro c hc
  cases hplain : isLinkCharacter c with
  | true => exact .inl hplain
  | false => exact .inr ⟨hplain, h c hc⟩

theorem callableKey_eq (name : TypeName) (parameterTypes : List TypeName) :
    callableKey name parameterTypes
      = joined '$' name (parameterTypes.map encodeLinkComponent) := by
  unfold callableKey
  induction parameterTypes generalizing name with
  | nil => simp [joined]
  | cons type types ih =>
    rw [List.foldl_cons, ih, List.map_cons, joined_cons, joined, joined]
    simp

theorem isLinkText_encodeCharacter {c : Char} (h : c.toNat < 256) :
    isLinkText (encodeCharacter c) = true := by
  have hdigit : ∀ {n : Nat}, n < 16 → hexDigits.getD n '0' ≠ '$'
      ∧ (hexDigits.getD n '0').toNat < 256 := fun hn =>
    (isLinkCharacter_hexDigits (getD_mem_hexDigits hn)).2.2
  have hhigh := @hdigit (c.toNat / 16) (by omega)
  have hlow := @hdigit (c.toNat % 16) (Nat.mod_lt _ (by omega))
  rw [encodeCharacter]
  split_ifs with hplain
  · have hne : c ≠ '$' := by
      rintro rfl
      cases hplain
    simp [isLinkText, h, hne]
  · rw [isLinkText, List.all_cons, List.all_cons, List.all_cons, List.all_nil]
    simp only [hhigh.2, hlow.2, decide_true, Bool.true_and, Bool.and_true, Bool.and_eq_true,
      bne_iff_ne]
    exact ⟨⟨rfl, by decide⟩, hhigh.1, hlow.1⟩

/-- What is encoded has no separators. -/
theorem isLinkText_encodeLinkComponent {value : List Char} (h : isLinkText value = true) :
    isLinkText (encodeLinkComponent value) = true := by
  rw [isLinkText, encodeLinkComponent, List.all_flatMap, List.all_eq_true]
  exact fun c hc => isLinkText_encodeCharacter ((isLinkText_iff.mp h).1 c hc)

/-! ## Callables and what tells them apart -/

def Callable.UsesCAbi (s : Callable) : Prop := (s.externalFunction || s.exportedFunction) = true

/-- Different callables. -/
def Callable.Differ (s s' : Callable) : Prop :=
  s.name ≠ s'.name ∨ s.parameterTypes ≠ s'.parameterTypes

/-- What the analyzer sees to where two callables share a name: both are methods, both are
instances of a generic function, or they are counted as overloads, `main` never. -/
def Overloads (overloadCount : TypeName → Nat) (s s' : Callable) : Prop :=
  s.name = s'.name → s.parameterTypes ≠ s'.parameterTypes →
    (s.kind = .Method ∧ s'.kind = .Method)
      ∨ (s.genericOrigin.isSome = true ∧ s'.genericOrigin.isSome = true)
      ∨ (s.name ≠ "main".toList ∧ 1 < overloadCount s.name)

structure LinkNamesDiffer (overloadCount : TypeName → Nat) (s s' : Callable) : Prop where
  keys : callableKey s.name s.parameterTypes ≠ callableKey s'.name s'.parameterTypes
  constructors : constructorLinkName s.name s.parameterTypes
    ≠ constructorLinkName s'.name s'.parameterTypes
  functions : functionLinkName overloadCount s ≠ functionLinkName overloadCount s'
  wrappers : closureInvokeName (functionLinkName overloadCount s)
    ≠ closureInvokeName (functionLinkName overloadCount s')
  values : closureValueName (functionLinkName overloadCount s)
    ≠ closureValueName (functionLinkName overloadCount s')

/-- Whether the parameter types are in the link name. -/
def isKeyed (overloadCount : TypeName → Nat) (s : Callable) : Prop :=
  s.kind = .Method ∨ s.genericOrigin.isSome = true
    ∨ (s.name ≠ "main".toList ∧ 1 < overloadCount s.name)

instance (overloadCount : TypeName → Nat) (s : Callable) : Decidable (isKeyed overloadCount s) :=
  inferInstanceAs (Decidable (_ ∨ _))

/-- A name that is taken out of the way of the runtime's. -/
def isMoved (s : Callable) : Prop :=
  s.name ≠ "main".toList ∧ isReservedRuntimeSymbol s.name = true

instance (s : Callable) : Decidable (isMoved s) := inferInstanceAs (Decidable (_ ∧ _))

/-- The link name of a callable with its types as they are written. -/
def signature (overloadCount : TypeName → Nat) (s : Callable) : List Char :=
  if isKeyed overloadCount s then joined '$' s.name s.parameterTypes
  else if isMoved s then joined '$' (".absolute.".toList ++ s.name) s.parameterTypes
  else s.name

/-- Every `_XX` that spells a character `EncodeLinkComponent` escapes is read as that
character. -/
def readEscapes (s : List Char) : List Char := linkScheme.unescape s

variable {overloadCount : TypeName → Nat} {s s' : Callable}

theorem functionLinkName_eq (hs : ¬s.UsesCAbi) :
    functionLinkName overloadCount s =
      if isKeyed overloadCount s then callableKey s.name s.parameterTypes
      else if isMoved s then ".absolute.".toList ++ callableKey s.name s.parameterTypes
      else s.name := by
  have hflags : (s.externalFunction || s.exportedFunction) = false := Bool.eq_false_iff.mpr hs
  by_cases hmethod : s.kind = .Method
  · rw [functionLinkName, if_pos hmethod, if_pos (.inl hmethod)]
  by_cases hgeneric : s.genericOrigin.isSome = true
  · rw [functionLinkName, if_neg hmethod, if_pos hgeneric, if_pos (.inr (.inl hgeneric))]
  have hkeyed : isKeyed overloadCount s ↔ s.name ≠ "main".toList ∧ 1 < overloadCount s.name := by
    simp [isKeyed, hmethod, hgeneric]
  have hsingle : (decide (s.name = "main".toList) || decide (overloadCount s.name ≤ 1)) = true
      ↔ ¬(s.name ≠ "main".toList ∧ 1 < overloadCount s.name) := by
    rw [Bool.or_eq_true, decide_eq_true_eq, decide_eq_true_eq, not_and_or, not_not, not_lt]
  rw [functionLinkName, if_neg hmethod, if_neg hgeneric, hflags, Bool.false_or]
  by_cases hcounted : s.name ≠ "main".toList ∧ 1 < overloadCount s.name
  · rw [if_neg fun h => hsingle.mp h hcounted, if_pos (hkeyed.mpr hcounted)]
  · rw [if_pos (hsingle.mpr hcounted), if_neg Bool.false_ne_true,
      if_neg fun h => hcounted (hkeyed.mp h)]
    rfl

theorem bytes_callableKey (s : Callable) :
    ∀ c ∈ callableKey s.name s.parameterTypes, c.toNat < 256 := by
  intro c hc
  rw [callableKey_eq, joined] at hc
  rcases List.mem_append.mp hc with hc | hc
  · exact (isLinkText_iff.mp s.name_text).1 c hc
  · obtain ⟨_, hpart, hc⟩ := List.mem_flatMap.mp hc
    obtain ⟨type, htype, rfl⟩ := List.mem_map.mp hpart
    rcases List.mem_cons.mp hc with rfl | hc
    · decide
    · exact (isLinkText_iff.mp
        (isLinkText_encodeLinkComponent (s.types_text type htype))).1 c hc

theorem isText_functionLinkName (hs : ¬s.UsesCAbi) :
    linkScheme.IsText (functionLinkName overloadCount s) := by
  have hkey := isText_of_bytes (bytes_callableKey s)
  have hmoved : linkScheme.IsText ".absolute.".toList := isText_of_bytes
    (isLinkText_iff.mp (show isLinkText ".absolute.".toList = true from rfl)).1
  rw [functionLinkName_eq hs]
  split_ifs
  · exact hkey
  · exact hmoved.append hkey
  · exact isText_of_bytes (isLinkText_iff.mp s.name_text).1

theorem readEscapes_joined (s : Callable) (name : TypeName) :
    readEscapes (joined '$' name (s.parameterTypes.map encodeLinkComponent))
      = readEscapes (joined '$' name s.parameterTypes) := by
  have hsep : linkScheme.plain '$' = false := rfl
  rw [readEscapes, readEscapes, unescape_joined hsep, unescape_joined hsep, List.map_map]
  congr 1
  refine List.map_congr_left fun type htype => ?_
  exact unescape_escape (isText_of_bytes (isLinkText_iff.mp (s.types_text type htype)).1)

/-- The types of a link name are read back as the types of the signature are. -/
theorem readEscapes_functionLinkName (hs : ¬s.UsesCAbi) :
    readEscapes (functionLinkName overloadCount s)
      = readEscapes (signature overloadCount s) := by
  rw [functionLinkName_eq hs, signature]
  split_ifs
  · rw [callableKey_eq, readEscapes_joined]
  · rw [callableKey_eq, joined, ← List.append_assoc, ← joined, readEscapes_joined]
  · rfl

theorem encode_functionLinkName_eq_iff (hs : ¬s.UsesCAbi) (hs' : ¬s'.UsesCAbi) :
    encodeLinkComponent (functionLinkName overloadCount s)
        = encodeLinkComponent (functionLinkName overloadCount s')
      ↔ readEscapes (signature overloadCount s) = readEscapes (signature overloadCount s') := by
  rw [encodeLinkComponent_eq, encodeLinkComponent_eq,
    escape_eq_iff (isText_functionLinkName hs) (isText_functionLinkName hs'),
    ← readEscapes_functionLinkName hs, ← readEscapes_functionLinkName hs']
  rfl

/-- What one key says of the callables that share it. -/
theorem callableKey_inj {part : List Char} (hpart : '$' ∉ part)
    (h : callableKey (s.name ++ part) s.parameterTypes
      = callableKey (s'.name ++ part) s'.parameterTypes) :
    s.name = s'.name
      ∧ s.parameterTypes.map encodeLinkComponent = s'.parameterTypes.map encodeLinkComponent := by
  have hname : ∀ t : Callable, '$' ∉ t.name ++ part := fun t hc =>
    (List.mem_append.mp hc).elim (isLinkText_iff.mp t.name_text).2 hpart
  have htypes : ∀ t : Callable, ∀ encoded ∈ t.parameterTypes.map encodeLinkComponent,
      '$' ∉ encoded := by
    intro t encoded hencoded
    obtain ⟨type, htype, rfl⟩ := List.mem_map.mp hencoded
    exact (isLinkText_iff.mp (isLinkText_encodeLinkComponent (t.types_text type htype))).2
  rw [callableKey_eq, callableKey_eq] at h
  obtain ⟨hnames, hencoded⟩ := joined_inj (hname s) (hname s') (htypes s) (htypes s') h
  exact ⟨List.append_cancel_right hnames, hencoded⟩

/-- Callables that share a key share their link name. -/
theorem functionLinkName_eq_of_key (hs : ¬s.UsesCAbi) (hs' : ¬s'.UsesCAbi)
    (hoverloads : Overloads overloadCount s s') (hne : s.Differ s') (hname : s.name = s'.name)
    (htypes : s.parameterTypes.map encodeLinkComponent
      = s'.parameterTypes.map encodeLinkComponent) :
    functionLinkName overloadCount s = functionLinkName overloadCount s' := by
  have hkeyed : isKeyed overloadCount s ∧ isKeyed overloadCount s' := by
    rcases hoverloads hname (hne.resolve_left (not_not.mpr hname)) with h | h | h
    · exact ⟨.inl h.1, .inl h.2⟩
    · exact ⟨.inr (.inl h.1), .inr (.inl h.2)⟩
    · exact ⟨.inr (.inr h), .inr (.inr (hname ▸ h))⟩
  rw [functionLinkName_eq hs, functionLinkName_eq hs', if_pos hkeyed.1, if_pos hkeyed.2,
    callableKey_eq, callableKey_eq, hname, htypes]

/-- Link names tell two callables apart where their signatures do once what reads like an
escape is read as one. -/
theorem linkNames_differ_iff (hs : ¬s.UsesCAbi) (hs' : ¬s'.UsesCAbi)
    (hoverloads : Overloads overloadCount s s') (hne : s.Differ s') :
    LinkNamesDiffer overloadCount s s'
      ↔ readEscapes (signature overloadCount s) ≠ readEscapes (signature overloadCount s') := by
  have hencoded := @encode_functionLinkName_eq_iff overloadCount _ _ hs hs'
  constructor
  · intro h heq
    exact h.wrappers (congrArg (_ ++ ·) (hencoded.mpr heq))
  · intro h
    have hfunctions : functionLinkName overloadCount s ≠ functionLinkName overloadCount s' :=
      fun heq => h (hencoded.mp (congrArg _ heq))
    have hkeys : ∀ part : List Char, '$' ∉ part →
        callableKey (s.name ++ part) s.parameterTypes
          ≠ callableKey (s'.name ++ part) s'.parameterTypes := by
      intro part hpart heq
      obtain ⟨hname, htypes⟩ := callableKey_inj hpart heq
      exact hfunctions (functionLinkName_eq_of_key hs hs' hoverloads hne hname htypes)
    exact {
      keys := by simpa using hkeys [] (by simp)
      constructors := hkeys _ (by simp)
      functions := hfunctions
      wrappers := fun heq => h (hencoded.mp (List.append_cancel_left heq))
      values := fun heq => h (hencoded.mp (List.append_cancel_left heq)) }

/-! ## One name, one parameter -/

/-- `f` with one parameter. -/
def overloadOf (type : TypeName) (h : isLinkText type = true) : Callable where
  kind := .Function
  name := ['f']
  parameterTypes := [type]
  genericOrigin := none
  externalFunction := false
  exportedFunction := false
  name_text := rfl
  types_text _ ht := List.mem_singleton.mp ht ▸ h

theorem overloads_overloadOf {type type' : TypeName} {h h'} :
    Overloads (fun _ => 2) (overloadOf type h) (overloadOf type' h') :=
  fun _ _ => .inr (.inr ⟨by simp [overloadOf], Nat.one_lt_two⟩)

theorem differ_overloadOf {type type' : TypeName} {h h'} (hne : type ≠ type') :
    (overloadOf type h).Differ (overloadOf type' h') :=
  .inr fun heq => hne (List.cons.inj heq).1

theorem linkNames_int32_int64 :
    LinkNamesDiffer (fun _ => 2) (overloadOf "int32".toList rfl)
      (overloadOf "int64".toList rfl) := by
  have hcabi : ∀ {type} {h}, ¬(overloadOf type h).UsesCAbi := Bool.false_ne_true
  refine (linkNames_differ_iff hcabi hcabi overloads_overloadOf
    (differ_overloadOf (by simp))).mpr ?_
  decide

/-- `f(Box<int32>)` and `f(Box_3Cint32_3E)`. -/
theorem box_shares_linkName :
    ¬∀ overloadCount (s s' : Callable), ¬s.UsesCAbi → ¬s'.UsesCAbi →
      Overloads overloadCount s s' → s.Differ s' → LinkNamesDiffer overloadCount s s' := by
  intro h
  have hcabi : ∀ {type} {h}, ¬(overloadOf type h).UsesCAbi := Bool.false_ne_true
  exact (h (fun _ => 2) (overloadOf "Box<int32>".toList rfl)
    (overloadOf "Box_3Cint32_3E".toList rfl) hcabi hcabi overloads_overloadOf
    (differ_overloadOf (by simp))).keys rfl

end LinkNames

end Absolute
