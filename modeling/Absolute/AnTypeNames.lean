import Mathlib.Data.List.Basic
import Mathlib.Data.List.TakeDrop
import Mathlib.Tactic.Common

/-!
# Canonical type names

`Absolute-Parser/include/type_names.h` and the name functions of
`Absolute-Analyzer/include/analyzer_internal.h`: a type is a plain string, and
what it means is read back by prefix and suffix tests. Names are lists of
characters here.

`substituteGenericType` and `canonicalWithOwnership` call themselves on shorter
names, so they recurse on a bound of the length; `substituteGenericType_eq` is
the source's recursion without it.
-/

namespace Absolute

abbrev TypeName := List Char

/-- The lifetime relation a handle value has to what it points at. -/
inductive OwnershipKind where
  | None
  | Unique
  | Sub
  | Weak
  | Raw
deriving Repr, DecidableEq

def canonicalOwnershipPrefix : OwnershipKind → TypeName
  | .Raw => "raw ".toList
  | .Weak => "weak ".toList
  | .Sub => "sub ".toList
  | .Unique | .None => []

def startsWith (type part : TypeName) : Bool := part.isPrefixOf type
def endsWith (type part : TypeName) : Bool := part.isSuffixOf type

def canonicalOwnership (type : TypeName) : OwnershipKind :=
  if type = [] ∨ ¬endsWith type "*".toList then .None
  else if startsWith type "raw ".toList then .Raw
  else if startsWith type "weak ".toList then .Weak
  else if startsWith type "sub ".toList then .Sub
  else .Unique

def canonicalPointeeName (type : TypeName) : TypeName :=
  let kind := canonicalOwnership type
  if kind = .None then type
  else (type.drop (canonicalOwnershipPrefix kind).length).dropLast

def canonicalPointerName (pointee : TypeName) (kind : OwnershipKind) : TypeName :=
  canonicalOwnershipPrefix kind ++ pointee ++ "*".toList

/-- A qualifier written in front of a name that is not a pointer yet. -/
def canonicalOpenOwnership (type : TypeName) : OwnershipKind :=
  if type = [] ∨ endsWith type "*".toList then .None
  else if startsWith type "raw ".toList then .Raw
  else if startsWith type "weak ".toList then .Weak
  else if startsWith type "sub ".toList then .Sub
  else .None

def canonicalOpenBaseName (type : TypeName) : TypeName :=
  let kind := canonicalOpenOwnership type
  if kind = .None then type
  else type.drop (canonicalOwnershipPrefix kind).length

/-- `type.substr(0, type.size() - 2)`, the element name of an array type. -/
def dropBrackets (type : TypeName) : TypeName := type.take (type.length - 2)

def canonicalWithOwnershipGo (kind : OwnershipKind) : Nat → TypeName → TypeName
  | 0, type => type
  | n + 1, type =>
      if endsWith type "[]".toList then
        canonicalWithOwnershipGo kind n (dropBrackets type) ++ "[]".toList
      else if canonicalOwnership type = .None then type
      else canonicalPointerName (canonicalPointeeName type) kind

/-- Applying a qualifier to a complete type. -/
def canonicalWithOwnership (type : TypeName) (kind : OwnershipKind) : TypeName :=
  canonicalWithOwnershipGo kind (type.length + 1) type

/-! ## Value references -/

def isValueReferenceType (type : TypeName) : Bool := endsWith type "&".toList

def isConstValueReferenceType (type : TypeName) : Bool :=
  isValueReferenceType type && startsWith type "const ".toList

def valueReferenceBaseType (type : TypeName) : TypeName :=
  if isValueReferenceType type then
    let base := type.dropLast
    if startsWith base "const ".toList then base.drop 6 else base
  else type

def valueReferenceType (type : TypeName) (isConst isReference : Bool) : TypeName :=
  if isReference then
    (if isConst then "const ".toList else []) ++ type ++ "&".toList
  else type

/-! ## Arrays -/

def arrayRankGo : Nat → TypeName → Nat
  | 0, _ => 0
  | n + 1, type =>
      if endsWith type "[]".toList then arrayRankGo n (dropBrackets type) + 1 else 0

def arrayRank (type : TypeName) : Nat := arrayRankGo type.length type

/-- `ArrayElementType` at its default of one dimension. -/
def arrayElementType (type : TypeName) : TypeName :=
  if endsWith type "[]".toList then dropBrackets type else type

/-! ## Generic applications -/

/-- The loop of `ParseGenericTypeName` over what stands between the first `<`
and the final `>`: `current` is the argument being read, `depth` the nesting. -/
def parseArguments : TypeName → Nat → TypeName → Option (List TypeName)
  | [], _, current => some [current]
  | c :: rest, depth, current =>
      if c = '<' then parseArguments rest (depth + 1) (current ++ [c])
      else if c = '>' then
        if depth = 0 then none else parseArguments rest (depth - 1) (current ++ [c])
      else if c = ',' ∧ depth = 0 then
        (parseArguments rest depth []).map (current :: ·)
      else parseArguments rest depth (current ++ [c])

/-- The base and arguments, where the source returns `true`. -/
def parseGenericTypeName (type : TypeName) : Option (TypeName × List TypeName) :=
  match type.dropWhile (· ≠ '<') with
  | [] => none
  | _ :: tail =>
      if type.getLast? ≠ some '>' then none
      else
        let base := type.takeWhile (· ≠ '<')
        match parseArguments tail.dropLast 0 [] with
        | none => none
        | some arguments =>
            if base ≠ [] ∧ ∀ a ∈ arguments, a ≠ [] then some (base, arguments) else none

/-- `base<argument,..>`. -/
def genericTypeName (base : TypeName) (arguments : List TypeName) : TypeName :=
  base ++ "<".toList ++ List.intercalate ",".toList arguments ++ ">".toList

/-! ## Substitution -/

abbrev Substitutions := TypeName → Option TypeName

def substituteGenericTypeGo (σ : Substitutions) : Nat → TypeName → TypeName
  | 0, type => type
  | n + 1, type =>
      if isValueReferenceType type then
        valueReferenceType (substituteGenericTypeGo σ n (valueReferenceBaseType type))
          (isConstValueReferenceType type) true
      else match σ type with
        | some found => found
        | none =>
            if endsWith type "[]".toList then
              substituteGenericTypeGo σ n (dropBrackets type) ++ "[]".toList
            else if canonicalOpenOwnership type ≠ .None then
              let openKind := canonicalOpenOwnership type
              let base := canonicalOpenBaseName type
              let substituted := substituteGenericTypeGo σ n base
              -- A variable standing for itself keeps its qualifier, unapplied.
              if substituted = base then canonicalOwnershipPrefix openKind ++ substituted
              else canonicalWithOwnership substituted openKind
            else if canonicalOwnership type ≠ .None then
              canonicalPointerName
                (substituteGenericTypeGo σ n (canonicalPointeeName type))
                (canonicalOwnership type)
            else match parseGenericTypeName type with
              | none => type
              | some (base, arguments) =>
                  genericTypeName base (arguments.map (substituteGenericTypeGo σ n))

def substituteGenericType (type : TypeName) (σ : Substitutions) : TypeName :=
  substituteGenericTypeGo σ (type.length + 1) type

/-! ## The recursion without its bound -/

theorem endsWith_iff {type part : TypeName} :
    endsWith type part = true ↔ ∃ front, type = front ++ part := by
  rw [endsWith, List.isSuffixOf_iff_suffix]
  exact ⟨fun ⟨f, h⟩ => ⟨f, h.symm⟩, fun ⟨f, h⟩ => ⟨f, h.symm⟩⟩

theorem length_pos_of_endsWith {type part : TypeName} (h : endsWith type part = true)
    (hpart : part ≠ []) : 0 < type.length := by
  obtain ⟨front, rfl⟩ := endsWith_iff.mp h
  have := List.length_pos_iff.mpr hpart
  simp only [List.length_append]; omega

theorem length_valueReferenceBaseType {type : TypeName}
    (h : isValueReferenceType type = true) :
    (valueReferenceBaseType type).length < type.length := by
  have := length_pos_of_endsWith h (by simp)
  simp only [valueReferenceBaseType, h, if_true]
  split <;> simp only [List.length_drop, List.length_dropLast] <;> omega

theorem length_dropBrackets {type : TypeName} (h : endsWith type "[]".toList = true) :
    (dropBrackets type).length < type.length := by
  have := length_pos_of_endsWith h (by simp)
  simp only [dropBrackets, List.length_take]; omega

theorem canonicalOwnershipPrefix_length_pos {kind : OwnershipKind}
    (h : kind ≠ .None) (hu : kind ≠ .Unique) :
    0 < (canonicalOwnershipPrefix kind).length := by
  cases kind <;> simp_all [canonicalOwnershipPrefix]

theorem canonicalOpenOwnership_ne_unique (type : TypeName) :
    canonicalOpenOwnership type ≠ .Unique := by
  unfold canonicalOpenOwnership
  split_ifs <;> simp

theorem length_canonicalOpenBaseName {type : TypeName}
    (h : canonicalOpenOwnership type ≠ .None) :
    (canonicalOpenBaseName type).length < type.length := by
  have hpos := canonicalOwnershipPrefix_length_pos h (canonicalOpenOwnership_ne_unique type)
  have hne : type ≠ [] := by
    rintro rfl
    exact h rfl
  have := List.length_pos_iff.mpr hne
  simp only [canonicalOpenBaseName, if_neg h, List.length_drop]; omega

theorem length_canonicalPointeeName {type : TypeName}
    (h : canonicalOwnership type ≠ .None) :
    (canonicalPointeeName type).length < type.length := by
  have hne : type ≠ [] := by
    rintro rfl
    exact h rfl
  have := List.length_pos_iff.mpr hne
  simp only [canonicalPointeeName, if_neg h, List.length_dropLast, List.length_drop]; omega

theorem endsWith_star_of_kind {type : TypeName} (h : canonicalOwnership type ≠ .None) :
    endsWith type "*".toList = true := by
  by_contra hend
  exact h (by rw [canonicalOwnership, if_pos (Or.inr hend)])

theorem ownershipPrefix_isPrefix (type : TypeName) :
    canonicalOwnershipPrefix (canonicalOwnership type) <+: type := by
  unfold canonicalOwnership
  split_ifs with _ hraw hweak hsub
  · exact List.nil_prefix
  · exact List.isPrefixOf_iff_prefix.mp hraw
  · exact List.isPrefixOf_iff_prefix.mp hweak
  · exact List.isPrefixOf_iff_prefix.mp hsub
  · exact List.nil_prefix

/-- A pointer is its kind and its pointee. -/
theorem canonicalPointerName_pointee {type : TypeName} (h : canonicalOwnership type ≠ .None) :
    canonicalPointerName (canonicalPointeeName type) (canonicalOwnership type) = type := by
  obtain ⟨rest, hrest⟩ := ownershipPrefix_isPrefix type
  obtain ⟨front, hfront⟩ := endsWith_iff.mp (endsWith_star_of_kind h)
  rw [canonicalPointeeName, if_neg h, canonicalPointerName]
  generalize canonicalOwnership type = kind at h hrest ⊢
  subst hrest
  rcases List.eq_nil_or_concat rest with rfl | ⟨rest, c, rfl⟩
  · -- a qualifier ends in a blank
    have hlast := congrArg List.getLast? hfront
    rw [List.append_nil] at hlast
    cases kind <;> simp [canonicalOwnershipPrefix] at hlast h
  · obtain rfl : c = '*' := by
      have hlast := congrArg List.getLast? hfront
      simpa using hlast
    rw [List.drop_left]
    simp

theorem length_of_mem_parseArguments {s : TypeName} {depth : Nat} {current : TypeName}
    {arguments : List TypeName} (h : parseArguments s depth current = some arguments) :
    ∀ a ∈ arguments, a.length ≤ current.length + s.length := by
  induction s generalizing depth current arguments with
  | nil =>
      obtain rfl := Option.some.inj h
      simp
  | cons c rest ih =>
      have hstep : ∀ {d args}, parseArguments rest d (current ++ [c]) = some args →
          ∀ a ∈ args, a.length ≤ current.length + (c :: rest).length := by
        intro d args hp a ha
        have := ih hp a ha
        simp only [List.length_append, List.length_cons, List.length_nil] at this ⊢
        omega
      unfold parseArguments at h
      split_ifs at h
      · exact hstep h
      · exact hstep h
      · obtain ⟨args, hp, rfl⟩ := Option.map_eq_some_iff.mp h
        intro a ha
        rcases List.mem_cons.mp ha with rfl | hmem
        · omega
        · have := ih hp a hmem
          simp only [List.length_nil, List.length_cons] at this ⊢; omega
      · exact hstep h

theorem length_of_mem_parseGenericTypeName {type base : TypeName}
    {arguments : List TypeName} (h : parseGenericTypeName type = some (base, arguments)) :
    base.length < type.length ∧ ∀ a ∈ arguments, a.length < type.length := by
  unfold parseGenericTypeName at h
  have hsplit := List.takeWhile_append_dropWhile (p := (· ≠ '<')) (l := type)
  split at h
  · cases h
  · rename_i c tail hd
    rw [hd] at hsplit
    have hlen := congrArg List.length hsplit
    simp only [List.length_append, List.length_cons] at hlen
    split at h
    · cases h
    · dsimp only at h
      split at h
      · cases h
      · rename_i args hp
        split at h
        · simp only [Option.some.injEq, Prod.mk.injEq] at h
          obtain ⟨rfl, rfl⟩ := h
          refine ⟨by omega, fun a ha => ?_⟩
          have := length_of_mem_parseArguments hp a ha
          simp only [List.length_nil, List.length_dropLast] at this
          omega
        · cases h

/-- A bound over the length does not change what the recursion computes. -/
theorem substituteGenericTypeGo_congr (σ : Substitutions) :
    ∀ {n m : Nat} {type : TypeName}, type.length < n → type.length < m →
      substituteGenericTypeGo σ n type = substituteGenericTypeGo σ m type
  | n + 1, m + 1, type, hn, hm => by
      have ih : ∀ {s : TypeName}, s.length < type.length →
          substituteGenericTypeGo σ n s = substituteGenericTypeGo σ m s :=
        fun hs => substituteGenericTypeGo_congr σ (by omega) (by omega)
      unfold substituteGenericTypeGo
      dsimp only
      split
      · rename_i href
        rw [ih (length_valueReferenceBaseType href)]
      · split
        · rfl
        · split
          · rename_i harr
            rw [ih (length_dropBrackets harr)]
          · split
            · rename_i hopen
              rw [ih (length_canonicalOpenBaseName hopen)]
            · split
              · rename_i hptr
                rw [ih (length_canonicalPointeeName hptr)]
              · split
                · rfl
                · rename_i hp
                  rw [List.map_congr_left fun a ha =>
                    ih ((length_of_mem_parseGenericTypeName hp).2 a ha)]

/-- `SubstituteGenericType`, as the source writes it. -/
theorem substituteGenericType_eq (type : TypeName) (σ : Substitutions) :
    substituteGenericType type σ =
      if isValueReferenceType type then
        valueReferenceType (substituteGenericType (valueReferenceBaseType type) σ)
          (isConstValueReferenceType type) true
      else match σ type with
        | some found => found
        | none =>
            if endsWith type "[]".toList then
              substituteGenericType (dropBrackets type) σ ++ "[]".toList
            else if canonicalOpenOwnership type ≠ .None then
              if substituteGenericType (canonicalOpenBaseName type) σ
                  = canonicalOpenBaseName type then
                canonicalOwnershipPrefix (canonicalOpenOwnership type)
                  ++ substituteGenericType (canonicalOpenBaseName type) σ
              else canonicalWithOwnership
                (substituteGenericType (canonicalOpenBaseName type) σ)
                (canonicalOpenOwnership type)
            else if canonicalOwnership type ≠ .None then
              canonicalPointerName (substituteGenericType (canonicalPointeeName type) σ)
                (canonicalOwnership type)
            else match parseGenericTypeName type with
              | none => type
              | some (base, arguments) =>
                  genericTypeName base
                    (arguments.map fun a => substituteGenericType a σ) := by
  have ih : ∀ {s : TypeName}, s.length < type.length →
      substituteGenericTypeGo σ type.length s = substituteGenericType s σ :=
    fun hs => substituteGenericTypeGo_congr σ hs (Nat.lt_succ_self _)
  conv_lhs => unfold substituteGenericType substituteGenericTypeGo
  dsimp only
  split
  · rename_i href
    rw [ih (length_valueReferenceBaseType href)]
  · split
    · rfl
    · split
      · rename_i harr
        rw [ih (length_dropBrackets harr)]
      · split
        · rename_i hopen
          rw [ih (length_canonicalOpenBaseName hopen)]
        · split
          · rename_i hptr
            rw [ih (length_canonicalPointeeName hptr)]
          · split
            · rfl
            · rename_i hp
              rw [List.map_congr_left fun a ha =>
                ih ((length_of_mem_parseGenericTypeName hp).2 a ha)]

end Absolute
