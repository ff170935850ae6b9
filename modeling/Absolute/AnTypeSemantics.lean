import Mathlib.Data.List.Basic
import Absolute.AnInheritance

/-!
# What a type owns and what it drops

`TypeOwnsUniqueResource` and `SemanticsOfType` (`Absolute-Analyzer/src/analyzer.cpp`): the
rules of ownership ask the one, releases are made from the other. Both come down to a walk
by parts over the same parts (`leads_released`), so that a line to an owner is one to
something that drops; but `ReleasesByParts` turns back at a second instance of a
definition, and `OwnsUniqueResourceByParts` only at the same type.
-/

namespace Absolute

namespace Hierarchy

open Descent

/-! ## Semantics of a type -/

inductive DropKind where
  | None
  | Closure
  | ManagedOwner
  | ArrayStorage
  | StringStorage
  | TupleValue
  | ClassObject
  | StructObject
  | PluginResource
deriving Repr, DecidableEq

structure TypeSemantics where
  copyable : Bool
  movable : Bool
  needsDrop : Bool
  dropKind : DropKind
deriving Repr, DecidableEq

def typeOwnsUniqueResource (types : TypeTable) (plugins : PluginResources) :
    Nat → TypeName → Option Bool
  | 0, _ => none
  | depth + 1, name =>
      if isValueReferenceType name then
        typeOwnsUniqueResource types plugins depth (valueReferenceBaseType name)
      else if canonicalOwnership name ≠ .None then
        some (canonicalHandleSemantics (canonicalOwnership name)).needsDrop
      else if 0 < arrayRank name then some true
      else if plugins name = some true then some true
      else ownsUniqueResourceByParts types plugins depth name

/-- A tuple drops what an element drops, and copies where all of them do. -/
def tupleSemantics (parts : List TypeSemantics) : TypeSemantics :=
  let result := parts.foldl (fun result part =>
    { result with
      needsDrop := part.needsDrop || result.needsDrop
      copyable := part.copyable && result.copyable })
    ⟨true, true, false, .TupleValue⟩
  if result.needsDrop then result else { result with dropKind := .None }

/-- The end of `SemanticsOfType`, with the answers of the walks by parts. -/
def partsSemantics (types : TypeTable) (name : TypeName) (copies releases : Bool) :
    TypeSemantics :=
  let result : TypeSemantics := ⟨copies, true, releases, .None⟩
  if !result.needsDrop then result
  else match find types name with
    | some found =>
        { result with dropKind := if found.kind = .Class then .ClassObject else .StructObject }
    | none => { result with dropKind := .StructObject }

/-- What `SemanticsOfType` makes of a name: an answer of its own, the type that is referred
to, the elements of a tuple, or the walks by parts. -/
inductive Description where
  | known (semantics : TypeSemantics)
  | reference
  | tuple (elements : List TypeName)
  | parts
deriving DecidableEq

def describe (plugins : PluginResources) (name : TypeName) : Description :=
  if isValueReferenceType name then .reference
  else if canonicalOwnership name ≠ .None then
    let handle := canonicalHandleSemantics (canonicalOwnership name)
    .known ⟨handle.copyable, handle.movable, handle.needsDrop,
      if handle.needsDrop then .ManagedOwner else .None⟩
  else if 0 < arrayRank name then .known ⟨false, true, true, .ArrayStorage⟩
  else if plugins name = some true then .known ⟨true, true, true, .PluginResource⟩
  else if name = "string".toList then .known ⟨true, true, true, .StringStorage⟩
  else match (parseGenericTypeName name).filter
      (fun parsed => parsed.1 = "tuple".toList ∨ parsed.1 = "func".toList) with
    | some (base, arguments) =>
        if base = "func".toList then .known ⟨true, true, true, .Closure⟩ else .tuple arguments
    | none => .parts

def semanticsOfType (types : TypeTable) (plugins : PluginResources) :
    Nat → TypeName → Option TypeSemantics
  | 0, _ => none
  | depth + 1, name =>
      match describe plugins name with
      | .known semantics => some semantics
      | .reference => semanticsOfType types plugins depth (valueReferenceBaseType name)
      | .tuple elements =>
          (elements.mapM (semanticsOfType types plugins depth)).map tupleSemantics
      | .parts => do
          let copies ← copiesByParts types depth name
          let releases ← releasesByParts types plugins depth name
          return partsSemantics types name copies releases

/-! ## Putting nothing in -/

theorem startsWith_const_concat (front : TypeName) :
    startsWith (front ++ ['&']) "const ".toList = startsWith front "const ".toList := by
  have hconst : "const ".toList = ['c', 'o', 'n', 's', 't', ' '] := rfl
  rw [Bool.eq_iff_iff, startsWith, startsWith, List.isPrefixOf_iff_prefix,
    List.isPrefixOf_iff_prefix, List.prefix_concat_iff]
  refine ⟨fun h => h.resolve_left fun heq => ?_, .inr⟩
  have hlast := congrArg List.getLast? heq
  rw [hconst, List.getLast?_concat] at hlast
  cases hlast

theorem append_drop_of_startsWith {type part : TypeName} (h : startsWith type part = true) :
    part ++ type.drop part.length = type := by
  obtain ⟨rest, rfl⟩ := List.isPrefixOf_iff_prefix.mp h
  rw [List.drop_left]

theorem valueReferenceType_base {type : TypeName} (h : isValueReferenceType type = true) :
    valueReferenceType (valueReferenceBaseType type) (isConstValueReferenceType type) true
      = type := by
  obtain ⟨front, rfl⟩ := endsWith_iff.mp h
  change isValueReferenceType (front ++ ['&']) = true at h
  change valueReferenceType (valueReferenceBaseType (front ++ ['&']))
    (isConstValueReferenceType (front ++ ['&'])) true = front ++ ['&']
  simp only [valueReferenceBaseType, h, if_true, isConstValueReferenceType, Bool.true_and,
    startsWith_const_concat, List.dropLast_concat, valueReferenceType]
  by_cases hstart : startsWith front "const ".toList = true
  · rw [if_pos hstart, if_pos hstart]
    exact congrArg (· ++ ['&']) (append_drop_of_startsWith hstart)
  · rw [if_neg hstart, if_neg hstart]
    rfl

theorem dropBrackets_concat {type : TypeName} (h : endsWith type "[]".toList = true) :
    dropBrackets type ++ "[]".toList = type := by
  obtain ⟨front, rfl⟩ := endsWith_iff.mp h
  simp [dropBrackets]

theorem startsWith_of_canonicalOpenOwnership {type : TypeName}
    (h : canonicalOpenOwnership type ≠ .None) :
    startsWith type (canonicalOwnershipPrefix (canonicalOpenOwnership type)) = true := by
  unfold canonicalOpenOwnership at h ⊢
  split_ifs at h ⊢ <;> first | exact absurd rfl h | assumption

theorem canonicalOpenBaseName_concat {type : TypeName} (h : canonicalOpenOwnership type ≠ .None) :
    canonicalOwnershipPrefix (canonicalOpenOwnership type) ++ canonicalOpenBaseName type
      = type := by
  rw [canonicalOpenBaseName, if_neg h]
  exact append_drop_of_startsWith (startsWith_of_canonicalOpenOwnership h)

theorem getLast?_of_canonicalOwnership {type : TypeName} (h : canonicalOwnership type ≠ .None) :
    type.getLast? = some '*' := by
  obtain ⟨front, rfl⟩ := endsWith_iff.mp (endsWith_star_of_kind h)
  exact List.getLast?_concat

theorem parseArguments_ne_nil {s current : TypeName} {depth : Nat} {arguments : List TypeName}
    (h : parseArguments s depth current = some arguments) : arguments ≠ [] := by
  induction s generalizing depth current with
  | nil =>
      obtain rfl := Option.some.inj h
      simp
  | cons c s ih =>
      rw [parseArguments] at h
      split_ifs at h
      · exact ih h
      · exact ih h
      · obtain ⟨rest, -, rfl⟩ := Option.map_eq_some_iff.mp h
        simp
      · exact ih h

/-- The arguments that are read are all that is written. -/
theorem intercalate_parseArguments {s current : TypeName} {depth : Nat}
    {arguments : List TypeName} (h : parseArguments s depth current = some arguments) :
    List.intercalate ",".toList arguments = current ++ s := by
  induction s generalizing depth current arguments with
  | nil =>
      obtain rfl := Option.some.inj h
      simp [List.intercalate]
  | cons c s ih =>
      have hstep : ∀ {d}, parseArguments s d (current ++ [c]) = some arguments →
          List.intercalate ",".toList arguments = current ++ c :: s := by
        intro d hp
        rw [ih hp, List.append_assoc, List.singleton_append]
      rw [parseArguments] at h
      split_ifs at h with hopen hclose hzero hcomma
      · exact hstep h
      · exact hstep h
      · obtain ⟨rest, hrest, rfl⟩ := Option.map_eq_some_iff.mp h
        obtain ⟨next, others, rfl⟩ := List.exists_cons_of_ne_nil (parseArguments_ne_nil hrest)
        have hrest := ih hrest
        rw [List.nil_append] at hrest
        rw [hcomma.1, ← hrest, List.intercalate, List.intercalate, List.intersperse_cons_cons,
          List.flatten_cons, List.flatten_cons]
        rfl
      · exact hstep h

theorem genericTypeName_parse {type base : TypeName} {arguments : List TypeName}
    (h : parseGenericTypeName type = some (base, arguments)) :
    genericTypeName base arguments = type := by
  have hsplit := List.takeWhile_append_dropWhile (p := (· ≠ '<')) (l := type)
  unfold parseGenericTypeName at h
  split at h
  · cases h
  · rename_i c tail hd
    have hopen : c = '<' := by
      have hnot := List.head?_dropWhile_not (fun c : Char => decide (c ≠ '<')) type
      rw [hd] at hnot
      simpa using hnot
    split at h
    · cases h
    · rename_i hlast
      dsimp only at h
      split at h
      · cases h
      · rename_i args hparse
        split at h
        · obtain ⟨rfl, rfl⟩ := Prod.mk.inj (Option.some.inj h)
          rw [hd, hopen] at hsplit
          have hclose : tail.getLast? = some '>' := by
            rw [ne_eq, not_not, ← hsplit] at hlast
            cases tail with
            | nil => simp at hlast
            | cons d tail => simpa using hlast
          rw [genericTypeName, intercalate_parseArguments hparse, List.nil_append]
          calc type.takeWhile (· ≠ '<') ++ "<".toList ++ tail.dropLast ++ ">".toList
              = type.takeWhile (· ≠ '<') ++ '<' :: (tail.dropLast ++ ['>']) := by
                rw [List.append_assoc, List.append_assoc]
                rfl
            _ = type := by rw [List.dropLast_append_getLast? '>' hclose, hsplit]
        · cases h

/-- Putting nothing in leaves every name alone. -/
theorem substituteGenericType_nothing (type : TypeName) :
    substituteGenericType type (fun _ => none) = type := by
  induction hn : type.length using Nat.strong_induction_on generalizing type with
  | _ n ih =>
      subst hn
      rw [substituteGenericType_eq]
      split
      · rename_i href
        rw [ih _ (length_valueReferenceBaseType href) _ rfl, valueReferenceType_base href]
      · dsimp only
        split
        · rename_i harray
          rw [ih _ (length_dropBrackets harray) _ rfl, dropBrackets_concat harray]
        · split
          · rename_i hopen
            rw [ih _ (length_canonicalOpenBaseName hopen) _ rfl, if_pos rfl,
              canonicalOpenBaseName_concat hopen]
          · split
            · rename_i hhandle
              rw [ih _ (length_canonicalPointeeName hhandle) _ rfl,
                canonicalPointerName_pointee hhandle]
            · cases hparse : parseGenericTypeName type with
              | none => rfl
              | some parsed =>
                  obtain ⟨base, arguments⟩ := parsed
                  have harguments : (arguments.map fun a => substituteGenericType a fun _ => none)
                      = arguments := by
                    refine (List.map_congr_left fun a ha => ?_).trans (List.map_id arguments)
                    exact ih _ ((length_of_mem_parseGenericTypeName hparse).2 a ha) _ rfl
                  dsimp only
                  rw [harguments, genericTypeName_parse hparse]

/-- Arguments are put in, whether there are any or not. -/
theorem asWritten_eq (types : TypeTable) (candidate type : TypeName) :
    asWritten types candidate type
      = substituteGenericType type (instanceOf types candidate).2 := by
  unfold asWritten
  split
  · rfl
  · rename_i hnot
    have hnone : (instanceOf types candidate).2 = fun _ => none := by
      unfold isInstance at hnot
      unfold instanceOf
      rcases hparse : parseGenericTypeName candidate with - | ⟨base, arguments⟩
      · rfl
      · rcases hfind : find types base with - | definition
        · simp only [hfind]
        · have hlength : definition.genericParameters.length ≠ arguments.length := by
            simpa [hparse, hfind] using hnot
          simp only [hfind]
          exact funext fun name => if_neg hlength
    rw [hnone, substituteGenericType_nothing]

/-! ## The walks over the same parts -/

variable {types : TypeTable} {plugins : PluginResources}

theorem not_isValueReferenceType_of_last {type : TypeName} {c : Char}
    (h : type.getLast? = some c) (hc : c ≠ '&') : isValueReferenceType type = false := by
  rw [Bool.eq_false_iff, isValueReferenceType, ne_eq, endsWith_iff]
  rintro ⟨front, rfl⟩
  have hamp : (front ++ "&".toList).getLast? = some '&' := List.getLast?_concat
  rw [hamp] at h
  exact hc (Option.some.inj h).symm

theorem getLast?_of_parseGenericTypeName {type base : TypeName} {arguments : List TypeName}
    (h : parseGenericTypeName type = some (base, arguments)) : type.getLast? = some '>' := by
  rw [← genericTypeName_parse h]
  exact List.getLast?_concat

theorem getLast?_of_arrayRank {type : TypeName} (h : 0 < arrayRank type) :
    type.getLast? = some ']' := by
  have hbrackets : endsWith type "[]".toList = true := by
    unfold arrayRank at h
    cases hlength : type.length with
    | zero => simp [hlength, arrayRankGo] at h
    | succ n =>
        rw [hlength, arrayRankGo] at h
        by_contra hnot
        rw [if_neg hnot] at h
        exact absurd h (Nat.lt_irrefl 0)
  obtain ⟨front, rfl⟩ := endsWith_iff.mp hbrackets
  have hconcat : front ++ "[]".toList = (front ++ ['[']) ++ [']'] := by simp
  rw [hconcat, List.getLast?_concat]

theorem canonicalOwnership_of_last {type : TypeName} {c : Char} (h : type.getLast? = some c)
    (hc : c ≠ '*') : canonicalOwnership type = .None := by
  by_contra hhandle
  rw [getLast?_of_canonicalOwnership hhandle] at h
  exact hc (Option.some.inj h).symm

/-- A reference is no instance of a declared type. -/
theorem aggregateOf_of_isValueReferenceType {type : TypeName}
    (h : isValueReferenceType type = true) : aggregateOf types type = none := by
  obtain ⟨front, rfl⟩ := endsWith_iff.mp h
  have hlast : (front ++ "&".toList).getLast? = some '&' := List.getLast?_concat
  have hparse : parseGenericTypeName (front ++ "&".toList) = none := by
    rcases hparse : parseGenericTypeName (front ++ "&".toList) with - | ⟨base, arguments⟩
    · rfl
    · rw [getLast?_of_parseGenericTypeName hparse] at hlast
      exact absurd hlast (by decide)
  have hname : ¬IsName (front ++ "&".toList) :=
    fun hn => absurd (hn.2 '&' (List.mem_append_right _ List.mem_cons_self)) (by decide)
  have hinstance : (instanceOf types (front ++ "&".toList)).1 = front ++ "&".toList := by
    rw [instanceOf, hparse]
  rw [aggregateOf, hinstance, find_eq_none_of_not_isName hname]
  rfl

/-- What owns drops, but for plugins that have one answer for a type and another for
references to it. -/
theorem releasesLook_of_owns (hplugins : ∀ name, plugins name ≠ some true) {name : TypeName}
    (h : ownsLook types plugins name = .answer true) :
    releasesLook types plugins name = .answer true := by
  unfold ownsLook at h
  split at h
  · rename_i howner
    unfold releasesLook
    split
    · rfl
    · by_cases hstrong : isStrongManagedPointerType name = true
      · have hkind : canonicalOwnership name = .Unique := of_decide_eq_true hstrong
        have hhandle : canonicalOwnership name ≠ .None := by simp [hkind]
        rw [not_isValueReferenceType_of_last (getLast?_of_canonicalOwnership hhandle) (by decide),
          if_neg Bool.false_ne_true, if_pos hhandle, hkind]
        rfl
      · have harray : 0 < arrayRank name := howner.resolve_left hstrong
        have hlast := getLast?_of_arrayRank harray
        rw [not_isValueReferenceType_of_last hlast (by decide), if_neg Bool.false_ne_true,
          if_neg (not_not_intro (canonicalOwnership_of_last hlast (by decide))), if_pos harray]
  · split at h
    · cases h
    · split at h
      · rename_i isResource hplugin
        obtain rfl := Look.answer.inj h
        exact absurd hplugin (hplugins name)
      · split at h <;> cases h

/-- Both walks go on to the same parts, where the one by definitions is not at its goal. -/
theorem releasesLook_of_parts (hplugins : ∀ name, plugins name ≠ some true) {name : TypeName}
    {key : Option TypeName} {next : List (Option TypeName)}
    (h : ownsLook types plugins name = .parts key next) (hnext : next ≠ []) :
    releasesLook types plugins name = .answer true
      ∨ ∃ key', releasesLook types plugins name = .parts key' next := by
  unfold ownsLook at h
  split at h
  · cases h
  rename_i howner
  split at h
  · cases h
  rename_i hpointer
  split at h
  · cases h
  have hhandle : canonicalOwnership name = .None := by
    by_contra hne
    exact hpointer (decide_eq_true hne)
  unfold releasesLook
  split
  · exact .inl rfl
  split at h
  · rename_i tuple arguments hparse
    obtain ⟨hparsed, htuple⟩ := Option.filter_eq_some_iff.mp hparse
    obtain rfl : tuple = "tuple".toList := of_decide_eq_true htuple
    obtain ⟨rfl, rfl⟩ := Look.parts.inj h
    have hlast := getLast?_of_parseGenericTypeName hparsed
    refine .inr ⟨none, ?_⟩
    rw [not_isValueReferenceType_of_last hlast (by decide), if_neg Bool.false_ne_true,
      if_neg (not_not_intro hhandle), if_neg fun harray => howner (.inr harray),
      if_neg (hplugins name), hparsed]
    rfl
  · rename_i hparse
    obtain ⟨rfl, rfl⟩ := Look.parts.inj h
    have href : ¬isValueReferenceType name = true := by
      intro href
      rw [aggregateOf_of_isValueReferenceType href] at hnext
      exact hnext rfl
    rw [if_neg href, if_neg (not_not_intro hhandle), if_neg fun harray => howner (.inr harray),
      if_neg (hplugins name)]
    split
    · rename_i base arguments hfunc
      obtain ⟨hparsed, hbase⟩ := Option.filter_eq_some_iff.mp hfunc
      rcases of_decide_eq_true hbase with rfl | rfl
      · rw [hparsed] at hparse
        simp at hparse
      · exact .inl (if_pos rfl)
    · refine .inr ⟨some (instanceOf types name).1, ?_⟩
      have hwrite : asWritten types name
          = (substituteGenericType · (instanceOf types name).2) :=
        funext (asWritten_eq types name)
      rw [hwrite]

/-- A line to an owner is one to something that drops. -/
theorem leads_released (hplugins : ∀ name, plugins name ≠ some true) {name : TypeName}
    {keys : List TypeName} (h : Leads (ownsLook types plugins) name keys) :
    ∃ keys', Leads (releasesLook types plugins) name keys' := by
  induction h with
  | answer hlook => exact ⟨_, .answer (releasesLook_of_owns hplugins hlook)⟩
  | hit hlook hnone =>
      rcases releasesLook_of_parts hplugins hlook (List.ne_nil_of_mem hnone) with h | ⟨_, h⟩
      · exact ⟨_, .answer h⟩
      · exact ⟨_, .hit h hnone⟩
  | part hlook hb _ ih =>
      obtain ⟨keys', hkeys⟩ := ih
      rcases releasesLook_of_parts hplugins hlook (List.ne_nil_of_mem hb) with h | ⟨_, h⟩
      · exact ⟨_, .answer h⟩
      · exact ⟨_, .part h hb hkeys⟩

/-- The walk by whole names finds an owner wherever a line leads to one. -/
theorem ownsLook_self {name key : TypeName} {next : List (Option TypeName)}
    (h : ownsLook types plugins name = .parts (some key) next) : key = name := by
  unfold ownsLook at h
  split at h
  · cases h
  split at h
  · cases h
  split at h
  · cases h
  split at h
  · exact absurd (Look.parts.inj h).1 (by simp)
  · exact (Option.some.inj (Look.parts.inj h).1).symm

/-! ## What the questions come to -/

/-- The type behind references. -/
def referent (type : TypeName) : TypeName :=
  if isValueReferenceType type then referent (valueReferenceBaseType type) else type
termination_by type.length
decreasing_by exact length_valueReferenceBaseType ‹_›

theorem referent_reference {type : TypeName} (h : isValueReferenceType type = true) :
    referent type = referent (valueReferenceBaseType type) := by
  rw [referent, if_pos h]

theorem referent_self {type : TypeName} (h : ¬isValueReferenceType type = true) :
    referent type = type := by
  rw [referent, if_neg h]

/-- A type that is no reference has its answer, or is asked for its parts. -/
theorem typeOwnsUniqueResource_cases {name : TypeName} (h : ¬isValueReferenceType name = true) :
    (∃ owns, ownsLook types plugins name = .answer owns ∧
        ∀ depth, typeOwnsUniqueResource types plugins (depth + 1) name = some owns)
      ∨ ∀ depth, typeOwnsUniqueResource types plugins (depth + 1) name
          = ownsUniqueResourceByParts types plugins depth name := by
  by_cases hhandle : canonicalOwnership name = .None
  · by_cases harray : 0 < arrayRank name
    · refine .inl ⟨true, if_pos (.inr harray), fun depth => ?_⟩
      rw [typeOwnsUniqueResource, if_neg h, if_neg (not_not_intro hhandle), if_pos harray]
    · by_cases hplugin : plugins name = some true
      · refine .inl ⟨true, ?_, fun depth => ?_⟩
        · rw [ownsLook, if_neg (by simp [isStrongManagedPointerType, hhandle, harray]),
            if_neg (by simp [isPointerType, hhandle]), hplugin]
        · rw [typeOwnsUniqueResource, if_neg h, if_neg (not_not_intro hhandle), if_neg harray,
            if_pos hplugin]
      · refine .inr fun depth => ?_
        rw [typeOwnsUniqueResource, if_neg h, if_neg (not_not_intro hhandle), if_neg harray,
          if_neg hplugin]
  · refine .inl ⟨(canonicalHandleSemantics (canonicalOwnership name)).needsDrop, ?_,
      fun depth => ?_⟩
    · have harray : ¬0 < arrayRank name := fun harray =>
        hhandle (canonicalOwnership_of_last (getLast?_of_arrayRank harray) (by decide))
      have hpointer : isPointerType name = true := decide_eq_true hhandle
      rw [ownsLook, isStrongManagedPointerType, hpointer]
      cases hkind : canonicalOwnership name with
      | None => exact absurd hkind hhandle
      | Unique => simp [canonicalHandleSemantics]
      | Sub | Weak | Raw => simp [canonicalHandleSemantics, Nat.eq_zero_of_not_pos harray]
    · rw [typeOwnsUniqueResource, if_neg h, if_pos hhandle]

/-- The question is that of the walk by parts, behind references. -/
theorem typeOwnsUniqueResource_iff {name : TypeName} {owns : Bool} :
    (∃ depth, typeOwnsUniqueResource types plugins depth name = some owns)
      ↔ ∃ depth, ownsUniqueResourceByParts types plugins depth (referent name) = some owns := by
  induction hn : name.length using Nat.strong_induction_on generalizing name with
  | _ n ih =>
      subst hn
      by_cases href : isValueReferenceType name = true
      · rw [referent_reference href, ← ih _ (length_valueReferenceBaseType href) rfl]
        constructor
        · rintro ⟨- | depth, h⟩
          · cases h
          · rw [typeOwnsUniqueResource, if_pos href] at h
            exact ⟨depth, h⟩
        · rintro ⟨depth, h⟩
          exact ⟨depth + 1, by rw [typeOwnsUniqueResource, if_pos href]; exact h⟩
      · rw [referent_self href]
        rcases @typeOwnsUniqueResource_cases types plugins name href with
          ⟨answer, hlook, hanswer⟩ | hparts
        · constructor
          · rintro ⟨- | depth, h⟩
            · cases h
            · rw [hanswer] at h
              exact ⟨1, by rw [ownsUniqueResourceByParts, search, hlook]; exact h⟩
          · rintro ⟨- | depth, h⟩
            · cases h
            · rw [ownsUniqueResourceByParts, search, hlook] at h
              exact ⟨1, (hanswer 0).trans h⟩
        · constructor
          · rintro ⟨- | depth, h⟩
            · cases h
            · exact ⟨depth, (hparts depth).symm.trans h⟩
          · rintro ⟨depth, h⟩
            exact ⟨depth + 1, (hparts depth).trans h⟩

theorem ownsByParts_eq_true_iff {depth : Nat} {name : TypeName} {owns : Bool}
    (h : ownsUniqueResourceByParts types plugins depth name = some owns) :
    owns = true ↔ ∃ keys, Leads (ownsLook types plugins) name keys := by
  rw [search_eq_true_iff h]
  constructor
  · intro hfinds
    obtain ⟨keys, hleads, -⟩ := finds_iff_leads.mp hfinds
    exact ⟨keys, hleads⟩
  · rintro ⟨keys, hleads⟩
    exact finds_of_leads (fun _ _ _ hlook => ownsLook_self hlook) hleads

/-! ## Semantics and release -/

/-- The release of a type is looked for where its semantics are. -/
theorem releasesLook_describe (types : TypeTable) (plugins : PluginResources) (name : TypeName) :
    match describe plugins name with
    | .known semantics => releasesLook types plugins name = .answer semantics.needsDrop
    | .reference => releasesLook types plugins name
        = .parts none [some (valueReferenceBaseType name)]
    | .tuple elements => releasesLook types plugins name = .parts none (elements.map some)
    | .parts => True := by
  by_cases hstring : name = "string".toList
  · have href : isValueReferenceType "string".toList = false := by decide
    have hhandle : canonicalOwnership "string".toList = .None := by decide
    have harray : arrayRank "string".toList = 0 := by decide
    have hreleases : releasesLook types plugins name = .answer true := if_pos hstring
    rw [hreleases, hstring, describe, href, if_neg Bool.false_ne_true,
      if_neg (not_not_intro hhandle), harray, if_neg (Nat.lt_irrefl 0), if_pos rfl]
    split
    · rename_i heq
      split_ifs at heq <;> obtain rfl := Description.known.inj heq <;> rfl
    · rename_i heq
      split_ifs at heq
    · rename_i heq
      split_ifs at heq
    · trivial
  · by_cases href : isValueReferenceType name = true
    · rw [describe, if_pos href, releasesLook, if_neg hstring, if_pos href]
    · by_cases hhandle : canonicalOwnership name = .None
      · by_cases harray : 0 < arrayRank name
        · rw [describe, if_neg href, if_neg (not_not_intro hhandle), if_pos harray, releasesLook,
            if_neg hstring, if_neg href, if_neg (not_not_intro hhandle), if_pos harray]
        · by_cases hplugin : plugins name = some true
          · rw [describe, if_neg href, if_neg (not_not_intro hhandle), if_neg harray,
              if_pos hplugin, releasesLook, if_neg hstring, if_neg href,
              if_neg (not_not_intro hhandle), if_neg harray, if_pos hplugin]
          · rw [describe, if_neg href, if_neg (not_not_intro hhandle), if_neg harray,
              if_neg hplugin, if_neg hstring, releasesLook, if_neg hstring, if_neg href,
              if_neg (not_not_intro hhandle), if_neg harray, if_neg hplugin]
            rcases parseGenericTypeName name with - | ⟨base, arguments⟩
            · trivial
            · by_cases hfunc : base = "func".toList
              · simp [Option.filter, hfunc]
              · by_cases htuple : base = "tuple".toList
                · simp [Option.filter, htuple]
                · have hneither : ¬(base = "tuple".toList ∨ base = "func".toList) :=
                    not_or.mpr ⟨htuple, hfunc⟩
                  simp only [Option.filter, decide_eq_false hneither]
                  trivial
      · rw [describe, if_neg href, if_pos hhandle, releasesLook, if_neg hstring, if_neg href,
          if_pos hhandle]

theorem finds_parts {name : TypeName} {parts : List TypeName}
    (h : releasesLook types plugins name = .parts none (parts.map some)) :
    Finds (releasesLook types plugins) [] name
      ↔ ∃ part ∈ parts, Finds (releasesLook types plugins) [] part := by
  constructor
  · intro hfinds
    cases hfinds with
    | answer hlook => rw [h] at hlook; cases hlook
    | hit hlook _ hnone => rw [h] at hlook; cases hlook; simp at hnone
    | part hlook _ hb hfinds =>
        rw [h] at hlook
        cases hlook
        obtain ⟨part, hpart, heq⟩ := List.mem_map.mp hb
        obtain rfl := Option.some.inj heq
        exact ⟨part, hpart, hfinds⟩
  · rintro ⟨part, hpart, hfinds⟩
    exact .part h (by simp) (List.mem_map_of_mem hpart) hfinds

theorem needsDrop_tupleSemantics (parts : List TypeSemantics) :
    (tupleSemantics parts).needsDrop = parts.any (·.needsDrop) := by
  have hfold : ∀ (result : TypeSemantics), (parts.foldl (fun result part =>
      { result with
        needsDrop := part.needsDrop || result.needsDrop
        copyable := part.copyable && result.copyable }) result).needsDrop
        = (result.needsDrop || parts.any (·.needsDrop)) := by
    induction parts with
    | nil => simp
    | cons part parts ih =>
        intro result
        rw [List.foldl_cons, ih, List.any_cons, ← Bool.or_assoc,
          Bool.or_comm part.needsDrop]
  unfold tupleSemantics
  dsimp only
  split
  · rw [hfold, Bool.false_or]
  · rw [hfold, Bool.false_or]

theorem needsDrop_partsSemantics (types : TypeTable) (name : TypeName) (copies releases : Bool) :
    (partsSemantics types name copies releases).needsDrop = releases := by
  unfold partsSemantics
  dsimp only
  split
  · rfl
  · split <;> rfl

/-- What is said of a drop is what a release by parts finds. -/
theorem needsDrop_iff {depth : Nat} {name : TypeName} {semantics : TypeSemantics}
    (h : semanticsOfType types plugins depth name = some semantics) :
    semantics.needsDrop = true ↔ Finds (releasesLook types plugins) [] name := by
  induction depth generalizing name semantics with
  | zero => cases h
  | succ depth ih =>
      have hreleases := releasesLook_describe types plugins name
      rw [semanticsOfType] at h
      cases hdescribe : describe plugins name with
      | known known =>
          simp only [hdescribe] at h hreleases
          obtain rfl := Option.some.inj h
          have hsearch : search (releasesLook types plugins) 1 [] name
              = some known.needsDrop := by rw [search, hreleases]
          exact search_eq_true_iff hsearch
      | reference =>
          simp only [hdescribe] at h hreleases
          rw [ih h, @finds_parts _ _ name [valueReferenceBaseType name] hreleases]
          simp
      | tuple elements =>
          simp only [hdescribe] at h hreleases
          obtain ⟨parts, hparts, rfl⟩ := Option.map_eq_some_iff.mp h
          rw [finds_parts hreleases, needsDrop_tupleSemantics, List.any_eq_true]
          have hforall := forall₂_of_mapM hparts
          clear h hparts hreleases hdescribe
          induction hforall with
          | nil => simp
          | cons hpart _ ihparts =>
              simp only [List.exists_mem_cons_iff, ih hpart, ihparts]
      | parts =>
          simp only [hdescribe] at h
          obtain ⟨copies, -, h⟩ := Option.bind_eq_some_iff.mp h
          obtain ⟨releases, hsearch, h⟩ := Option.bind_eq_some_iff.mp h
          obtain rfl := Option.some.inj h
          rw [needsDrop_partsSemantics]
          exact search_eq_true_iff hsearch

/-- The types whose parts `SemanticsOfType` asks for. -/
inductive Described (plugins : PluginResources) : TypeName → TypeName → Prop
  | parts {name : TypeName} : describe plugins name = .parts → Described plugins name name
  | reference {name part : TypeName} : describe plugins name = .reference →
      Described plugins (valueReferenceBaseType name) part → Described plugins name part
  | element {name element part : TypeName} {elements : List TypeName} :
      describe plugins name = .tuple elements → element ∈ elements →
      Described plugins element part → Described plugins name part

theorem semanticsOfType_mono {depth depth' : Nat} (hd : depth ≤ depth') {name : TypeName}
    {semantics : TypeSemantics} (h : semanticsOfType types plugins depth name = some semantics) :
    semanticsOfType types plugins depth' name = some semantics := by
  induction depth generalizing depth' name semantics with
  | zero => cases h
  | succ depth ih =>
      cases depth' with
      | zero => omega
      | succ depth' =>
          rw [semanticsOfType] at h ⊢
          cases hdescribe : describe plugins name with
          | known known =>
              simp only [hdescribe] at h ⊢
              exact h
          | reference =>
              simp only [hdescribe] at h ⊢
              exact ih (by omega) h
          | tuple elements =>
              simp only [hdescribe] at h ⊢
              obtain ⟨parts, hparts, rfl⟩ := Option.map_eq_some_iff.mp h
              rw [mapM_eq_some_mono (fun _ _ hpart => ih (by omega) hpart) hparts, Option.map_some]
          | parts =>
              simp only [hdescribe] at h ⊢
              obtain ⟨copies, hcopies, h⟩ := Option.bind_eq_some_iff.mp h
              obtain ⟨releases, hreleases, h⟩ := Option.bind_eq_some_iff.mp h
              obtain ⟨copied, hsearch, rfl⟩ := Option.map_eq_some_iff.mp hcopies
              rw [copiesByParts, search_mono (by omega) hsearch, releasesByParts,
                search_mono (by omega) hreleases]
              exact h

theorem isValueReferenceType_of_describe {name : TypeName}
    (h : describe plugins name = .reference) : isValueReferenceType name = true := by
  by_contra hnot
  unfold describe at h
  rw [if_neg hnot] at h
  split_ifs at h
  split at h
  · split_ifs at h
  · cases h

theorem parse_of_describe {name : TypeName} {elements : List TypeName}
    (h : describe plugins name = .tuple elements) :
    ∃ base, parseGenericTypeName name = some (base, elements) := by
  unfold describe at h
  split_ifs at h
  split at h
  · rename_i base arguments hparse
    split_ifs at h
    obtain rfl := Description.tuple.inj h
    exact ⟨base, (Option.filter_eq_some_iff.mp hparse).1⟩
  · cases h

theorem semanticsOfType_ends_iff {name : TypeName} :
    (∃ depth, (semanticsOfType types plugins depth name).isSome = true)
      ↔ ∀ part, Described plugins name part →
        ∃ depth, (copiesByParts types depth part).isSome = true := by
  constructor
  · rintro ⟨depth, h⟩ part hpart
    induction hpart generalizing depth with
    | parts hdescribe =>
        cases depth with
        | zero => cases h
        | succ depth =>
            simp only [semanticsOfType, hdescribe] at h
            obtain ⟨semantics, h⟩ := Option.isSome_iff_exists.mp h
            obtain ⟨copies, hcopies, -⟩ := Option.bind_eq_some_iff.mp h
            exact ⟨depth, Option.isSome_iff_exists.mpr ⟨copies, hcopies⟩⟩
    | reference hdescribe _ ih =>
        cases depth with
        | zero => cases h
        | succ depth =>
            simp only [semanticsOfType, hdescribe] at h
            exact ih depth h
    | element hdescribe helement _ ih =>
        cases depth with
        | zero => cases h
        | succ depth =>
            simp only [semanticsOfType, hdescribe, Option.isSome_map, mapM_isSome] at h
            exact ih depth (h _ helement)
  · intro h
    induction hn : name.length using Nat.strong_induction_on generalizing name with
    | _ n ih =>
        subst hn
        cases hdescribe : describe plugins name with
        | known known => exact ⟨1, by rw [semanticsOfType, hdescribe]; rfl⟩
        | reference =>
            obtain ⟨depth, hdepth⟩ := ih _
              (length_valueReferenceBaseType (isValueReferenceType_of_describe hdescribe))
              (fun part hpart => h part (.reference hdescribe hpart)) rfl
            exact ⟨depth + 1, by simp only [semanticsOfType, hdescribe]; exact hdepth⟩
        | tuple elements =>
            obtain ⟨base, hparse⟩ := parse_of_describe hdescribe
            obtain ⟨depth, hdepth⟩ := exists_common_depth
              (P := fun d e => (semanticsOfType types plugins d e).isSome = true)
              (fun d d' e hd hs => by
                obtain ⟨s, hs⟩ := Option.isSome_iff_exists.mp hs
                exact Option.isSome_iff_exists.mpr ⟨s, semanticsOfType_mono hd hs⟩)
              (l := elements) fun e he => ih _ ((length_of_mem_parseGenericTypeName hparse).2 e he)
                (fun part hpart => h part (.element hdescribe he hpart)) rfl
            refine ⟨depth + 1, ?_⟩
            simp only [semanticsOfType, hdescribe, Option.isSome_map, mapM_isSome]
            exact hdepth
        | parts =>
            obtain ⟨depth, hcopies⟩ := h name (.parts hdescribe)
            obtain ⟨depth', hreleases⟩ := releasesByParts_ends types plugins name
            obtain ⟨copies, hcopies⟩ := Option.isSome_iff_exists.mp hcopies
            obtain ⟨releases, hreleases⟩ := Option.isSome_iff_exists.mp hreleases
            obtain ⟨copied, hsearch, rfl⟩ := Option.map_eq_some_iff.mp hcopies
            have hcopied : copiesByParts types (max depth depth') name = some (!copied) := by
              rw [copiesByParts, search_mono (Nat.le_max_left _ _) hsearch, Option.map_some]
            have hreleased : releasesByParts types plugins (max depth depth') name
                = some releases := search_mono (Nat.le_max_right _ _) hreleases
            refine ⟨max depth depth' + 1, ?_⟩
            simp only [semanticsOfType, hdescribe, hcopied, hreleased, Option.bind_eq_bind,
              Option.bind_some]
            rfl

/-! ## Where the questions agree -/

/-- The walks return, and what owns a unique resource is said to need a drop. -/
structure OwnershipAgrees (types : TypeTable) (plugins : PluginResources) (name : TypeName) :
    Prop where
  owns_ends : ∃ depth, (ownsUniqueResourceByParts types plugins depth name).isSome = true
  releases_ends : ∃ depth, (releasesByParts types plugins depth name).isSome = true
  copies_ends : ∃ depth, (copiesByParts types depth name).isSome = true
  drops : ∃ depth owns semantics, typeOwnsUniqueResource types plugins depth name = some owns ∧
    semanticsOfType types plugins depth name = some semantics ∧
      (owns = true → semantics.needsDrop = true)

/-- No line of parts a question about the name follows goes on without end. -/
structure PartsEnd (types : TypeTable) (plugins : PluginResources) (name : TypeName) : Prop where
  owned : ¬Endless (Follows (ownsLook types plugins)) ([], referent name)
  copied : ¬Endless (Follows (copiesLook types)) ([], name)
  described : ∀ part, Described plugins name part → ¬Endless (Follows (copiesLook types)) ([], part)

/-- If there is a line to an owner, one to something that drops does not pass two
instances of a definition. -/
def DropInReach (types : TypeTable) (plugins : PluginResources) (name : TypeName) : Prop :=
  (∃ keys, Leads (ownsLook types plugins) (referent name) keys) →
    ∃ keys, Leads (releasesLook types plugins) name keys ∧ keys.Nodup

theorem finds_releases_iff {name : TypeName} : Finds (releasesLook types plugins) [] name
    ↔ ∃ keys, Leads (releasesLook types plugins) name keys ∧ keys.Nodup := by
  rw [finds_iff_leads]
  simp only [List.disjoint_nil_right, and_true]

theorem copiesByParts_ends_iff {name : TypeName} :
    (∃ depth, (copiesByParts types depth name).isSome = true)
      ↔ ¬Endless (Follows (copiesLook types)) ([], name) := by
  simp only [copiesByParts, Option.isSome_map]
  rw [not_endless_iff]
  exact search_ends_iff

theorem ownsByParts_ends_iff {name : TypeName} :
    (∃ depth, (ownsUniqueResourceByParts types plugins depth name).isSome = true)
      ↔ ¬Endless (Follows (ownsLook types plugins)) ([], name) := by
  rw [not_endless_iff]
  exact search_ends_iff

/-- Of a reference the walk finds no parts. -/
theorem ownsByParts_ends_of_reference {name : TypeName} (h : isValueReferenceType name = true) :
    ∃ depth, (ownsUniqueResourceByParts types plugins depth name).isSome = true := by
  refine ownsByParts_ends_iff.mpr (not_endless_iff.mpr (.intro _ fun y hy => ?_))
  cases hy with
  | @mk _ _ b key front rest hlook _ _ =>
      have hlast := @aggregateOf_of_isValueReferenceType types _ h
      unfold ownsLook at hlook
      split at hlook
      · cases hlook
      split at hlook
      · cases hlook
      split at hlook
      · cases hlook
      split at hlook
      · rename_i hparse
        have hparsed := (Option.filter_eq_some_iff.mp hparse).1
        rw [not_isValueReferenceType_of_last (getLast?_of_parseGenericTypeName hparsed)
          (by decide)] at h
        cases h
      · rw [hlast] at hlook
        have hnil := (Look.parts.inj hlook).2
        exact absurd hnil.symm (by simp)

theorem typeOwns_mono {depth depth' : Nat} (hd : depth ≤ depth') {name : TypeName} {owns : Bool}
    (h : typeOwnsUniqueResource types plugins depth name = some owns) :
    typeOwnsUniqueResource types plugins depth' name = some owns := by
  induction depth generalizing depth' name with
  | zero => cases h
  | succ depth ih =>
      cases depth' with
      | zero => omega
      | succ depth' =>
          by_cases href : isValueReferenceType name = true
          · rw [typeOwnsUniqueResource, if_pos href] at h ⊢
            exact ih (by omega) h
          · rcases @typeOwnsUniqueResource_cases types plugins name href with
              ⟨answer, -, hanswer⟩ | hparts
            · rw [hanswer] at h ⊢
              exact h
            · rw [hparts] at h ⊢
              exact search_mono (by omega) h

/-- The questions about a type agree exactly where their walks come to an end and the walk
by definitions gets to something that drops. -/
theorem ownership_agrees_iff (types : TypeTable) (plugins : PluginResources) (name : TypeName) :
    OwnershipAgrees types plugins name
      ↔ PartsEnd types plugins name ∧ DropInReach types plugins name := by
  constructor
  · intro h
    obtain ⟨depth, owns, semantics, howns, hsemantics, hdrops⟩ := h.drops
    obtain ⟨depth', hsearch⟩ := typeOwnsUniqueResource_iff.mp ⟨depth, howns⟩
    refine ⟨⟨?_, copiesByParts_ends_iff.mp h.copies_ends, fun part hpart => ?_⟩, fun hleads => ?_⟩
    · exact ownsByParts_ends_iff.mp ⟨depth', Option.isSome_iff_exists.mpr ⟨owns, hsearch⟩⟩
    · exact copiesByParts_ends_iff.mp (semanticsOfType_ends_iff.mp
        ⟨depth, Option.isSome_iff_exists.mpr ⟨semantics, hsemantics⟩⟩ part hpart)
    · have hdrop := hdrops ((ownsByParts_eq_true_iff hsearch).mpr hleads)
      exact finds_releases_iff.mp ((needsDrop_iff hsemantics).mp hdrop)
  · rintro ⟨hends, hreach⟩
    have howned := ownsByParts_ends_iff.mpr hends.owned
    refine ⟨?_, releasesByParts_ends types plugins name,
      copiesByParts_ends_iff.mpr hends.copied, ?_⟩
    · by_cases href : isValueReferenceType name = true
      · exact ownsByParts_ends_of_reference href
      · rwa [referent_self href] at howned
    · obtain ⟨depth, hdepth⟩ := howned
      obtain ⟨owns, hsearch⟩ := Option.isSome_iff_exists.mp hdepth
      obtain ⟨depth₁, howns⟩ := typeOwnsUniqueResource_iff.mpr ⟨depth, hsearch⟩
      obtain ⟨depth₂, hdepth₂⟩ := semanticsOfType_ends_iff.mpr fun part hpart =>
        copiesByParts_ends_iff.mpr (hends.described part hpart)
      obtain ⟨semantics, hsemantics⟩ := Option.isSome_iff_exists.mp hdepth₂
      refine ⟨max depth₁ depth₂, owns, semantics, typeOwns_mono (Nat.le_max_left _ _) howns,
        semanticsOfType_mono (Nat.le_max_right _ _) hsemantics, fun htrue => ?_⟩
      refine (needsDrop_iff hsemantics).mpr (finds_releases_iff.mpr (hreach ?_))
      exact (ownsByParts_eq_true_iff hsearch).mp htrue

/-- A type behind no references, none of whose lines passes two instances of a definition,
drops what it owns. -/
theorem dropInReach_of_nodup (hplugins : ∀ name, plugins name ≠ some true) {name : TypeName}
    (href : ¬isValueReferenceType name = true)
    (h : ∀ keys, Leads (releasesLook types plugins) name keys → keys.Nodup) :
    DropInReach types plugins name := by
  rintro ⟨keys, hleads⟩
  rw [referent_self href] at hleads
  obtain ⟨keys', hleads'⟩ := leads_released hplugins hleads
  exact ⟨keys', hleads', h keys' hleads'⟩

/-! ## A cell in a cell -/

theorem isName_cell : IsName "Cell".toList := by decide

theorem isName_cellParameter : IsName "T".toList := by decide

theorem isName_node : IsName "Node".toList := by decide

/-- `struct Cell<T> { T value; }` and `class Node {}`. -/
def cellTypes : TypeTable :=
  [(⟨"Cell".toList, isName_cell⟩,
      ⟨.Struct, [⟨"T".toList, isName_cellParameter⟩], [],
        [("value".toList, [⟨.Field, "T".toList, [], 0, false, false, true, true, .Public, .Public,
          .Public, []⟩])]⟩),
    (⟨"Node".toList, isName_node⟩, ⟨.Class, [], [], []⟩)]

theorem nestedCell_owns : typeOwnsUniqueResource cellTypes (fun _ => none) 5
    "Cell<Cell<Node*>>".toList = some true := by rfl

theorem nestedCell_semantics : semanticsOfType cellTypes (fun _ => none) 5
    "Cell<Cell<Node*>>".toList = some ⟨false, true, false, .None⟩ := by rfl

/-- A cell in a cell owns its node and drops nothing. -/
theorem nestedCell_disagrees :
    ¬∀ types name, OwnershipAgrees types (fun _ => none) name := by
  intro h
  obtain ⟨depth, owns, semantics, howns, hsemantics, hdrops⟩ :=
    (h cellTypes "Cell<Cell<Node*>>".toList).drops
  have hpair : owns = true ∧ semantics = ⟨false, true, false, .None⟩ := by
    have howned := typeOwns_mono (Nat.le_max_left 5 depth) nestedCell_owns
    have hknown := semanticsOfType_mono (Nat.le_max_left 5 depth) nestedCell_semantics
    rw [typeOwns_mono (Nat.le_max_right 5 depth) howns] at howned
    rw [semanticsOfType_mono (Nat.le_max_right 5 depth) hsemantics] at hknown
    exact ⟨Option.some.inj howned, Option.some.inj hknown⟩
  obtain ⟨rfl, rfl⟩ := hpair
  exact absurd (hdrops rfl) Bool.false_ne_true

end Hierarchy

end Absolute
