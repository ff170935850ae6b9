import Absolute.AnInstantiate

/-!
# The names a type reference mentions

Without its side effects, resolving a name computes two things from the tables
alone: the name it resolves to, and the instances it notes on the way, in order.
`outline` is that pair. Both stay among canonical names
(`outline_canonical`, `outline_instances`), which is what makes an instance's
own name enough to know its parents and members.
-/

namespace Absolute

open TypeTerm hiding name app array pointer

/-! ## Canonical names -/

theorem IsCanonical.ident (n : Ident) : IsCanonical n.1 := ⟨.name n, rfl⟩

theorem IsCanonical.brackets {n : TypeName} (h : IsCanonical n) :
    IsCanonical (n ++ "[]".toList) := by
  obtain ⟨t, rfl⟩ := h
  exact ⟨.array t, rfl⟩

theorem IsCanonical.pointer {n : TypeName} {kind : OwnershipKind} (h : IsCanonical n)
    (hkind : kind ≠ .None) : IsCanonical (canonicalPointerName n kind) := by
  obtain ⟨t, rfl⟩ := h
  cases kind with
  | None => exact absurd rfl hkind
  | Unique => exact ⟨.pointer .unique t, rfl⟩
  | Sub => exact ⟨.pointer .sub t, rfl⟩
  | Weak => exact ⟨.pointer .weak t, rfl⟩
  | Raw => exact ⟨.pointer .raw t, rfl⟩

/-- Canonical names are the names of terms, one by one. -/
theorem exists_terms {names : List TypeName} (h : ∀ n ∈ names, IsCanonical n) :
    ∃ terms : List TypeTerm, names = terms.map canonicalName := by
  induction names with
  | nil => exact ⟨[], rfl⟩
  | cons n rest ih =>
      rw [List.forall_mem_cons] at h
      obtain ⟨t, ht⟩ := h.1
      obtain ⟨terms, hterms⟩ := ih h.2
      exact ⟨t :: terms, by rw [List.map_cons, ht, hterms]⟩

/-- An application of a declared name to some arguments. -/
structure IsApplication (base : TypeName) (arguments : List TypeName) : Prop where
  base : IsName base
  nonempty : arguments ≠ []
  canonical : ∀ a ∈ arguments, IsCanonical a

theorem IsApplication.term {base : TypeName} {arguments : List TypeName}
    (h : IsApplication base arguments) :
    ∃ (b : Ident) (first : TypeTerm) (rest : List TypeTerm),
      base = b.1 ∧ arguments = (first :: rest).map canonicalName := by
  obtain ⟨terms, hterms⟩ := exists_terms h.canonical
  cases terms with
  | nil => exact absurd hterms h.nonempty
  | cons first rest => exact ⟨⟨base, h.base⟩, first, rest, rfl, hterms⟩

theorem IsApplication.isCanonical {base : TypeName} {arguments : List TypeName}
    (h : IsApplication base arguments) : IsCanonical (genericTypeName base arguments) := by
  obtain ⟨b, first, rest, rfl, rfl⟩ := h.term
  exact ⟨_, canonicalName_app b first rest⟩

/-- An instance's name says what it is an instance of. -/
theorem IsApplication.parse {base : TypeName} {arguments : List TypeName}
    (h : IsApplication base arguments) :
    parseGenericTypeName (genericTypeName base arguments) = some (base, arguments) := by
  obtain ⟨b, first, rest, rfl, rfl⟩ := h.term
  rw [← canonicalName_app, parseGenericTypeName_canonicalName]

/-! ## Written names -/

theorem IsWritten.not_reference {n : TypeName} {c : Char} (h : IsWritten n)
    (hend : endsWith n [c] = true) (hc : c ≠ '&') : IsCanonical n := by
  rcases h with h | h | h
  · exact h
  · obtain ⟨front, hn⟩ := endsWith_iff.mp h
    obtain ⟨front', hn'⟩ := endsWith_iff.mp hend
    rw [hn] at hn'
    exact absurd (by simpa using (List.append_inj' hn' rfl).2) (Ne.symm hc)
  · obtain ⟨front, hn⟩ := endsWith_iff.mp hend
    rw [h] at hn
    simp at hn

theorem IsWritten.dropBrackets {n : TypeName} (h : IsWritten n)
    (hend : endsWith n "[]".toList = true) : IsCanonical (dropBrackets n) := by
  have hlast : endsWith n [']'] = true := by
    obtain ⟨front, hn⟩ := endsWith_iff.mp hend
    exact endsWith_iff.mpr ⟨front ++ ['['], by rw [hn]; simp⟩
  obtain ⟨t, rfl⟩ := h.not_reference hlast (by decide)
  obtain ⟨e, rfl⟩ := endsWith_brackets.mp hend
  exact ⟨e, (dropBrackets_append _).symm⟩

theorem IsWritten.pointee {n : TypeName} (h : IsWritten n)
    (hown : canonicalOwnership n ≠ .None) : IsCanonical (canonicalPointeeName n) := by
  have hend := endsWith_star_of_kind hown
  obtain ⟨t, rfl⟩ := h.not_reference hend (by decide)
  obtain ⟨k, p, rfl⟩ := endsWith_star.mp hend
  exact ⟨_, (canonicalPointeeName_pointer k p).symm⟩

theorem parseGenericTypeName_last {n base : TypeName} {arguments : List TypeName}
    (h : parseGenericTypeName n = some (base, arguments)) : endsWith n ['>'] = true := by
  unfold parseGenericTypeName at h
  split at h
  · cases h
  · split at h
    · cases h
    · rename_i hlast
      obtain ⟨front, hfront⟩ := List.getLast?_eq_some_iff.mp (not_not.mp hlast)
      exact endsWith_iff.mpr ⟨front, hfront⟩

theorem IsWritten.application {n base : TypeName} {arguments : List TypeName}
    (h : IsWritten n) (hp : parseGenericTypeName n = some (base, arguments)) :
    IsApplication base arguments := by
  have hend := parseGenericTypeName_last hp
  obtain ⟨t, rfl⟩ := h.not_reference hend (by decide)
  obtain ⟨front, hfront⟩ := endsWith_iff.mp hend
  cases lastChar_of_eq hfront with
  | name hc => exact absurd hc (by decide)
  | app =>
      rename_i b first rest
      rw [parseGenericTypeName_canonicalName] at hp
      obtain ⟨rfl, rfl⟩ := Prod.mk.inj (Option.some.inj hp)
      refine ⟨b.2, by simp, fun a ha => ?_⟩
      obtain ⟨t, -, rfl⟩ := List.mem_map.mp ha
      exact ⟨t, rfl⟩

/-! ## Substitution keeps names written -/

/-- The first parameter of that name, with its argument as a term. -/
theorem substitutions_eq (definition : TypeDefinition) (terms : List TypeTerm) :
    definition.substitutions (terms.map canonicalName)
      = nameSubst fun n => ((definition.genericParameters.zip terms).find? fun entry =>
          entry.1.1 = n.1).map (·.2) := by
  funext n
  rw [TypeDefinition.substitutions, nameSubst]
  have hzip : definition.genericParameters.zip (terms.map canonicalName)
      = (definition.genericParameters.zip terms).map fun e => (e.1, canonicalName e.2) := by
    rw [List.zip_map_right]
    rfl
  rw [hzip, List.find?_map]
  split
  · simp only [Option.map_map, Function.comp_def]
  · rename_i hn
    -- a parameter is a name, so a text that is none is no parameter
    rw [List.find?_eq_none.mpr]
    · rfl
    · intro e _
      rw [Function.comp_apply, decide_eq_true_eq]
      intro he
      exact hn (he ▸ e.1.2)

theorem IsWritten.substitute {n : TypeName} (h : IsWritten n) (definition : TypeDefinition)
    {arguments : List TypeName} (hargs : ∀ a ∈ arguments, IsCanonical a) :
    IsWritten (substituteGenericType n (definition.substitutions arguments)) := by
  obtain ⟨terms, rfl⟩ := exists_terms hargs
  rw [substitutions_eq]
  rcases h with ⟨t, rfl⟩ | h | rfl
  · exact .inl ⟨_, (substituteGenericType_canonicalName _ t).symm⟩
  · refine .inr (.inl ?_)
    rw [substituteGenericType_eq, if_pos h, valueReferenceType, if_pos rfl]
    exact endsWith_iff.mpr ⟨_, rfl⟩
  · refine .inr (.inr ?_)
    rw [substituteGenericType_eq]
    simp [isValueReferenceType, endsWith, nameSubst, IsName, canonicalOpenOwnership,
      canonicalOwnership, parseGenericTypeName]

theorem isWritten_memberUses {definition : TypeDefinition} {arguments : List TypeName}
    (hargs : ∀ a ∈ arguments, IsCanonical a) :
    ∀ n ∈ definition.memberUses arguments, IsWritten n := by
  intro n hn
  obtain ⟨use, -, rfl⟩ := List.mem_map.mp hn
  exact use.2.substitute definition hargs

theorem isWritten_uses {definition : TypeDefinition} {arguments : List TypeName}
    (hargs : ∀ a ∈ arguments, IsCanonical a) :
    ∀ n ∈ definition.uses arguments, IsWritten n := by
  intro n hn
  rcases List.mem_append.mp hn with hparent | hmember
  · obtain ⟨use, -, rfl⟩ := List.mem_map.mp hparent
    exact use.2.substitute definition hargs
  · exact isWritten_memberUses hargs n hmember

/-! ## The outline of a reference -/

/-- What resolving a name comes to, without the walk into instances. -/
structure Outline where
  resolved : TypeName
  instances : List TypeName

def applicationOutline (D : Declarations) (name resolvedBase : TypeName)
    (arguments : List TypeName) : Outline :=
  if resolvedBase = "tuple".toList then ⟨genericTypeName "tuple".toList arguments, []⟩
  else match findEntry D.types resolvedBase with
  | none => ⟨name, []⟩
  | some (_, definition) =>
      if definition.genericParameters = [] then ⟨name, []⟩
      else if definition.genericParameters.length ≠ arguments.length then ⟨"error".toList, []⟩
      else ⟨genericTypeName resolvedBase arguments, [genericTypeName resolvedBase arguments]⟩

def outlineGo (D : Declarations) (C : Context) : Nat → TypeName → Outline
  | 0, name => ⟨name, []⟩
  | n + 1, name =>
      if endsWith name "[]".toList then
        let element := outlineGo D C n (dropBrackets name)
        ⟨element.resolved ++ "[]".toList, element.instances⟩
      else if canonicalOwnership name ≠ .None then
        let pointee := outlineGo D C n (canonicalPointeeName name)
        ⟨canonicalPointerName pointee.resolved (canonicalOwnership name), pointee.instances⟩
      else match C.genericParameter name with
      | some found => ⟨found.1, []⟩
      | none => match lookupTypeAliasName D C name with
      | some aliasName => ⟨resolveTypeAlias D aliasName, []⟩
      | none => match parseGenericTypeName name with
      | none => ⟨resolveTypeName D C name, []⟩
      | some (genericBase, genericArguments) =>
          let base := outlineGo D C n genericBase
          let arguments := genericArguments.map (outlineGo D C n)
          let whole := applicationOutline D name base.resolved (arguments.map (·.resolved))
          ⟨whole.resolved,
            base.instances ++ (arguments.flatMap (·.instances) ++ whole.instances)⟩

def outline (D : Declarations) (C : Context) (name : TypeName) : Outline :=
  outlineGo D C (name.length + 1) name

/-- The instances some names mention. -/
def mentions (D : Declarations) (C : Context) (names : List TypeName) : List TypeName :=
  names.flatMap fun name => (outline D C name).instances

theorem outlineGo_congr (D : Declarations) (C : Context) :
    ∀ {n m : Nat} {name : TypeName}, name.length < n → name.length < m →
      outlineGo D C n name = outlineGo D C m name
  | n + 1, m + 1, name, hn, hm => by
      have ih : ∀ {s : TypeName}, s.length < name.length →
          outlineGo D C n s = outlineGo D C m s :=
        fun hs => outlineGo_congr D C (by omega) (by omega)
      unfold outlineGo
      split
      · rename_i harr
        rw [ih (length_dropBrackets harr)]
      · split
        · rename_i hptr
          rw [ih (length_canonicalPointeeName hptr)]
        · split
          · rfl
          · split
            · rfl
            · split
              · rfl
              · rename_i hp
                rw [ih (length_of_mem_parseGenericTypeName hp).1,
                  List.map_congr_left fun a ha =>
                    ih ((length_of_mem_parseGenericTypeName hp).2 a ha)]

theorem outline_eq (D : Declarations) (C : Context) (name : TypeName) :
    outline D C name =
      if endsWith name "[]".toList then
        ⟨(outline D C (dropBrackets name)).resolved ++ "[]".toList,
          (outline D C (dropBrackets name)).instances⟩
      else if canonicalOwnership name ≠ .None then
        ⟨canonicalPointerName (outline D C (canonicalPointeeName name)).resolved
            (canonicalOwnership name),
          (outline D C (canonicalPointeeName name)).instances⟩
      else match C.genericParameter name with
      | some found => ⟨found.1, []⟩
      | none => match lookupTypeAliasName D C name with
      | some aliasName => ⟨resolveTypeAlias D aliasName, []⟩
      | none => match parseGenericTypeName name with
      | none => ⟨resolveTypeName D C name, []⟩
      | some (genericBase, genericArguments) =>
          ⟨(applicationOutline D name (outline D C genericBase).resolved
              (genericArguments.map fun a => (outline D C a).resolved)).resolved,
            (outline D C genericBase).instances ++ (mentions D C genericArguments
              ++ (applicationOutline D name (outline D C genericBase).resolved
                (genericArguments.map fun a => (outline D C a).resolved)).instances)⟩ := by
  have ih : ∀ {s : TypeName}, s.length < name.length →
      outlineGo D C name.length s = outline D C s :=
    fun hs => outlineGo_congr D C hs (Nat.lt_succ_self _)
  conv_lhs => unfold outline outlineGo
  split
  · rename_i harr
    rw [ih (length_dropBrackets harr)]
  · split
    · rename_i hptr
      rw [ih (length_canonicalPointeeName hptr)]
    · split
      · rfl
      · split
        · rfl
        · split
          · rfl
          · rename_i base args hp
            have hmap : args.map (outlineGo D C name.length) = args.map (outline D C) :=
              List.map_congr_left fun a ha =>
                ih ((length_of_mem_parseGenericTypeName hp).2 a ha)
            rw [ih (length_of_mem_parseGenericTypeName hp).1, hmap]
            simp only [List.map_map, Function.comp_def, List.flatMap_map, mentions]

/-! ## Resolved names are canonical -/

theorem findEntry_key {α : Type} {entries : List (Ident × α)} {name : TypeName}
    {entry : Ident × α} (h : findEntry entries name = some entry) : entry.1.1 = name := by
  simpa using List.find?_some h

theorem resolveTypeAlias_canonical (D : Declarations) (n : Ident) :
    IsCanonical (resolveTypeAlias D n) := by
  rw [resolveTypeAlias]
  split
  · exact .ident n
  · rename_i entry _
    exact Subtype.property _

theorem resolveTypeName_canonical (D : Declarations) (C : Context) {name : TypeName}
    (h : IsCanonical name) : IsCanonical (resolveTypeName D C name) := by
  rw [resolveTypeName]
  split
  · exact h
  · split
    · exact .ident _
    · split
      · rename_i hq
        obtain ⟨entry, hentry⟩ := Option.isSome_iff_exists.mp hq.2
        rw [← findEntry_key hentry]
        exact .ident _
      · split
        · exact .ident _
        · exact h

theorem isCanonical_error : IsCanonical "error".toList := .ident ⟨"error".toList, by decide⟩

theorem applicationOutline_canonical (D : Declarations) {name base : TypeName}
    {arguments : List TypeName} (hname : IsCanonical name) (hne : arguments ≠ [])
    (hargs : ∀ a ∈ arguments, IsCanonical a) :
    IsCanonical (applicationOutline D name base arguments).resolved := by
  rw [applicationOutline]
  split
  · exact IsApplication.isCanonical ⟨by decide, hne, hargs⟩
  · split
    · exact hname
    · rename_i entry hentry
      split
      · exact hname
      · split
        · exact isCanonical_error
        · exact IsApplication.isCanonical ⟨findEntry_key hentry ▸ Subtype.property _, hne, hargs⟩

theorem outline_canonical (D : Declarations) (C : Context) {name : TypeName}
    (h : IsCanonical name) : IsCanonical (outline D C name).resolved := by
  induction hn : name.length using Nat.strong_induction_on generalizing name with
  | _ n ih =>
  subst hn
  have hw : IsWritten name := .inl h
  rw [outline_eq]
  split
  · rename_i harr
    exact (ih _ (length_dropBrackets harr) (hw.dropBrackets harr) rfl).brackets
  · split
    · rename_i hptr
      exact (ih _ (length_canonicalPointeeName hptr) (hw.pointee hptr) rfl).pointer hptr
    · split
      · exact Subtype.property _
      · split
        · exact resolveTypeAlias_canonical D _
        · split
          · exact resolveTypeName_canonical D C h
          · rename_i hp
            have happ := hw.application hp
            refine applicationOutline_canonical D h (by simpa using happ.nonempty) fun a ha => ?_
            obtain ⟨arg, harg, rfl⟩ := List.mem_map.mp ha
            exact ih _ ((length_of_mem_parseGenericTypeName hp).2 arg harg)
              (happ.canonical arg harg) rfl

theorem resolved_arguments (D : Declarations) (C : Context) {base : TypeName}
    {arguments : List TypeName} (h : IsApplication base arguments) :
    ∀ a ∈ arguments.map fun a => (outline D C a).resolved, IsCanonical a := by
  intro a ha
  obtain ⟨arg, harg, rfl⟩ := List.mem_map.mp ha
  exact outline_canonical D C (h.canonical arg harg)

end Absolute
