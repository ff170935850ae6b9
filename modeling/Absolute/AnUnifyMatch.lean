import Absolute.AnUnify

/-!
# Inference is matching

What `unifyGenericType` infers for the names of terms. The qualifier of a handle stands in front
of its whole name, so an owner `T*` where `T` is a `sub Node*` has the name of a subscriber, and
is not matched with the pattern it came from. `OwnersPlain` says of an assignment that it puts
no qualified handle under an owner of the pattern; under those the matching is complete, and a
match is sound always.
-/

namespace Absolute

namespace TypeTerm

/-! ## The names in a term -/

mutual

/-- The name stands somewhere in the term, not as the base of an application. -/
def OccursIn (x : TypeName) : TypeTerm → Prop
  | .name n => x = n.1
  | .app _ first rest => OccursIn x first ∨ OccursInAny x rest
  | .array t => OccursIn x t
  | .pointer _ t => OccursIn x t

def OccursInAny (x : TypeName) : List TypeTerm → Prop
  | [] => False
  | t :: ts => OccursIn x t ∨ OccursInAny x ts

end

theorem occursInAny_iff {x : TypeName} {ts : List TypeTerm} :
    OccursInAny x ts ↔ ∃ t ∈ ts, OccursIn x t := by
  induction ts with
  | nil => simp [OccursInAny]
  | cons t ts ih => simp [OccursInAny, ih]

theorem occursIn_app {x : TypeName} {base : Ident} {first : TypeTerm} {rest : List TypeTerm} :
    OccursIn x (.app base first rest) ↔ ∃ t ∈ first :: rest, OccursIn x t := by
  simp [OccursIn, occursInAny_iff]

theorem occursIn_demote {x : TypeName} {t : TypeTerm} : OccursIn x (demote t) ↔ OccursIn x t := by
  induction t using induct with
  | name n => rfl
  | app base first rest => rfl
  | array t ih => exact ih
  | pointer k t ih => cases k <;> first | exact ih | rfl

/-! ## The pointee that is read -/

/-- The term whose name `CanonicalPointeeName` reads. -/
def readPointee (k : PointerKind) (t : TypeTerm) : TypeTerm := if k = .unique then demote t else t

theorem occursIn_readPointee {x : TypeName} {k : PointerKind} {t : TypeTerm} :
    OccursIn x (readPointee k t) ↔ OccursIn x t := by
  unfold readPointee
  split
  · exact occursIn_demote
  · rfl

theorem canonicalOwnership_ne_none (k : PointerKind) (t : TypeTerm) :
    canonicalOwnership (canonicalName (.pointer k t)) ≠ .None := by
  rw [canonicalOwnership_pointer]
  cases leadKind (.pointer k t) <;> exact OwnershipKind.noConfusion

theorem length_readPointee (k : PointerKind) (t : TypeTerm) :
    (canonicalName (readPointee k t)).length < (canonicalName (.pointer k t)).length := by
  have := length_canonicalPointeeName (canonicalOwnership_ne_none k t)
  rwa [canonicalPointeeName_pointer] at this

theorem length_argument {base : Ident} {first : TypeTerm} {rest : List TypeTerm} {t : TypeTerm}
    (ht : t ∈ first :: rest) :
    (canonicalName t).length < (canonicalName (.app base first rest)).length :=
  (length_of_mem_parseGenericTypeName (parseGenericTypeName_canonicalName base first rest)).2 _
    (List.mem_map_of_mem ht)

theorem length_element (t : TypeTerm) :
    (canonicalName t).length < (canonicalName (.array t)).length := by
  rw [canonicalName, List.length_append]
  exact Nat.lt_add_of_pos_right (Nat.zero_lt_succ 1)

/-! ## The parameters -/

section Parameters

variable {parameters : List Ident}

def parameterNames (parameters : List Ident) : List TypeName := parameters.map Subtype.val

theorem mem_parameterNames {n : Ident} : n.1 ∈ parameterNames parameters ↔ n ∈ parameters := by
  rw [parameterNames, List.mem_map]
  exact ⟨fun ⟨m, hm, h⟩ => Subtype.ext h ▸ hm, fun h => ⟨n, h, rfl⟩⟩

theorem not_mem_parameterNames {name : TypeName} {c : Char} (hc : c ∈ name)
    (hbad : ¬NameChar c) : name ∉ parameterNames parameters := by
  rw [parameterNames, List.mem_map]
  rintro ⟨m, -, rfl⟩
  exact not_isName_of_mem hc hbad m.2

/-- The pattern has a parameter in it. -/
def HasParameter (parameters : List Ident) (t : TypeTerm) : Prop := ∃ n ∈ parameters, OccursIn n.1 t

theorem star_mem (k : PointerKind) (t : TypeTerm) : '*' ∈ canonicalName (.pointer k t) := by
  rw [canonicalName_pointer]
  simp

theorem bracket_mem (t : TypeTerm) : ']' ∈ canonicalName (.array t) := by
  rw [canonicalName]
  simp

theorem angle_mem (base : Ident) (first : TypeTerm) (rest : List TypeTerm) :
    '>' ∈ canonicalName (.app base first rest) := by
  simp [canonicalName, genericTypeName]

theorem endsWith_array (t : TypeTerm) : endsWith (canonicalName (.array t)) "[]".toList = true :=
  endsWith_brackets.mpr ⟨t, rfl⟩

theorem dropBrackets_array (t : TypeTerm) :
    dropBrackets (canonicalName (.array t)) = canonicalName t :=
  dropBrackets_append _

theorem hasParameter_name {n : Ident} : HasParameter parameters (.name n) ↔ n ∈ parameters := by
  constructor
  · rintro ⟨m, hm, h⟩
    exact Subtype.ext h ▸ hm
  · exact fun h => ⟨n, h, rfl⟩

theorem hasParameter_app {base : Ident} {first : TypeTerm} {rest : List TypeTerm} :
    HasParameter parameters (.app base first rest) ↔
      ∃ t ∈ first :: rest, HasParameter parameters t := by
  simp only [HasParameter, occursIn_app]
  exact ⟨fun ⟨n, hn, t, ht, h⟩ => ⟨t, ht, n, hn, h⟩, fun ⟨t, ht, n, hn, h⟩ => ⟨n, hn, t, ht, h⟩⟩

theorem hasParameter_readPointee {k : PointerKind} {t : TypeTerm} :
    HasParameter parameters (readPointee k t) ↔ HasParameter parameters t := by
  simp only [HasParameter, occursIn_readPointee]

theorem mentions_iff {t : TypeTerm} :
    mentionsGenericParameter (canonicalName t) (parameterNames parameters) = true ↔
      HasParameter parameters t := by
  induction hn : (canonicalName t).length using Nat.strong_induction_on generalizing t with
  | _ n ih =>
  subst hn
  rw [mentionsGenericParameter_eq]
  cases t with
  | name n =>
    have hb := not_endsWith_brackets (t := .name n) (fun _ h => TypeTerm.noConfusion h)
    have hp := canonicalOwnership_of_not_pointer (t := .name n)
      (fun _ _ h => TypeTerm.noConfusion h)
    rw [hasParameter_name, ← mem_parameterNames]
    rw [canonicalName] at hb hp ⊢
    by_cases hmem : n.1 ∈ parameterNames parameters
    · simp only [hmem, if_true]
    · rw [if_neg hmem, hb, hp, parseGenericTypeName_name, if_neg Bool.false_ne_true,
        if_neg (not_not.mpr rfl)]
      exact iff_of_false Bool.false_ne_true hmem
  | app base first rest =>
    rw [if_neg (not_mem_parameterNames (angle_mem base first rest) (by decide)),
      not_endsWith_brackets (t := .app base first rest) (fun _ h => TypeTerm.noConfusion h),
      canonicalOwnership_of_not_pointer (t := .app base first rest)
        (fun _ _ h => TypeTerm.noConfusion h),
      parseGenericTypeName_canonicalName, if_neg Bool.false_ne_true, if_neg (not_not.mpr rfl),
      hasParameter_app]
    simp only [List.any_map, List.any_eq_true, Function.comp_apply]
    exact exists_congr fun t => and_congr_right fun ht => ih _ (length_argument ht) rfl
  | array t =>
    rw [if_neg (not_mem_parameterNames (bracket_mem t) (by decide)), endsWith_array,
      if_pos rfl, dropBrackets_array]
    exact ih _ (length_element t) rfl
  | pointer k t =>
    rw [if_neg (not_mem_parameterNames (star_mem k t) (by decide)),
      not_endsWith_brackets (t := .pointer k t) (fun _ h => TypeTerm.noConfusion h),
      if_neg Bool.false_ne_true,
      if_pos (canonicalOwnership_ne_none k t), canonicalPointeeName_pointer]
    exact (ih _ (length_readPointee k t) rfl).trans hasParameter_readPointee

theorem mentions_of {t : TypeTerm} (h : HasParameter parameters t) :
    mentionsGenericParameter (canonicalName t) (parameterNames parameters) = true := by
  rwa [mentions_iff]

/-! ## What is unified with what -/

theorem parseGenericTypeName_of_not_app {t : TypeTerm}
    (h : ∀ base first rest, t ≠ .app base first rest) :
    parseGenericTypeName (canonicalName t) = none := by
  have hlast : ∀ {front : TypeName} {c : Char}, c ≠ '>' →
      parseGenericTypeName (front ++ [c]) = none := by
    intro front c hc
    unfold parseGenericTypeName
    split
    · rfl
    · rw [if_pos]
      rw [List.getLast?_append]
      exact fun h => hc (Option.some.inj h)
  cases t with
  | name n => exact parseGenericTypeName_name n
  | app base first rest => exact absurd rfl (h base first rest)
  | array t =>
    rw [canonicalName, show canonicalName t ++ "[]".toList =
      (canonicalName t ++ ['[']) ++ [']'] by simp]
    exact hlast (by decide)
  | pointer k t =>
    rw [canonicalName_pointer, ← List.append_assoc]
    exact hlast (by decide)

/-- A qualifier in front of a name alone is in front of no term's name. -/
theorem openBaseName_ne_name (a : TypeTerm) (n : Ident) :
    ¬(canonicalOpenOwnership (canonicalName a) ≠ .None ∧
      canonicalOpenBaseName (canonicalName a) = n.1) := by
  rintro ⟨hopen, hbase⟩
  have hhead : ∀ {t : TypeTerm}, leadKind t = .unique →
      canonicalOpenOwnership (canonicalName t) = .None :=
    fun h => canonicalOpenOwnership_nameHead (nameHead_of_unique h)
  cases a with
  | name m => exact hopen (hhead rfl)
  | app base first rest => exact hopen (hhead rfl)
  | pointer k t =>
    refine hopen ?_
    rw [canonicalOpenOwnership, endsWith_star.mpr ⟨k, t, rfl⟩, if_pos (.inr rfl)]
  | array t =>
    rw [canonicalOpenBaseName, if_neg hopen] at hbase
    have hne : (canonicalName (.array t)).drop (canonicalOwnershipPrefix
        (canonicalOpenOwnership (canonicalName (.array t)))).length ≠ [] := by
      rw [hbase]
      exact n.2.1
    have hmem := List.getLast_mem hne
    rw [List.getLast_drop, hbase] at hmem
    refine not_isName_of_mem hmem ?_ n.2
    simp only [canonicalName, show "[]".toList = ['['] ++ [']'] from rfl, ← List.append_assoc,
      List.getLast_concat]
    decide

/-- The loop over the arguments of two applications. -/
def unifyAll (parameters : List Ident) (ts as : List TypeTerm) (θ : Bindings) : Option Bindings :=
  ((ts.map canonicalName).zip (as.map canonicalName)).foldlM
    (fun θ pair => unifyGenericType pair.1 pair.2 (parameterNames parameters) θ) θ

theorem unifyAll_cons (t a : TypeTerm) (ts as : List TypeTerm) (θ : Bindings) :
    unifyAll parameters (t :: ts) (a :: as) θ =
      (unifyGenericType (canonicalName t) (canonicalName a) (parameterNames parameters) θ).bind
        (unifyAll parameters ts as) := rfl

variable {n : Ident} {t t' a : TypeTerm} (θ : Bindings)

theorem unify_closed (h : ¬HasParameter parameters t) (actual : TypeName) :
    unifyGenericType (canonicalName t) actual (parameterNames parameters) θ = some θ := by
  rw [unifyGenericType_eq, if_pos (by rwa [mentions_iff])]

theorem unify_name (hn : n ∈ parameters) (a : TypeTerm) :
    unifyGenericType n.1 (canonicalName a) (parameterNames parameters) θ =
      match θ.find n.1 with
      | none => some (θ.emplace n.1 (canonicalName a))
      | some found => if found = canonicalName a then some θ else none := by
  have hm : mentionsGenericParameter n.1 (parameterNames parameters) = true :=
    mentions_of (t := .name n) (hasParameter_name.mpr hn)
  rw [unifyGenericType_eq, if_neg (not_not.mpr hm), if_pos (mem_parameterNames.mpr hn)]
  refine (if_neg (openBaseName_ne_name a n)).trans ?_
  cases θ.find n.1 <;> rfl

theorem unify_array (h : HasParameter parameters t) (e : TypeTerm) :
    unifyGenericType (canonicalName (.array t)) (canonicalName (.array e))
        (parameterNames parameters) θ =
      unifyGenericType (canonicalName t) (canonicalName e) (parameterNames parameters) θ := by
  have hm : mentionsGenericParameter (canonicalName (.array t)) (parameterNames parameters)
      = true :=
    mentions_of h
  rw [unifyGenericType_eq, if_neg (not_not.mpr hm),
    if_neg (not_mem_parameterNames (bracket_mem t) (by decide)),
    if_pos ⟨endsWith_array t, endsWith_array e⟩, dropBrackets_array, dropBrackets_array]

theorem unify_array_ne (h : HasParameter parameters t) (ha : ∀ e, a ≠ .array e) :
    unifyGenericType (canonicalName (.array t)) (canonicalName a) (parameterNames parameters) θ =
      none := by
  have hm : mentionsGenericParameter (canonicalName (.array t)) (parameterNames parameters)
      = true :=
    mentions_of h
  have hb := not_endsWith_brackets ha
  have hne : canonicalName (.array t) ≠ canonicalName a := by
    intro h
    rw [← h, endsWith_array] at hb
    cases hb
  rw [unifyGenericType_eq, if_neg (not_not.mpr hm),
    if_neg (not_mem_parameterNames (bracket_mem t) (by decide)),
    if_neg (fun h => Bool.false_ne_true (hb.symm.trans h.2)),
    if_neg (fun h => h.1 (canonicalOwnership_of_not_pointer fun _ _ h => TypeTerm.noConfusion h)),
    parseGenericTypeName_of_not_app (t := .array t) fun _ _ _ h => TypeTerm.noConfusion h]
  exact if_neg hne

theorem unify_pointer {k k' : PointerKind} (h : HasParameter parameters t)
    (hlead : leadKind (.pointer k t) = leadKind (.pointer k' t')) :
    unifyGenericType (canonicalName (.pointer k t)) (canonicalName (.pointer k' t'))
        (parameterNames parameters) θ =
      unifyGenericType (canonicalName (readPointee k t)) (canonicalName (readPointee k' t'))
        (parameterNames parameters) θ := by
  have hm : mentionsGenericParameter (canonicalName (.pointer k t))
      (parameterNames parameters) = true := mentions_of h
  have hown : canonicalOwnership (canonicalName (.pointer k t)) =
      canonicalOwnership (canonicalName (.pointer k' t')) := by
    rw [canonicalOwnership_pointer, canonicalOwnership_pointer, hlead]
  have hb := not_endsWith_brackets (t := .pointer k t) (fun _ h => TypeTerm.noConfusion h)
  rw [unifyGenericType_eq, if_neg (not_not.mpr hm),
    if_neg (not_mem_parameterNames (star_mem k t) (by decide)),
    if_neg (fun h => Bool.false_ne_true (hb.symm.trans h.1)),
    if_pos ⟨canonicalOwnership_ne_none k t, hown⟩, canonicalPointeeName_pointer,
    canonicalPointeeName_pointer]
  rfl

theorem unify_pointer_ne {k : PointerKind} (h : HasParameter parameters t)
    (hne : canonicalOwnership (canonicalName (.pointer k t)) ≠
      canonicalOwnership (canonicalName a)) :
    unifyGenericType (canonicalName (.pointer k t)) (canonicalName a)
        (parameterNames parameters) θ = none := by
  have hm : mentionsGenericParameter (canonicalName (.pointer k t))
      (parameterNames parameters) = true := mentions_of h
  have hb := not_endsWith_brackets (t := .pointer k t) (fun _ h => TypeTerm.noConfusion h)
  rw [unifyGenericType_eq, if_neg (not_not.mpr hm),
    if_neg (not_mem_parameterNames (star_mem k t) (by decide)),
    if_neg (fun h => Bool.false_ne_true (hb.symm.trans h.1)), if_neg (fun h => hne h.2),
    parseGenericTypeName_of_not_app (t := .pointer k t) fun _ _ _ h => TypeTerm.noConfusion h]
  exact if_neg fun h => hne (by rw [h])

theorem unify_app {base : Ident} {first : TypeTerm} {rest : List TypeTerm}
    (h : HasParameter parameters (.app base first rest)) (base' : Ident) (first' : TypeTerm)
    (rest' : List TypeTerm) :
    unifyGenericType (canonicalName (.app base first rest))
        (canonicalName (.app base' first' rest')) (parameterNames parameters) θ =
      if base ≠ base' ∨ (first :: rest).length ≠ (first' :: rest').length then none
      else unifyAll parameters (first :: rest) (first' :: rest') θ := by
  have hb := not_endsWith_brackets (t := .app base first rest) (fun _ h => TypeTerm.noConfusion h)
  rw [unifyGenericType_eq, if_neg (not_not.mpr (mentions_of h)),
    if_neg (not_mem_parameterNames (angle_mem base first rest) (by decide)),
    if_neg (fun h => Bool.false_ne_true (hb.symm.trans h.1)),
    if_neg (fun h => h.1 (canonicalOwnership_of_not_pointer fun _ _ h => TypeTerm.noConfusion h)),
    parseGenericTypeName_canonicalName, parseGenericTypeName_canonicalName]
  simp only [List.length_map, ne_eq, Subtype.ext_iff]
  rfl

theorem unify_app_ne {base : Ident} {first : TypeTerm} {rest : List TypeTerm}
    (h : HasParameter parameters (.app base first rest))
    (ha : ∀ base first rest, a ≠ .app base first rest) :
    unifyGenericType (canonicalName (.app base first rest)) (canonicalName a)
        (parameterNames parameters) θ = none := by
  have hb := not_endsWith_brackets (t := .app base first rest) (fun _ h => TypeTerm.noConfusion h)
  have hparse := parseGenericTypeName_of_not_app ha
  have hne : canonicalName (.app base first rest) ≠ canonicalName a := by
    intro h
    rw [← h, parseGenericTypeName_canonicalName] at hparse
    cases hparse
  rw [unifyGenericType_eq, if_neg (not_not.mpr (mentions_of h)),
    if_neg (not_mem_parameterNames (angle_mem base first rest) (by decide)),
    if_neg (fun h => Bool.false_ne_true (hb.symm.trans h.1)),
    if_neg (fun h => h.1 (canonicalOwnership_of_not_pointer fun _ _ h => TypeTerm.noConfusion h)),
    parseGenericTypeName_canonicalName, hparse]
  exact if_neg hne

end Parameters

/-! ## Assignments -/

/-- The name that a chain of pointers and arrays ends with. -/
def chainEnd : TypeTerm → Option Ident
  | .name n => some n
  | .app .. => none
  | .array t => chainEnd t
  | .pointer _ t => chainEnd t

/-- What stands for the name at the end of the chain begins with no qualifier. -/
def EndPlain (σ : TermSubst) (t : TypeTerm) : Prop :=
  ∀ n s, chainEnd t = some n → σ n = some s → leadKind s = .unique

mutual

/-- No owner of the term is put over a qualified handle. -/
def OwnersPlain (σ : TermSubst) : TypeTerm → Prop
  | .name _ => True
  | .app _ first rest => OwnersPlain σ first ∧ OwnersPlainAll σ rest
  | .array t => OwnersPlain σ t
  | .pointer k t => (k = .unique → EndPlain σ t) ∧ OwnersPlain σ t

def OwnersPlainAll (σ : TermSubst) : List TypeTerm → Prop
  | [] => True
  | t :: ts => OwnersPlain σ t ∧ OwnersPlainAll σ ts

end

section Assignments

variable {parameters : List Ident} {σ : TermSubst} {t : TypeTerm} {θ : Bindings}

theorem ownersPlainAll_iff {ts : List TypeTerm} :
    OwnersPlainAll σ ts ↔ ∀ t ∈ ts, OwnersPlain σ t := by
  induction ts with
  | nil => simp [OwnersPlainAll]
  | cons t ts ih => simp [OwnersPlainAll, ih]

theorem ownersPlain_app {base : Ident} {first : TypeTerm} {rest : List TypeTerm} :
    OwnersPlain σ (.app base first rest) ↔ ∀ t ∈ first :: rest, OwnersPlain σ t := by
  rw [OwnersPlain, ownersPlainAll_iff, List.forall_mem_cons]

theorem chainEnd_demote (t : TypeTerm) : chainEnd (demote t) = chainEnd t := by
  induction t using induct with
  | name n => rfl
  | app base first rest => rfl
  | array t ih => exact ih
  | pointer k t ih => cases k <;> first | exact ih | rfl

theorem endPlain_demote : EndPlain σ (demote t) ↔ EndPlain σ t := by
  rw [EndPlain, chainEnd_demote]
  rfl

/-- A qualifier read in front of an owner leaves the owner in its place. -/
theorem ownersPlain_demote (h : leadKind t ≠ .unique) :
    OwnersPlain σ (demote t) ↔ OwnersPlain σ (.pointer .unique t) := by
  induction t using induct with
  | name n => exact absurd rfl h
  | app base first rest => exact absurd rfl h
  | array t ih => exact ih h
  | pointer k t ih =>
    by_cases hk : k = .unique
    · subst hk
      have ih := ih h
      simp only [demote, OwnersPlain, true_implies, endPlain_demote] at ih ⊢
      rw [ih]
      exact Iff.rfl
    · have hd : demote (.pointer k t) = .pointer .unique t := by
        cases k <;> first | rfl | exact absurd rfl hk
      rw [hd]
      simp only [OwnersPlain, true_implies, hk, false_implies, true_and]
      exact Iff.rfl

theorem ownersPlain_readPointee {k : PointerKind}
    (h : k = .unique → leadKind t = .unique → EndPlain σ t) :
    OwnersPlain σ (readPointee k t) ↔ OwnersPlain σ (.pointer k t) := by
  by_cases hk : k = .unique
  · subst hk
    rw [readPointee, if_pos rfl]
    by_cases hl : leadKind t = .unique
    · rw [demote_of_unique hl, OwnersPlain]
      exact ⟨fun ht => ⟨fun _ => h rfl hl, ht⟩, fun ht => ht.2⟩
    · exact ownersPlain_demote hl
  · rw [readPointee, if_neg hk, OwnersPlain]
    simp only [hk, false_implies, true_and]

theorem leadKind_subst_of_unique (h : leadKind t = .unique) :
    leadKind (subst σ t) = .unique ↔ EndPlain σ t := by
  induction t using induct with
  | name n =>
    unfold EndPlain chainEnd
    rw [subst]
    cases hσ : σ n with
    | none =>
      refine iff_of_true rfl ?_
      rintro m s hm hs
      rw [← Option.some.inj hm, hσ] at hs
      cases hs
    | some s =>
      constructor
      · rintro h m s' hm hs
        rw [← Option.some.inj hm, hσ] at hs
        rwa [← Option.some.inj hs]
      · exact fun h => h n s rfl hσ
  | app base first rest =>
    refine iff_of_true rfl ?_
    intro n s h
    cases h
  | array t ih => exact ih h
  | pointer k t ih =>
    by_cases hk : k = .unique
    · subst hk
      exact ih h
    · rw [leadKind_pointer hk] at h
      exact absurd h hk

/-- Types for exactly the parameters. -/
def Assigns (parameters : List Ident) (σ : TermSubst) : Prop := ∀ n, (σ n).isSome ↔ n ∈ parameters

theorem Assigns.mem (hσ : Assigns parameters σ) (n : Ident) (s : TypeTerm) (h : σ n = some s) :
    n ∈ parameters := by
  rw [← hσ, h]
  rfl

theorem occursIn_chainEnd {n : Ident} (h : chainEnd t = some n) : OccursIn n.1 t := by
  induction t using induct with
  | name m => exact congrArg Subtype.val (Option.some.inj h).symm
  | app base first rest => cases h
  | array t ih => exact ih h
  | pointer k t ih => exact ih h

theorem endPlain_of_closed (hσ : ∀ n s, σ n = some s → n ∈ parameters)
    (h : ¬HasParameter parameters t) : EndPlain σ t := by
  intro n s hn hs
  exact absurd ⟨n, hσ n s hs, occursIn_chainEnd hn⟩ h

theorem ownersPlain_of_closed (hσ : ∀ n s, σ n = some s → n ∈ parameters)
    (h : ¬HasParameter parameters t) : OwnersPlain σ t := by
  induction t using induct with
  | name n => trivial
  | app base first rest ih =>
    rw [ownersPlain_app]
    exact fun t ht => ih t ht fun ho => h (hasParameter_app.mpr ⟨t, ht, ho⟩)
  | array t ih => exact ih h
  | pointer k t ih => exact ⟨fun _ => endPlain_of_closed hσ h, ih h⟩

/-! ## Completeness -/

/-- `θ` holds some of the bindings of `σ`. -/
def Within (θ : Substitutions) (σ : TermSubst) : Prop :=
  ∀ x v, θ x = some v → nameSubst σ x = some v

/-- `θ'` is `θ` and the bindings of the names for which `P` holds. -/
def Adds (σ : TermSubst) (P : TypeName → Prop) (θ θ' : Substitutions) : Prop :=
  ∀ x, (P x → θ' x = nameSubst σ x) ∧ (¬P x → θ' x = θ x)

theorem Adds.within {P : TypeName → Prop} {θ θ' : Substitutions} (h : Adds σ P θ θ')
    (hθ : Within θ σ) : Within θ' σ := by
  intro x v hv
  by_cases hx : P x
  · rwa [← (h x).1 hx]
  · exact hθ x v ((h x).2 hx ▸ hv)

theorem Adds.congr {P Q : TypeName → Prop} {θ θ' : Substitutions} (h : Adds σ P θ θ')
    (hPQ : ∀ x, P x ↔ Q x) : Adds σ Q θ θ' :=
  fun x => ⟨fun hq => (h x).1 ((hPQ x).mpr hq), fun hq => (h x).2 (mt (hPQ x).mp hq)⟩

theorem nameSubst_ident (σ : TermSubst) (n : Ident) :
    nameSubst σ n.1 = (σ n).map canonicalName := by
  rw [nameSubst, dif_pos n.2]

theorem nameSubst_of_not_mem (hσ : Assigns parameters σ) {x : TypeName}
    (hx : x ∉ parameterNames parameters) : nameSubst σ x = none := by
  unfold nameSubst
  split
  · rename_i hname
    have hnot : (⟨x, hname⟩ : Ident) ∉ parameters := fun h => hx (mem_parameterNames.mpr h)
    rw [← hσ, Bool.not_eq_true, Option.isSome_eq_false_iff, Option.isNone_iff_eq_none] at hnot
    rw [hnot]
    rfl
  · rfl

/-- Unifying a term with what the assignment makes of it. -/
structure Unifies (parameters : List Ident) (σ : TermSubst) (t : TypeTerm) (θ : Bindings) :
    Prop where
  succeeds : OwnersPlain σ t → ∃ θ', unifyGenericType (canonicalName t)
    (canonicalName (subst σ t)) (parameterNames parameters) θ = some θ' ∧
      Adds σ (OccursIn · t) θ.find θ'.find
  fails : ¬OwnersPlain σ t → unifyGenericType (canonicalName t) (canonicalName (subst σ t))
    (parameterNames parameters) θ = none

theorem unifies_closed (hσ : Assigns parameters σ) (hθ : Within θ.find σ)
    (h : ¬HasParameter parameters t) : Unifies parameters σ t θ := by
  refine ⟨fun _ => ⟨θ, unify_closed θ h _, fun x => ⟨fun hx => ?_, fun _ => rfl⟩⟩,
    fun hno => absurd (ownersPlain_of_closed hσ.mem h) hno⟩
  have hnone : nameSubst σ x = none := by
    refine nameSubst_of_not_mem hσ fun hmem => h ?_
    obtain ⟨n, hn, rfl⟩ := List.mem_map.mp hmem
    exact ⟨n, hn, hx⟩
  rw [hnone]
  cases hθx : θ.find x with
  | none => rfl
  | some v =>
    rw [hθ x v hθx] at hnone
    cases hnone

theorem unifies_arguments {ts : List TypeTerm}
    (h : ∀ t ∈ ts, ∀ θ : Bindings, Within θ.find σ → Unifies parameters σ t θ)
    (hθ : Within θ.find σ) :
    ((∀ t ∈ ts, OwnersPlain σ t) → ∃ θ', unifyAll parameters ts (ts.map (subst σ)) θ = some θ' ∧
      Adds σ (fun x => ∃ t ∈ ts, OccursIn x t) θ.find θ'.find) ∧
    ((¬∀ t ∈ ts, OwnersPlain σ t) → unifyAll parameters ts (ts.map (subst σ)) θ = none) := by
  induction ts generalizing θ with
  | nil =>
    refine ⟨fun _ => ⟨θ, rfl, fun x => ⟨?_, fun _ => rfl⟩⟩, fun h => absurd ?_ h⟩
    · rintro ⟨t, ht, -⟩
      cases ht
    · simp
  | cons t ts ih =>
    rw [List.forall_mem_cons] at h
    rw [List.map_cons, unifyAll_cons]
    obtain ⟨hsucc, hfail⟩ := h.1 θ hθ
    by_cases ht : OwnersPlain σ t
    · obtain ⟨θ₁, hrun, hadds⟩ := hsucc ht
      obtain ⟨ihs, ihf⟩ := ih h.2 (hadds.within hθ)
      rw [hrun, Option.bind_some]
      constructor
      · intro hall
        rw [List.forall_mem_cons] at hall
        obtain ⟨θ₂, hrun₂, hadds₂⟩ := ihs hall.2
        refine ⟨θ₂, hrun₂, fun x => ?_⟩
        by_cases hrest : ∃ t ∈ ts, OccursIn x t
        · obtain ⟨s, hs, hx⟩ := hrest
          exact ⟨fun _ => (hadds₂ x).1 ⟨s, hs, hx⟩,
            fun hno => absurd ⟨s, List.mem_cons_of_mem t hs, hx⟩ hno⟩
        · rw [(hadds₂ x).2 hrest]
          refine ⟨fun hx => (hadds x).1 ?_, fun hno => (hadds x).2 fun hx => hno ?_⟩
          · obtain ⟨s, hs, hx⟩ := hx
            obtain rfl | hs := List.mem_cons.mp hs
            · exact hx
            · exact absurd ⟨s, hs, hx⟩ hrest
          · exact ⟨t, List.mem_cons_self, hx⟩
      · intro hnot
        rw [List.forall_mem_cons] at hnot
        exact ihf fun hall => hnot ⟨ht, hall⟩
    · rw [hfail ht, Option.bind_none]
      exact ⟨fun hall => absurd (hall t List.mem_cons_self) ht, fun _ => rfl⟩

theorem unifies_name {n : Ident} (hσ : Assigns parameters σ) (hn : n ∈ parameters)
    (hθ : Within θ.find σ) : Unifies parameters σ (.name n) θ := by
  refine ⟨fun _ => ?_, fun hno => absurd trivial hno⟩
  obtain ⟨s, hs⟩ := Option.isSome_iff_exists.mp ((hσ n).mpr hn)
  have hval : nameSubst σ n.1 = some (canonicalName s) := by rw [nameSubst_ident, hs]; rfl
  have hsub : subst σ (.name n) = s := by rw [subst, hs]; rfl
  rw [canonicalName, hsub, unify_name θ hn]
  cases hθn : θ.find n.1 with
  | none =>
    refine ⟨_, rfl, fun x => ?_⟩
    rw [Bindings.find_emplace hθn]
    refine ⟨?_, fun hx => if_neg hx⟩
    rintro rfl
    rw [if_pos rfl, hval]
  | some v =>
    have hv : v = canonicalName s := Option.some.inj ((hθ _ _ hθn).symm.trans hval)
    refine ⟨θ, if_pos hv, fun x => ⟨?_, fun _ => rfl⟩⟩
    rintro rfl
    rw [hθn, hv, hval]

/-- Where no owner is put over a qualified handle, a handle is read as in the pattern. -/
theorem read_subst {k : PointerKind}
    (h : k = .unique → leadKind t = .unique → EndPlain σ t) :
    leadKind (.pointer k (subst σ t)) = leadKind (.pointer k t) ∧
      readPointee k (subst σ t) = subst σ (readPointee k t) := by
  by_cases hk : k = .unique
  · subst hk
    by_cases hl : leadKind t = .unique
    · have hl' := (leadKind_subst_of_unique hl).mpr (h rfl hl)
      refine ⟨hl'.trans hl.symm, ?_⟩
      rw [readPointee, readPointee, if_pos rfl, if_pos rfl, demote_of_unique hl,
        demote_of_unique hl']
    · exact leadKind_subst σ hl
  · rw [leadKind_pointer hk, leadKind_pointer hk, readPointee, readPointee, if_neg hk, if_neg hk]
    exact ⟨rfl, rfl⟩

theorem unifies_pointer {k : PointerKind} (h : HasParameter parameters t)
    (ih : Unifies parameters σ (readPointee k t) θ) : Unifies parameters σ (.pointer k t) θ := by
  by_cases hbad : k = .unique ∧ leadKind t = .unique ∧ ¬EndPlain σ t
  · -- the owner is taken for a handle of another kind
    obtain ⟨rfl, hl, hend⟩ := hbad
    refine ⟨fun hp => absurd (hp.1 rfl) hend, fun _ => ?_⟩
    rw [unify_pointer_ne θ h]
    rw [subst, canonicalOwnership_pointer, canonicalOwnership_pointer]
    intro heq
    exact hend ((leadKind_subst_of_unique hl).mp ((ownership_injective heq).symm.trans hl))
  have hend : k = .unique → leadKind t = .unique → EndPlain σ t := by
    intro hk hl
    by_contra hend
    exact hbad ⟨hk, hl, hend⟩
  have hplain := ownersPlain_readPointee hend
  obtain ⟨hlead, hread⟩ := read_subst hend
  have heq := unify_pointer θ h hlead.symm
  rw [hread] at heq
  constructor
  · intro hp
    obtain ⟨θ', hrun, hadds⟩ := ih.succeeds (hplain.mpr hp)
    exact ⟨θ', by rw [subst, heq, hrun], hadds.congr fun x => occursIn_readPointee⟩
  · intro hp
    rw [subst, heq]
    exact ih.fails (mt hplain.mp hp)

theorem unifies (hσ : Assigns parameters σ) (t : TypeTerm) (hθ : Within θ.find σ) :
    Unifies parameters σ t θ := by
  -- on the length of the name, as for substitution
  induction hn : (canonicalName t).length using Nat.strong_induction_on generalizing t θ with
  | _ n ih =>
  subst hn
  by_cases h : HasParameter parameters t
  swap
  · exact unifies_closed hσ hθ h
  cases t with
  | name n => exact unifies_name hσ (hasParameter_name.mp h) hθ
  | array t =>
    obtain ⟨hs, hf⟩ := ih _ (length_element t) (t := t) hθ rfl
    have ht : HasParameter parameters t := h
    have heq := unify_array θ ht (subst σ t)
    constructor
    · intro hp
      rw [subst, heq]
      exact hs hp
    · intro hp
      rw [subst, heq]
      exact hf hp
  | pointer k t =>
    exact unifies_pointer h (ih _ (length_readPointee k t) _ hθ rfl)
  | app base first rest =>
    obtain ⟨hs, hf⟩ := unifies_arguments (fun t (ht : t ∈ first :: rest) θ hθ =>
      ih _ (length_argument ht) t hθ rfl) hθ
    have heq := unify_app θ h base (subst σ first) (rest.map (subst σ))
    rw [if_neg (by simp), ← subst_app, ← List.map_cons] at heq
    constructor
    · intro hp
      obtain ⟨θ', hrun, hadds⟩ := hs (ownersPlain_app.mp hp)
      exact ⟨θ', heq.trans hrun, hadds.congr fun x => occursIn_app.symm⟩
    · intro hp
      rw [heq]
      exact hf (mt ownersPlain_app.mpr hp)

end Assignments

end TypeTerm

end Absolute
