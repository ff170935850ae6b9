import Absolute.AnUnifyMatch

/-!
# Where a match puts what

The places of a type name, as its readers take it apart, and what an inference says of them: at
every place where the pattern has a parameter the actual type has what the parameter was bound
to, and so has the substituted pattern.
-/

namespace Absolute

/-- One step into a type name. -/
inductive TypeStep where
  | element
  | pointee (kind : OwnershipKind)
  | argument (base : TypeName) (count index : Nat)
deriving DecidableEq, Repr

def stepInto : TypeStep → TypeName → Option TypeName
  | .element, type => if endsWith type "[]".toList then some (dropBrackets type) else none
  | .pointee kind, type =>
      if kind ≠ .None ∧ canonicalOwnership type = kind then some (canonicalPointeeName type)
      else none
  | .argument base count index, type =>
      match parseGenericTypeName type with
      | none => none
      | some (base', arguments) =>
          if base' = base ∧ arguments.length = count then arguments[index]? else none

/-- The part of a type name at a place. -/
def nameAt (type : TypeName) : List TypeStep → Option TypeName
  | [] => some type
  | step :: path => match stepInto step type with
      | none => none
      | some part => nameAt part path

namespace TypeTerm

/-- The qualifier a name begins with. -/
def leadOf (type : TypeName) : PointerKind :=
  if startsWith type "raw ".toList then .raw
  else if startsWith type "weak ".toList then .weak
  else if startsWith type "sub ".toList then .sub
  else .unique

theorem leadOf_canonicalName (t : TypeTerm) : leadOf (canonicalName t) = leadKind t := by
  cases h : leadKind t with
  | unique =>
    obtain ⟨hraw, hweak, hsub⟩ := not_startsWith_of_nameHead (nameHead_of_unique h)
    rw [leadOf, hraw, hweak, hsub]
    rfl
  | sub | weak | raw =>
    rw [canonicalName_demote, h]
    rfl

/-! ## Steps into names of terms -/

section Steps

variable {step : TypeStep} {part : TypeName} {t : TypeTerm}

theorem stepInto_name (step : TypeStep) (n : Ident) : stepInto step n.1 = none := by
  have hb := not_endsWith_brackets (t := .name n) (fun _ => nofun)
  have hp := canonicalOwnership_of_not_pointer (t := .name n) (fun _ _ => nofun)
  rw [canonicalName] at hb hp
  cases step with
  | element => rw [stepInto, hb, if_neg Bool.false_ne_true]
  | pointee kind => rw [stepInto, hp, if_neg fun h => h.1 h.2.symm]
  | argument base count index => rw [stepInto, parseGenericTypeName_name]

theorem stepInto_array (h : stepInto step (canonicalName (.array t)) = some part) :
    step = .element ∧ part = canonicalName t := by
  cases step with
  | element =>
    rw [stepInto, endsWith_array, if_pos rfl, dropBrackets_array, Option.some_inj] at h
    exact ⟨rfl, h.symm⟩
  | pointee kind =>
    rw [stepInto, canonicalOwnership_of_not_pointer (t := .array t) (fun _ _ => nofun),
      if_neg fun h => h.1 h.2.symm] at h
    cases h
  | argument base count index =>
    rw [stepInto, parseGenericTypeName_of_not_app (t := .array t) fun _ _ _ => nofun] at h
    cases h

theorem stepInto_element (t : TypeTerm) :
    stepInto .element (canonicalName (.array t)) = some (canonicalName t) := by
  rw [stepInto, endsWith_array, if_pos rfl, dropBrackets_array]

theorem stepInto_pointee (k : PointerKind) (t : TypeTerm) :
    stepInto (.pointee (leadKind (.pointer k t)).ownership) (canonicalName (.pointer k t)) =
      some (canonicalName (readPointee k t)) := by
  have hne := canonicalOwnership_ne_none k t
  rw [canonicalOwnership_pointer] at hne
  rw [stepInto, if_pos ⟨hne, canonicalOwnership_pointer k t⟩, canonicalPointeeName_pointer]
  rfl

theorem stepInto_pointer {k : PointerKind}
    (h : stepInto step (canonicalName (.pointer k t)) = some part) :
    step = .pointee (leadKind (.pointer k t)).ownership ∧
      part = canonicalName (readPointee k t) := by
  cases step with
  | element =>
    rw [stepInto, not_endsWith_brackets (t := .pointer k t) (fun _ => nofun),
      if_neg Bool.false_ne_true] at h
    cases h
  | pointee kind =>
    by_cases hk : kind = (leadKind (.pointer k t)).ownership
    · subst hk
      rw [stepInto_pointee, Option.some_inj] at h
      exact ⟨rfl, h.symm⟩
    · rw [stepInto, canonicalOwnership_pointer, if_neg fun h => hk h.2.symm] at h
      cases h
  | argument base count index =>
    rw [stepInto, parseGenericTypeName_of_not_app (t := .pointer k t) fun _ _ _ => nofun] at h
    cases h

theorem stepInto_argument (base : Ident) (first : TypeTerm) (rest : List TypeTerm) (index : Nat) :
    stepInto (.argument base.1 (first :: rest).length index)
        (canonicalName (.app base first rest)) =
      ((first :: rest)[index]?).map canonicalName := by
  rw [stepInto, parseGenericTypeName_canonicalName]
  simp only [List.length_map, and_self, if_true, List.getElem?_map]

theorem stepInto_app {base : Ident} {first : TypeTerm} {rest : List TypeTerm}
    (h : stepInto step (canonicalName (.app base first rest)) = some part) :
    ∃ index, step = .argument base.1 (first :: rest).length index ∧
      ((first :: rest)[index]?).map canonicalName = some part := by
  cases step with
  | element =>
    rw [stepInto, not_endsWith_brackets (t := .app base first rest) (fun _ => nofun),
      if_neg Bool.false_ne_true] at h
    cases h
  | pointee kind =>
    rw [stepInto, canonicalOwnership_of_not_pointer (t := .app base first rest)
      (fun _ _ => nofun), if_neg fun h => h.1 h.2.symm] at h
    cases h
  | argument base' count index =>
    by_cases hsame : base.1 = base' ∧ (first :: rest).length = count
    · obtain ⟨rfl, rfl⟩ := hsame
      exact ⟨index, rfl, by rwa [stepInto_argument] at h⟩
    · rw [stepInto, parseGenericTypeName_canonicalName] at h
      simp only [List.length_map] at h
      rw [if_neg hsame] at h
      cases h

end Steps

/-! ## Soundness -/

section Soundness

variable {parameters : List Ident} {σ : TermSubst} {t a : TypeTerm}

/-- What the bindings `σ` say of a pattern and an actual type that unify. -/
structure Located (parameters : List Ident) (σ : TermSubst) (t a : TypeTerm) : Prop where
  plain : OwnersPlain σ t
  place : ∀ path, ∀ n ∈ parameters, nameAt (canonicalName t) path = some n.1 →
    ∃ s, σ n = some s ∧ nameAt (canonicalName a) path = some (canonicalName s)
  chain : ∀ n ∈ parameters, chainEnd t = some n → canonicalName (subst σ t) = canonicalName a

theorem name_of_nil {n : Ident} (h : nameAt (canonicalName t) [] = some n.1) : t = .name n := by
  have h : canonicalName t = n.1 := Option.some.inj h
  cases t with
  | name m => rw [Subtype.ext h]
  | app base first rest =>
    exact absurd n.2 (not_isName_of_mem (h ▸ angle_mem base first rest) (by decide))
  | array t => exact absurd n.2 (not_isName_of_mem (h ▸ bracket_mem t) (by decide))
  | pointer k t => exact absurd n.2 (not_isName_of_mem (h ▸ star_mem k t) (by decide))

theorem nameAt_cons {type last : TypeName} {step : TypeStep} {path : List TypeStep}
    (h : nameAt type (step :: path) = some last) :
    ∃ part, stepInto step type = some part ∧ nameAt part path = some last := by
  unfold nameAt at h
  cases hstep : stepInto step type with
  | none =>
    rw [hstep] at h
    cases h
  | some part =>
    rw [hstep] at h
    exact ⟨part, rfl, h⟩

theorem nameAt_of_step {type part : TypeName} {step : TypeStep} (path : List TypeStep)
    (h : stepInto step type = some part) : nameAt type (step :: path) = nameAt part path := by
  rw [nameAt, h]

/-- What stands at a place of a pattern occurs in it. -/
theorem occursIn_of_nameAt {n : Ident} {path : List TypeStep}
    (h : nameAt (canonicalName t) path = some n.1) : OccursIn n.1 t := by
  induction path generalizing t with
  | nil =>
    rw [name_of_nil h]
    rfl
  | cons step path ih =>
    obtain ⟨part, hstep, h⟩ := nameAt_cons h
    cases t with
    | name m =>
      rw [canonicalName, stepInto_name] at hstep
      cases hstep
    | app base first rest =>
      obtain ⟨index, -, hpart⟩ := stepInto_app hstep
      obtain ⟨t, ht, rfl⟩ := Option.map_eq_some_iff.mp hpart
      exact occursIn_app.mpr ⟨t, List.mem_of_getElem? ht, ih h⟩
    | array t =>
      obtain ⟨-, rfl⟩ := stepInto_array hstep
      exact ih (t := t) h
    | pointer k t =>
      obtain ⟨-, rfl⟩ := stepInto_pointer hstep
      exact (occursIn_readPointee (k := k) (t := t)).mp (ih h)

theorem located_closed (hσ : ∀ n s, σ n = some s → n ∈ parameters)
    (h : ¬HasParameter parameters t) : Located parameters σ t a where
  plain := ownersPlain_of_closed hσ h
  place := fun _ n hmem hat => absurd ⟨n, hmem, occursIn_of_nameAt hat⟩ h
  chain := fun n hmem hend => absurd ⟨n, hmem, occursIn_chainEnd hend⟩ h

theorem located_name {n : Ident}
    (hbound : nameSubst σ n.1 = some (canonicalName a)) : Located parameters σ (.name n) a := by
  rw [nameSubst_ident] at hbound
  obtain ⟨s, hs, hname⟩ := Option.map_eq_some_iff.mp hbound
  refine ⟨trivial, ?_, ?_⟩
  · intro path m _ hat
    cases path with
    | nil =>
      obtain rfl := TypeTerm.name.inj (name_of_nil hat)
      exact ⟨s, hs, congrArg some hname.symm⟩
    | cons step path =>
      obtain ⟨part, hstep, -⟩ := nameAt_cons hat
      rw [canonicalName, stepInto_name] at hstep
      cases hstep
  · intro m _ _
    rw [subst, hs]
    exact hname

theorem Located.array (h : Located parameters σ t a) :
    Located parameters σ (.array t) (.array a) where
  plain := h.plain
  place := by
    intro path n hn hat
    cases path with
    | nil => cases name_of_nil hat
    | cons step path =>
      obtain ⟨part, hstep, hat⟩ := nameAt_cons hat
      obtain ⟨rfl, rfl⟩ := stepInto_array hstep
      rw [nameAt_of_step path (stepInto_element a)]
      exact h.place path n hn hat
  chain := by
    intro n hn hend
    rw [subst, canonicalName, canonicalName, h.chain n hn hend]

/-- A handle's name, from what is read of it. -/
theorem canonicalName_read (k : PointerKind) (t : TypeTerm) :
    canonicalName (.pointer k t) = canonicalOwnershipPrefix (leadKind (.pointer k t)).ownership ++
      (canonicalName (readPointee k t) ++ ['*']) := by
  rw [canonicalName_demote]
  cases k <;> simp [demote, canonicalName_pointer_unique, readPointee]

theorem chainEnd_readPointee {k : PointerKind} : chainEnd (readPointee k t) = chainEnd t := by
  unfold readPointee
  split
  · exact chainEnd_demote t
  · rfl

/-- A chain that is read as owners is a chain of owners. -/
theorem owner_of_leadKind {k : PointerKind} (h : leadKind (.pointer k t) = .unique) :
    k = .unique ∧ leadKind t = .unique := by
  have hk : k = .unique := by
    by_contra hk
    exact hk (leadKind_pointer hk t ▸ h)
  subst hk
  exact ⟨rfl, h⟩

theorem Located.pointer {k k' : PointerKind}
    (hlead : leadKind (.pointer k t) = leadKind (.pointer k' a))
    (h : Located parameters σ (readPointee k t) (readPointee k' a))
    (hσ : ∀ n s, σ n = some s → n ∈ parameters) :
    Located parameters σ (.pointer k t) (.pointer k' a) := by
  have hend : k = .unique → leadKind t = .unique → EndPlain σ t := by
    rintro rfl hl n s hn hs
    obtain ⟨rfl, hl'⟩ := owner_of_leadKind (hlead.symm.trans hl)
    have hread : ∀ {u}, leadKind u = .unique → readPointee .unique u = u := demote_of_unique
    have hname := h.chain n (hσ n s hs) (by rwa [chainEnd_readPointee])
    rw [hread hl, hread hl'] at hname
    refine (leadKind_subst_of_unique hl).mp ?_ n s hn hs
    rw [← leadOf_canonicalName, hname, leadOf_canonicalName, hl']
  refine ⟨(ownersPlain_readPointee hend).mp h.plain, ?_, ?_⟩
  · intro path n hn hat
    cases path with
    | nil => cases name_of_nil hat
    | cons step path =>
      obtain ⟨part, hstep, hat⟩ := nameAt_cons hat
      obtain ⟨rfl, rfl⟩ := stepInto_pointer hstep
      rw [hlead, nameAt_of_step path (stepInto_pointee k' a)]
      exact h.place path n hn hat
  · intro n hn hchain
    obtain ⟨hk, hread⟩ := read_subst hend
    have hname := h.chain n hn (chainEnd_readPointee.trans hchain)
    rw [subst, canonicalName_read, canonicalName_read k', hk, hread, hname, hlead]

theorem located_app {base : Ident} {first first' : TypeTerm} {rest rest' : List TypeTerm}
    (hlen : (first :: rest).length = (first' :: rest').length)
    (h : ∀ (i : Nat) t a, (first :: rest)[i]? = some t → (first' :: rest')[i]? = some a →
      Located parameters σ t a) :
    Located parameters σ (.app base first rest) (.app base first' rest') := by
  have hactual : ∀ (i : Nat) t, (first :: rest)[i]? = some t →
      ∃ a, (first' :: rest')[i]? = some a := by
    intro i t ht
    obtain ⟨hi, -⟩ := List.getElem?_eq_some_iff.mp ht
    exact ⟨_, List.getElem?_eq_getElem (hlen ▸ hi)⟩
  refine ⟨ownersPlain_app.mpr fun t ht => ?_, ?_, fun n _ hend => by cases hend⟩
  · obtain ⟨i, hi⟩ := List.getElem?_of_mem ht
    obtain ⟨a, ha⟩ := hactual i t hi
    exact (h i t a hi ha).plain
  · intro path n hn hat
    cases path with
    | nil => cases name_of_nil hat
    | cons step path =>
      obtain ⟨part, hstep, hat⟩ := nameAt_cons hat
      obtain ⟨i, rfl, hpart⟩ := stepInto_app hstep
      obtain ⟨t, ht, rfl⟩ := Option.map_eq_some_iff.mp hpart
      obtain ⟨a, ha⟩ := hactual i t ht
      have hstep' := stepInto_argument base first' rest' i
      rw [ha, Option.map_some] at hstep'
      rw [hlen, nameAt_of_step path hstep']
      exact (h i t a ht ha).place path n hn hat

/-! What a call of the matching keeps of the bindings, and adds to them. -/

/-- `θ'` has the bindings of `θ`, and new ones for parameters only. -/
def Grows (parameters : List Ident) (θ θ' : Substitutions) : Prop :=
  ∀ x v, (θ x = some v → θ' x = some v) ∧
    (θ' x = some v → θ x = some v ∨ x ∈ parameterNames parameters ∧ ∃ s, v = canonicalName s)

theorem Grows.refl (θ : Substitutions) : Grows parameters θ θ := fun _ _ => ⟨id, .inl⟩

theorem Grows.trans {θ₁ θ₂ θ₃ : Substitutions} (h : Grows parameters θ₁ θ₂)
    (h' : Grows parameters θ₂ θ₃) : Grows parameters θ₁ θ₃ :=
  fun x v => ⟨fun hx => (h' x v).1 ((h x v).1 hx), fun hx => ((h' x v).2 hx).elim (h x v).2 .inr⟩

theorem Grows.within {θ θ' : Substitutions} (h : Grows parameters θ θ') (hσ : Within θ' σ) :
    Within θ σ := fun x v hx => hσ x v ((h x v).1 hx)

theorem grows_emplace {θ : Bindings} {n : Ident} (hn : n ∈ parameters) (hnone : θ.find n.1 = none)
    (a : TypeTerm) : Grows parameters θ.find (θ.emplace n.1 (canonicalName a)).find := by
  intro x v
  rw [Bindings.find_emplace hnone]
  by_cases hx : x = n.1
  · subst hx
    rw [if_pos rfl, hnone]
    exact ⟨nofun, fun hv => .inr ⟨mem_parameterNames.mpr hn, a, (Option.some.inj hv).symm⟩⟩
  · rw [if_neg hx]
    exact ⟨id, .inl⟩

/-- What a successful call says. -/
structure Sound (parameters : List Ident) (t a : TypeTerm) (θ θ' : Bindings) : Prop where
  grows : Grows parameters θ.find θ'.find
  located : ∀ σ, (∀ n s, σ n = some s → n ∈ parameters) → Within θ'.find σ →
    Located parameters σ t a

theorem sound_arguments {ts as : List TypeTerm} {θ θ' : Bindings}
    (hlen : ts.length = as.length)
    (h : ∀ t ∈ ts, ∀ a θ θ', unifyGenericType (canonicalName t) (canonicalName a)
      (parameterNames parameters) θ = some θ' → Sound parameters t a θ θ')
    (hrun : unifyAll parameters ts as θ = some θ') :
    Grows parameters θ.find θ'.find ∧ ∀ σ, (∀ n s, σ n = some s → n ∈ parameters) →
      Within θ'.find σ → ∀ (i : Nat) t a, ts[i]? = some t → as[i]? = some a →
        Located parameters σ t a := by
  induction ts generalizing as θ with
  | nil =>
    obtain rfl := Option.some.inj hrun
    refine ⟨Grows.refl θ.find, fun σ _ _ i t a ht => ?_⟩
    rw [List.getElem?_nil] at ht
    cases ht
  | cons t ts ih =>
    cases as with
    | nil => cases hlen
    | cons a as =>
      rw [List.forall_mem_cons] at h
      rw [unifyAll_cons] at hrun
      obtain ⟨θ₁, hfirst, hrun⟩ := Option.bind_eq_some_iff.mp hrun
      obtain ⟨hgrows, hlocated⟩ := h.1 a θ θ₁ hfirst
      obtain ⟨hgrows', hrest⟩ := ih (Nat.succ.inj hlen) h.2 hrun
      refine ⟨hgrows.trans hgrows', fun σ hσ hw i t' a' ht ha => ?_⟩
      cases i with
      | zero =>
        rw [List.getElem?_cons_zero, Option.some_inj] at ht ha
        subst ht ha
        exact hlocated σ hσ (hgrows'.within hw)
      | succ i => exact hrest σ hσ hw i t' a' ht ha

theorem sound {θ θ' : Bindings}
    (hrun : unifyGenericType (canonicalName t) (canonicalName a) (parameterNames parameters) θ =
      some θ') : Sound parameters t a θ θ' := by
  induction hn : (canonicalName t).length using Nat.strong_induction_on
    generalizing t a θ θ' with
  | _ n ih =>
  subst hn
  by_cases h : HasParameter parameters t
  swap
  · rw [unify_closed θ h] at hrun
    obtain rfl := Option.some.inj hrun
    exact ⟨Grows.refl θ.find, fun σ hσ _ => located_closed hσ h⟩
  cases t with
  | name n =>
    have hn := hasParameter_name.mp h
    rw [canonicalName, unify_name θ hn] at hrun
    cases hθ : θ.find n.1 with
    | none =>
      rw [hθ] at hrun
      obtain rfl := Option.some.inj hrun
      refine ⟨grows_emplace hn hθ a, fun σ _ hw => located_name (hw _ _ ?_)⟩
      rw [Bindings.find_emplace hθ, if_pos rfl]
    | some found =>
      rw [hθ] at hrun
      simp only [Option.ite_none_right_eq_some, Option.some_inj] at hrun
      obtain ⟨hfound, rfl⟩ := hrun
      exact ⟨Grows.refl θ.find, fun σ _ hw => located_name (hw _ _ (hfound ▸ hθ))⟩
  | array t =>
    have ht : HasParameter parameters t := h
    by_cases ha : ∀ e, a ≠ .array e
    · rw [unify_array_ne θ ht ha] at hrun
      cases hrun
    · push Not at ha
      obtain ⟨e, rfl⟩ := ha
      rw [unify_array θ ht] at hrun
      obtain ⟨hgrows, hlocated⟩ := ih _ (length_element t) hrun rfl
      exact ⟨hgrows, fun σ hσ hw => (hlocated σ hσ hw).array⟩
  | pointer k t =>
    have ht : HasParameter parameters t := h
    by_cases hown : canonicalOwnership (canonicalName (.pointer k t)) =
        canonicalOwnership (canonicalName a)
    · have hstar : ∃ k' p, a = .pointer k' p := by
        by_contra hno
        push Not at hno
        exact canonicalOwnership_ne_none k t (hown.trans (canonicalOwnership_of_not_pointer hno))
      obtain ⟨k', p, rfl⟩ := hstar
      rw [canonicalOwnership_pointer, canonicalOwnership_pointer] at hown
      have hlead := ownership_injective hown
      rw [unify_pointer θ ht hlead] at hrun
      obtain ⟨hgrows, hlocated⟩ := ih _ (length_readPointee k t) hrun rfl
      exact ⟨hgrows, fun σ hσ hw => Located.pointer hlead (hlocated σ hσ hw) hσ⟩
    · rw [unify_pointer_ne θ ht hown] at hrun
      cases hrun
  | app base first rest =>
    by_cases ha : ∀ base first rest, a ≠ .app base first rest
    · rw [unify_app_ne θ h ha] at hrun
      cases hrun
    · push Not at ha
      obtain ⟨base', first', rest', rfl⟩ := ha
      rw [unify_app θ h] at hrun
      split_ifs at hrun with hdiff
      rw [not_or, not_not, not_not] at hdiff
      obtain ⟨rfl, hlen⟩ := hdiff
      obtain ⟨hgrows, hlocated⟩ := sound_arguments hlen
        (fun t ht a θ θ' hrun => ih _ (length_argument ht) hrun rfl) hrun
      exact ⟨hgrows, fun σ hσ hw => located_app hlen (hlocated σ hσ hw)⟩

/-- The substituted pattern has at a parameter's place what stands for the parameter. -/
theorem nameAt_subst {n : Ident} {s : TypeTerm} (hplain : OwnersPlain σ t) (hs : σ n = some s)
    {path : List TypeStep} (h : nameAt (canonicalName t) path = some n.1) :
    nameAt (canonicalName (subst σ t)) path = some (canonicalName s) := by
  induction path generalizing t with
  | nil =>
    rw [name_of_nil h, subst, hs]
    rfl
  | cons step path ih =>
    obtain ⟨part, hstep, h⟩ := nameAt_cons h
    cases t with
    | name m =>
      rw [canonicalName, stepInto_name] at hstep
      cases hstep
    | app base first rest =>
      obtain ⟨i, rfl, hpart⟩ := stepInto_app hstep
      obtain ⟨t, ht, rfl⟩ := Option.map_eq_some_iff.mp hpart
      have hstep' := stepInto_argument base (subst σ first) (rest.map (subst σ)) i
      rw [← List.map_cons, List.length_map, List.getElem?_map, ht, ← subst_app] at hstep'
      rw [nameAt_of_step path hstep']
      exact ih (ownersPlain_app.mp hplain t (List.mem_of_getElem? ht)) h
    | array t =>
      obtain ⟨rfl, rfl⟩ := stepInto_array hstep
      rw [subst, nameAt_of_step path (stepInto_element _)]
      exact ih (t := t) hplain h
    | pointer k t =>
      obtain ⟨rfl, rfl⟩ := stepInto_pointer hstep
      have hend : k = .unique → leadKind t = .unique → EndPlain σ t := fun hk _ => hplain.1 hk
      obtain ⟨hk, hread⟩ := read_subst hend
      rw [subst, ← hk, nameAt_of_step path (stepInto_pointee k _), hread]
      exact ih ((ownersPlain_readPointee hend).mpr hplain) h

end Soundness

/-! ## Inference is matching -/

/-- Inference for a pattern and an actual type: complete, with the bindings of the assignment,
and sound at every parameter of the pattern. -/
structure InfersMatching (parameters : List Ident) (pattern actual : TypeTerm) : Prop where
  complete : ∀ σ, Assigns parameters σ →
    substituteGenericType (canonicalName pattern) (nameSubst σ) = canonicalName actual →
      ∃ θ, unifyGenericType (canonicalName pattern) (canonicalName actual)
        (parameterNames parameters) [] = some θ ∧ ∀ x, θ.find x =
          if mentionsGenericParameter (canonicalName pattern) [x] then nameSubst σ x else none
  sound : ∀ θ, unifyGenericType (canonicalName pattern) (canonicalName actual)
    (parameterNames parameters) [] = some θ →
      ∀ path, ∀ n ∈ parameters, nameAt (canonicalName pattern) path = some n.1 →
        ∃ bound, θ.find n.1 = some bound ∧ nameAt (canonicalName actual) path = some bound ∧
          nameAt (substituteGenericType (canonicalName pattern) θ.find) path = some bound

section Inference

variable {parameters : List Ident} {pattern actual : TypeTerm} {σ : TermSubst}

theorem mentions_name_iff {n : Ident} {t : TypeTerm} :
    mentionsGenericParameter (canonicalName t) [n.1] = true ↔ OccursIn n.1 t := by
  refine (@mentions_iff [n] t).trans ?_
  simp only [HasParameter, List.mem_singleton, exists_eq_left]

/-- The bindings of a call from nothing are an assignment. -/
theorem exists_nameSubst {θ : Substitutions} (h : Grows parameters (fun _ => none) θ) :
    ∃ σ, nameSubst σ = θ ∧ ∀ n s, σ n = some s → n ∈ parameters := by
  have hbound : ∀ x v, θ x = some v → x ∈ parameterNames parameters ∧ ∃ s, v = canonicalName s := by
    intro x v hx
    exact ((h x v).2 hx).resolve_left nofun
  have hchoice : ∀ n : Ident, ∃ s, Option.map canonicalName s = θ n.1 := by
    intro n
    cases hθ : θ n.1 with
    | none => exact ⟨none, rfl⟩
    | some v =>
      obtain ⟨-, s, rfl⟩ := hbound _ _ hθ
      exact ⟨some s, rfl⟩
  choose σ hσ using hchoice
  refine ⟨σ, funext fun x => ?_, fun n s hs => ?_⟩
  · by_cases hx : IsName x
    · rw [show x = (⟨x, hx⟩ : Ident).1 from rfl, nameSubst_ident, hσ]
    · rw [nameSubst, dif_neg hx]
      cases hθ : θ x with
      | none => rfl
      | some v =>
        obtain ⟨m, -, rfl⟩ := List.mem_map.mp (hbound _ _ hθ).1
        exact absurd m.2 hx
  · have := hσ n
    rw [hs] at this
    exact mem_parameterNames.mp (hbound _ _ this.symm).1

theorem within_nothing (σ : TermSubst) : Within (Bindings.find []) σ := fun _ _ => nofun

theorem complete_of_plain (hσ : Assigns parameters σ) (hplain : OwnersPlain σ pattern) :
    ∃ θ, unifyGenericType (canonicalName pattern) (canonicalName (subst σ pattern))
      (parameterNames parameters) [] = some θ ∧ ∀ x, θ.find x =
        if mentionsGenericParameter (canonicalName pattern) [x] then nameSubst σ x else none := by
  obtain ⟨θ, hrun, hadds⟩ := (unifies hσ pattern (within_nothing σ)).succeeds hplain
  refine ⟨θ, hrun, fun x => ?_⟩
  by_cases hx : IsName x
  · have hocc := mentions_name_iff (n := ⟨x, hx⟩) (t := pattern)
    split_ifs with hm
    · exact (hadds x).1 (hocc.mp hm)
    · exact (hadds x).2 (mt hocc.mpr hm)
  · have hnone : nameSubst σ x = none := by rw [nameSubst, dif_neg hx]
    rw [hnone, ite_self]
    by_cases hocc : OccursIn x pattern
    · rw [(hadds x).1 hocc, hnone]
    · exact (hadds x).2 hocc

/-- Inference is matching exactly where no assignment that gives the actual type puts a
qualified handle under an owner of the pattern. -/
theorem infersMatching_iff (parameters : List Ident) (pattern actual : TypeTerm) :
    InfersMatching parameters pattern actual ↔ ∀ σ, Assigns parameters σ →
      substituteGenericType (canonicalName pattern) (nameSubst σ) = canonicalName actual →
        OwnersPlain σ pattern := by
  constructor
  · intro h σ hσ heq
    obtain ⟨θ, hrun, -⟩ := h.complete σ hσ heq
    by_contra hplain
    have hfail := (unifies hσ pattern (within_nothing σ)).fails hplain
    rw [substituteGenericType_canonicalName] at heq
    rw [heq, hrun] at hfail
    cases hfail
  · refine fun h => ⟨fun σ hσ heq => ?_, fun θ hrun path n hn hat => ?_⟩
    · have hplain := h σ hσ heq
      rw [substituteGenericType_canonicalName] at heq
      rw [← heq]
      exact complete_of_plain hσ hplain
    · obtain ⟨hgrows, hlocated⟩ := TypeTerm.sound hrun
      obtain ⟨σ, hθ, hσ⟩ := exists_nameSubst hgrows
      have hloc := hlocated σ hσ fun x v h => hθ ▸ h
      obtain ⟨s, hs, hplace⟩ := hloc.place path n hn hat
      rw [← hθ]
      refine ⟨canonicalName s, by rw [nameSubst_ident, hs]; rfl, hplace, ?_⟩
      rw [substituteGenericType_canonicalName]
      exact nameAt_subst hloc.plain hs hat

/-- `T*` and `sub Node**`, which is `T*` at `T = sub Node*`. -/
theorem owner_of_subscriber_not_inferred :
    ¬∀ (parameters : List Ident) (pattern actual : TypeTerm),
      (∀ n ∈ parameters, ¬OccursIn n.1 actual) → InfersMatching parameters pattern actual := by
  intro h
  let subscriber := TypeTerm.pointer .sub (.name nodeName)
  let σ : TermSubst := fun n => if n = paramName then some subscriber else none
  have hinfers := h [paramName] (.pointer .unique (.name paramName)) (.pointer .unique subscriber)
    (List.forall_mem_singleton.mpr (show ¬paramName.1 = nodeName.1 by decide))
  have hassigns : Assigns [paramName] σ := by
    intro n
    by_cases hn : n = paramName <;> simp [σ, hn]
  obtain ⟨θ, hrun, -⟩ := hinfers.complete σ hassigns (by decide)
  have hnone : unifyGenericType (canonicalName (.pointer .unique (.name paramName)))
      (canonicalName (.pointer .unique subscriber)) (parameterNames [paramName]) [] = none := by
    decide
  rw [hnone] at hrun
  cases hrun

end Inference

end TypeTerm

end Absolute
