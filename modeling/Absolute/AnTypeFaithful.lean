import Absolute.AnTypeTerms

/-!
# Which types their names encode

A name keeps the qualifiers of a chain of pointers and arrays in their order
and the stars and brackets in theirs, but not which star a qualifier belongs
to: `Unique (Sub T)` and `Sub (Unique T)` are both `sub T**`, and a reader takes
the outer star for the qualified one. So a type is told from every other by its
name, and its handles are read back as they were written, exactly when no chain
in it has both an owner and a qualified pointer (`nameFaithful_iff`).
-/

namespace Absolute

namespace TypeTerm

/-! ## Chains -/

/-- The handles on the chain of pointers and arrays a type starts with,
outermost first. -/
def chain : TypeTerm → List PointerKind
  | .name _ => []
  | .app .. => []
  | .array t => chain t
  | .pointer k t => k :: chain t

mutual

/-- No chain of the type, or of a type argument in it, has both an owner and a
qualified pointer. -/
def unmixed : TypeTerm → Bool
  | .name _ => true
  | .app _ first rest => unmixed first && unmixedAll rest
  | .array t => unmixed t
  | .pointer k t => (chain t).all (fun k' => (k' = .unique) == (k = .unique)) && unmixed t

def unmixedAll : List TypeTerm → Bool
  | [] => true
  | t :: ts => unmixed t && unmixedAll ts

end

theorem unmixedAll_iff {ts : List TypeTerm} :
    unmixedAll ts = true ↔ ∀ t ∈ ts, unmixed t = true := by
  induction ts with
  | nil => simp [unmixedAll]
  | cons t ts ih => simp [unmixedAll, ih]

theorem unmixed_app {base : Ident} {first : TypeTerm} {rest : List TypeTerm} :
    unmixed (.app base first rest) = true ↔ ∀ t ∈ first :: rest, unmixed t = true := by
  rw [unmixed, Bool.and_eq_true, unmixedAll_iff, List.forall_mem_cons]

theorem unmixed_pointer {k : PointerKind} {t : TypeTerm} :
    unmixed (.pointer k t) = true
      ↔ (∀ k' ∈ chain t, (k' = .unique ↔ k = .unique)) ∧ unmixed t = true := by
  simp [unmixed]

theorem leadKind_pointer {k : PointerKind} (hk : k ≠ .unique) (t : TypeTerm) :
    leadKind (.pointer k t) = k := by
  cases k with
  | unique => exact absurd rfl hk
  | sub => rfl
  | weak => rfl
  | raw => rfl

theorem leadKind_eq_unique_iff {t : TypeTerm} :
    leadKind t = .unique ↔ ∀ k ∈ chain t, k = .unique := by
  induction t using induct with
  | name n => simp [leadKind, chain]
  | app base first rest => simp [leadKind, chain]
  | array t ih => exact ih
  | pointer k t ih =>
      by_cases hk : k = .unique
      · subst hk
        simp [leadKind, chain, ih]
      · simp [leadKind_pointer hk, chain, hk]

theorem unique_mem_chain_demote {t : TypeTerm} (h : leadKind t ≠ .unique) :
    .unique ∈ chain (demote t) := by
  induction t using induct with
  | name n => exact absurd rfl h
  | app base first rest => exact absurd rfl h
  | array t ih => exact ih h
  | pointer k t ih => cases k <;> simp [demote, chain]

/-- On an unmixed chain the handle that is read is the one that was written. -/
theorem leadKind_of_unmixed {k : PointerKind} {t : TypeTerm}
    (h : unmixed (.pointer k t) = true) : leadKind (.pointer k t) = k := by
  by_cases hk : k = .unique
  · subst hk
    rw [leadKind, leadKind_eq_unique_iff]
    exact fun k' hk' => ((unmixed_pointer.mp h).1 k' hk').mpr rfl
  · exact leadKind_pointer hk t

theorem demote_of_unmixed {k : PointerKind} {t : TypeTerm}
    (h : unmixed (.pointer k t) = true) : (if k = .unique then demote t else t) = t := by
  split
  · rename_i hk
    subst hk
    exact demote_of_unique (leadKind_of_unmixed h)
  · rfl

/-- The chain of an unmixed type is all owners or all qualified. -/
theorem leadKind_of_mem {t : TypeTerm} (ht : unmixed t = true) (h : .unique ∈ chain t) :
    leadKind t = .unique := by
  induction t using induct with
  | name n => rfl
  | app base first rest => rfl
  | array t ih => exact ih ht h
  | pointer k t ih =>
      rw [leadKind_of_unmixed ht]
      rcases List.mem_cons.mp h with h | h
      · exact h.symm
      · exact ((unmixed_pointer.mp ht).1 _ h).mp rfl

/-! ## Unmixed types are told apart -/

theorem ownership_injective {k k' : PointerKind} (h : k.ownership = k'.ownership) :
    k = k' := by
  cases k <;> cases k' <;> first | rfl | cases h

/-- Two handles with one name are read alike. -/
theorem pointer_name_eq {k k' : PointerKind} {t t' : TypeTerm}
    (h : canonicalName (.pointer k t) = canonicalName (.pointer k' t')) :
    leadKind (.pointer k t) = leadKind (.pointer k' t')
      ∧ canonicalName (if k = .unique then demote t else t)
        = canonicalName (if k' = .unique then demote t' else t') := by
  constructor
  · have := congrArg canonicalOwnership h
    rw [canonicalOwnership_pointer, canonicalOwnership_pointer] at this
    exact ownership_injective this
  · have := congrArg canonicalPointeeName h
    rwa [canonicalPointeeName_pointer, canonicalPointeeName_pointer] at this

theorem eq_of_map_canonicalName {ts : List TypeTerm} {ts' : List TypeTerm}
    (h : ts'.map canonicalName = ts.map canonicalName)
    (hts : ∀ t ∈ ts, ∀ t', canonicalName t' = canonicalName t → t' = t) : ts' = ts := by
  induction ts generalizing ts' with
  | nil => simpa using h
  | cons t ts ih =>
      rw [List.forall_mem_cons] at hts
      cases ts' with
      | nil => simp at h
      | cons t' ts' =>
          rw [List.map_cons, List.map_cons] at h
          obtain ⟨h1, h2⟩ := List.cons.inj h
          rw [hts.1 t' h1, ih h2 hts.2]

theorem eq_of_canonicalName {t : TypeTerm} (ht : unmixed t = true) :
    ∀ t', canonicalName t' = canonicalName t → t' = t := by
  induction t using induct with
  | name n =>
      intro t' h
      cases t' with
      | name n' => rw [canonicalName, canonicalName] at h; rw [Subtype.ext h]
      | app base first rest =>
          have := congrArg parseGenericTypeName h
          rw [parseGenericTypeName_canonicalName, canonicalName,
            parseGenericTypeName_name] at this
          cases this
      | array e =>
          obtain ⟨_, h⟩ := endsWith_brackets.mp (h ▸ endsWith_brackets.mpr ⟨e, rfl⟩)
          cases h
      | pointer k p =>
          obtain ⟨_, _, h⟩ := endsWith_star.mp (h ▸ endsWith_star.mpr ⟨k, p, rfl⟩)
          cases h
  | app base first rest ih =>
      intro t' h
      cases t' with
      | name n =>
          have := congrArg parseGenericTypeName h
          rw [parseGenericTypeName_canonicalName, canonicalName,
            parseGenericTypeName_name] at this
          cases this
      | app base' first' rest' =>
          have := congrArg parseGenericTypeName h
          rw [parseGenericTypeName_canonicalName, parseGenericTypeName_canonicalName] at this
          obtain ⟨h1, h2⟩ := Prod.mk.inj (Option.some.inj this)
          obtain ⟨rfl, rfl⟩ := List.cons.inj
            (eq_of_map_canonicalName h2 fun t hm => ih t hm (unmixed_app.mp ht t hm))
          rw [Subtype.ext h1]
      | array e =>
          obtain ⟨_, h⟩ := endsWith_brackets.mp (h ▸ endsWith_brackets.mpr ⟨e, rfl⟩)
          cases h
      | pointer k p =>
          obtain ⟨_, _, h⟩ := endsWith_star.mp (h ▸ endsWith_star.mpr ⟨k, p, rfl⟩)
          cases h
  | array t ih =>
      intro t' h
      obtain ⟨e, rfl⟩ := endsWith_brackets.mp
        (by rw [h]; exact endsWith_brackets.mpr ⟨t, rfl⟩)
      rw [canonicalName, canonicalName] at h
      rw [ih ht e (List.append_cancel_right h)]
  | pointer k t ih =>
      intro t' h
      obtain ⟨k', p, rfl⟩ := endsWith_star.mp (by rw [h]; exact endsWith_star.mpr ⟨k, t, rfl⟩)
      obtain ⟨hlead, hname⟩ := pointer_name_eq h
      obtain ⟨hchain, hinner⟩ := unmixed_pointer.mp ht
      rw [demote_of_unmixed ht] at hname
      have hp := ih hinner _ hname
      rw [leadKind_of_unmixed ht] at hlead
      by_cases hk' : k' = .unique
      · subst hk'
        rw [if_pos rfl] at hp
        by_cases hl : leadKind p = .unique
        · rw [demote_of_unique hl] at hp
          rw [hp, ← hlead, leadKind, hl]
        · -- the owner's star was read as the qualified one: `t` would be mixed
          have hmem := unique_mem_chain_demote hl
          rw [hp] at hmem
          have hk : k = .unique := (hchain _ hmem).mp rfl
          rw [leadKind, hk] at hlead
          exact absurd hlead hl
      · rw [if_neg hk'] at hp
        rw [leadKind_pointer hk'] at hlead
        rw [hlead, hp]

/-! ## Mixed types have a double -/

/-- `t` with the outermost owner of an all-owner chain qualified by `k`. -/
def promote (k : PointerKind) : TypeTerm → TypeTerm
  | .array t => .array (promote k t)
  | .pointer _ t => .pointer k t
  | t => t

theorem canonicalName_promote {k : PointerKind} {t : TypeTerm} (h : leadKind t = .unique)
    (hne : chain t ≠ []) :
    canonicalName (promote k t) = canonicalOwnershipPrefix k.ownership ++ canonicalName t := by
  induction t using induct with
  | name n => exact absurd rfl hne
  | app base first rest => exact absurd rfl hne
  | array t ih =>
      rw [promote, canonicalName, canonicalName, ih h hne, List.append_assoc]
  | pointer k' t ih =>
      by_cases hk' : k' = .unique
      · subst hk'
        rw [promote, canonicalName_pointer, canonicalName_pointer_unique]
      · rw [leadKind_pointer hk'] at h
        exact absurd h hk'

/-- The two ways a handle differs in kind from those further in. -/
theorem double_of_pointer {k : PointerKind} {t : TypeTerm} (ht : unmixed t = true)
    (h : unmixed (.pointer k t) = false) :
    ∃ t', t' ≠ .pointer k t ∧ canonicalName t' = canonicalName (.pointer k t) := by
  have hmix : ¬∀ k' ∈ chain t, (k' = .unique ↔ k = .unique) := fun hall => by
    rw [unmixed_pointer.mpr ⟨hall, ht⟩] at h
    cases h
  by_cases hk : k = .unique
  · -- an owner of a qualified pointer: qualify the owner instead
    subst hk
    have hl : leadKind t ≠ .unique := fun hl =>
      hmix fun k' hk' => ⟨fun _ => rfl, fun _ => leadKind_eq_unique_iff.mp hl k' hk'⟩
    refine ⟨.pointer (leadKind t) (demote t), fun he => hl (TypeTerm.pointer.inj he).1, ?_⟩
    rw [canonicalName_pointer, canonicalName_pointer_unique, ← List.append_assoc,
      ← canonicalName_demote]
  · -- a qualified pointer with an owner further in: all its chain is owners,
    -- since `t` itself is unmixed
    obtain ⟨k', hmem, hk'⟩ : ∃ k' ∈ chain t, k' = .unique := by
      by_contra hno
      exact hmix fun k' hk' => ⟨fun hu => absurd ⟨k', hk', hu⟩ hno, fun hu => absurd hu hk⟩
    have hl : leadKind t = .unique := leadKind_of_mem ht (hk' ▸ hmem)
    refine ⟨.pointer .unique (promote k t),
      fun he => hk (TypeTerm.pointer.inj he).1.symm, ?_⟩
    rw [canonicalName_pointer_unique, canonicalName_pointer,
      canonicalName_promote hl (List.ne_nil_of_mem hmem), List.append_assoc]

/-- Exchanging one argument of an application for a double of it. -/
theorem double_of_mem {ts : List TypeTerm} {t : TypeTerm} (hmem : t ∈ ts)
    (h : ∃ t', t' ≠ t ∧ canonicalName t' = canonicalName t) :
    ∃ ts', ts' ≠ ts ∧ ts'.map canonicalName = ts.map canonicalName := by
  obtain ⟨t', hne, hname⟩ := h
  obtain ⟨front, back, rfl⟩ := List.append_of_mem hmem
  refine ⟨front ++ t' :: back, fun he => ?_, by simp [hname]⟩
  exact hne (List.cons.inj (List.append_cancel_left he)).1

theorem exists_double {t : TypeTerm} (h : unmixed t = false) :
    ∃ t', t' ≠ t ∧ canonicalName t' = canonicalName t := by
  induction t using induct with
  | name n => cases h
  | app base first rest ih =>
      obtain ⟨t, hmem, ht⟩ : ∃ t ∈ first :: rest, unmixed t = false := by
        by_contra hno
        simp only [not_exists, not_and, Bool.not_eq_false] at hno
        rw [unmixed_app.mpr hno] at h
        cases h
      obtain ⟨ts', hne, hname⟩ := double_of_mem hmem (ih t hmem ht)
      cases ts' with
      | nil => simp at hname
      | cons first' rest' =>
          refine ⟨.app base first' rest', fun he => hne ?_, ?_⟩
          · obtain ⟨-, rfl, rfl⟩ := TypeTerm.app.inj he
            rfl
          · rw [canonicalName_app, canonicalName_app, hname]
  | array t ih =>
      obtain ⟨t', hne, hname⟩ := ih h
      exact ⟨.array t', fun he => hne (TypeTerm.array.inj he),
        by rw [canonicalName, canonicalName, hname]⟩
  | pointer k t ih =>
      cases ht : unmixed t with
      | true => exact double_of_pointer ht h
      | false =>
          obtain ⟨t', hne, hname⟩ := ih ht
          exact ⟨.pointer k t', fun he => hne (TypeTerm.pointer.inj he).2,
            by rw [canonicalName_pointer, canonicalName_pointer, hname]⟩

/-! ## Faithful names -/

/-- The name of `t` is an encoding of `t`: no other type has it, and the readers
take it apart as it was built. -/
structure NameFaithful (t : TypeTerm) : Prop where
  distinct : ∀ t', canonicalName t' = canonicalName t → t' = t
  ownership : ∀ k p, t = .pointer k p →
    canonicalOwnership (canonicalPointerName (canonicalName p) k.ownership) = k.ownership
  pointee : ∀ k p, t = .pointer k p →
    canonicalPointeeName (canonicalPointerName (canonicalName p) k.ownership)
      = canonicalName p
  arguments : ∀ base first rest, t = .app base first rest →
    parseGenericTypeName (canonicalName t) = some (base.1, (first :: rest).map canonicalName)
  substitution : ∀ σ,
    substituteGenericType (canonicalName t) (nameSubst σ) = canonicalName (subst σ t)

/-- Exactly the unmixed types are encoded by their names. -/
theorem nameFaithful_iff (t : TypeTerm) : NameFaithful t ↔ unmixed t = true := by
  constructor
  · intro h
    by_contra hmix
    obtain ⟨t', hne, hname⟩ := exists_double (Bool.eq_false_iff.mpr hmix)
    exact hne (h.distinct t' hname)
  · intro h
    refine ⟨eq_of_canonicalName h, ?_, ?_, ?_, fun σ => ?_⟩
    · rintro k p rfl
      have := canonicalOwnership_pointer k p
      rwa [leadKind_of_unmixed h] at this
    · rintro k p rfl
      have := canonicalPointeeName_pointer k p
      rwa [demote_of_unmixed h] at this
    · rintro base first rest rfl
      exact parseGenericTypeName_canonicalName base first rest
    · exact substituteGenericType_canonicalName σ t

def nodeName : Ident := ⟨"Node".toList, by decide⟩
def paramName : Ident := ⟨"T".toList, by decide⟩

/-- `T*` at `T = sub Node*`: the substitution is exact, its name is also that of a
subscriber to an owner, and that is how it is read. -/
theorem owner_of_subscriber_not_faithful :
    let owner := TypeTerm.pointer .unique (.name paramName)
    let subscriber := TypeTerm.pointer .sub (.name nodeName)
    let σ : TermSubst := fun n => if n = paramName then some subscriber else none
    ¬NameFaithful (subst σ owner)
      ∧ substituteGenericType "T*".toList (nameSubst σ) = "sub Node**".toList
      ∧ canonicalName (.pointer .sub (.pointer .unique (.name nodeName)))
        = "sub Node**".toList
      ∧ canonicalOwnership "sub Node**".toList = .Sub
      ∧ canonicalPointeeName "sub Node**".toList = "Node*".toList := by
  refine ⟨fun h => ?_, by decide, by decide, by decide, by decide⟩
  have := h.ownership .unique _ rfl
  revert this
  decide

end TypeTerm

end Absolute
