import Absolute.AnInstantiateNames
import Absolute.LibExplore

/-!
# Resolving a reference is a guarded walk

The graph `ResolveTypeReference` walks: its nodes are instance names, and an
instance leads to those its parents and members mention (`successors`).

- `outline_of_resolve`: a resolution that returns gives the outlined name and
  has noted what a walk from the outlined instances notes;
- `resolve_of_visitAll`: where that walk returns, so does the resolution.

The tables are those of one point of the analysis; `Canonical` states of it are
those that hold instance names only.
-/

namespace Absolute

open Explore

/-- What an instance has resolved when it is new: nothing where it is open, else
its parents and members. -/
def expansion (D : Declarations) (C : Context) (genericType : TypeName) : List TypeName :=
  match parseGenericTypeName genericType with
  | none => []
  | some (base, arguments) =>
      match findEntry D.types base with
      | none => []
      | some (_, definition) =>
          if C.isOpen arguments then []
          else definition.uses arguments

def successors (D : Declarations) (C : Context) (genericType : TypeName) : List TypeName :=
  mentions D C (expansion D C genericType)

/-! ## Running the analysis -/

section Running

variable {β γ : Type}

theorem run_bind_eq_some {x : Analysis β} {f : β → Analysis γ} {s : InstantiationState}
    {r : γ × InstantiationState} :
    (x >>= f).run s = some r ↔ ∃ p, x.run s = some p ∧ (f p.1).run p.2 = some r := by
  rw [StateT.run_bind]
  exact Option.bind_eq_some_iff

theorem run_pure_eq_some {b : β} {s : InstantiationState} {r : β × InstantiationState} :
    (pure b : Analysis β).run s = some r ↔ r = (b, s) := by
  rw [StateT.run_pure]
  exact ⟨fun h => (Option.some.inj h).symm, fun h => congrArg some h.symm⟩

/-- `y` returns wherever `x` does, with the same result. -/
def Extends (x y : Analysis β) : Prop := ∀ s r, x.run s = some r → y.run s = some r

theorem Extends.refl (x : Analysis β) : Extends x x := fun _ _ h => h

theorem Extends.bind {x y : Analysis β} {f g : β → Analysis γ} (h : Extends x y)
    (hf : ∀ b, Extends (f b) (g b)) : Extends (x >>= f) (y >>= g) := by
  intro s r hr
  obtain ⟨p, hx, hp⟩ := run_bind_eq_some.mp hr
  exact run_bind_eq_some.mpr ⟨p, h _ _ hx, hf _ _ _ hp⟩

theorem Extends.mapM {f g : TypeName → Analysis β} (h : ∀ n, Extends (f n) (g n))
    (names : List TypeName) : Extends (names.mapM f) (names.mapM g) := by
  induction names with
  | nil => exact .refl _
  | cons n rest ih =>
      rw [List.mapM_cons, List.mapM_cons]
      exact (h n).bind fun _ => ih.bind fun _ => .refl _

end Running

/-! ## A deeper stack changes no result -/

theorem resolveInstance_extends (D : Declarations) (C : Context)
    {f g : TypeName → Analysis TypeName} (h : ∀ n, Extends (f n) (g n))
    (definition : TypeDefinition) (base : TypeName) (arguments : List TypeName) :
    Extends (resolveInstance D C f definition base arguments)
      (resolveInstance D C g definition base arguments) := by
  refine (Extends.refl _).bind fun s => ?_
  split
  · exact .refl _
  · split
    · exact .refl _
    · exact (Extends.refl _).bind fun _ => (Extends.mapM h _).bind fun _ => .refl _

theorem resolveApplication_extends (D : Declarations) (C : Context)
    {f g : TypeName → Analysis TypeName} (h : ∀ n, Extends (f n) (g n))
    (name base : TypeName) (arguments : List TypeName) :
    Extends (resolveApplication D C f name base arguments)
      (resolveApplication D C g name base arguments) := by
  unfold resolveApplication
  split
  · exact .refl _
  · split
    · exact .refl _
    · split
      · exact .refl _
      · split
        · exact .refl _
        · exact resolveInstance_extends D C h _ _ _

theorem resolveTypeReference_extends (D : Declarations) (C : Context) {depth depth' : Nat}
    (hd : depth ≤ depth') (name : TypeName) :
    Extends (resolveTypeReference D C depth name) (resolveTypeReference D C depth' name) := by
  induction depth generalizing depth' name with
  | zero =>
      intro s r h
      cases h
  | succ depth ihd =>
      obtain ⟨depth', rfl⟩ : ∃ d, depth' = d + 1 := ⟨depth' - 1, by omega⟩
      have ih := fun n => ihd (by omega : depth ≤ depth') n
      unfold resolveTypeReference
      split
      · exact (ih _).bind fun _ => .refl _
      · split
        · exact (ih _).bind fun _ => .refl _
        · split
          · exact .refl _
          · split
            · exact .refl _
            · split
              · exact .refl _
              · exact (ih _).bind fun _ => (Extends.mapM ih _).bind fun _ =>
                  resolveApplication_extends D C ih _ _ _

/-! ## A resolution that returns -/

section Walk

variable (D : Declarations) (C : Context)

/-- The result of resolving `name` from `s`: the outlined name, and a walk from
the outlined instances. -/
def Resolved (name : TypeName) (s : InstantiationState)
    (r : TypeName × InstantiationState) : Prop :=
  r.1 = (outline D C name).resolved
    ∧ Visits (successors D C) s.instantiatedGenericTypes (outline D C name).instances
      r.2.instantiatedGenericTypes

variable {D C}

theorem resolved_of_mapM {f : TypeName → Analysis TypeName} {names : List TypeName}
    (hf : ∀ n ∈ names, ∀ s r, (f n).run s = some r → Resolved D C n s r)
    {s : InstantiationState} {r : List TypeName × InstantiationState}
    (h : (names.mapM f).run s = some r) :
    r.1 = (names.map fun n => (outline D C n).resolved)
      ∧ Visits (successors D C) s.instantiatedGenericTypes (mentions D C names)
        r.2.instantiatedGenericTypes := by
  induction names generalizing s r with
  | nil =>
      obtain rfl := run_pure_eq_some.mp h
      exact ⟨rfl, .nil⟩
  | cons n rest ih =>
      rw [List.mapM_cons] at h
      obtain ⟨p, hp, h⟩ := run_bind_eq_some.mp h
      obtain ⟨q, hq, h⟩ := run_bind_eq_some.mp h
      obtain rfl := run_pure_eq_some.mp h
      obtain ⟨hv, hvisit⟩ := hf n List.mem_cons_self _ _ hp
      obtain ⟨hvs, hvisits⟩ := ih (fun m hm => hf m (List.mem_cons_of_mem _ hm)) hq
      exact ⟨by rw [hv, hvs, List.map_cons], hvisit.append hvisits⟩

@[simp] theorem instantiated_report (s : InstantiationState) (message code : String) :
    (s.report message code).instantiatedGenericTypes = s.instantiatedGenericTypes := rfl

@[simp] theorem instantiated_refuse (s : InstantiationState) (name : TypeName) :
    (s.refuse name).instantiatedGenericTypes = s.instantiatedGenericTypes := rfl

@[simp] theorem instantiated_instantiate (s : InstantiationState) (name : TypeName) :
    (s.instantiate name).instantiatedGenericTypes = name :: s.instantiatedGenericTypes := rfl

/-- The constraints are reported on; nothing is noted for them. -/
@[simp] theorem instantiated_checkConstraints (D : Declarations) (definition : TypeDefinition)
    (base result : TypeName) (arguments : List TypeName) (s : InstantiationState) :
    (checkConstraints D definition base result arguments s).instantiatedGenericTypes
      = s.instantiatedGenericTypes := by
  rw [checkConstraints]
  generalize definition.genericParameters.zip (arguments.zip definition.genericConstraints)
    = asked
  induction asked generalizing s with
  | nil => rfl
  | cons ask rest ih =>
      rw [List.foldl_cons, ih]
      dsimp only
      split_ifs <;> rfl

/-- An application is a name at once, or an instance. -/
theorem resolveApplication_cases (D : Declarations) (C : Context) (name base : TypeName)
    (arguments : List TypeName) :
    ((applicationOutline D name base arguments).instances = []
        ∧ ∃ report : InstantiationState → InstantiationState,
          (∀ s, (report s).instantiatedGenericTypes = s.instantiatedGenericTypes)
            ∧ ∀ f s, (resolveApplication D C f name base arguments).run s
              = some ((applicationOutline D name base arguments).resolved, report s))
      ∨ ∃ entry, findEntry D.types base = some entry
        ∧ applicationOutline D name base arguments
          = ⟨genericTypeName base arguments, [genericTypeName base arguments]⟩
        ∧ ∀ f, resolveApplication D C f name base arguments
          = resolveInstance D C f entry.2 base arguments := by
  unfold resolveApplication applicationOutline
  by_cases htuple : base = "tuple".toList
  · simp only [if_pos htuple]
    exact .inl ⟨trivial, id, fun _ => rfl, fun _ _ => rfl⟩
  simp only [if_neg htuple]
  cases hentry : findEntry D.types base with
  | none => exact .inl ⟨rfl, id, fun _ => rfl, fun _ _ => rfl⟩
  | some entry =>
      dsimp only
      by_cases hgeneric : entry.2.genericParameters = []
      · simp only [if_pos hgeneric]
        exact .inl ⟨trivial, id, fun _ => rfl, fun _ _ => rfl⟩
      simp only [if_neg hgeneric]
      by_cases harity : entry.2.genericParameters.length ≠ arguments.length
      · simp only [if_pos harity]
        exact .inl ⟨trivial, fun s => s.report _ _, fun _ => rfl, fun _ _ => rfl⟩
      · simp only [if_neg harity]
        exact .inr ⟨entry, rfl, trivial, fun _ => rfl⟩

/-- What an instance leads to, read off its name. -/
theorem successors_instance {base : TypeName} {arguments : List TypeName}
    (h : IsApplication base arguments) {entry : Ident × TypeDefinition}
    (hentry : findEntry D.types base = some entry) :
    successors D C (genericTypeName base arguments)
      = if C.isOpen arguments then [] else mentions D C (entry.2.uses arguments) := by
  rw [successors, expansion, h.parse]
  simp only [hentry]
  split <;> rfl

theorem visits_of_instance {f : TypeName → Analysis TypeName}
    (hf : ∀ n, IsWritten n → ∀ s r, (f n).run s = some r → Resolved D C n s r)
    {base : TypeName} {arguments : List TypeName} (happ : IsApplication base arguments)
    {entry : Ident × TypeDefinition} (hentry : findEntry D.types base = some entry)
    {s : InstantiationState} {r : TypeName × InstantiationState}
    (h : (resolveInstance D C f entry.2 base arguments).run s = some r) :
    r.1 = genericTypeName base arguments
      ∧ Visits (successors D C) s.instantiatedGenericTypes [genericTypeName base arguments]
        r.2.instantiatedGenericTypes := by
  have hsucc := successors_instance (C := C) happ hentry
  obtain ⟨p, hp, h⟩ := run_bind_eq_some.mp h
  obtain rfl := Option.some.inj hp
  split at h
  · rename_i hseen
    obtain rfl := run_pure_eq_some.mp h
    exact ⟨rfl, .seen hseen⟩
  rename_i hseen
  split at h
  · rename_i hopen
    obtain ⟨p, hp, h⟩ := run_bind_eq_some.mp h
    obtain rfl := run_pure_eq_some.mp h
    obtain rfl := Option.some.inj hp
    rw [if_pos hopen] at hsucc
    exact ⟨rfl, .fresh hseen (hsucc ▸ .nil)⟩
  · rename_i hopen
    obtain ⟨p, hp, h⟩ := run_bind_eq_some.mp h
    obtain rfl := Option.some.inj hp
    obtain ⟨q, huses, h⟩ := run_bind_eq_some.mp h
    obtain rfl := run_pure_eq_some.mp h
    rw [if_neg hopen] at hsucc
    have hvisit := (resolved_of_mapM
      (fun n hn => hf n (isWritten_uses happ.canonical n hn)) huses).2
    rw [instantiated_checkConstraints, instantiated_instantiate] at hvisit
    exact ⟨rfl, .fresh hseen (hsucc ▸ hvisit)⟩

theorem resolved_of_application {f : TypeName → Analysis TypeName}
    (hf : ∀ n, IsWritten n → ∀ s r, (f n).run s = some r → Resolved D C n s r)
    {name base : TypeName} {arguments : List TypeName} (hne : arguments ≠ [])
    (hargs : ∀ a ∈ arguments, IsCanonical a) {s : InstantiationState}
    {r : TypeName × InstantiationState}
    (h : (resolveApplication D C f name base arguments).run s = some r) :
    r.1 = (applicationOutline D name base arguments).resolved
      ∧ Visits (successors D C) s.instantiatedGenericTypes
        (applicationOutline D name base arguments).instances
        r.2.instantiatedGenericTypes := by
  rcases resolveApplication_cases D C name base arguments with
    ⟨hnil, report, hreport, hrun⟩ | ⟨entry, hentry, houtline, happly⟩
  · rw [hrun] at h
    obtain rfl := Option.some.inj h
    rw [hnil, hreport]
    exact ⟨rfl, .nil⟩
  · rw [happly] at h
    rw [houtline]
    exact visits_of_instance hf ⟨findEntry_key hentry ▸ Subtype.property _, hne, hargs⟩
      hentry h

/-- A resolution that returns, at any depth. -/
theorem outline_of_resolve {depth : Nat} {name : TypeName} (hw : IsWritten name)
    {s : InstantiationState} {r : TypeName × InstantiationState}
    (h : (resolveTypeReference D C depth name).run s = some r) : Resolved D C name s r := by
  induction depth generalizing name s r with
  | zero => cases h
  | succ depth ih =>
      rw [Resolved, outline_eq]
      unfold resolveTypeReference at h
      split at h
      · rename_i harr
        rw [if_pos harr]
        obtain ⟨p, hp, h⟩ := run_bind_eq_some.mp h
        obtain rfl := run_pure_eq_some.mp h
        obtain ⟨hv, hvisit⟩ := ih (.inl (hw.dropBrackets harr)) hp
        exact ⟨by rw [hv], hvisit⟩
      rename_i harr
      rw [if_neg harr]
      split at h
      · rename_i hptr
        rw [if_pos hptr]
        obtain ⟨p, hp, h⟩ := run_bind_eq_some.mp h
        obtain rfl := run_pure_eq_some.mp h
        obtain ⟨hv, hvisit⟩ := ih (.inl (hw.pointee hptr)) hp
        exact ⟨by rw [hv], hvisit⟩
      rename_i hptr
      rw [if_neg hptr]
      rcases hfound : C.genericParameter name with _ | found
      swap
      · simp only [hfound] at h ⊢
        obtain rfl := run_pure_eq_some.mp h
        exact ⟨rfl, .nil⟩
      simp only [hfound] at h ⊢
      rcases halias : lookupTypeAliasName D C name with _ | aliasName
      swap
      · simp only [halias] at h ⊢
        obtain rfl := run_pure_eq_some.mp h
        exact ⟨rfl, .nil⟩
      simp only [halias] at h ⊢
      rcases hparse : parseGenericTypeName name with _ | ⟨base, arguments⟩
      · simp only [hparse] at h ⊢
        obtain rfl := run_pure_eq_some.mp h
        exact ⟨rfl, .nil⟩
      simp only [hparse] at h ⊢
      have happ := hw.application hparse
      obtain ⟨p, hp, h⟩ := run_bind_eq_some.mp h
      obtain ⟨q, hq, h⟩ := run_bind_eq_some.mp h
      obtain ⟨hbase, hvisit⟩ := ih (.inl (.ident ⟨base, happ.base⟩)) hp
      obtain ⟨hargs, hvisits⟩ :=
        resolved_of_mapM (fun a ha _ _ hr => ih (.inl (happ.canonical a ha)) hr) hq
      rw [hbase, hargs] at h
      obtain ⟨hv, happly⟩ := resolved_of_application (fun n hn _ _ hr => ih hn hr)
        (by simpa using happ.nonempty) (resolved_arguments D C happ) h
      exact ⟨hv, hvisit.append (hvisits.append happly)⟩

/-! ## A resolution that can return -/

/-- Some depth is enough for `x`, the depth its argument. -/
def Returns {β : Type} (x : Nat → Analysis β) (s : InstantiationState) (noted : List TypeName) :
    Prop :=
  ∃ depth r, (x depth).run s = some r ∧ r.2.instantiatedGenericTypes = noted

theorem returns_mapM {names : List TypeName} {k : Nat}
    (hnames : ∀ n ∈ names, ∀ s noted,
      visitAll (successors D C) k s.instantiatedGenericTypes (outline D C n).instances
        = some noted → Returns (fun depth => resolveTypeReference D C depth n) s noted)
    {s : InstantiationState} {noted : List TypeName}
    (h : visitAll (successors D C) k s.instantiatedGenericTypes (mentions D C names)
      = some noted) :
    Returns (fun depth => names.mapM (resolveTypeReference D C depth)) s noted := by
  induction names generalizing s with
  | nil => exact ⟨0, ([], s), rfl, Option.some.inj h⟩
  | cons n rest ih =>
      rw [mentions, List.flatMap_cons] at h
      obtain ⟨mid, hfirst, hrest⟩ := visitAll_append.mp h
      obtain ⟨d, p, hp, rfl⟩ := hnames n List.mem_cons_self s mid hfirst
      obtain ⟨d', q, hq, rfl⟩ := ih (fun m hm => hnames m (List.mem_cons_of_mem _ hm)) hrest
      refine ⟨max d d', (p.1 :: q.1, q.2), ?_, rfl⟩
      dsimp only
      rw [List.mapM_cons]
      refine run_bind_eq_some.mpr ⟨p, ?_, run_bind_eq_some.mpr ⟨q, ?_, rfl⟩⟩
      · exact resolveTypeReference_extends D C (Nat.le_max_left _ _) n _ _ hp
      · exact Extends.mapM
          (fun m => resolveTypeReference_extends D C (Nat.le_max_right _ _) m) rest _ _ hq

/-- A walk of depth `k` through an instance is one of depth below `k` through
what it leads to. -/
theorem returns_instance {k : Nat}
    (hdeeper : ∀ j < k, ∀ n, IsWritten n → ∀ s noted,
      visitAll (successors D C) j s.instantiatedGenericTypes (outline D C n).instances
        = some noted → Returns (fun depth => resolveTypeReference D C depth n) s noted)
    {base : TypeName} {arguments : List TypeName} (happ : IsApplication base arguments)
    {entry : Ident × TypeDefinition} (hentry : findEntry D.types base = some entry)
    {s : InstantiationState} {noted : List TypeName}
    (h : visit (successors D C) k s.instantiatedGenericTypes (genericTypeName base arguments)
      = some noted) :
    Returns (fun depth => resolveInstance D C (resolveTypeReference D C depth) entry.2 base
      arguments) s noted := by
  have hsucc := successors_instance (C := C) happ hentry
  cases k with
  | zero => cases h
  | succ k =>
      rw [visit] at h
      split at h
      · rename_i hseen
        refine ⟨0, (genericTypeName base arguments, s), ?_, Option.some.inj h⟩
        exact run_bind_eq_some.mpr ⟨(s, s), rfl, by rw [if_pos hseen]; rfl⟩
      rename_i hseen
      by_cases hopen : C.isOpen arguments
      · rw [hsucc, if_pos hopen] at h
        refine ⟨0, (genericTypeName base arguments, s.instantiate _), ?_, Option.some.inj h⟩
        exact run_bind_eq_some.mpr ⟨(s, s), rfl, by rw [if_neg hseen, if_pos hopen]; rfl⟩
      · rw [hsucc, if_neg hopen] at h
        obtain ⟨depth, q, hq, hnoted⟩ := returns_mapM (s := checkConstraints D entry.2 base
            (genericTypeName base arguments) arguments (s.instantiate _))
          (fun n hn s noted hv => hdeeper k (Nat.lt_succ_self k) n
            (isWritten_uses happ.canonical n hn) s noted hv)
          (by rw [instantiated_checkConstraints]; exact h)
        refine ⟨depth, (genericTypeName base arguments, q.2), ?_, hnoted⟩
        refine run_bind_eq_some.mpr ⟨(s, s), rfl, ?_⟩
        rw [if_neg hseen, if_neg hopen]
        exact run_bind_eq_some.mpr ⟨(PUnit.unit, _), rfl,
          run_bind_eq_some.mpr ⟨q, hq, rfl⟩⟩

theorem returns_application {k : Nat}
    (hdeeper : ∀ j < k, ∀ n, IsWritten n → ∀ s noted,
      visitAll (successors D C) j s.instantiatedGenericTypes (outline D C n).instances
        = some noted → Returns (fun depth => resolveTypeReference D C depth n) s noted)
    {name base : TypeName} {arguments : List TypeName} (hne : arguments ≠ [])
    (hargs : ∀ a ∈ arguments, IsCanonical a) {s : InstantiationState} {noted : List TypeName}
    (h : visitAll (successors D C) k s.instantiatedGenericTypes
      (applicationOutline D name base arguments).instances = some noted) :
    Returns (fun depth => resolveApplication D C (resolveTypeReference D C depth) name base
      arguments) s noted := by
  rcases resolveApplication_cases D C name base arguments with
    ⟨hnil, report, hreport, hrun⟩ | ⟨entry, hentry, houtline, happly⟩
  · rw [hnil] at h
    exact ⟨0, _, hrun _ s, (hreport s).trans (Option.some.inj h)⟩
  · rw [houtline, visitAll_singleton] at h
    simp only [happly]
    exact returns_instance hdeeper
      ⟨findEntry_key hentry ▸ Subtype.property _, hne, hargs⟩ hentry h

/-- Where the walk returns, the resolution does. -/
theorem resolve_of_visitAll {k : Nat} {name : TypeName} (hw : IsWritten name)
    {s : InstantiationState} {noted : List TypeName}
    (h : visitAll (successors D C) k s.instantiatedGenericTypes (outline D C name).instances
      = some noted) :
    Returns (fun depth => resolveTypeReference D C depth name) s noted := by
  -- on the depth of the walk, then on the length of the name
  induction k using Nat.strong_induction_on generalizing name s noted with
  | _ k ihk =>
  induction hn : name.length using Nat.strong_induction_on generalizing name s noted with
  | _ n ihn =>
  subst hn
  have ih : ∀ {m : TypeName}, m.length < name.length → IsCanonical m → ∀ s noted,
      visitAll (successors D C) k s.instantiatedGenericTypes (outline D C m).instances
        = some noted → Returns (fun depth => resolveTypeReference D C depth m) s noted :=
    fun hlen hm s noted hv => ihn _ hlen (.inl hm) hv rfl
  rw [outline_eq] at h
  split at h
  · rename_i harr
    obtain ⟨d, p, hp, hnoted⟩ := ih (length_dropBrackets harr) (hw.dropBrackets harr) _ _ h
    refine ⟨d + 1, (p.1 ++ "[]".toList, p.2), ?_, hnoted⟩
    dsimp only
    rw [resolveTypeReference, if_pos harr]
    exact run_bind_eq_some.mpr ⟨p, hp, rfl⟩
  rename_i harr
  split at h
  · rename_i hptr
    obtain ⟨d, p, hp, hnoted⟩ := ih (length_canonicalPointeeName hptr) (hw.pointee hptr) _ _ h
    refine ⟨d + 1, (canonicalPointerName p.1 (canonicalOwnership name), p.2), ?_, hnoted⟩
    dsimp only
    rw [resolveTypeReference, if_neg harr, if_pos hptr]
    exact run_bind_eq_some.mpr ⟨p, hp, rfl⟩
  rename_i hptr
  split at h
  · rename_i found hfound
    refine ⟨1, (found.1, s), ?_, Option.some.inj h⟩
    dsimp only
    rw [resolveTypeReference, if_neg harr, if_neg hptr, hfound]
    rfl
  rename_i hfound
  split at h
  · rename_i aliasName halias
    refine ⟨1, (resolveTypeAlias D aliasName, s), ?_, Option.some.inj h⟩
    dsimp only
    rw [resolveTypeReference, if_neg harr, if_neg hptr, hfound, halias]
    rfl
  rename_i halias
  split at h
  · rename_i hparse
    refine ⟨1, (resolveTypeName D C name, s), ?_, Option.some.inj h⟩
    dsimp only
    rw [resolveTypeReference, if_neg harr, if_neg hptr, hfound, halias, hparse]
    rfl
  rename_i base arguments hparse
  have happ := hw.application hparse
  have hlen := length_of_mem_parseGenericTypeName hparse
  obtain ⟨mid, hbase, h⟩ := visitAll_append.mp h
  obtain ⟨mid', hargs, h⟩ := visitAll_append.mp h
  obtain ⟨d, p, hp, rfl⟩ := ih hlen.1 (.ident ⟨base, happ.base⟩) _ _ hbase
  obtain ⟨d', q, hq, rfl⟩ :=
    returns_mapM (fun a ha => ih (hlen.2 a ha) (happ.canonical a ha)) hargs
  have hpv := (outline_of_resolve (.inl (.ident ⟨base, happ.base⟩)) hp).1
  have hqv := (resolved_of_mapM
    (fun a ha _ _ hr => outline_of_resolve (.inl (happ.canonical a ha)) hr) hq).1
  obtain ⟨d'', r, hr, hnoted⟩ := returns_application
    (fun j hj n hn s noted hv => ihk j hj hn hv) (by simpa using happ.nonempty)
    (resolved_arguments D C happ) h
  -- each of the three calls returns at its own depth; the largest serves all
  refine ⟨max d (max d' d'') + 1, r, ?_, hnoted⟩
  dsimp only
  rw [resolveTypeReference, if_neg harr, if_neg hptr, hfound, halias, hparse]
  have hext := fun {e} (he : e ≤ max d (max d' d'')) n =>
    resolveTypeReference_extends D C he n
  refine run_bind_eq_some.mpr ⟨p, hext (by omega) _ _ _ hp, ?_⟩
  refine run_bind_eq_some.mpr ⟨q, Extends.mapM (hext (by omega)) _ _ _ hq, ?_⟩
  rw [hpv, hqv]
  exact resolveApplication_extends D C (hext (by omega)) _ _ _ _ _ hr

end Walk

end Absolute
