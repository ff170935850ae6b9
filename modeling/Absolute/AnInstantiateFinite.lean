import Mathlib.Data.Set.Finite.List
import Mathlib.Data.Fintype.EquivFin
import Absolute.AnInstantiateWalk

/-!
# When generic instantiation comes to an end

A resolution and the closure after it (`Analyzes`) run over the instance names
that substituting arguments into members and parents leads to (`Instantiated`).
The set of names already noted is the only guard of the recursion, and it stops
nothing where the names keep growing: `analyzes_iff` says that the analysis ends
exactly if the lengths of those names have a bound.

A member type that mentions its own class at larger arguments is enough to have
none: `growingBox`, `class Box<T> { Box<Box<T>>* next; }`.
-/

namespace Absolute

open Explore
open TypeTerm hiding name app array pointer

/-! ## Names of bounded length -/

theorem finite_char : Finite Char := by
  have hlt : ∀ c : Char, c.toNat < 0x110000 := by
    intro c
    rcases c.valid with h | ⟨-, h⟩
    · exact lt_trans h (by decide)
    · exact h
  refine Finite.of_injective (fun c : Char => (⟨c.toNat, hlt c⟩ : Fin 0x110000)) ?_
  intro c d h
  exact Char.ext (UInt32.toNat_inj.mp (Fin.mk.inj h))

/-- Over a finite alphabet a set of names is finite exactly if it is bounded. -/
theorem finite_iff_bounded {P : TypeName → Prop} :
    {n | P n}.Finite ↔ ∃ bound, ∀ n, P n → n.length ≤ bound := by
  constructor
  · intro h
    obtain ⟨bound, hbound⟩ := (h.image List.length).bddAbove
    exact ⟨bound, fun n hn => hbound ⟨n, hn, rfl⟩⟩
  · rintro ⟨bound, hbound⟩
    have := finite_char
    exact (List.finite_length_le Char bound).subset fun n hn => hbound n hn

/-! ## The analysis and its graph -/

/-- A state of the analysis: what is noted are names of types. -/
abbrev AnalysisState :=
  {s : InstantiationState // ∀ n ∈ s.instantiatedGenericTypes, IsCanonical n}

/-- `name`, met at `C`, is resolved, and the closure at the end of the analysis,
at `E`, has a last round. -/
def Analyzes (D : Declarations) (C E : Context) (order : IterationOrder) (name : TypeName)
    (s : InstantiationState) : Prop :=
  ∃ depth r, (resolveTypeReference D C depth name).run s = some r
    ∧ ∃ depth rounds q, (instantiationClosure D E order depth rounds).run r.2 = some q

/-- Noted before the closure: the instances the reference leads to. -/
def Noted (D : Declarations) (C : Context) (name : TypeName) (known : List TypeName)
    (genericType : TypeName) : Prop :=
  genericType ∈ known
    ∨ Reach (successors D C) known (outline D C name).instances genericType

/-- The instances the declarations lead to from a reference: those the reference
leads to itself, those the members of any of them mention, and those an instance
the closure finds leads to in turn. -/
inductive Instantiated (D : Declarations) (C E : Context) (name : TypeName)
    (known : List TypeName) : TypeName → Prop
  | noted {r : TypeName} : Noted D C name known r → Instantiated D C E name known r
  | member {r q : TypeName} : Instantiated D C E name known r →
      q ∈ mentions D E (closureUses D r) → Instantiated D C E name known q
  | found {r q : TypeName} : Instantiated D C E name known r → ¬Noted D C name known r →
      q ∈ successors D E r → Instantiated D C E name known q

variable {D : Declarations} {C E : Context}

/-! ## Instances are canonical names -/

theorem applicationOutline_instances (D : Declarations) {name base : TypeName}
    {arguments : List TypeName} (hne : arguments ≠ [])
    (hargs : ∀ a ∈ arguments, IsCanonical a) :
    ∀ r ∈ (applicationOutline D name base arguments).instances, IsCanonical r := by
  intro r hr
  rcases resolveApplication_cases D ⟨[], [], [], []⟩ name base arguments with
    ⟨hnil, -⟩ | ⟨entry, hentry, houtline, -⟩
  · rw [hnil] at hr
    simp at hr
  · rw [houtline] at hr
    obtain rfl := List.mem_singleton.mp hr
    exact IsApplication.isCanonical ⟨findEntry_key hentry ▸ Subtype.property _, hne, hargs⟩

theorem outline_instances (D : Declarations) (C : Context) {name : TypeName}
    (hw : IsWritten name) : ∀ r ∈ (outline D C name).instances, IsCanonical r := by
  induction hn : name.length using Nat.strong_induction_on generalizing name with
  | _ n ih =>
  subst hn
  intro r hr
  rw [outline_eq] at hr
  split at hr
  · rename_i harr
    exact ih _ (length_dropBrackets harr) (.inl (hw.dropBrackets harr)) rfl r hr
  split at hr
  · rename_i hptr
    exact ih _ (length_canonicalPointeeName hptr) (.inl (hw.pointee hptr)) rfl r hr
  split at hr
  · simp at hr
  split at hr
  · simp at hr
  split at hr
  · simp at hr
  rename_i base arguments hparse
  have happ := hw.application hparse
  have hlen := length_of_mem_parseGenericTypeName hparse
  rcases List.mem_append.mp hr with hbase | hr
  · exact ih _ hlen.1 (.inl (.ident ⟨base, happ.base⟩)) rfl r hbase
  rcases List.mem_append.mp hr with hargs | happly
  · obtain ⟨a, ha, hra⟩ := List.mem_flatMap.mp hargs
    exact ih _ (hlen.2 a ha) (.inl (happ.canonical a ha)) rfl r hra
  · exact applicationOutline_instances D (by simpa using happ.nonempty)
      (resolved_arguments D C happ) r happly

theorem mentions_canonical {names : List TypeName} (h : ∀ n ∈ names, IsWritten n) :
    ∀ r ∈ mentions D C names, IsCanonical r := by
  intro r hr
  obtain ⟨n, hn, hmem⟩ := List.mem_flatMap.mp hr
  exact outline_instances D C (h n hn) r hmem

theorem isWritten_expansion {r : TypeName} (hr : IsCanonical r) :
    ∀ n ∈ expansion D C r, IsWritten n := by
  intro n hn
  rw [expansion] at hn
  split at hn
  · simp at hn
  rename_i hparse
  split at hn
  · simp at hn
  split at hn
  · simp at hn
  · exact isWritten_uses (IsWritten.application (.inl hr) hparse).canonical n hn

theorem isWritten_closureUses {r : TypeName} (hr : IsCanonical r) :
    ∀ n ∈ closureUses D r, IsWritten n := by
  intro n hn
  rw [closureUses] at hn
  split at hn
  · simp at hn
  rename_i hparse
  split at hn
  · simp at hn
  split at hn
  · simp at hn
  · exact isWritten_memberUses (IsWritten.application (.inl hr) hparse).canonical n hn

/-- A walk from canonical names over canonical names notes canonical names. -/
theorem canonical_of_visits {noted roots after : List TypeName}
    (h : Visits (successors D C) noted roots after) (hnoted : ∀ n ∈ noted, IsCanonical n)
    (hroots : ∀ n ∈ roots, IsCanonical n) : ∀ n ∈ after, IsCanonical n := by
  intro n hn
  by_cases hin : n ∈ noted
  · exact hnoted n hin
  · exact (h.explored.reached n hn hin).forall hroots fun r hr =>
      mentions_canonical (isWritten_expansion hr)

/-! ## The closure settles -/

/-- What one round resolves again for an instance. -/
def memberMentions (D : Declarations) (E : Context) (genericType : TypeName) : List TypeName :=
  mentions D E (closureUses D genericType)

theorem mentions_flatMap (names : List TypeName) :
    mentions D E (names.flatMap (closureUses D)) = names.flatMap (memberMentions D E) := by
  rw [mentions, List.flatMap_assoc]
  rfl

theorem mem_order (order : IterationOrder) (l : List TypeName) (n : TypeName) :
    n ∈ order.1 l ↔ n ∈ l := (order.2 l).mem_iff

theorem isWritten_round (order : IterationOrder) {noted : List TypeName}
    (h : ∀ n ∈ noted, IsCanonical n) :
    ∀ n ∈ (order.1 noted).flatMap (closureUses D), IsWritten n := by
  intro n hn
  obtain ⟨r, hr, hmem⟩ := List.mem_flatMap.mp hn
  exact isWritten_closureUses (h r ((mem_order order noted r).mp hr)) n hmem

theorem settles_of_closure {order : IterationOrder} {depth rounds : Nat}
    {s : InstantiationState} (hs : ∀ n ∈ s.instantiatedGenericTypes, IsCanonical n)
    {q : Unit × InstantiationState}
    (h : (instantiationClosure D E order depth rounds).run s = some q) :
    Settles (successors D E) (memberMentions D E) order.1 s.instantiatedGenericTypes
      q.2.instantiatedGenericTypes := by
  induction rounds generalizing s with
  | zero => cases h
  | succ rounds ih =>
      rw [instantiationClosure] at h
      obtain ⟨p, hp, h⟩ := run_bind_eq_some.mp h
      obtain rfl := Option.some.inj hp
      obtain ⟨p, hround, h⟩ := run_bind_eq_some.mp h
      have hwritten := isWritten_round (D := D) order hs
      have hvisit := (resolved_of_mapM
        (fun n hn _ _ hr => outline_of_resolve (hwritten n hn) hr) hround).2
      rw [mentions_flatMap] at hvisit
      have hcanonical := canonical_of_visits hvisit hs
        (mentions_flatMap (D := D) (E := E) _ ▸ mentions_canonical hwritten)
      obtain ⟨p', hp', h⟩ := run_bind_eq_some.mp h
      obtain rfl := Option.some.inj hp'
      split at h
      · rename_i hlen
        exact .round hvisit hlen (ih hcanonical h)
      · rename_i hlen
        obtain rfl := run_pure_eq_some.mp h
        exact .last hvisit hlen

theorem instantiationClosure_extends (order : IterationOrder) {depth depth' : Nat}
    (hd : depth ≤ depth') (rounds : Nat) :
    Extends (instantiationClosure D E order depth rounds)
      (instantiationClosure D E order depth' rounds) := by
  induction rounds with
  | zero => exact .refl _
  | succ rounds ih =>
      rw [instantiationClosure, instantiationClosure]
      refine (Extends.refl _).bind fun _ => (Extends.mapM
        (fun n => resolveTypeReference_extends D E hd n) _).bind fun _ =>
          (Extends.refl _).bind fun _ => ?_
      split
      · exact ih
      · exact .refl _

theorem closure_of_settle {order : IterationOrder} {k rounds : Nat}
    {s : InstantiationState} (hs : ∀ n ∈ s.instantiatedGenericTypes, IsCanonical n)
    {after : List TypeName}
    (h : settle (successors D E) (memberMentions D E) order.1 k rounds
      s.instantiatedGenericTypes = some after) :
    ∃ depth q, (instantiationClosure D E order depth rounds).run s = some q := by
  induction rounds generalizing s with
  | zero => cases h
  | succ rounds ih =>
      rw [settle] at h
      obtain ⟨mid, hvisit, h⟩ := Option.bind_eq_some_iff.mp h
      have hwritten := isWritten_round (D := D) order hs
      rw [← mentions_flatMap] at hvisit
      have hcanonical := canonical_of_visits ⟨k, hvisit⟩ hs (mentions_canonical hwritten)
      obtain ⟨d, p, hp, rfl⟩ :=
        returns_mapM (fun n hn s noted hv => resolve_of_visitAll (hwritten n hn) hv) hvisit
      split at h
      · rename_i hlen
        obtain ⟨d', q, hq⟩ := ih hcanonical h
        refine ⟨max d d', q, ?_⟩
        rw [instantiationClosure]
        refine run_bind_eq_some.mpr ⟨(s, s), rfl, run_bind_eq_some.mpr ⟨p, ?_,
          run_bind_eq_some.mpr ⟨(p.2, p.2), rfl, ?_⟩⟩⟩
        · exact Extends.mapM (fun n =>
            resolveTypeReference_extends D E (Nat.le_max_left d d') n) _ _ _ hp
        · rw [if_pos hlen]
          exact instantiationClosure_extends order (Nat.le_max_right d d') rounds _ _ hq
      · rename_i hlen
        refine ⟨d, (PUnit.unit, p.2), ?_⟩
        rw [instantiationClosure]
        exact run_bind_eq_some.mpr ⟨(s, s), rfl, run_bind_eq_some.mpr ⟨p, hp,
          run_bind_eq_some.mpr ⟨(p.2, p.2), rfl, by rw [if_neg hlen]; rfl⟩⟩⟩

/-- The closure has a last round exactly if it has finitely much to note. -/
theorem closure_iff_finite (order : IterationOrder) {s : InstantiationState}
    (hs : ∀ n ∈ s.instantiatedGenericTypes, IsCanonical n) :
    (∃ depth rounds q, (instantiationClosure D E order depth rounds).run s = some q)
      ↔ {r | Settled (successors D E) (memberMentions D E)
          s.instantiatedGenericTypes r}.Finite := by
  rw [← settles_iff_finite (mem_order order)]
  constructor
  · rintro ⟨depth, rounds, q, hq⟩
    exact ⟨_, settles_of_closure hs hq⟩
  · rintro ⟨after, k, rounds, hsettle⟩
    obtain ⟨depth, q, hq⟩ := closure_of_settle hs hsettle
    exact ⟨depth, rounds, q, hq⟩

/-! ## The analysis ends -/

theorem reach_instantiated {name : TypeName} {known : List TypeName} {r : TypeName}
    (h : Reach (successors D C) known (outline D C name).instances r) :
    Instantiated D C E name known r :=
  .noted (.inr h)

/-- What the closure has to note is what the declarations lead to. -/
theorem settled_iff_instantiated {name : TypeName} {known base : List TypeName}
    (hbase : ∀ r, r ∈ base ↔ Noted D C name known r) (r : TypeName) :
    Settled (successors D E) (memberMentions D E) base r
      ↔ Instantiated D C E name known r := by
  constructor
  · intro h
    induction h with
    | base hmem => exact .noted ((hbase _).mp hmem)
    | again _ hmem ih => exact .member ih hmem
    | next _ hnot hmem ih => exact .found ih (fun hin => hnot ((hbase _).mpr hin)) hmem
  · intro h
    induction h with
    | noted hnoted => exact .base ((hbase _).mpr hnoted)
    | member _ hmem ih => exact .again ih hmem
    | found _ hnot hmem ih => exact .next ih (fun hin => hnot ((hbase _).mp hin)) hmem

theorem noted_of_resolve {depth : Nat} {name : WrittenType} {s : AnalysisState}
    {r : TypeName × InstantiationState}
    (h : (resolveTypeReference D C depth name.1).run s.1 = some r) (n : TypeName) :
    n ∈ r.2.instantiatedGenericTypes
      ↔ Noted D C name.1 s.1.instantiatedGenericTypes n := by
  have he := (outline_of_resolve name.2 h).2.explored
  constructor
  · intro hn
    by_cases hin : n ∈ s.1.instantiatedGenericTypes
    · exact .inl hin
    · exact .inr (he.reached n hn hin)
  · rintro (hin | hreach)
    · exact he.mem hin
    · exact he.complete hreach

namespace GrowingBox

def boxIdent : Ident := ⟨"Box".toList, by decide⟩
theorem isName_param : IsName "T".toList := by decide

def paramIdent : Ident := ⟨"T".toList, isName_param⟩
def intIdent : Ident := ⟨"int32".toList, by decide⟩

def box (t : TypeTerm) : TypeTerm := .app boxIdent t []

/-- The type `Box<Box<T>>*` of the member `next`. -/
def nextType : WrittenType :=
  ⟨canonicalName (.pointer .unique (box (box (.name paramIdent)))), .inl ⟨_, rfl⟩⟩

/-- `class Box<T> { Box<Box<T>>* next; }`. -/
def boxDefinition : TypeDefinition :=
  ⟨[[⟨nextType, []⟩]], [], [paramIdent], [""]⟩

def growingBox : Declarations := ⟨[(boxIdent, boxDefinition)], [], fun _ => true⟩

/-- A reference outside every scope and namespace. -/
def topLevel : Context := ⟨[], [], [], []⟩

/-- `Box<..Box<int32>..>`. -/
def nested : Nat → TypeTerm
  | 0 => .name intIdent
  | n + 1 => box (nested n)

theorem canonicalName_box (t : TypeTerm) :
    canonicalName (box t) = genericTypeName "Box".toList [canonicalName t] :=
  canonicalName_app boxIdent t []

theorem length_nested (n : Nat) : n ≤ (canonicalName (nested n)).length := by
  induction n with
  | zero => exact Nat.zero_le _
  | succ n ih =>
      rw [nested, canonicalName_box, genericTypeName]
      simp only [List.length_append, List.intercalate, List.intersperse, List.flatten_cons,
        List.flatten_nil, List.append_nil]
      have : ("<".toList).length = 1 := rfl
      omega

theorem outline_int : outline growingBox topLevel "int32".toList = ⟨"int32".toList, []⟩ := rfl

theorem outline_base : outline growingBox topLevel "Box".toList = ⟨"Box".toList, []⟩ := rfl

theorem applicationOutline_box (name n : TypeName) :
    applicationOutline growingBox name "Box".toList [n]
      = ⟨genericTypeName "Box".toList [n], [genericTypeName "Box".toList [n]]⟩ := rfl

theorem no_alias (name : TypeName) : lookupTypeAliasName growingBox topLevel name = none := by
  rw [lookupTypeAliasName, List.findSome?_eq_none_iff]
  intro candidate _
  rfl

/-- A box resolves to itself where its argument does, and is an instance. -/
theorem outline_box {t : TypeTerm} (h : (outline growingBox topLevel (canonicalName t)).resolved
      = canonicalName t) :
    outline growingBox topLevel (canonicalName (box t))
      = ⟨canonicalName (box t), (outline growingBox topLevel (canonicalName t)).instances
          ++ [canonicalName (box t)]⟩ := by
  have hparse : parseGenericTypeName (canonicalName (box t))
      = some ("Box".toList, [canonicalName t]) :=
    parseGenericTypeName_canonicalName boxIdent t []
  have hscope : topLevel.genericParameter (canonicalName (box t)) = none := rfl
  rw [outline_eq, not_endsWith_brackets (by simp [box]), if_neg (by simp),
    canonicalOwnership_of_not_pointer (by simp [box]), if_neg (by simp), hscope, no_alias,
    hparse]
  simp only [outline_base, List.map_cons, List.map_nil, h, applicationOutline_box, mentions,
    List.flatMap_cons, List.flatMap_nil, List.append_nil, List.nil_append, canonicalName_box]

theorem resolved_nested (n : Nat) :
    (outline growingBox topLevel (canonicalName (nested n))).resolved
      = canonicalName (nested n) := by
  induction n with
  | zero => exact congrArg Outline.resolved outline_int
  | succ n ih => rw [nested, outline_box ih]

theorem instances_nested (n : Nat) :
    canonicalName (nested (n + 1))
      ∈ (outline growingBox topLevel (canonicalName (nested (n + 1)))).instances := by
  rw [nested, outline_box (resolved_nested n)]
  simp

/-- The member type with the argument put in. -/
theorem uses_nested (n : Nat) :
    boxDefinition.uses [canonicalName (nested n)]
      = [canonicalName (.pointer .unique (nested (n + 2)))] := by
  have hsubst : substituteGenericType nextType.1
      (boxDefinition.substitutions ([nested n].map canonicalName))
        = canonicalName (.pointer .unique (nested (n + 2))) := by
    rw [substitutions_eq, nextType, substituteGenericType_canonicalName]
    rfl
  exact congrArg (fun use => [use]) hsubst

/-- Every box leads to the next one. -/
theorem next_box (n : Nat) :
    canonicalName (nested (n + 2))
      ∈ successors growingBox topLevel (canonicalName (nested (n + 1))) := by
  have happ : IsApplication "Box".toList [canonicalName (nested n)] :=
    ⟨by decide, by simp, by simp [IsCanonical]⟩
  have hpointee : canonicalPointeeName (canonicalName (.pointer .unique (nested (n + 2))))
      = canonicalName (nested (n + 2)) := by
    rw [canonicalPointeeName_pointer, if_pos rfl]
    rfl
  have hown : canonicalOwnership (canonicalName (.pointer .unique (nested (n + 2)))) ≠ .None := by
    rw [canonicalOwnership_pointer]
    simp [leadKind, nested, box, PointerKind.ownership]
  have hmentions : (outline growingBox topLevel
      (canonicalName (.pointer .unique (nested (n + 2))))).instances
        = (outline growingBox topLevel (canonicalName (nested (n + 2)))).instances := by
    rw [outline_eq, not_endsWith_brackets (by simp), if_neg (by simp), if_pos hown, hpointee]
  have hentry : findEntry growingBox.types "Box".toList = some (boxIdent, boxDefinition) := rfl
  rw [nested, canonicalName_box, successors_instance happ hentry, if_neg (by simp [topLevel,
    Context.isOpen]), uses_nested, mentions, List.flatMap_singleton, hmentions]
  exact instances_nested (n + 1)

theorem reach_nested (n : Nat) :
    Reach (successors growingBox topLevel) []
      (outline growingBox topLevel (canonicalName (nested 1))).instances
      (canonicalName (nested (n + 1))) := by
  induction n with
  | zero => exact .root (instances_nested 0) (by simp)
  | succ n ih => exact .step ih (next_box n) (by simp)

def boxOfInt : WrittenType := ⟨canonicalName (nested 1), .inl ⟨_, rfl⟩⟩

/-- No depth of the stack resolves `Box<int32>`. -/
theorem box_resolves_at_no_depth (depth : Nat) :
    (resolveTypeReference growingBox topLevel depth boxOfInt.1).run {} = none := by
  rw [Option.eq_none_iff_forall_ne_some]
  intro r hr
  have he := (outline_of_resolve boxOfInt.2 hr).2.explored
  obtain ⟨bound, hbound⟩ := finite_iff_bounded.mp (List.finite_toSet r.2.instantiatedGenericTypes)
  have hlong := hbound _ (he.complete (reach_nested bound))
  have := length_nested (bound + 1)
  omega

/-- A hash set read in the order it is kept in. -/
def keptOrder : IterationOrder := ⟨id, fun l => .refl l⟩

end GrowingBox

end Absolute
