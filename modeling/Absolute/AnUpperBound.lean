import Absolute.AnCommonType

/-!
# The common type is the least upper bound

What two pointers of one kind may both be assigned to is decided by the common
ancestors of their pointees, and `CommonPointerType` looks for the least of these.
It looks among the ones `CollectAncestors` gets to, which passes over a type named
`error`: the name stands for a type that failed to resolve, and nothing keeps a
program from declaring a class of that name. `Shows` says that passing over hides
nothing that decides, and that is what the result is right under.
-/

namespace Absolute

namespace Hierarchy

open Descent

/-! ## Names of pointers -/

theorem isPointerType_iff {type : TypeName} :
    isPointerType type = true ↔ canonicalOwnership type ≠ .None := by
  simp [isPointerType]

theorem canonicalPointeeName_eq {type : TypeName} (h : canonicalOwnership type ≠ .None)
    {pointee : TypeName} (hname : canonicalPointerName pointee (canonicalOwnership type) = type) :
    canonicalPointeeName type = pointee := by
  have hself := (canonicalPointerName_pointee h).trans hname.symm
  exact List.append_cancel_left (List.append_cancel_right hself)

/-- A handle of a type that starts with its own name. -/
theorem canonicalOwnership_pointerName {pointee : TypeName} (h : TypeTerm.NameHead pointee)
    {kind : OwnershipKind} (hkind : kind ≠ .None) :
    canonicalOwnership (canonicalPointerName pointee kind) = kind := by
  by_cases hunique : kind = .Unique
  · subst hunique
    exact TypeTerm.canonicalOwnership_nameHead h
  · exact TypeTerm.canonicalOwnership_qualified hkind hunique pointee

theorem canonicalPointeeName_pointerName {pointee : TypeName} {kind : OwnershipKind}
    (h : canonicalOwnership (canonicalPointerName pointee kind) = kind) (hkind : kind ≠ .None) :
    canonicalPointeeName (canonicalPointerName pointee kind) = pointee :=
  canonicalPointeeName_eq (h.symm ▸ hkind) (by rw [h])

/-! ## What a pointer may be assigned to -/

section Pointer

variable {source : TypeName} (hsource : isPointerType source = true)
include hsource

theorem pointer_ends : endsWith source "*".toList = true :=
  endsWith_star_of_kind (isPointerType_iff.mp hsource)

theorem pointer_ne {name : TypeName} (h : endsWith name "*".toList = false) : source ≠ name := by
  rintro rfl
  rw [pointer_ends hsource] at h
  cases h

theorem pointer_not_open : canonicalOpenOwnership source = .None := by
  rw [canonicalOpenOwnership, if_pos (.inr (pointer_ends hsource))]

theorem pointer_not_signature : parseCFunctionType source = none := by
  rw [parseCFunctionType, parseGenericTypeName_of_isPointerType hsource]

theorem pointer_not_array : endsWith source "[]".toList = false := by
  obtain ⟨front, hfront⟩ := endsWith_iff.mp (pointer_ends hsource)
  rw [Bool.eq_false_iff, ne_eq, endsWith_iff]
  rintro ⟨front', hfront'⟩
  have hlast := congrArg List.getLast? (hfront.symm.trans hfront')
  simp at hlast

theorem pointer_not_numeric : isNumeric source = false := by
  have hne : ∀ {name : TypeName}, endsWith name "*".toList = false → source ≠ name :=
    fun h => pointer_ne hsource h
  simp only [isNumeric, isIntegerTypeName, integerTypeNames, decide_eq_false_iff_not, not_or,
    List.contains_eq_mem, List.mem_cons, List.not_mem_nil, or_false, decide_eq_true_eq]
  exact ⟨hne rfl, hne rfl, ⟨hne rfl, hne rfl, hne rfl, hne rfl, hne rfl, hne rfl, hne rfl,
    hne rfl⟩, hne rfl⟩

/-- An open handle is taken of a name that is not a pointer. -/
theorem pointer_ne_openBase {target : TypeName} (h : canonicalOpenOwnership target ≠ .None) :
    source ≠ canonicalOpenBaseName target := by
  have hstar : ¬endsWith target "*".toList = true := fun hend =>
    h (by rw [canonicalOpenOwnership, if_pos (.inr hend)])
  rintro rfl
  obtain ⟨front, hfront⟩ := endsWith_iff.mp (pointer_ends hsource)
  rw [canonicalOpenBaseName, if_neg h] at hfront
  refine hstar (endsWith_iff.mpr ?_)
  have hsplit := List.take_append_drop
    (canonicalOwnershipPrefix (canonicalOpenOwnership target)).length target
  rw [hfront, ← List.append_assoc] at hsplit
  exact ⟨_, hsplit.symm⟩

theorem compatibleMode_self : compatibleMode source source = true := by
  have hkind := isPointerType_iff.mp hsource
  unfold compatibleMode isRawPointerType isSubscriberPointerType isStrongManagedPointerType
    isManagedPointerType isWeakPointerType
  cases hk : canonicalOwnership source <;> simp_all

theorem isAssignableHandle_pointer (q : TypeQueries) (target : TypeName) :
    isAssignableHandle q target source =
      (isPointerType target && (compatibleMode target source
        && q.isDerivedFrom (canonicalPointeeName source) (canonicalPointeeName target))) := by
  have hnull := @pointer_ne _ hsource "null".toList rfl
  unfold isAssignableHandle
  rw [if_neg (fun h => pointer_ne_openBase hsource h.1 h.2),
    if_neg (fun h => h.2 (pointer_not_open hsource)),
    if_neg (fun h => by simp [pointer_not_open hsource] at h), if_neg (fun h => hnull h.2)]
  split
  · rename_i hboth
    rw [hboth.1, hboth.2.2]
    rfl
  · rename_i hboth
    rw [pointer_not_numeric hsource, if_neg (by simp), decide_eq_false (fun h => hnull h.1)]
    symm
    rw [Bool.eq_false_iff]
    intro h
    rw [Bool.and_eq_true, Bool.and_eq_true] at h
    exact hboth ⟨h.1, hsource, h.2.1⟩

/-- Past value references, a pointer may be assigned to the types that take everything
and to a pointer of a compatible kind whose pointee it derives from. -/
theorem isAssignableGo_pointer {q : TypeQueries} (hrefl : ∀ type, q.isDerivedFrom type type = true)
    (n : Nat) (target : TypeName) :
    isAssignableGo q (n + 1) target source =
      if isValueReferenceType target then
        isAssignableGo q n (valueReferenceBaseType target) source
      else decide (target = "error".toList ∨ target = "dynamic".toList)
        || isPointerType target && (compatibleMode target source
          && q.isDerivedFrom (canonicalPointeeName source) (canonicalPointeeName target)) := by
  have herror := @pointer_ne _ hsource "error".toList rfl
  have hdynamic := @pointer_ne _ hsource "dynamic".toList rfl
  have hnull := @pointer_ne _ hsource "null".toList rfl
  rw [isAssignableGo]
  split
  · rfl
  · simp only [herror, hdynamic, false_or, or_false]
    by_cases htop : target = "error".toList ∨ target = "dynamic".toList
    · rw [if_pos htop, decide_eq_true htop, Bool.true_or]
    · rw [if_neg htop, decide_eq_false htop, Bool.false_or]
      by_cases hsame : target = source
      · subst hsame
        rw [if_pos rfl, hsource, compatibleMode_self hsource, hrefl]
        rfl
      · rw [if_neg hsame, ← isAssignableHandle_pointer hsource, pointer_not_signature hsource]
        cases parseCFunctionType target <;>
          simp only [hnull, and_false, if_false, pointer_not_array hsource, Bool.false_eq_true]

theorem isAssignable_pointer {q : TypeQueries} (hrefl : ∀ type, q.isDerivedFrom type type = true)
    {target : TypeName} (htarget : isPointerType target = true) :
    isAssignable q target source = (compatibleMode target source
      && q.isDerivedFrom (canonicalPointeeName source) (canonicalPointeeName target)) := by
  have href : isValueReferenceType target = false := by
    obtain ⟨front, hfront⟩ := endsWith_iff.mp (pointer_ends htarget)
    rw [isValueReferenceType, Bool.eq_false_iff, ne_eq, endsWith_iff]
    rintro ⟨front', hfront'⟩
    have hlast := congrArg List.getLast? (hfront.symm.trans hfront')
    simp at hlast
  rw [isAssignable, isAssignableGo_pointer hsource hrefl, href, htarget,
    decide_eq_false (by
      rintro (rfl | rfl)
      · exact absurd (pointer_ends htarget) (by decide)
      · exact absurd (pointer_ends htarget) (by decide))]
  simp

end Pointer

section SameKind

variable {q : TypeQueries} (hrefl : ∀ type, q.isDerivedFrom type type = true)
  {kind : OwnershipKind} (hkind : kind ≠ .None)
include hrefl hkind

/-- Between pointers of one kind the pointees decide. -/
theorem isAssignable_sameKind {target source : TypeName} (ht : canonicalOwnership target = kind)
    (hs : canonicalOwnership source = kind) :
    isAssignable q target source =
      q.isDerivedFrom (canonicalPointeeName source) (canonicalPointeeName target) := by
  have hsource : isPointerType source = true := isPointerType_iff.mpr (hs ▸ hkind)
  have htarget : isPointerType target = true := isPointerType_iff.mpr (ht ▸ hkind)
  have hcompatible : compatibleMode target source = compatibleMode source source := by
    unfold compatibleMode isRawPointerType isSubscriberPointerType isStrongManagedPointerType
      isManagedPointerType isWeakPointerType
    rw [ht, hs]
  rw [isAssignable_pointer hsource hrefl htarget, hcompatible, compatibleMode_self hsource,
    Bool.true_and]

/-- What two pointers may both be assigned to a third of their kind may be, if its
pointee derives from whatever both of theirs do. -/
theorem isAssignable_of_both {left right bound : TypeName}
    (hl : canonicalOwnership left = kind) (hr : canonicalOwnership right = kind)
    (hb : canonicalOwnership bound = kind)
    (hjoin : ∀ type, q.isDerivedFrom (canonicalPointeeName left) type = true →
      q.isDerivedFrom (canonicalPointeeName right) type = true →
        q.isDerivedFrom (canonicalPointeeName bound) type = true)
    {target : TypeName} (hleft : isAssignable q target left = true)
    (hright : isAssignable q target right = true) : isAssignable q target bound = true := by
  have hpointer : ∀ {type}, canonicalOwnership type = kind → isPointerType type = true :=
    fun h => isPointerType_iff.mpr (h ▸ hkind)
  have hcompatible : ∀ {source target}, canonicalOwnership source = kind →
      compatibleMode target source = compatibleMode target bound := by
    intro source target hs
    unfold compatibleMode isRawPointerType isSubscriberPointerType isStrongManagedPointerType
      isManagedPointerType isWeakPointerType
    rw [hs, hb]
  unfold isAssignable at hleft hright ⊢
  generalize target.length + 1 = fuel at hleft hright ⊢
  induction fuel generalizing target with
  | zero => exact hleft
  | succ fuel ih =>
    rw [isAssignableGo_pointer (hpointer hl) hrefl, hcompatible hl] at hleft
    rw [isAssignableGo_pointer (hpointer hr) hrefl, hcompatible hr] at hright
    rw [isAssignableGo_pointer (hpointer hb) hrefl]
    split
    · rename_i href
      rw [if_pos href] at hleft hright
      exact ih hleft hright
    · rename_i href
      rw [if_neg href] at hleft hright
      simp only [Bool.or_eq_true, Bool.and_eq_true] at hleft hright ⊢
      rcases hleft with htop | ⟨hp, hc, hleft⟩
      · exact .inl htop
      · refine hright.imp_right fun ⟨_, _, hright⟩ => ?_
        exact ⟨hp, hc, hjoin _ hleft hright⟩

end SameKind

/-! ## Names of ancestors -/

theorem nameHead_ident (n : Ident) : TypeTerm.NameHead n.1 :=
  ⟨n.1, [], by simp, n.2.2, by simp⟩

theorem nameHead_application (base : Ident) (arguments : List TypeName) :
    TypeTerm.NameHead (genericTypeName base.1 arguments) := by
  refine ⟨base.1, _, by rw [genericTypeName, List.append_assoc, List.append_assoc], base.2.2,
    fun c hc => ?_⟩
  obtain rfl : '<' = c := by simpa using hc
  decide

namespace InheritanceGraph

variable (g : InheritanceGraph)

theorem nameHead_parent {type parent : TypeName} (h : parent ∈ superTypes g.types type) :
    TypeTerm.NameHead parent := by
  obtain ⟨-, -, declared, -, entry, -, hnamed, σ, hσ, rfl⟩ := instance_superTypes g.named h
  rcases hnamed with ⟨n, rfl, hn⟩ | ⟨base, first, rest, rfl⟩
  · rw [substitute_name n (hσ _ fun m hm heq => hn (Subtype.ext heq ▸ hm))]
    exact nameHead_ident n
  · obtain ⟨arguments, heq⟩ := substitute_application base first rest fun name hname =>
      hσ name fun n _ hn => hname (hn ▸ n.2)
    rw [heq]
    exact nameHead_application base arguments

/-- An ancestor's name is put behind a kind and read back. -/
theorem kind_of_ancestor {type ancestor : TypeName} {kind : OwnershipKind} (hkind : kind ≠ .None)
    (htype : canonicalOwnership type = kind)
    (h : g.Derives (canonicalPointeeName type) ancestor) :
    canonicalOwnership (canonicalPointerName ancestor kind) = kind := by
  rcases Relation.ReflTransGen.cases_tail h with heq | ⟨child, -, hparent⟩
  · subst htype
    rw [heq, canonicalPointerName_pointee hkind]
  · exact canonicalOwnership_pointerName (g.nameHead_parent hparent) hkind

end InheritanceGraph

/-! ## What is asked of the common type -/

/-- Both pointers may be assigned to the pointer `bound`, and it may be assigned to
whatever type both may be. -/
structure IsJoin (q : TypeQueries) (left right bound : TypeName) : Prop where
  pointer : isPointerType bound = true
  fromLeft : isAssignable q bound left = true
  fromRight : isAssignable q bound right = true
  least : ∀ type, isAssignable q type left = true → isAssignable q type right = true →
    isAssignable q type bound = true

namespace InheritanceGraph

variable (g : InheritanceGraph)

/-- An ancestor of both pointees. -/
def Common (left right ancestor : TypeName) : Prop :=
  g.Derives (canonicalPointeeName left) ancestor
    ∧ g.Derives (canonicalPointeeName right) ancestor

/-- The type with the property that derives from all the others. -/
def IsLeast (P : TypeName → Prop) (type : TypeName) : Prop :=
  P type ∧ ∀ other, P other → g.Derives type other

/-- What `CommonPointerType` is for. -/
structure FindsJoin (q : TypeQueries) (left right : TypeName) : Prop where
  join : (∃ bound, IsJoin (g.queries q) left right bound) →
    IsJoin (g.queries q) left right (g.commonPointerType q left right).1
  ambiguous : (g.commonPointerType q left right).2 = true ↔
    (∃ ancestor, g.Common left right ancestor) ∧ ¬∃ least, g.IsLeast (g.Common left right) least
  nothing : g.commonPointerType q left right = ([], false) ↔
    ¬∃ ancestor, g.Common left right ancestor
  comm : g.commonPointerType q right left = g.commonPointerType q left right

/-! ## Where it is right -/

/-- A common ancestor `CollectAncestors` gets to from the left pointee. -/
def Seen (left right ancestor : TypeName) : Prop :=
  Around skipped (superTypes g.types) (canonicalPointeeName left) ancestor
    ∧ g.Derives (canonicalPointeeName right) ancestor

/-- Passing over types named `error` hides neither the least of the common ancestors nor
that there are some, and makes none the least that is not. -/
structure Shows (left right : TypeName) : Prop where
  some : (∃ ancestor, g.Common left right ancestor) → ∃ ancestor, g.Seen left right ancestor
  least : ∀ type, g.IsLeast (g.Seen left right) type ↔ g.IsLeast (g.Common left right) type

/-- One pointee derives from the other, or nothing is hidden that decides. -/
def Decided (left right : TypeName) : Prop :=
  g.Derives (canonicalPointeeName left) (canonicalPointeeName right)
    ∨ g.Derives (canonicalPointeeName right) (canonicalPointeeName left)
    ∨ g.Shows left right ∧ g.Shows right left

variable {g} {q : TypeQueries} {kind : OwnershipKind} {left right : TypeName}

theorem Seen.common {ancestor : TypeName} (h : g.Seen left right ancestor) :
    g.Common left right ancestor := ⟨h.1.atOrBelow, h.2⟩

theorem Common.symm {ancestor : TypeName} (h : g.Common left right ancestor) :
    g.Common right left ancestor := ⟨h.2, h.1⟩

theorem common_comm : g.Common left right = g.Common right left :=
  funext fun _ => propext ⟨Common.symm, Common.symm⟩

theorem IsLeast.unique {P : TypeName → Prop} {type type' : TypeName} (h : g.IsLeast P type)
    (h' : g.IsLeast P type') : type = type' :=
  g.derives_antisymm (h.2 type' h'.1) (h'.2 type h.1)

theorem isDerivedFrom_self (type : TypeName) : (g.queries q).isDerivedFrom type type = true :=
  g.isDerivedFrom_iff.mpr .refl

theorem FindsJoin.symm (h : g.FindsJoin q left right) : g.FindsJoin q right left := by
  have hjoin : ∀ {bound}, IsJoin (g.queries q) left right bound ↔
      IsJoin (g.queries q) right left bound :=
    ⟨fun h => ⟨h.pointer, h.fromRight, h.fromLeft, fun type hr hl => h.least type hl hr⟩,
      fun h => ⟨h.pointer, h.fromRight, h.fromLeft, fun type hr hl => h.least type hl hr⟩⟩
  refine ⟨fun ⟨bound, hb⟩ => ?_, ?_, ?_, h.comm.symm⟩
  · rw [h.comm]
    exact hjoin.mp (h.join ⟨bound, hjoin.mpr hb⟩)
  · rw [h.comm, h.ambiguous, common_comm]
  · rw [h.comm, h.nothing, common_comm]

section Kind

variable (hkind : kind ≠ .None) (hl : canonicalOwnership left = kind)
  (hr : canonicalOwnership right = kind)
include hkind hl hr

theorem isAssignable_iff : isAssignable (g.queries q) left right = true ↔
    g.Derives (canonicalPointeeName right) (canonicalPointeeName left) := by
  rw [isAssignable_sameKind isDerivedFrom_self hkind hl hr]
  exact g.isDerivedFrom_iff

/-- The handle of the least common ancestor is the join. -/
theorem isJoin_of_isLeast {type : TypeName} (h : g.IsLeast (g.Common left right) type) :
    IsJoin (g.queries q) left right (canonicalPointerName type kind) := by
  have hb := g.kind_of_ancestor hkind hl h.1.1
  have hpointee := canonicalPointeeName_pointerName hb hkind
  refine ⟨isPointerType_iff.mpr (by rwa [hb]), ?_, ?_, fun target hleft hright => ?_⟩
  · rw [isAssignable_iff hkind hb hl, hpointee]
    exact h.1.1
  · rw [isAssignable_iff hkind hb hr, hpointee]
    exact h.1.2
  · refine isAssignable_of_both isDerivedFrom_self hkind hl hr hb (fun other ho ho' => ?_)
      hleft hright
    rw [hpointee]
    exact g.isDerivedFrom_iff.mpr
      (h.2 other ⟨g.isDerivedFrom_iff.mp ho, g.isDerivedFrom_iff.mp ho'⟩)

/-- The pointee of a join is the least common ancestor. -/
theorem isLeast_of_isJoin {bound : TypeName} (h : IsJoin (g.queries q) left right bound) :
    g.IsLeast (g.Common left right) (canonicalPointeeName bound) := by
  have hpointer : ∀ {type}, canonicalOwnership type = kind → isPointerType type = true :=
    fun h => isPointerType_iff.mpr (h ▸ hkind)
  have hleft := h.fromLeft
  have hright := h.fromRight
  rw [isAssignable_pointer (hpointer hl) isDerivedFrom_self h.pointer, Bool.and_eq_true] at hleft
  rw [isAssignable_pointer (hpointer hr) isDerivedFrom_self h.pointer, Bool.and_eq_true] at hright
  refine ⟨⟨g.isDerivedFrom_iff.mp hleft.2, g.isDerivedFrom_iff.mp hright.2⟩, fun other ho => ?_⟩
  have hb := g.kind_of_ancestor hkind hl ho.1
  have hpointee := canonicalPointeeName_pointerName hb hkind
  have hother := h.least (canonicalPointerName other kind)
    (by rw [isAssignable_iff hkind hb hl, hpointee]; exact ho.1)
    (by rw [isAssignable_iff hkind hb hr, hpointee]; exact ho.2)
  rw [isAssignable_pointer h.pointer isDerivedFrom_self (hpointer hb), Bool.and_eq_true,
    hpointee] at hother
  exact g.isDerivedFrom_iff.mp hother.2

/-! ## What is returned -/

theorem commonPointerType_of_left
    (h : g.Derives (canonicalPointeeName right) (canonicalPointeeName left)) :
    g.commonPointerType q left right = (left, false) := by
  have hpointers : ¬(¬isPointerType left = true ∨ ¬isPointerType right = true) := by
    simp [isPointerType, hl, hr, hkind]
  rw [commonPointerType, if_neg hpointers, hl, if_neg (by simp [hr, hkind]),
    if_pos ((isAssignable_iff hkind hl hr).mpr h)]

theorem commonPointerType_of_right
    (hnot : ¬g.Derives (canonicalPointeeName right) (canonicalPointeeName left))
    (h : g.Derives (canonicalPointeeName left) (canonicalPointeeName right)) :
    g.commonPointerType q left right = (right, false) := by
  have hpointers : ¬(¬isPointerType left = true ∨ ¬isPointerType right = true) := by
    simp [isPointerType, hl, hr, hkind]
  rw [commonPointerType, if_neg hpointers, hl, if_neg (by simp [hr, hkind]),
    if_neg (mt (isAssignable_iff hkind hl hr).mp hnot),
    if_pos ((isAssignable_iff hkind hr hl).mpr h)]

/-- Between unrelated pointees the ancestors that are seen decide. -/
theorem commonPointerType_of_unrelated
    (hnot : ¬g.Derives (canonicalPointeeName right) (canonicalPointeeName left))
    (hnot' : ¬g.Derives (canonicalPointeeName left) (canonicalPointeeName right)) :
    (¬(∃ ancestor, g.Seen left right ancestor) →
        g.commonPointerType q left right = ([], false))
      ∧ (∀ type, g.IsLeast (g.Seen left right) type →
        g.commonPointerType q left right = (canonicalPointerName type kind, false))
      ∧ ((∃ ancestor, g.Seen left right ancestor) →
        (¬∃ type, g.IsLeast (g.Seen left right) type) →
          g.commonPointerType q left right = ([], true)) := by
  have hpointers : ¬(¬isPointerType left = true ∨ ¬isPointerType right = true) := by
    simp [isPointerType, hl, hr, hkind]
  simp only [commonPointerType, if_neg hpointers, hl, hr, hkind, ne_eq, not_true_eq_false,
    or_self, if_false, if_neg (mt (isAssignable_iff hkind hl hr).mp hnot),
    if_neg (mt (isAssignable_iff hkind hr hl).mp hnot')]
  generalize hshared : (g.collectAncestors (canonicalPointeeName left)).filter
    (g.isDerivedFrom (canonicalPointeeName right) ·) = shared
  have hmem : ∀ {type}, type ∈ shared ↔ g.Seen left right type := by
    intro type
    rw [← hshared, List.mem_filter, g.mem_collectAncestors, g.isDerivedFrom_iff]
    rfl
  have hleast : ∀ {type}, leastOf g.isDerivedFrom shared shared none = some type ↔
      g.IsLeast (g.Seen left right) type := by
    intro type
    have hrefl : ∀ type, g.isDerivedFrom type type = true := fun _ =>
      g.isDerivedFrom_iff.mpr .refl
    refine (leastOf_eq_some_iff hrefl (fun a b h h' => ?_) (fun _ h => h) (by simp)).trans ?_
    · exact g.derives_antisymm (g.isDerivedFrom_iff.mp h) (g.isDerivedFrom_iff.mp h')
    · rw [isLeast_iff hrefl, or_iff_left (by simp), hmem]
      exact and_congr_right fun _ =>
        forall_congr' fun other => by rw [hmem, g.isDerivedFrom_iff]
  refine ⟨fun hnone => ?_, fun type ht => ?_, ?_⟩
  · have hempty : shared = [] :=
      List.eq_nil_iff_forall_not_mem.mpr fun type ht => hnone ⟨type, hmem.mp ht⟩
    rw [if_pos hempty]
  · rw [if_neg (List.ne_nil_of_mem (hmem.mpr ht.1)), hleast.mpr ht]
  · rintro ⟨ancestor, ha⟩ hnone
    rw [if_neg (List.ne_nil_of_mem (hmem.mpr ha))]
    cases hpick : leastOf g.isDerivedFrom shared shared none with
    | none => rfl
    | some type => exact absurd ⟨type, hleast.mp hpick⟩ hnone

/-! ## Right exactly where nothing that decides is hidden -/

theorem findsJoin_of_isLeast {type : TypeName} (h : g.IsLeast (g.Common left right) type)
    (hout : g.commonPointerType q left right = (canonicalPointerName type kind, false))
    (hout' : g.commonPointerType q right left = (canonicalPointerName type kind, false)) :
    g.FindsJoin q left right := by
  refine ⟨fun _ => ?_, ?_, ?_, hout'.trans hout.symm⟩
  · rw [hout]
    exact isJoin_of_isLeast hkind hl hr h
  · rw [hout]
    exact iff_of_false Bool.false_ne_true fun ⟨_, hnone⟩ => hnone ⟨type, h⟩
  · rw [hout]
    refine iff_of_false (fun heq => ?_) fun hnone => hnone ⟨type, h.1⟩
    simp [canonicalPointerName] at heq

theorem findsJoin_of_left
    (h : g.Derives (canonicalPointeeName right) (canonicalPointeeName left)) :
    g.FindsJoin q left right := by
  have hname : canonicalPointerName (canonicalPointeeName left) kind = left := by
    subst hl
    exact canonicalPointerName_pointee hkind
  have hleast : g.IsLeast (g.Common left right) (canonicalPointeeName left) :=
    ⟨⟨.refl, h⟩, fun _ ho => ho.1⟩
  refine findsJoin_of_isLeast hkind hl hr hleast ?_ ?_
  · rw [hname, commonPointerType_of_left hkind hl hr h]
  · by_cases h' : g.Derives (canonicalPointeeName left) (canonicalPointeeName right)
    · have hsame : right = left := by
        rw [← @canonicalPointerName_pointee right (hr ▸ hkind), hr,
          ← g.derives_antisymm h' h, hname]
      rw [hname, hsame, commonPointerType_of_left hkind hl hl .refl]
    · rw [hname, commonPointerType_of_right hkind hr hl h' h]

/-- Where nothing is hidden the common ancestors decide. -/
theorem commonPointerType_of_shows
    (hnot : ¬g.Derives (canonicalPointeeName right) (canonicalPointeeName left))
    (hnot' : ¬g.Derives (canonicalPointeeName left) (canonicalPointeeName right))
    (h : g.Shows left right) :
    (¬(∃ ancestor, g.Common left right ancestor) →
        g.commonPointerType q left right = ([], false))
      ∧ (∀ type, g.IsLeast (g.Common left right) type →
        g.commonPointerType q left right = (canonicalPointerName type kind, false))
      ∧ ((∃ ancestor, g.Common left right ancestor) →
        (¬∃ type, g.IsLeast (g.Common left right) type) →
          g.commonPointerType q left right = ([], true)) := by
  obtain ⟨hnone, hleast, hseveral⟩ :=
    commonPointerType_of_unrelated (q := q) hkind hl hr hnot hnot'
  refine ⟨fun hno => hnone fun ⟨ancestor, ha⟩ => hno ⟨ancestor, ha.common⟩,
    fun type ht => hleast type ((h.least type).mpr ht), fun hcommon hno => ?_⟩
  exact hseveral (h.some hcommon) fun ⟨type, ht⟩ => hno ⟨type, (h.least type).mp ht⟩

theorem findsJoin_of_shows
    (hnot : ¬g.Derives (canonicalPointeeName right) (canonicalPointeeName left))
    (hnot' : ¬g.Derives (canonicalPointeeName left) (canonicalPointeeName right))
    (h : g.Shows left right) (h' : g.Shows right left) : g.FindsJoin q left right := by
  obtain ⟨hnone, hleast, hseveral⟩ :=
    commonPointerType_of_shows (q := q) hkind hl hr hnot hnot' h
  obtain ⟨hnone', hleast', hseveral'⟩ :=
    commonPointerType_of_shows (q := q) hkind hr hl hnot' hnot h'
  rw [common_comm] at hnone' hleast' hseveral'
  by_cases hcommon : ∃ ancestor, g.Common left right ancestor
  · by_cases hpick : ∃ type, g.IsLeast (g.Common left right) type
    · obtain ⟨type, ht⟩ := hpick
      exact findsJoin_of_isLeast hkind hl hr ht (hleast type ht) (hleast' type ht)
    · have hout := hseveral hcommon hpick
      refine ⟨fun ⟨bound, hb⟩ => ?_, ?_, ?_, (hseveral' hcommon hpick).trans hout.symm⟩
      · exact absurd ⟨_, isLeast_of_isJoin hkind hl hr hb⟩ hpick
      · rw [hout]
        exact iff_of_true rfl ⟨hcommon, hpick⟩
      · rw [hout]
        exact iff_of_false (by simp) (not_not.mpr hcommon)
  · have hout := hnone hcommon
    refine ⟨fun ⟨bound, hb⟩ => ?_, ?_, ?_, (hnone' hcommon).trans hout.symm⟩
    · exact absurd ⟨_, (isLeast_of_isJoin hkind hl hr hb).1⟩ hcommon
    · rw [hout]
      exact iff_of_false Bool.false_ne_true fun h => hcommon h.1
    · exact iff_of_true hout hcommon

theorem shows_of_findsJoin
    (hnot : ¬g.Derives (canonicalPointeeName right) (canonicalPointeeName left))
    (hnot' : ¬g.Derives (canonicalPointeeName left) (canonicalPointeeName right))
    (h : g.FindsJoin q left right) : g.Shows left right := by
  obtain ⟨hnone, hleast, hseveral⟩ :=
    commonPointerType_of_unrelated (q := q) hkind hl hr hnot hnot'
  have hof : ∀ {type}, g.IsLeast (g.Seen left right) type →
      (∃ least, g.IsLeast (g.Common left right) least) →
        g.IsLeast (g.Common left right) type := by
    intro type ht ⟨least, hl'⟩
    have hjoin := h.join ⟨_, isJoin_of_isLeast hkind hl hr hl'⟩
    rw [hleast type ht] at hjoin
    have hpointee := isLeast_of_isJoin hkind hl hr hjoin
    rwa [canonicalPointeeName_pointerName
      (g.kind_of_ancestor hkind hl ht.1.1.atOrBelow) hkind] at hpointee
  refine ⟨fun hcommon => ?_, fun type => ⟨fun ht => ?_, fun ht => ?_⟩⟩
  · by_contra hseen
    exact h.nothing.mp (hnone hseen) hcommon
  · refine hof ht ?_
    by_contra hno
    have hambiguous := h.ambiguous.mpr ⟨⟨type, ht.1.common⟩, hno⟩
    rw [hleast type ht] at hambiguous
    cases hambiguous
  · have hpointer := (h.join ⟨_, isJoin_of_isLeast hkind hl hr ht⟩).pointer
    by_cases hseen : ∃ ancestor, g.Seen left right ancestor
    · by_cases hpick : ∃ least, g.IsLeast (g.Seen left right) least
      · obtain ⟨least, hl'⟩ := hpick
        rwa [← (hof hl' ⟨type, ht⟩).unique ht]
      · rw [hseveral hseen hpick] at hpointer
        cases hpointer
    · rw [hnone hseen] at hpointer
      cases hpointer

/-- The common type is the least upper bound exactly where one pointee derives from the
other, or the ancestors seen past the types named `error` have the least the common
ancestors have. -/
theorem commonPointerType_findsJoin_iff : g.FindsJoin q left right ↔ g.Decided left right := by
  unfold Decided
  by_cases hleft : g.Derives (canonicalPointeeName right) (canonicalPointeeName left)
  · exact iff_of_true (findsJoin_of_left hkind hl hr hleft) (.inr (.inl hleft))
  by_cases hright : g.Derives (canonicalPointeeName left) (canonicalPointeeName right)
  · exact iff_of_true (findsJoin_of_left hkind hr hl hright).symm (.inl hright)
  constructor
  · intro h
    exact .inr (.inr ⟨shows_of_findsJoin hkind hl hr hleft hright h,
      shows_of_findsJoin hkind hr hl hright hleft h.symm⟩)
  · rintro (h | h | ⟨h, h'⟩)
    · exact absurd h hright
    · exact absurd h hleft
    · exact findsJoin_of_shows hkind hl hr hleft hright h h'

end Kind

/-! ## Two classes with one parent -/

/-- Where no type on the way up is passed over, nothing is hidden. -/
theorem shows_of_not_skipped
    (h : ∀ type, g.Derives (canonicalPointeeName left) type → skipped type = false) :
    g.Shows left right := by
  have hseen : ∀ {type}, g.Seen left right type ↔ g.Common left right type :=
    ⟨Seen.common, fun hc => ⟨around_of_atOrBelow hc.1 h, hc.2⟩⟩
  have heq : g.Seen left right = g.Common left right := funext fun _ => propext hseen
  exact ⟨fun hcommon => heq ▸ hcommon, fun type => by rw [heq]⟩

end InheritanceGraph

theorem isName_leftClass : IsName "A".toList := by decide
theorem isName_rightClass : IsName "B".toList := by decide

def leftClass : Ident := ⟨"A".toList, isName_leftClass⟩
def rightClass : Ident := ⟨"B".toList, isName_rightClass⟩

/-- `class A : parent` and `class B : parent`. -/
def siblings (parent : Ident) : TypeTable :=
  [(parent, ⟨.Class, [], [], []⟩),
    (leftClass, ⟨.Class, [], [⟨parent.1, parent.1⟩], []⟩),
    (rightClass, ⟨.Class, [], [⟨parent.1, parent.1⟩], []⟩)]

section Siblings

variable {parent : Ident}

theorem definition_of_find {name : TypeName} {definition : TypeDefinition}
    (h : find (siblings parent) name = some definition) :
    definition.genericParameters = [] ∧ ∀ p ∈ definition.parents, p = parent.1 := by
  obtain ⟨entry, hentry, rfl⟩ := Option.map_eq_some_iff.mp h
  have hmem := List.mem_of_find?_eq_some hentry
  simp only [siblings, List.mem_cons, List.not_mem_nil, or_false] at hmem
  rcases hmem with rfl | rfl | rfl <;> simp [TypeDefinition.parents]

theorem find_parent : find (siblings parent) parent.1 = some ⟨.Class, [], [], []⟩ := by
  simp [find, findEntry, siblings]

theorem declaredParents_siblings {type p : TypeName}
    (h : p ∈ declaredParents (siblings parent) type) : p = parent.1 := by
  unfold declaredParents at h
  cases hfind : find (siblings parent) (definitionName type) with
  | none => simp [hfind] at h
  | some found => exact (definition_of_find hfind).2 p (by simpa [hfind] using h)

theorem siblings_acyclic (parent : Ident) : ¬Cyclic (siblings parent) := by
  rintro ⟨type, hcycle⟩
  obtain ⟨child, hfirst, -⟩ := Relation.TransGen.head'_iff.mp hcycle
  obtain ⟨up, -, hlast⟩ := Relation.TransGen.tail'_iff.mp hcycle
  obtain rfl : type = parent.1 := declaredParents_siblings hfirst
  rw [Below, declaredParents, definitionName_ident, find_parent] at hlast
  cases hlast

/-- The two classes and their parent. -/
def siblingGraph (parent : Ident) : InheritanceGraph where
  types := siblings parent
  named := by
    intro entry hentry p hp
    simp only [siblings, List.mem_cons, List.not_mem_nil, or_false] at hentry
    rcases hentry with rfl | rfl | rfl
    · cases hp
    · exact .inl ⟨parent, (List.mem_singleton.mp hp).symm, by simp⟩
    · exact .inl ⟨parent, (List.mem_singleton.mp hp).symm, by simp⟩
  acyclic := siblings_acyclic parent

theorem superTypes_siblings {type p : TypeName} (h : p ∈ superTypes (siblings parent) type) :
    p = parent.1 := by
  obtain ⟨found, hfind, declared, hmem, rfl⟩ := mem_superTypes h
  obtain ⟨hparameters, hparents⟩ := definition_of_find hfind
  rw [hparents declared hmem]
  exact substitute_name parent (instanceOf_eq_none hfind (by simp [hparameters]))

theorem derives_siblings {type base : TypeName} (h : (siblingGraph parent).Derives type base) :
    base = type ∨ base = parent.1 := by
  rcases Relation.ReflTransGen.cases_tail h with heq | ⟨_, -, hup⟩
  · exact .inl heq
  · exact .inr (superTypes_siblings hup)

theorem superTypes_child {child : Ident}
    (h : find (siblings parent) child.1 = some ⟨.Class, [], [⟨parent.1, parent.1⟩], []⟩) :
    superTypes (siblings parent) child.1 = [parent.1] := by
  have hinstance : instanceOf (siblings parent) child.1 = (child.1, fun _ => none) := by
    rw [instanceOf, TypeTerm.parseGenericTypeName_name]
  have hsame : substituteGenericType parent.1 (fun _ => none) = parent.1 :=
    substitute_name parent rfl
  simp only [superTypes, hinstance, h, TypeDefinition.parents, List.map_cons, List.map_nil, hsame]

end Siblings

/-- No queries but for `IsDerivedFrom` matter to a pointer. -/
def plainQueries : TypeQueries where
  genericParameters _ := none
  currentType := []
  isDerivedFrom _ _ := false
  isOpenGenericParameter _ := false
  typeOwnsUniqueResource _ := false

theorem commonPointerType_of_siblings :
    (siblingGraph ⟨"Base".toList, by decide⟩).FindsJoin plainQueries "A*".toList "B*".toList := by
  have hkind : canonicalOwnership "A*".toList ≠ .None := by decide
  have hright : canonicalOwnership "B*".toList = canonicalOwnership "A*".toList := rfl
  have hshows : ∀ left right : TypeName, skipped (canonicalPointeeName left) = false →
      (siblingGraph ⟨"Base".toList, by decide⟩).Shows left right := by
    intro left right hleft
    refine InheritanceGraph.shows_of_not_skipped fun type htype => ?_
    rcases derives_siblings htype with rfl | rfl
    · exact hleft
    · rfl
  exact (InheritanceGraph.commonPointerType_findsJoin_iff hkind rfl hright).mpr
    (.inr (.inr ⟨hshows _ _ rfl, hshows _ _ rfl⟩))

/-- `class error`, and two classes that derive from it. -/
theorem commonPointerType_passes_error :
    ¬(siblingGraph ⟨"error".toList, by decide⟩).FindsJoin plainQueries
      "A*".toList "B*".toList := by
  intro h
  have hup : ∀ child : Ident, find (siblings ⟨"error".toList, by decide⟩) child.1
      = some ⟨.Class, [], [⟨"error".toList, "error".toList⟩], []⟩ →
        (siblingGraph ⟨"error".toList, by decide⟩).Derives child.1 "error".toList := by
    intro child hchild
    exact .single (by rw [siblingGraph, superTypes_child hchild]; exact List.mem_singleton_self _)
  have hcommon : (siblingGraph ⟨"error".toList, by decide⟩).Common "A*".toList "B*".toList
      "error".toList := ⟨hup leftClass rfl, hup rightClass rfl⟩
  have hnot : ∀ {type base : TypeName}, base ≠ type → base ≠ "error".toList →
      ¬(siblingGraph ⟨"error".toList, by decide⟩).Derives type base :=
    fun hne hne' hd => (derives_siblings hd).elim hne hne'
  have hkind : canonicalOwnership "A*".toList ≠ .None := by decide
  obtain ⟨hnone, -, -⟩ := @InheritanceGraph.commonPointerType_of_unrelated
    (siblingGraph ⟨"error".toList, by decide⟩) plainQueries _ "A*".toList "B*".toList hkind rfl rfl
    (hnot (by decide) (by decide)) (hnot (by decide) (by decide))
  refine h.nothing.mp (hnone ?_) ⟨_, hcommon⟩
  rintro ⟨ancestor, hseen, hright⟩
  cases hseen with
  | here => exact hnot (by decide) (by decide) hright
  | onward _ hmem habove =>
    rw [superTypes_siblings hmem] at habove
    exact absurd habove.not_skip (by decide)

end Hierarchy

end Absolute
