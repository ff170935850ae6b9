import Mathlib.Data.Nat.Find
import Absolute.AnConversion
import Absolute.AnInheritance
import Absolute.LibCollect

/-!
# The common type of two pointers

`CollectAncestors`, `IsDerivedFrom` and `CommonPointerType`
(`Absolute-Analyzer/src/analyzer.cpp`) over an acyclic hierarchy whose parents are
declared names: there every walk over parents comes to an end, so that the walks
are functions of the hierarchy and not of a depth (`isDerivedFrom_eq`,
`collectAncestors_eq`).

Of a pointer only its kind and its pointee count: `isAssignable_pointer` says what
a pointer may be assigned to, value references, `dynamic` and all.
-/

namespace Absolute

namespace Hierarchy

open Descent

/-! ## The hierarchy -/

/-- An acyclic inheritance graph. -/
structure InheritanceGraph where
  types : TypeTable
  named : ∀ entry ∈ types, ∀ parent ∈ entry.2.parents, Named entry.2 parent
  acyclic : ¬Cyclic types

namespace InheritanceGraph

variable (g : InheritanceGraph)

theorem acc (type : TypeName) : Acc (Below (superTypes g.types)) type :=
  acc_superTypes (acc_foundParents_of_acyclic g.named g.acyclic type)

/-- `base` is the type or one of its ancestors. -/
abbrev Derives (type base : TypeName) : Prop := AtOrBelow (superTypes g.types) type base

theorem derives_antisymm {type base : TypeName} (h : g.Derives type base)
    (h' : g.Derives base type) : type = base :=
  atOrBelow_antisymm (fun a => not_cycle_of_acc (g.acc a)) h h'

theorem derived_ends (type base : TypeName) :
    ∃ depth, (Hierarchy.isDerivedFrom g.types depth type base).isSome = true :=
  isDerivedFrom_ends base (acc_foundParents_of_acyclic g.named g.acyclic type)

/-- `IsDerivedFrom`, with the depth it takes. -/
def isDerivedFrom (type base : TypeName) : Bool :=
  (Hierarchy.isDerivedFrom g.types (Nat.find (g.derived_ends type base)) type base).get
    (Nat.find_spec (g.derived_ends type base))

theorem isDerivedFrom_iff {type base : TypeName} :
    g.isDerivedFrom type base = true ↔ g.Derives type base := by
  refine (search_eq_true_iff (Option.some_get _).symm).trans ⟨fun h => ?_, fun h => ?_⟩
  · obtain ⟨found, hreach, rfl⟩ := finds_seek h
    exact hreach
  · exact finds_of_atOrBelow h rfl

/-- At any depth that serves the walk answers the same. -/
theorem isDerivedFrom_eq {depth : Nat} {type base : TypeName} {answer : Bool}
    (h : Hierarchy.isDerivedFrom g.types depth type base = some answer) :
    g.isDerivedFrom type base = answer :=
  Bool.eq_iff_iff.mpr (g.isDerivedFrom_iff.trans
    ((search_eq_true_iff h).trans
      ⟨fun hf => by obtain ⟨_, hreach, rfl⟩ := finds_seek hf; exact hreach,
        fun hd => finds_of_atOrBelow hd rfl⟩).symm)

/-! ## CollectAncestors -/

end InheritanceGraph

/-- A name that `CollectAncestors` returns from. -/
def skipped (type : TypeName) : Bool := type = [] ∨ type = "error".toList

def collectAncestors (types : TypeTable) (depth : Nat) (type : TypeName)
    (into : List TypeName) : Option (List TypeName) :=
  collect skipped (superTypes types) depth into type

namespace InheritanceGraph

variable (g : InheritanceGraph)

theorem ancestors_end (type : TypeName) :
    ∃ depth, (Hierarchy.collectAncestors g.types depth type []).isSome = true := by
  obtain ⟨depth, h⟩ := @collect_ends _ skipped _ _ _ (g.acc type)
  exact ⟨depth, h []⟩

/-- `CollectAncestors` into an empty list, with the depth it takes. -/
def collectAncestors (type : TypeName) : List TypeName :=
  (Hierarchy.collectAncestors g.types (Nat.find (g.ancestors_end type)) type []).get
    (Nat.find_spec (g.ancestors_end type))

theorem collectAncestors_eq {depth : Nat} {type : TypeName} {ancestors : List TypeName}
    (h : Hierarchy.collectAncestors g.types depth type [] = some ancestors) :
    g.collectAncestors type = ancestors := by
  have hfind : Nat.find (g.ancestors_end type) ≤ depth :=
    Nat.find_min' _ (Option.isSome_iff_exists.mpr ⟨ancestors, h⟩)
  have hself := collect_mono hfind (Option.some_get (Nat.find_spec (g.ancestors_end type))).symm
  exact Option.some.inj (hself.symm.trans h)

theorem mem_collectAncestors {type ancestor : TypeName} :
    ancestor ∈ g.collectAncestors type ↔
      Around skipped (superTypes g.types) type ancestor :=
  mem_collect_iff (fun a => not_cycle_of_acc (g.acc a))
    (Option.some_get (Nat.find_spec (g.ancestors_end type))).symm

/-! ## CommonPointerType -/

/-- The queries of an analyzer that holds these types. -/
def queries (q : TypeQueries) : TypeQueries := { q with isDerivedFrom := g.isDerivedFrom }

/-- The type returned, empty for nothing, and `ambiguous`. The empty name, which the
loop over the candidates starts with, is no ancestor. -/
def commonPointerType (q : TypeQueries) (left right : TypeName) : TypeName × Bool :=
  if ¬isPointerType left ∨ ¬isPointerType right then ([], false)
  else
    let kind := canonicalOwnership left
    if kind = .None ∨ canonicalOwnership right ≠ kind then ([], false)
    else if isAssignable (g.queries q) left right then (left, false)
    else if isAssignable (g.queries q) right left then (right, false)
    else
      let ancestors := g.collectAncestors (canonicalPointeeName left)
      let shared := ancestors.filter (g.isDerivedFrom (canonicalPointeeName right) ·)
      if shared = [] then ([], false)
      else match leastOf g.isDerivedFrom shared shared none with
        | none => ([], true)
        | some best => (canonicalPointerName best kind, false)

end InheritanceGraph

end Hierarchy

end Absolute
