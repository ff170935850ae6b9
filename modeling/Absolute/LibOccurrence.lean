import Mathlib.Data.List.Basic
import Mathlib.Data.List.Infix
import Mathlib.Data.Nat.Find

/-!
# First occurrences and cutting at them

A pattern `d` is looked for in a list from the front. `FirstAt d t a b`
says that it is found after `a` with `b` left behind it, and what that
asks of `a` alone is `Clear d a`: in `a ++ d` the pattern stands at the
end and nowhere before. `Pieces d t ps` is the cutting of `t` at one
first occurrence after the other.

The search itself is `List.dropInfix?`.
-/

namespace Occurrence

variable {α : Type*}

/-! ## The first occurrence -/

/-- `d` is not met in `a ++ d` before its end. -/
def Clear (d a : List α) : Prop :=
  ∀ x y, a ++ d = x ++ (d ++ y) → a.length ≤ x.length

/-- `t` is `a`, then `d`, then `b`, and `d` is met no earlier. -/
def FirstAt (d t a b : List α) : Prop :=
  t = a ++ (d ++ b) ∧ Clear d a

theorem clear_nil (d : List α) : Clear d [] := fun _ _ _ => Nat.zero_le _

/-- What follows the pattern is no part of the condition. -/
theorem Clear.le {d a b x y : List α} (h : Clear d a)
    (hx : a ++ (d ++ b) = x ++ (d ++ y)) : a.length ≤ x.length := by
  by_contra hlt
  have hpre : x ++ d <+: a ++ d := by
    apply List.prefix_of_prefix_length_le
      (⟨y, by rw [List.append_assoc, hx]⟩ : x ++ d <+: a ++ (d ++ b))
      ⟨b, by rw [List.append_assoc]⟩
    simp only [List.length_append]
    omega
  obtain ⟨z, hz⟩ := hpre
  exact hlt (h x z (by rw [← hz, List.append_assoc]))

/-- A clear text does not contain the pattern. -/
theorem Clear.absent {d a : List α} (h : Clear d a) (hd : d ≠ []) : ¬ d <:+: a := by
  rintro ⟨x, y, rfl⟩
  have hle := h x (y ++ d) (by simp only [List.append_assoc])
  have hpos := List.length_pos_iff.mpr hd
  simp only [List.length_append] at hle
  omega

/-- A single element is met first after a list without it. -/
theorem clear_singleton {c : α} {a : List α} : Clear [c] a ↔ c ∉ a := by
  constructor
  · intro h hc
    exact h.absent (List.cons_ne_nil _ _) ((List.singleton_infix_iff _ _).mpr hc)
  · intro hc x y hx
    by_contra hlt
    have hmem : (a ++ [c])[x.length]? = some c := by simp [hx]
    rw [List.getElem?_append_left (by omega)] at hmem
    exact hc (List.mem_of_getElem? hmem)

/-- Dropping from the front keeps a list clear. -/
theorem Clear.of_append {d a b : List α} (h : Clear d (a ++ b)) : Clear d b := by
  intro x y hx
  have hle := h (a ++ x) y (by simp only [List.append_assoc, hx])
  simp only [List.length_append] at hle
  omega

theorem FirstAt.unique {d t a b a' b' : List α} (h : FirstAt d t a b)
    (h' : FirstAt d t a' b') : a = a' ∧ b = b' := by
  obtain ⟨rfl, hclear⟩ := h
  obtain ⟨heq, hclear'⟩ := h'
  have hlen : a.length = a'.length := le_antisymm (hclear.le heq) (hclear'.le heq.symm)
  obtain ⟨rfl, hrest⟩ := List.append_inj heq hlen
  exact ⟨rfl, List.append_cancel_left hrest⟩

/-- A pattern that occurs has a first occurrence. -/
theorem exists_firstAt {d t : List α} (h : d <:+: t) : ∃ a b, FirstAt d t a b := by
  classical
  have hsome : ∃ n, ∃ a b, t = a ++ (d ++ b) ∧ a.length = n := by
    obtain ⟨a, b, rfl⟩ := h
    exact ⟨a.length, a, b, by rw [List.append_assoc], rfl⟩
  obtain ⟨a, b, ht, hn⟩ := Nat.find_spec hsome
  refine ⟨a, b, ht, ?_⟩
  intro x y hx
  rw [hn]
  exact Nat.find_min' hsome ⟨x, y ++ b, by rw [ht, ← List.append_assoc, hx]; simp, rfl⟩

theorem FirstAt.occurs {d t a b : List α} (h : FirstAt d t a b) : d <:+: t :=
  ⟨a, b, by rw [h.1, List.append_assoc]⟩

/-! ## Marks

An element that is no part of the pattern, or only its end, says where
the pattern can stand. -/

section Marks

variable {d f a b x y : List α} {c : α}

/-- An occurrence in a text is before a foreign element or behind it. -/
theorem occurrence_cases (hc : c ∉ d) (h : a ++ c :: b = x ++ (d ++ y)) :
    (∃ z, a = x ++ (d ++ z) ∧ y = z ++ c :: b) ∨ ∃ z, x = a ++ c :: z ∧ b = z ++ (d ++ y) := by
  rcases List.append_eq_append_iff.mp h with ⟨u, hx, hu⟩ | ⟨u, ha, hu⟩
  · rcases u with - | ⟨e, u⟩
    · rcases d with - | ⟨e, d⟩
      · exact .inl ⟨[], by rw [hx]; simp, hu.symm⟩
      · obtain ⟨rfl, -⟩ := List.cons.inj hu
        exact absurd List.mem_cons_self hc
    · obtain ⟨rfl, hb⟩ := List.cons.inj hu
      exact .inr ⟨u, hx, hb⟩
  · rcases List.append_eq_append_iff.mp hu with ⟨v, hv, hy⟩ | ⟨v, hv, hy⟩
    · exact .inl ⟨v, by rw [ha, hv], hy⟩
    · rcases v with - | ⟨e, v⟩
      · exact .inl ⟨[], by rw [ha, hv]; simp, hy.symm⟩
      · obtain ⟨rfl, -⟩ := List.cons.inj hy
        exact absurd (hv ▸ List.mem_append_right u List.mem_cons_self) hc

theorem infix_append_cons (hc : c ∉ d) : d <:+: a ++ c :: b ↔ d <:+: a ∨ d <:+: b := by
  constructor
  · rintro ⟨x, y, h⟩
    rw [List.append_assoc] at h
    rcases occurrence_cases hc h.symm with ⟨z, rfl, -⟩ | ⟨z, -, rfl⟩
    · exact .inl ⟨x, z, List.append_assoc _ _ _⟩
    · exact .inr ⟨z, y, List.append_assoc _ _ _⟩
  · rintro (h | h)
    · exact h.trans (List.prefix_append _ _).isInfix
    · exact h.trans ((List.suffix_cons c b).trans (List.suffix_append a _)).isInfix

/-- A foreign element cuts the condition in two. -/
theorem clear_append_cons (hc : c ∉ d) (hd : d ≠ []) :
    Clear d (a ++ c :: b) ↔ ¬d <:+: a ∧ Clear d b := by
  constructor
  · intro h
    refine ⟨fun hin => h.absent hd ((infix_append_cons hc).mpr (.inl hin)), ?_⟩
    exact Clear.of_append (a := a ++ [c]) (by rwa [List.append_assoc])
  · rintro ⟨ha, hb⟩ x y hx
    rw [List.append_assoc, List.cons_append] at hx
    rcases occurrence_cases hc hx with ⟨z, rfl, -⟩ | ⟨z, rfl, hz⟩
    · exact absurd ⟨x, z, List.append_assoc _ _ _⟩ ha
    · have hle := hb z y hz
      simp only [List.length_append, List.length_cons]
      omega

/-- A longer pattern is met no earlier. -/
theorem Clear.append (h : Clear d a) (e : List α) : Clear (d ++ e) a := by
  intro x y hx
  rw [List.append_assoc] at hx
  exact h.le (b := e) (y := e ++ y) hx

/-- A pattern that ends in an element it has nowhere else is met first where that element is. -/
theorem clear_of_not_mem (hf : c ∉ f) (ha : c ∉ a) : Clear (f ++ [c]) a := by
  intro x y hx
  by_contra hlt
  have hmem : c ∈ a ++ f := by
    have hfound : x ++ (f ++ [c]) <+: a ++ (f ++ [c]) := ⟨y, by rw [hx, List.append_assoc]⟩
    have hbefore : a ++ f <+: a ++ (f ++ [c]) := ⟨[c], List.append_assoc _ _ _⟩
    have hprefix : x ++ (f ++ [c]) <+: a ++ f := by
      refine List.prefix_of_prefix_length_le hfound hbefore ?_
      simp only [List.length_append, List.length_singleton]
      omega
    exact hprefix.subset (by simp)
  rcases List.mem_append.mp hmem with h | h
  · exact ha h
  · exact hf h

/-- What is between two such elements is passed over unless it ends like the pattern. -/
theorem clear_append_mark (hf : c ∉ f) (ha : c ∉ a) (hend : ¬f <:+ a) (hb : Clear (f ++ [c]) b) :
    Clear (f ++ [c]) (a ++ c :: b) := by
  intro x y hx
  rw [List.append_assoc, List.cons_append, List.append_assoc f, List.singleton_append] at hx
  rcases occurrence_cases hf hx with ⟨z, rfl, hz⟩ | ⟨z, rfl, hz⟩
  · rcases z with - | ⟨e, z⟩
    · exact absurd ⟨x, by rw [List.append_nil]⟩ hend
    · obtain ⟨rfl, -⟩ := List.cons.inj hz
      exact absurd (by simp) ha
  · have hle := hb z y (by rw [hz, List.append_assoc, List.singleton_append])
    simp only [List.length_append, List.length_cons]
    omega

/-- Two different elements next to each other do not overlap themselves. -/
theorem clear_pair {e : α} (hne : c ≠ e) : Clear [c, e] a ↔ ¬[c, e] <:+: a := by
  constructor
  · exact fun h => h.absent (List.cons_ne_nil _ _)
  · intro h x y hx
    by_contra hlt
    obtain ⟨r, rfl⟩ : x <+: a := by
      have hfound : x <+: a ++ [c, e] := ⟨_, hx.symm⟩
      exact List.prefix_of_prefix_length_le hfound (List.prefix_append _ _) (by omega)
    rw [List.append_assoc, List.append_cancel_left_eq] at hx
    rcases r with - | ⟨r₀, - | ⟨r₁, r⟩⟩
    · exact hlt (by simp)
    · obtain ⟨-, htail⟩ := List.cons.inj hx
      exact hne (List.cons.inj htail).1
    · obtain ⟨rfl, htail⟩ := List.cons.inj hx
      obtain ⟨rfl, -⟩ := List.cons.inj htail
      exact h ⟨x, r, by simp⟩

/-- What is found in the beginning of a text is found in the text. -/
theorem FirstAt.append (h : FirstAt d a x y) (b : List α) : FirstAt d (a ++ b) x (y ++ b) := by
  obtain ⟨rfl, hx⟩ := h
  exact ⟨by simp only [List.append_assoc], hx⟩

end Marks

/-! ## The search -/

variable [BEq α] [LawfulBEq α]

theorem dropInfix?_eq_some {d t a b : List α} :
    t.dropInfix? d = some (a, b) ↔ FirstAt d t a b := by
  rw [List.dropInfix?_eq_some_iff]
  constructor
  · rintro ⟨⟨d', ht, hd⟩, hleast⟩
    obtain rfl := eq_of_beq hd
    refine ⟨by rw [ht, List.append_assoc], ?_⟩
    intro x y hx
    exact hleast x d' (y ++ b) (by rw [ht, hx]; simp) (by simp)
  · rintro ⟨rfl, hclear⟩
    refine ⟨⟨d, by rw [List.append_assoc], by simp⟩, ?_⟩
    intro x d' y hx hd
    obtain rfl := eq_of_beq hd
    exact hclear.le (by rw [hx, List.append_assoc])

theorem dropInfix?_eq_none {d t : List α} : t.dropInfix? d = none ↔ ¬ d <:+: t := by
  constructor
  · intro h hin
    obtain ⟨a, b, hab⟩ := exists_firstAt hin
    rw [dropInfix?_eq_some.mpr hab] at h
    cases h
  · intro h
    rcases hs : t.dropInfix? d with _ | ⟨a, b⟩
    · rfl
    · exact absurd (dropInfix?_eq_some.mp hs).occurs h

/-! ## Cutting at every first occurrence -/

/-- The parts of a text between the occurrences of `d`, each taken as
the first one in what the cuts before it left. -/
inductive Pieces {α : Type*} (d : List α) : List α → List (List α) → Prop
  | last {t : List α} : ¬ d <:+: t → Pieces d t [t]
  | cut {a b : List α} {ps : List (List α)} :
      Clear d a → Pieces d b ps → Pieces d (a ++ (d ++ b)) (a :: ps)

theorem exists_pieces {α : Type*} {d : List α} (hd : d ≠ []) (t : List α) :
    ∃ ps, Pieces d t ps := by
  by_cases h : d <:+: t
  · obtain ⟨a, b, rfl, hclear⟩ := exists_firstAt h
    have hlt : b.length < (a ++ (d ++ b)).length := by
      have hpos := List.length_pos_iff.mpr hd
      simp only [List.length_append]
      omega
    obtain ⟨ps, hps⟩ := exists_pieces hd b
    exact ⟨a :: ps, .cut hclear hps⟩
  · exact ⟨[t], .last h⟩
termination_by t.length

theorem Pieces.ne_nil {α : Type*} {d t : List α} {ps : List (List α)}
    (h : Pieces d t ps) : ps ≠ [] := by
  cases h <;> exact List.cons_ne_nil _ _

theorem intercalate_cons {α : Type*} {d p : List α} {ps : List (List α)} (h : ps ≠ []) :
    d.intercalate (p :: ps) = p ++ (d ++ d.intercalate ps) := by
  obtain ⟨q, qs, rfl⟩ := List.exists_cons_of_ne_nil h
  simp [List.intercalate]

/-- The pieces put together again give the text. -/
theorem Pieces.intercalate_eq {α : Type*} {d t : List α} {ps : List (List α)}
    (h : Pieces d t ps) : d.intercalate ps = t := by
  induction h with
  | last _ => simp [List.intercalate]
  | cut _ hps ih => rw [intercalate_cons hps.ne_nil, ih]

/-- No piece contains the pattern. -/
theorem Pieces.absent {α : Type*} {d t p : List α} {ps : List (List α)} (hd : d ≠ [])
    (h : Pieces d t ps) (hp : p ∈ ps) : ¬ d <:+: p := by
  induction h with
  | last hno =>
      rw [List.mem_singleton] at hp
      rwa [hp]
  | cut hclear _ ih =>
      rcases List.mem_cons.mp hp with rfl | hp
      · exact hclear.absent hd
      · exact ih hp

end Occurrence
