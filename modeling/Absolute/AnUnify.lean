import Absolute.AnConversion
import Absolute.AnTypeFaithful

/-!
# The recursions of inference

`mentionsGenericParameter` and `unifyGenericType` of `AnConversion` without their bounds, as the
source writes them, and what an `emplace` leaves to be found.
-/

namespace Absolute

theorem Bindings.find_emplace {b : Bindings} {name : TypeName} (h : b.find name = none)
    (type x : TypeName) :
    (b.emplace name type).find x = if x = name then some type else b.find x := by
  rw [Bindings.emplace, h]
  simp only [Option.isSome_none, Bool.false_eq_true, if_false]
  unfold Bindings.find at h ⊢
  rw [List.find?_append]
  split_ifs with hx
  · subst hx
    rw [Option.map_eq_none_iff.mp h]
    simp
  · have hnone :
        List.find? (fun entry : TypeName × TypeName => entry.1 = x) [(name, type)] = none := by
      simpa using Ne.symm hx
    rw [hnone, Option.or_none]

section Bounds

variable {parameters : List TypeName}

theorem mentionsGenericParameterGo_congr : ∀ {n m : Nat} {pattern : TypeName},
    pattern.length < n → pattern.length < m →
      mentionsGenericParameterGo parameters n pattern =
        mentionsGenericParameterGo parameters m pattern
  | n + 1, m + 1, pattern, hn, hm => by
      have ih : ∀ {s : TypeName}, s.length < pattern.length →
          mentionsGenericParameterGo parameters n s = mentionsGenericParameterGo parameters m s :=
        fun hs => mentionsGenericParameterGo_congr (by omega) (by omega)
      unfold mentionsGenericParameterGo
      split_ifs with hmem harr hptr
      · rfl
      · exact ih (length_dropBrackets harr)
      · exact ih (length_canonicalPointeeName (of_decide_eq_true hptr))
      · split
        · rfl
        · rename_i hp
          rw [Bool.eq_iff_iff, List.any_eq_true, List.any_eq_true]
          refine exists_congr fun a => and_congr_right fun ha => ?_
          rw [ih ((length_of_mem_parseGenericTypeName hp).2 a ha)]

/-- `MentionsGenericParameter`, as the source writes it. -/
theorem mentionsGenericParameter_eq (pattern : TypeName) :
    mentionsGenericParameter pattern parameters =
      if pattern ∈ parameters then true
      else if endsWith pattern "[]".toList then
        mentionsGenericParameter (dropBrackets pattern) parameters
      else if canonicalOwnership pattern ≠ .None then
        mentionsGenericParameter (canonicalPointeeName pattern) parameters
      else match parseGenericTypeName pattern with
        | none => false
        | some (_, arguments) => arguments.any (mentionsGenericParameter · parameters) := by
  have ih : ∀ {s : TypeName}, s.length < pattern.length →
      mentionsGenericParameterGo parameters pattern.length s =
        mentionsGenericParameter s parameters :=
    fun hs => mentionsGenericParameterGo_congr hs (Nat.lt_succ_self _)
  conv_lhs => unfold mentionsGenericParameter mentionsGenericParameterGo
  simp only [List.contains_iff_mem, isPointerType, decide_eq_true_eq]
  split_ifs with hmem harr hptr
  · rfl
  · exact ih (length_dropBrackets harr)
  · exact ih (length_canonicalPointeeName hptr)
  · cases hp : parseGenericTypeName pattern with
    | none => rfl
    | some parsed =>
      rw [Bool.eq_iff_iff, List.any_eq_true, List.any_eq_true]
      refine exists_congr fun a => and_congr_right fun ha => ?_
      rw [ih ((length_of_mem_parseGenericTypeName hp).2 a ha)]

theorem foldlM_congr {α β : Type} {f g : β → α → Option β} {l : List α}
    (h : ∀ a ∈ l, ∀ b, f b a = g b a) (b : β) : l.foldlM f b = l.foldlM g b := by
  induction l generalizing b with
  | nil => rfl
  | cons a l ih =>
    rw [List.forall_mem_cons] at h
    rw [List.foldlM_cons, List.foldlM_cons, h.1]
    exact congrArg _ (funext fun b => ih h.2 b)

theorem unifyGenericTypeGo_congr : ∀ {n m : Nat} {pattern actual : TypeName}
    {θ : Bindings}, pattern.length < n → pattern.length < m →
      unifyGenericTypeGo parameters n pattern actual θ =
        unifyGenericTypeGo parameters m pattern actual θ
  | n + 1, m + 1, pattern, actual, θ, hn, hm => by
      have ih : ∀ {s a : TypeName} {θ}, s.length < pattern.length →
          unifyGenericTypeGo parameters n s a θ = unifyGenericTypeGo parameters m s a θ :=
        fun hs => unifyGenericTypeGo_congr (by omega) (by omega)
      unfold unifyGenericTypeGo
      split
      · rfl
      · split
        · rfl
        · split
          · rename_i harr
            exact ih (length_dropBrackets harr.1)
          · split
            · rename_i hptr
              exact ih (length_canonicalPointeeName hptr.1)
            · split
              · rename_i hp _
                split
                · rfl
                · exact foldlM_congr (fun pair hpair _ =>
                    ih ((length_of_mem_parseGenericTypeName hp).2 _ (List.of_mem_zip hpair).1)) _
              · rfl

/-- `UnifyGenericType`, as the source writes it. -/
theorem unifyGenericType_eq (pattern actual : TypeName) (θ : Bindings) :
    unifyGenericType pattern actual parameters θ =
      if ¬mentionsGenericParameter pattern parameters then some θ
      else if pattern ∈ parameters then
        if canonicalOpenOwnership actual ≠ .None ∧ canonicalOpenBaseName actual = pattern then
          some θ
        else match θ.find pattern with
          | none => some (θ.emplace pattern actual)
          | some found => if found = actual then some θ else none
      else if endsWith pattern "[]".toList ∧ endsWith actual "[]".toList then
        unifyGenericType (dropBrackets pattern) (dropBrackets actual) parameters θ
      else if canonicalOwnership pattern ≠ .None ∧
          canonicalOwnership pattern = canonicalOwnership actual then
        unifyGenericType (canonicalPointeeName pattern) (canonicalPointeeName actual) parameters θ
      else match parseGenericTypeName pattern, parseGenericTypeName actual with
        | some (patternBase, patternArguments), some (actualBase, actualArguments) =>
            if patternBase ≠ actualBase ∨ patternArguments.length ≠ actualArguments.length then none
            else (patternArguments.zip actualArguments).foldlM
              (fun θ pair => unifyGenericType pair.1 pair.2 parameters θ) θ
        | _, _ => if pattern = actual then some θ else none := by
  have ih : ∀ {s a : TypeName} {θ}, s.length < pattern.length →
      unifyGenericTypeGo parameters pattern.length s a θ = unifyGenericType s a parameters θ :=
    fun hs => unifyGenericTypeGo_congr hs (Nat.lt_succ_self _)
  conv_lhs => unfold unifyGenericType unifyGenericTypeGo
  simp only [List.contains_iff_mem]
  split
  · rfl
  · split
    · rfl
    · split
      · rename_i harr
        exact ih (length_dropBrackets harr.1)
      · split
        · rename_i hptr
          exact ih (length_canonicalPointeeName hptr.1)
        · cases hp : parseGenericTypeName pattern with
          | none => rfl
          | some parsed =>
            cases ha : parseGenericTypeName actual with
            | none => rfl
            | some parsed' =>
              have hargs : ∀ σ, (parsed.2.zip parsed'.2).foldlM (fun s pair =>
                  unifyGenericTypeGo parameters pattern.length pair.1 pair.2 s) σ =
                    (parsed.2.zip parsed'.2).foldlM (fun s pair =>
                      unifyGenericType pair.1 pair.2 parameters s) σ :=
                foldlM_congr fun pair hpair _ =>
                  ih ((length_of_mem_parseGenericTypeName hp).2 _ (List.of_mem_zip hpair).1)
              simp only [hargs]

end Bounds

end Absolute
