import Absolute.StdText

/-!
# Splitting, joining and replacing

`split` looks at the text twice, first to count its parts and then to store them, each time in
code points over a remainder that gets shorter; `replace` looks at it once, in bytes and
behind what it has put in. All three passes cut the text at the same places, which are those
of `Occurrence.Pieces`.
-/

namespace Absolute

namespace Strings

open Occurrence

variable {t d : Text} {ps : List Text}

/-! ## The passes of `split` -/

theorem afterSeparator_eq {a b : Text} (ha : Stops a (d ++ b)) (hd : Stops d b) :
    afterSeparator (a ++ (d ++ b)) (codePointCount a) (codePointCount d) = b :=
  substringFrom_behind ha hd rfl

theorem countParts_eq (ht : Utf8.WellFormed t) (hd : Utf8.WellFormed d) (hne : d ≠ [])
    (h : Pieces d t ps) {rounds : ℕ} (hrounds : t.length ≤ rounds) (partCount : ℕ) :
    countParts d (codePointCount d) rounds t (partCount + 1) = partCount + ps.length := by
  induction h generalizing rounds partCount with
  | @last t hno =>
    cases rounds with
    | zero => rfl
    | succ rounds =>
      rw [countParts]
      simp only [indexOf_none hno]
      exact if_neg (by omega)
  | @cut a b ps hclear _ ih =>
    obtain ⟨ha, hb⟩ := ht.around hd hne
    have hpos := List.length_pos_iff.mpr hne
    rw [List.length_append, List.length_append] at hrounds
    obtain ⟨rounds, rfl⟩ : ∃ r, rounds = r + 1 := Nat.exists_eq_add_one.mpr (by omega)
    have hstop : Stops a (d ++ b) := .of_wellFormed ha _
    rw [countParts]
    simp only [indexOf_firstAt ⟨rfl, hclear⟩ hstop, afterSeparator_eq hstop (.of_wellFormed hd b)]
    rw [if_pos (by omega), ih hb (by omega), List.length_cons]
    omega

/-- What is stored at the end of the first parts. -/
theorem store_append {stored rest : List Text} {first : Text} (value : Text) :
    store (stored ++ first :: rest) stored.length value = .ok (stored ++ value :: rest) := by
  rw [store, if_pos (by rw [List.length_append, List.length_cons]; omega)]
  simp

theorem fillParts_eq (ht : Utf8.WellFormed t) (hd : Utf8.WellFormed d) (hne : d ≠ [])
    (h : Pieces d t ps) {rounds : ℕ} (hrounds : t.length ≤ rounds) (stored rest : List Text)
    (hrest : rest.length = ps.length) :
    fillParts d (codePointCount d) rounds t stored.length (stored ++ rest) =
      .ok (stored ++ ps) := by
  induction h generalizing rounds stored rest with
  | @last t hno =>
    obtain ⟨first, rfl⟩ := List.length_eq_one_iff.mp hrest
    cases rounds with
    | zero => exact store_append t
    | succ rounds =>
      rw [fillParts]
      simp only [indexOf_none hno]
      rw [if_neg (by omega), store_append]
  | @cut a b ps hclear _ ih =>
    obtain ⟨ha, hb⟩ := ht.around hd hne
    have hpos := List.length_pos_iff.mpr hne
    rw [List.length_append, List.length_append] at hrounds
    obtain ⟨rounds, rfl⟩ : ∃ r, rounds = r + 1 := Nat.exists_eq_add_one.mpr (by omega)
    obtain ⟨first, rest, rfl⟩ := List.exists_cons_of_length_eq_add_one hrest
    have hnext := ih hb (by omega : b.length ≤ rounds) (stored ++ [a]) rest
      (Nat.succ.inj hrest)
    rw [List.length_append, List.append_assoc, List.append_assoc] at hnext
    have hstop : Stops a (d ++ b) := .of_wellFormed ha _
    rw [fillParts]
    simp only [indexOf_firstAt ⟨rfl, hclear⟩ hstop, afterSeparator_eq hstop (.of_wellFormed hd b),
      substring_before hstop, store_append]
    rw [if_pos (by omega)]
    exact hnext

/-- The two passes agree on the parts. -/
theorem split_eq (ht : Utf8.WellFormed t) (hd : Utf8.WellFormed d) (hne : d ≠ [])
    (h : Pieces d t ps) : split t d = .ok ps := by
  have hpos := codePointCount_pos hne
  have hcount := countParts_eq ht hd hne h (Nat.le_refl _) 0
  rw [Nat.zero_add, Nat.zero_add] at hcount
  rw [split]
  simp only [hcount]
  rw [if_neg (by omega)]
  exact fillParts_eq ht hd hne h (Nat.le_refl _) [] _ List.length_replicate

/-! ## Joining and replacing -/

theorem intercalate_append_cons {d p q : Text} {ps : List Text} :
    d.intercalate ((p ++ q) :: ps) = p ++ d.intercalate (q :: ps) := by
  cases ps with
  | nil => simp [List.intercalate]
  | cons r ps =>
    rw [intercalate_cons (List.cons_ne_nil _ _), intercalate_cons (List.cons_ne_nil _ _),
      List.append_assoc]

theorem joinFrom_eq (d : Text) (ps : List Text) (builder : Text) :
    joinFrom d ps builder = d.intercalate (builder :: ps) := by
  induction ps generalizing builder with
  | nil => simp [joinFrom, List.intercalate]
  | cons p ps ih =>
    rw [joinFrom, ih, intercalate_append_cons, List.append_assoc,
      ← intercalate_cons (List.cons_ne_nil _ _)]

theorem join_eq (ps : List Text) (d : Text) : join ps d = d.intercalate ps := by
  cases ps with
  | nil => rfl
  | cons p ps => exact joinFrom_eq d ps p

/-- `replace` behind what it has written. -/
theorem replaceFrom_eq (hne : d ≠ []) (h : Pieces d t ps) (r : Text) {rounds : ℕ}
    (hrounds : t.length ≤ rounds) (written : Text) :
    replaceFrom d r rounds (written ++ t) written.length = written ++ r.intercalate ps := by
  induction h generalizing rounds written with
  | @last t hno =>
    have hone : r.intercalate [t] = t := by simp [List.intercalate]
    cases rounds with
    | zero => rw [replaceFrom, hone]
    | succ rounds =>
      rw [replaceFrom, List.drop_left, dropInfix?_eq_none.mpr hno, hone]
  | @cut a b ps hclear hps ih =>
    have hpos := List.length_pos_iff.mpr hne
    rw [List.length_append, List.length_append] at hrounds
    obtain ⟨rounds, rfl⟩ : ∃ r, rounds = r + 1 := Nat.exists_eq_add_one.mpr (by omega)
    have hnext := ih (by omega : b.length ≤ rounds) (written ++ a ++ r)
    have htake : (written ++ (a ++ (d ++ b))).take (written.length + a.length) =
        written ++ a := by
      rw [← List.append_assoc, ← List.length_append, List.take_left]
    rw [replaceFrom, List.drop_left, dropInfix?_eq_some.mpr ⟨rfl, hclear⟩]
    simp only [htake]
    rw [intercalate_cons hps.ne_nil, ← List.append_assoc, ← List.length_append,
      ← List.length_append, hnext]
    simp only [List.append_assoc]

theorem replace_none (hne : d ≠ []) (h : ¬d <:+: t) (r : Text) : replace t d r = t := by
  have hreplace := replaceFrom_eq hne (.last h) r (Nat.le_refl _) []
  rw [replace, if_neg hne]
  exact hreplace.trans (by simp [List.intercalate])

/-- Splitting a text, joining the parts again and replacing the delimiter in it. -/
theorem split_join_replace (ht : Utf8.WellFormed t) (hd : Utf8.WellFormed d) (hne : d ≠ []) :
    ∃ ps, split t d = .ok ps ∧ join ps d = t ∧ (∀ p ∈ ps, ¬d <:+: p) ∧
      ∀ r, replace t d r = join ps r := by
  obtain ⟨ps, hps⟩ := exists_pieces hne t
  refine ⟨ps, split_eq ht hd hne hps, ?_, fun p hp => hps.absent hne hp, ?_⟩
  · rw [join_eq, hps.intercalate_eq]
  · intro r
    have hreplace := replaceFrom_eq hne hps r (Nat.le_refl _) []
    rw [replace, if_neg hne, join_eq]
    exact hreplace

/-- Two delimiters in a row and one over a character of two bytes. -/
theorem split_join_replace_accents :
    ∃ ps, split (Utf8.encode "é--é-".toList) (Utf8.encode "-".toList) = .ok ps ∧
      join ps (Utf8.encode "-".toList) = Utf8.encode "é--é-".toList ∧
      (∀ p ∈ ps, ¬Utf8.encode "-".toList <:+: p) ∧
      ∀ r, replace (Utf8.encode "é--é-".toList) (Utf8.encode "-".toList) r = join ps r :=
  split_join_replace ⟨_, rfl⟩ ⟨_, rfl⟩ (by decide)

end Strings

end Absolute
