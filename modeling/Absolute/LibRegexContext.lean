import Absolute.LibRegex
import Mathlib.Data.List.Forall2

/-!
# What a match sees of its text

A match reads the characters it takes and, at a word boundary, those beside it. So text put
behind a place adds matches that go on into it and changes no other
(`ends_longer`); where no set of the expression takes the first character of that text,
it adds none (`ends_stopped`). Which characters a match can start and end with is read off
the expression (`first_of_mem`, `last_of_mem`), and so is, for some, that there is one match
at most (`Sole`).
-/

namespace Absolute

namespace Regex

/-! ## Alternatives -/

theorem oneOf_cons_cons (a b : Regex) (rest : List Regex) :
    oneOf (a :: b :: rest) = .alt a (oneOf (b :: rest)) := rfl

theorem ends_oneOf (rs : List Regex) (p : Place) :
    ends (oneOf rs) p = rs.flatMap fun r => ends r p := by
  induction rs with
  | nil =>
    obtain ⟨b, s⟩ := p
    cases s <;> rfl
  | cons r rs ih =>
    cases rs with
    | nil => simp [oneOf]
    | cons r' rs =>
      rw [oneOf_cons_cons, ends_alt, ih]
      rfl

theorem mem_ends_set {f : Char → Bool} {p q : Place} (h : q ∈ ends (.set f) p) :
    ∃ c, f c = true ∧ p.rest = c :: q.rest := by
  obtain ⟨b, s⟩ := p
  cases s with
  | nil => cases h
  | cons c s =>
    rw [ends_set_cons] at h
    split at h
    · rename_i hc
      rw [List.mem_singleton.mp h]
      exact ⟨c, hc, rfl⟩
    · cases h

/-! ## Turns of a repetition -/

/-- A turn is not taken, or one is and more may follow. -/
theorem mem_repeated {step : Place → List Place} {n : ℕ} {p q : Place}
    (h : q ∈ repeated step n p) :
    q = p ∨ ∃ m, ∃ r ∈ step p, r.rest.length < p.rest.length ∧ m < n ∧ q ∈ repeated step m r := by
  cases n with
  | zero => exact .inl (List.mem_singleton.mp h)
  | succ n =>
    rcases List.mem_append.mp h with h | h
    · obtain ⟨r, hr, hq⟩ := List.mem_flatMap.mp h
      split at hq
      · rename_i hlt
        exact .inr ⟨n, r, hr, hlt, Nat.lt_succ_self n, hq⟩
      · cases hq
    · exact .inl (List.mem_singleton.mp h)

theorem mem_repeatedLazily {step : Place → List Place} {n : ℕ} {p q : Place}
    (h : q ∈ repeatedLazily step n p) :
    q = p ∨ ∃ m, ∃ r ∈ step p,
      r.rest.length < p.rest.length ∧ m < n ∧ q ∈ repeatedLazily step m r := by
  cases n with
  | zero => exact .inl (List.mem_singleton.mp h)
  | succ n =>
    rcases List.mem_cons.mp h with h | h
    · exact .inl h
    · obtain ⟨r, hr, hq⟩ := List.mem_flatMap.mp h
      split at hq
      · rename_i hlt
        exact .inr ⟨n, r, hr, hlt, Nat.lt_succ_self n, hq⟩
      · cases hq

/-- What every turn keeps, all of them keep. -/
theorem repeated_keeps {step : Place → List Place} {P : Place → Prop}
    (h : ∀ p, P p → ∀ q ∈ step p, P q) {n : ℕ} {p q : Place} (hp : P p)
    (hq : q ∈ repeated step n p) : P q := by
  induction n using Nat.strong_induction_on generalizing p with
  | _ n ih =>
    rcases mem_repeated hq with rfl | ⟨m, r, hr, -, hm, hq⟩
    · exact hp
    · exact ih m hm (h p hp r hr) hq

theorem repeatedLazily_keeps {step : Place → List Place} {P : Place → Prop}
    (h : ∀ p, P p → ∀ q ∈ step p, P q) {n : ℕ} {p q : Place} (hp : P p)
    (hq : q ∈ repeatedLazily step n p) : P q := by
  induction n using Nat.strong_induction_on generalizing p with
  | _ n ih =>
    rcases mem_repeatedLazily hq with rfl | ⟨m, r, hr, -, hm, hq⟩
    · exact hp
    · exact ih m hm (h p hp r hr) hq

/-- More turns than there are characters are not taken. -/
theorem repeated_fuel {step : Place → List Place} {n m : ℕ} {p : Place}
    (hn : p.rest.length ≤ n) (hm : p.rest.length ≤ m) :
    repeated step n p = repeated step m p := by
  induction n generalizing m p with
  | zero =>
    cases m with
    | zero => rfl
    | succ m => simp [repeated, Nat.le_zero.mp hn]
  | succ n ih =>
    cases m with
    | zero => simp [repeated, Nat.le_zero.mp hm]
    | succ m =>
      rw [repeated, repeated]
      congr 1
      refine List.flatMap_congr fun q _ => ?_
      split
      · rename_i hlt
        exact ih (by omega) (by omega)
      · rfl

theorem repeatedLazily_fuel {step : Place → List Place} {n m : ℕ} {p : Place}
    (hn : p.rest.length ≤ n) (hm : p.rest.length ≤ m) :
    repeatedLazily step n p = repeatedLazily step m p := by
  induction n generalizing m p with
  | zero =>
    cases m with
    | zero => rfl
    | succ m => simp [repeatedLazily, Nat.le_zero.mp hn]
  | succ n ih =>
    cases m with
    | zero => simp [repeatedLazily, Nat.le_zero.mp hm]
    | succ m =>
      rw [repeatedLazily, repeatedLazily]
      congr 1
      refine List.flatMap_congr fun q _ => ?_
      split
      · rename_i hlt
        exact ih (by omega) (by omega)
      · rfl

/-! ## Text put behind -/

/-- Two places of which the second has some more text. -/
def Longer (s : List Char) (p p' : Place) : Prop := p'.rest = p.rest ++ s

/-- The places that leave a text of this length. -/
def leaving (s : List Char) (ps : List Place) : List Place :=
  ps.filter fun q => s.length ≤ q.rest.length

theorem leaving_append (s : List Char) (ps qs : List Place) :
    leaving s (ps ++ qs) = leaving s ps ++ leaving s qs := List.filter_append ..

theorem leaving_eq_self {s : List Char} {ps : List Place}
    (h : ∀ q ∈ ps, s.length ≤ q.rest.length) : leaving s ps = ps :=
  List.filter_eq_self.mpr fun q hq => decide_eq_true (h q hq)

theorem leaving_eq_nil {s : List Char} {ps : List Place}
    (h : ∀ q ∈ ps, q.rest.length < s.length) : leaving s ps = [] :=
  List.filter_eq_nil_iff.mpr fun q hq => by simpa using h q hq

theorem leaving_cons_of_le {s : List Char} {q : Place} (h : s.length ≤ q.rest.length)
    (ps : List Place) : leaving s (q :: ps) = q :: leaving s ps :=
  List.filter_cons_of_pos (decide_eq_true h)

theorem leaving_cons_of_lt {s : List Char} {q : Place} (h : q.rest.length < s.length)
    (ps : List Place) : leaving s (q :: ps) = leaving s ps :=
  List.filter_cons_of_neg (by simpa using h)

theorem leaving_longer {s : List Char} {p p' : Place} (h : Longer s p p') :
    leaving s [p'] = [p'] := by
  refine leaving_eq_self fun q hq => ?_
  rw [List.mem_singleton.mp hq, h, List.length_append]
  exact Nat.le_add_left _ _

/-- The places after which a step is taken are compared before the steps are. -/
theorem longer_flatMap {s : List Char} {l l' : List Place} {g g' : Place → List Place}
    (hl : List.Forall₂ (Longer s) l (leaving s l'))
    (hg : ∀ q q', Longer s q q' → List.Forall₂ (Longer s) (g q) (leaving s (g' q')))
    (hshrink : ∀ q, ∀ r ∈ g' q, r.rest.length ≤ q.rest.length) :
    List.Forall₂ (Longer s) (l.flatMap g) (leaving s (l'.flatMap g')) := by
  induction l' generalizing l with
  | nil =>
    cases hl
    exact .nil
  | cons q' l' ih =>
    rw [List.flatMap_cons, leaving_append]
    by_cases hq : s.length ≤ q'.rest.length
    · rw [leaving_cons_of_le hq] at hl
      cases hl with
      | cons hlonger hl => exact List.rel_append (hg _ _ hlonger) (ih hl)
    · rw [leaving_cons_of_lt (Nat.lt_of_not_le hq)] at hl
      rw [leaving_eq_nil fun r hr => by have := hshrink q' r hr; omega, List.nil_append]
      exact ih hl

/-- No word boundary is asked for. -/
def boundaryFree : Regex → Bool
  | .set _ => true
  | .empty => true
  | .seq a b => boundaryFree a && boundaryFree b
  | .alt a b => boundaryFree a && boundaryFree b
  | .star a => boundaryFree a
  | .lazyStar a => boundaryFree a
  | .wordBoundary => false

theorem longer_repeated {step : Place → List Place} {s : List Char}
    (hstep : ∀ p p', Longer s p p' → List.Forall₂ (Longer s) (step p) (leaving s (step p')))
    (hshrink : ∀ p, ∀ q ∈ step p, q.rest.length ≤ p.rest.length) (n : ℕ) {p p' : Place}
    (h : Longer s p p') :
    List.Forall₂ (Longer s) (repeated step n p) (leaving s (repeated step n p')) := by
  induction n generalizing p p' with
  | zero =>
    rw [repeated, repeated, leaving_longer h]
    exact .cons h .nil
  | succ n ih =>
    rw [repeated, repeated, leaving_append, leaving_longer h]
    refine List.rel_append (longer_flatMap (hstep p p' h) (fun q q' hq => ?_) ?_) (.cons h .nil)
    · have hlength : q'.rest.length < p'.rest.length ↔ q.rest.length < p.rest.length := by
        rw [hq, h, List.length_append, List.length_append]
        omega
      simp only [hlength]
      split
      · exact ih hq
      · exact .nil
    · intro q r hr
      split at hr
      · exact @repeated_keeps _ (fun r => r.rest.length ≤ q.rest.length)
          (fun p hp q hq => (hshrink p q hq).trans hp) _ _ _ le_rfl hr
      · cases hr

theorem longer_repeatedLazily {step : Place → List Place} {s : List Char}
    (hstep : ∀ p p', Longer s p p' → List.Forall₂ (Longer s) (step p) (leaving s (step p')))
    (hshrink : ∀ p, ∀ q ∈ step p, q.rest.length ≤ p.rest.length) (n : ℕ) {p p' : Place}
    (h : Longer s p p') :
    List.Forall₂ (Longer s) (repeatedLazily step n p) (leaving s (repeatedLazily step n p')) := by
  induction n generalizing p p' with
  | zero =>
    rw [repeatedLazily, repeatedLazily, leaving_longer h]
    exact .cons h .nil
  | succ n ih =>
    have hle : s.length ≤ p'.rest.length := by
      rw [h, List.length_append]
      exact Nat.le_add_left _ _
    rw [repeatedLazily, repeatedLazily, leaving_cons_of_le hle]
    refine .cons h (longer_flatMap (hstep p p' h) (fun q q' hq => ?_) ?_)
    · have hlength : q'.rest.length < p'.rest.length ↔ q.rest.length < p.rest.length := by
        rw [hq, h, List.length_append, List.length_append]
        omega
      simp only [hlength]
      split
      · exact ih hq
      · exact .nil
    · intro q r hr
      split at hr
      · exact @repeatedLazily_keeps _ (fun r => r.rest.length ≤ q.rest.length)
          (fun p hp q hq => (hshrink p q hq).trans hp) _ _ _ le_rfl hr
      · cases hr

theorem length_of_mem {r : Regex} {p q : Place} (h : q ∈ ends r p) :
    q.rest.length ≤ p.rest.length := (ends_suffix h).length_le

/-- Text behind a place adds ends in that text and nothing else. -/
theorem ends_longer {r : Regex} (hr : boundaryFree r = true) {s : List Char} {p p' : Place}
    (h : Longer s p p') : List.Forall₂ (Longer s) (ends r p) (leaving s (ends r p')) := by
  induction r generalizing p p' with
  | set f =>
    obtain ⟨b, t⟩ := p
    obtain ⟨b', t'⟩ := p'
    obtain rfl : t' = t ++ s := h
    cases t with
    | nil =>
      rw [ends_set_nil, leaving_eq_nil]
      · exact .nil
      · intro q hq
        obtain _ | ⟨c, s⟩ := s
        · cases hq
        · rw [List.nil_append, ends_set_cons] at hq
          split at hq
          · rw [List.mem_singleton.mp hq]
            exact Nat.lt_succ_self _
          · cases hq
    | cons c t =>
      rw [List.cons_append, ends_set_cons, ends_set_cons]
      split
      · rw [@leaving_longer s ⟨some c, t⟩ ⟨some c, t ++ s⟩ rfl]
        exact .cons rfl .nil
      · exact .nil
  | empty =>
    rw [ends, ends, leaving_longer h]
    exact .cons h .nil
  | seq a b iha ihb =>
    rw [boundaryFree, Bool.and_eq_true] at hr
    exact longer_flatMap (iha hr.1 h) (fun q q' hq => ihb hr.2 hq) fun q r hq => length_of_mem hq
  | alt a b iha ihb =>
    rw [boundaryFree, Bool.and_eq_true] at hr
    rw [ends, ends, leaving_append]
    exact List.rel_append (iha hr.1 h) (ihb hr.2 h)
  | star a ih =>
    rw [ends, ends, @repeated_fuel _ p.rest.length p'.rest.length p le_rfl (by rw [h]; simp)]
    exact longer_repeated (fun p p' h => ih hr h) (fun p q hq => length_of_mem hq) _ h
  | lazyStar a ih =>
    rw [ends, ends, @repeatedLazily_fuel _ p.rest.length p'.rest.length p le_rfl
      (by rw [h]; simp)]
    exact longer_repeatedLazily (fun p p' h => ih hr h) (fun p q hq => length_of_mem hq) _ h
  | wordBoundary => cases hr

/-- Some set of the expression takes the character. -/
def accepts : Regex → Char → Bool
  | .set f, c => f c
  | .empty, _ => false
  | .seq a b, c => accepts a c || accepts b c
  | .alt a b, c => accepts a c || accepts b c
  | .star a, c => accepts a c
  | .lazyStar a, c => accepts a c
  | .wordBoundary, _ => false

/-- A match stops at a character that no set takes. -/
theorem stop_of_mem {r : Regex} {c : Char} (hr : accepts r c = false) {s : List Char}
    {p q : Place} (hp : c :: s <:+ p.rest) (hq : q ∈ ends r p) : c :: s <:+ q.rest := by
  induction r generalizing p q with
  | set f =>
    obtain ⟨b, t⟩ := p
    cases t with
    | nil => cases hq
    | cons d t =>
      rw [ends_set_cons] at hq
      split at hq
      · rename_i hd
        rw [List.mem_singleton.mp hq]
        rcases List.suffix_cons_iff.mp hp with heq | hp
        · rw [accepts, (List.cons.inj heq).1] at hr
          exact absurd (hd.symm.trans hr) (by decide)
        · exact hp
      · cases hq
  | empty =>
    obtain rfl := List.mem_singleton.mp hq
    exact hp
  | seq a b iha ihb =>
    rw [accepts, Bool.or_eq_false_iff] at hr
    obtain ⟨m, hm, hq⟩ := List.mem_flatMap.mp hq
    exact ihb hr.2 (iha hr.1 hp hm) hq
  | alt a b iha ihb =>
    rw [accepts, Bool.or_eq_false_iff] at hr
    rcases List.mem_append.mp hq with hq | hq
    · exact iha hr.1 hp hq
    · exact ihb hr.2 hp hq
  | star a ih =>
    exact @repeated_keeps _ (c :: s <:+ ·.rest) (fun p hp q hq => ih hr hp hq) _ _ _ hp hq
  | lazyStar a ih =>
    exact @repeatedLazily_keeps _ (c :: s <:+ ·.rest) (fun p hp q hq => ih hr hp hq) _ _ _ hp hq
  | wordBoundary =>
    rw [ends] at hq
    split at hq
    · obtain rfl := List.mem_singleton.mp hq
      exact hp
    · cases hq

/-- Text behind a place that starts with such a character changes nothing. -/
theorem ends_stopped {r : Regex} (hr : boundaryFree r = true) {s : List Char}
    (hs : ∀ c ∈ s.head?, accepts r c = false) {p p' : Place} (h : Longer s p p') :
    List.Forall₂ (Longer s) (ends r p) (ends r p') := by
  have hall : ∀ q ∈ ends r p', s.length ≤ q.rest.length := by
    intro q hq
    cases s with
    | nil => exact Nat.zero_le _
    | cons c s => exact (stop_of_mem (hs c rfl) (h ▸ List.suffix_append ..) hq).length_le
  have := ends_longer hr h
  rwa [leaving_eq_self hall] at this

/-! ## The first and the last character -/

def nullable : Regex → Bool
  | .set _ => false
  | .empty => true
  | .seq a b => nullable a && nullable b
  | .alt a b => nullable a || nullable b
  | .star _ => true
  | .lazyStar _ => true
  | .wordBoundary => true

/-- What a match can start with. -/
def first : Regex → Char → Bool
  | .set f, c => f c
  | .empty, _ => false
  | .seq a b, c => first a c || (nullable a && first b c)
  | .alt a b, c => first a c || first b c
  | .star a, c => first a c
  | .lazyStar a, c => first a c
  | .wordBoundary, _ => false

/-- What a match can end with. -/
def last : Regex → Char → Bool
  | .set f, c => f c
  | .empty, _ => false
  | .seq a b, c => last b c || (nullable b && last a c)
  | .alt a b, c => last a c || last b c
  | .star a, c => last a c
  | .lazyStar a, c => last a c
  | .wordBoundary, _ => false

theorem first_oneOf (rs : List Regex) (c : Char) : first (oneOf rs) c = rs.any (first · c) := by
  induction rs with
  | nil => rfl
  | cons r rs ih =>
    cases rs with
    | nil => simp [oneOf]
    | cons r' rs =>
      rw [oneOf_cons_cons, first, ih]
      rfl

theorem first_literal (w : List Char) (c : Char) : first (literal w) c = w.head?.any (c = ·) := by
  cases w with
  | nil => rfl
  | cons d w => simp [literal, char, first, nullable]

/-- A match that starts with some character of a class. -/
def StartsIn (f : Char → Bool) (p q : Place) : Prop :=
  ∃ c s, p.rest = c :: s ∧ f c = true ∧ q.rest <:+ s

theorem StartsIn.mono {f g : Char → Bool} {p q r : Place} (h : StartsIn f p q)
    (hfg : ∀ c, f c = true → g c = true) (hr : r.rest <:+ q.rest) : StartsIn g p r := by
  obtain ⟨c, s, hrest, hc, hsuffix⟩ := h
  exact ⟨c, s, hrest, hfg c hc, hr.trans hsuffix⟩

theorem first_of_mem {r : Regex} {p q : Place} (h : q ∈ ends r p) :
    (q = p ∧ nullable r = true) ∨ StartsIn (first r) p q := by
  induction r generalizing p q with
  | set f =>
    obtain ⟨b, t⟩ := p
    cases t with
    | nil => cases h
    | cons c t =>
      rw [ends_set_cons] at h
      split at h
      · rename_i hc
        rw [List.mem_singleton.mp h]
        exact .inr ⟨c, t, rfl, hc, List.suffix_refl _⟩
      · cases h
  | empty => exact .inl ⟨List.mem_singleton.mp h, rfl⟩
  | seq a b iha ihb =>
    obtain ⟨m, hm, hq⟩ := List.mem_flatMap.mp h
    rcases iha hm with ⟨rfl, ha⟩ | hstart
    · rcases ihb hq with ⟨rfl, hb⟩ | hstart
      · exact .inl ⟨rfl, by rw [nullable, ha, hb]; rfl⟩
      · exact .inr (hstart.mono (fun c hc => by simp [first, ha, hc]) (List.suffix_refl _))
    · exact .inr (hstart.mono (fun c hc => by simp [first, hc]) (ends_suffix hq))
  | alt a b iha ihb =>
    rcases List.mem_append.mp h with h | h
    · rcases iha h with ⟨rfl, ha⟩ | hstart
      · exact .inl ⟨rfl, by simp [nullable, ha]⟩
      · exact .inr (hstart.mono (fun c hc => by simp [first, hc]) (List.suffix_refl _))
    · rcases ihb h with ⟨rfl, hb⟩ | hstart
      · exact .inl ⟨rfl, by simp [nullable, hb]⟩
      · exact .inr (hstart.mono (fun c hc => by simp [first, hc]) (List.suffix_refl _))
  | star a ih =>
    rcases mem_repeated h with rfl | ⟨m, t, ht, hlt, -, hq⟩
    · exact .inl ⟨rfl, rfl⟩
    · rcases ih ht with ⟨rfl, -⟩ | hstart
      · exact absurd hlt (lt_irrefl _)
      · exact .inr (hstart.mono (fun c hc => hc) (repeated_suffix (fun h => ends_suffix h) hq))
  | lazyStar a ih =>
    rcases mem_repeatedLazily h with rfl | ⟨m, t, ht, hlt, -, hq⟩
    · exact .inl ⟨rfl, rfl⟩
    · rcases ih ht with ⟨rfl, -⟩ | hstart
      · exact absurd hlt (lt_irrefl _)
      · exact .inr (hstart.mono (fun c hc => hc)
          (repeatedLazily_suffix (fun h => ends_suffix h) hq))
  | wordBoundary =>
    rw [ends] at h
    split at h
    · exact .inl ⟨List.mem_singleton.mp h, rfl⟩
    · cases h

/-- No match where the text starts with another character. -/
theorem ends_eq_nil {r : Regex} (hr : nullable r = false) {p : Place}
    (h : ∀ c ∈ p.rest.head?, first r c = false) : ends r p = [] := by
  refine List.eq_nil_iff_forall_not_mem.mpr fun q hq => ?_
  rcases first_of_mem hq with ⟨-, hnull⟩ | ⟨c, s, hrest, hc, -⟩
  · exact absurd (hnull.symm.trans hr) (by decide)
  · have := h c (by rw [hrest]; rfl)
    exact absurd (hc.symm.trans this) (by decide)

/-- A match that ends with some character of a class. -/
def EndsIn (f : Char → Bool) (q : Place) : Prop := ∃ c, q.before = some c ∧ f c = true

theorem EndsIn.mono {f g : Char → Bool} {q : Place} (h : EndsIn f q)
    (hfg : ∀ c, f c = true → g c = true) : EndsIn g q := by
  obtain ⟨c, hbefore, hc⟩ := h
  exact ⟨c, hbefore, hfg c hc⟩

theorem last_of_mem {r : Regex} {p q : Place} (h : q ∈ ends r p) :
    (q = p ∧ nullable r = true) ∨ EndsIn (last r) q := by
  induction r generalizing p q with
  | set f =>
    obtain ⟨b, t⟩ := p
    cases t with
    | nil => cases h
    | cons c t =>
      rw [ends_set_cons] at h
      split at h
      · rename_i hc
        rw [List.mem_singleton.mp h]
        exact .inr ⟨c, rfl, hc⟩
      · cases h
  | empty => exact .inl ⟨List.mem_singleton.mp h, rfl⟩
  | seq a b iha ihb =>
    obtain ⟨m, hm, hq⟩ := List.mem_flatMap.mp h
    rcases ihb hq with ⟨rfl, hb⟩ | hend
    · rcases iha hm with ⟨rfl, ha⟩ | hend
      · exact .inl ⟨rfl, by rw [nullable, ha, hb]; rfl⟩
      · exact .inr (hend.mono fun c hc => by simp [last, hb, hc])
    · exact .inr (hend.mono fun c hc => by simp [last, hc])
  | alt a b iha ihb =>
    rcases List.mem_append.mp h with h | h
    · rcases iha h with ⟨rfl, ha⟩ | hend
      · exact .inl ⟨rfl, by simp [nullable, ha]⟩
      · exact .inr (hend.mono fun c hc => by simp [last, hc])
    · rcases ihb h with ⟨rfl, hb⟩ | hend
      · exact .inl ⟨rfl, by simp [nullable, hb]⟩
      · exact .inr (hend.mono fun c hc => by simp [last, hc])
  | star a ih =>
    have hkeeps := @repeated_keeps (ends a) (fun r => r = p ∨ EndsIn (last a) r)
      (fun r hr q hq => by
        rcases ih hq with ⟨rfl, -⟩ | hend
        · exact hr
        · exact .inr hend) _ _ _ (.inl rfl) h
    exact hkeeps.imp (fun heq => ⟨heq, rfl⟩) id
  | lazyStar a ih =>
    have hkeeps := @repeatedLazily_keeps (ends a) (fun r => r = p ∨ EndsIn (last a) r)
      (fun r hr q hq => by
        rcases ih hq with ⟨rfl, -⟩ | hend
        · exact hr
        · exact .inr hend) _ _ _ (.inl rfl) h
    exact hkeeps.imp (fun heq => ⟨heq, rfl⟩) id
  | wordBoundary =>
    rw [ends] at h
    split at h
    · exact .inl ⟨List.mem_singleton.mp h, rfl⟩
    · cases h

/-- From one place to another over the text between them. -/
def Along (p q : Place) : Prop := ∃ w, p.rest = w ++ q.rest ∧ q.before = lastOf p.before w

theorem lastOf_append (b : Option Char) (v w : List Char) :
    lastOf b (v ++ w) = lastOf (lastOf b v) w := by
  induction v generalizing b with
  | nil => rfl
  | cons c v ih => exact ih (some c)

theorem Along.refl (p : Place) : Along p p := ⟨[], rfl, rfl⟩

theorem Along.trans {p q r : Place} (h : Along p q) (h' : Along q r) : Along p r := by
  obtain ⟨v, hv, hbefore⟩ := h
  obtain ⟨w, hw, hbefore'⟩ := h'
  refine ⟨v ++ w, by rw [hv, hw, List.append_assoc], ?_⟩
  rw [hbefore', hbefore, lastOf_append]

theorem along_of_mem {r : Regex} {p q : Place} (h : q ∈ ends r p) : Along p q := by
  induction r generalizing p q with
  | set f =>
    obtain ⟨b, t⟩ := p
    cases t with
    | nil => cases h
    | cons c t =>
      rw [ends_set_cons] at h
      split at h
      · rw [List.mem_singleton.mp h]
        exact ⟨[c], rfl, rfl⟩
      · cases h
  | empty => exact List.mem_singleton.mp h ▸ .refl p
  | seq a b iha ihb =>
    obtain ⟨m, hm, hq⟩ := List.mem_flatMap.mp h
    exact (iha hm).trans (ihb hq)
  | alt a b iha ihb =>
    rcases List.mem_append.mp h with h | h
    · exact iha h
    · exact ihb h
  | star a ih =>
    exact @repeated_keeps (ends a) (Along p) (fun r hr q hq => hr.trans (ih hq)) _ _ _ (.refl p) h
  | lazyStar a ih =>
    exact @repeatedLazily_keeps (ends a) (Along p) (fun r hr q hq => hr.trans (ih hq)) _ _ _
      (.refl p) h
  | wordBoundary =>
    rw [ends] at h
    split at h
    · exact List.mem_singleton.mp h ▸ .refl p
    · cases h

/-- What is before the end of a match is its last character. -/
theorem before_of_mem {r : Regex} {p q : Place} (h : q ∈ ends r p) {w : List Char}
    (hp : p.rest = w ++ q.rest) : q.before = lastOf p.before w := by
  obtain ⟨v, hv, hbefore⟩ := along_of_mem h
  rwa [List.append_cancel_right (hv.symm.trans hp)] at hbefore

/-! ## The first way to match -/

/-- What the first match leaves. -/
def Reaches (r : Regex) (p : Place) (s : List Char) : Prop :=
  ∃ q, (ends r p).head? = some q ∧ q.rest = s

theorem head?_flatMap_of_head? {α β : Type*} {l : List α} {f : α → List β} {a : α} {b : β}
    (ha : l.head? = some a) (hb : (f a).head? = some b) : (l.flatMap f).head? = some b := by
  obtain ⟨l', rfl⟩ := List.head?_eq_some_iff.mp ha
  rw [List.flatMap_cons, List.head?_append, hb]
  rfl

theorem reaches_set {f : Char → Bool} {c : Char} (hc : f c = true) {p : Place} {s : List Char}
    (hp : p.rest = c :: s) : Reaches (.set f) p s := by
  obtain ⟨b, t⟩ := p
  obtain rfl : t = c :: s := hp
  exact ⟨⟨some c, s⟩, by rw [ends_set_cons, if_pos hc]; rfl, rfl⟩

theorem reaches_empty (p : Place) : Reaches .empty p p.rest := ⟨p, rfl, rfl⟩

theorem Reaches.seq {a b : Regex} {p : Place} {s t : List Char} (ha : Reaches a p t)
    (hb : ∀ q, q.rest = t → Reaches b q s) : Reaches (.seq a b) p s := by
  obtain ⟨q, hq, hrest⟩ := ha
  obtain ⟨q', hq', hrest'⟩ := hb q hrest
  exact ⟨q', head?_flatMap_of_head? hq hq', hrest'⟩

theorem Reaches.left {a : Regex} {p : Place} {s : List Char} (h : Reaches a p s) (b : Regex) :
    Reaches (.alt a b) p s := by
  obtain ⟨q, hq, hrest⟩ := h
  exact ⟨q, by rw [ends_alt, List.head?_append, hq]; rfl, hrest⟩

theorem Reaches.right {a b : Regex} {p : Place} {s : List Char} (ha : ends a p = [])
    (h : Reaches b p s) : Reaches (.alt a b) p s := by
  rwa [Reaches, ends_alt, ha, List.nil_append]

theorem reaches_star_nil {a : Regex} {p : Place} (h : ends a p = []) :
    Reaches (.star a) p p.rest := by
  refine ⟨p, ?_, rfl⟩
  rw [ends]
  cases p.rest.length with
  | zero => rfl
  | succ n => rw [repeated, h, List.flatMap_nil, List.nil_append, List.head?_cons]

theorem Reaches.star_cons {a : Regex} {p : Place} {s t : List Char} (ha : Reaches a p t)
    (hlt : t.length < p.rest.length) (h : ∀ q, q.rest = t → Reaches (.star a) q s) :
    Reaches (.star a) p s := by
  obtain ⟨q, hq, rfl⟩ := ha
  obtain ⟨q', hq', hrest⟩ := h q rfl
  refine ⟨q', ?_, hrest⟩
  rw [ends]
  cases hlength : p.rest.length with
  | zero => rw [hlength] at hlt; cases hlt
  | succ n =>
    rw [repeated, List.head?_append]
    have hfirst : ((ends a p).flatMap fun q =>
        if q.rest.length < p.rest.length then repeated (ends a) n q else []).head? = some q' := by
      refine head?_flatMap_of_head? hq ?_
      rw [if_pos hlt, repeated_fuel (by omega) le_rfl]
      exact hq'
    rw [hfirst]
    rfl

/-- The first match of a text is that of a longer one that goes on with what no set takes. -/
theorem Reaches.stopped {r : Regex} (hr : boundaryFree r = true) {s t : List Char}
    (hs : ∀ c ∈ s.head?, accepts r c = false) {p p' : Place} (h : Reaches r p t)
    (hlonger : Longer s p p') : Reaches r p' (t ++ s) := by
  obtain ⟨q, hq, rfl⟩ := h
  obtain ⟨l, hl⟩ := List.head?_eq_some_iff.mp hq
  have hends := ends_stopped hr hs hlonger
  rw [hl] at hends
  cases hends' : ends r p' with
  | nil =>
    rw [hends'] at hends
    cases hends
  | cons q' l' =>
    rw [hends'] at hends
    cases hends with
    | cons hq' _ => exact ⟨q', by rw [hends']; rfl, hq'⟩

/-- The text of a match alone is matched whole. -/
theorem Reaches.alone {r : Regex} (hr : boundaryFree r = true) {p : Place} {value s : List Char}
    (hp : p.rest = value ++ s) (h : Reaches r p s) (b : Option Char) :
    Reaches r ⟨b, value⟩ [] := by
  obtain ⟨q, hq, hrest⟩ := h
  have hlonger := @ends_longer _ hr s ⟨b, value⟩ p hp
  obtain ⟨l, hl⟩ := List.head?_eq_some_iff.mp hq
  rw [hl, leaving_cons_of_le (hrest ▸ le_rfl)] at hlonger
  cases hends : ends r ⟨b, value⟩ with
  | nil =>
    rw [hends] at hlonger
    cases hlonger
  | cons q' l' =>
    rw [hends] at hlonger
    cases hlonger with
    | cons hlonger _ =>
      refine ⟨q', by rw [hends]; rfl, ?_⟩
      rw [Longer, hrest] at hlonger
      exact List.append_left_eq_self.mp hlonger.symm

/-! ## One match at most -/

/-- There is one way to match at most. -/
def Sole (r : Regex) : Prop := ∀ p, (ends r p).length ≤ 1

theorem sole_set (f : Char → Bool) : Sole (.set f) := by
  rintro ⟨b, t⟩
  cases t with
  | nil => exact Nat.zero_le _
  | cons c t =>
    rw [ends_set_cons]
    split <;> simp

theorem length_flatMap_le_one {α β : Type*} {l : List α} {f : α → List β} (hl : l.length ≤ 1)
    (hf : ∀ a ∈ l, (f a).length ≤ 1) : (l.flatMap f).length ≤ 1 := by
  match l, hl with
  | [], _ => exact Nat.zero_le _
  | [a], _ =>
    rw [List.flatMap_singleton]
    exact hf a List.mem_cons_self

theorem Sole.seq {a b : Regex} (ha : Sole a) (hb : Sole b) : Sole (.seq a b) :=
  fun p => length_flatMap_le_one (ha p) fun q _ => hb q

/-- Alternatives that start with different characters. -/
theorem Sole.alt {a b : Regex} (ha : Sole a) (hb : Sole b) (hanull : nullable a = false)
    (hbnull : nullable b = false) (h : ∀ c, first a c = true → first b c = false) :
    Sole (.alt a b) := by
  intro p
  rw [ends]
  by_cases hfirst : ∀ c ∈ p.rest.head?, first a c = false
  · rw [ends_eq_nil hanull hfirst, List.nil_append]
    exact hb p
  · have hsecond : ∀ c ∈ p.rest.head?, first b c = false := by
      push Not at hfirst
      obtain ⟨c, hc, hac⟩ := hfirst
      intro d hd
      obtain rfl := Option.mem_unique hc hd
      exact h _ (by simpa using hac)
    rw [ends_eq_nil hbnull hsecond, List.append_nil]
    exact ha p

/-- A repetition that is followed by what no turn starts with. -/
theorem eq_singleton_of_mem {α : Type} {l : List α} {x : α} (h : l.length ≤ 1) (hx : x ∈ l) :
    l = [x] := by
  obtain ⟨y, rfl⟩ := List.length_eq_one_iff.mp (le_antisymm h (List.length_pos_of_mem hx))
  rw [List.mem_singleton.mp hx]

theorem Sole.star_seq {a b : Regex} (ha : Sole a) (hb : Sole b) (hbnull : nullable b = false)
    (h : ∀ c, first a c = true → first b c = false) : Sole (.seq (.star a) b) := by
  have hrepeated : ∀ n p, ((repeated (ends a) n p).flatMap (ends b)).length ≤ 1 := by
    intro n
    induction n with
    | zero =>
      intro p
      rw [repeated, List.flatMap_singleton]
      exact hb p
    | succ n ih =>
      intro p
      rw [repeated, List.flatMap_append, List.flatMap_singleton]
      by_cases hturn : ∃ q ∈ ends a p, q.rest.length < p.rest.length
      · obtain ⟨q, hq, hlt⟩ := hturn
        have hsecond : ends b p = [] := by
          refine ends_eq_nil hbnull fun c hc => ?_
          rcases first_of_mem hq with ⟨rfl, -⟩ | ⟨d, s, hrest, hd, -⟩
          · exact absurd hlt (lt_irrefl _)
          · rw [hrest] at hc
            exact h c (Option.some.inj hc ▸ hd)
        have hsole : ends a p = [q] := eq_singleton_of_mem (ha p) hq
        rw [hsecond, List.append_nil, hsole, List.flatMap_singleton, if_pos hlt]
        exact ih q
      · have hnone : (ends a p).flatMap (fun q =>
            if q.rest.length < p.rest.length then repeated (ends a) n q else []) = [] := by
          refine List.flatMap_eq_nil_iff.mpr fun q hq => if_neg fun hlt => hturn ⟨q, hq, hlt⟩
        rw [hnone, List.flatMap_nil, List.nil_append]
        exact hb p
  exact fun p => hrepeated _ p

/-- Where there is one match at most, any text may follow. -/
theorem Sole.reaches {r : Regex} (hsole : Sole r) (hr : boundaryFree r = true) {p p' : Place}
    {s t : List Char} (h : Reaches r p t) (hlonger : Longer s p p') : Reaches r p' (t ++ s) := by
  obtain ⟨q, hq, rfl⟩ := h
  obtain ⟨l, hl⟩ := List.head?_eq_some_iff.mp hq
  have hends := ends_longer hr hlonger
  rw [hl] at hends
  cases hleaving : leaving s (ends r p') with
  | nil =>
    rw [hleaving] at hends
    cases hends
  | cons q' l' =>
    rw [hleaving] at hends
    have hmem : q' ∈ ends r p' := List.mem_of_mem_filter (hleaving ▸ List.mem_cons_self)
    cases hends with
    | cons hq' _ => exact ⟨q', by rw [eq_singleton_of_mem (hsole p') hmem]; rfl, hq'⟩

end Regex

end Absolute
