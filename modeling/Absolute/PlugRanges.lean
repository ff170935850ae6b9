import Absolute.PlugManager

/-!
# Two readings of a version range

`Satisfies` of the plugin loader and `SemVer::Satisfies` of the package manager on one
release version and one range of a single operator.

Both read `MAJOR.MINOR.PATCH` alike (`Release.parse_text`, `Release.parseVersion_text`).
The package manager has no branch for `=`, `>` and `<`: it reads such a range as the
version `0.0.0`. It takes the major number of a caret range for the whole of its
compatibility, also where that is zero.
-/

namespace Absolute

namespace Plugin

/-! ## Versions as they are written -/

def decimal (digits : Text) : ℕ := digits.foldl (fun n d => 10 * n + (d.toNat - '0'.toNat)) 0

/-- A number that fits an `int`. -/
structure Component where
  digits : Text
  nonempty : digits ≠ []
  isDigit : ∀ c ∈ digits, c.isDigit = true
  fits : decimal digits < 2 ^ 31

/-- `MAJOR.MINOR.PATCH` -/
structure Release where
  major : Component
  minor : Component
  patch : Component

def Release.text (r : Release) : Text :=
  r.major.digits ++ '.' :: (r.minor.digits ++ '.' :: r.patch.digits)

def Release.version (r : Release) : Version :=
  ⟨decimal r.major.digits, decimal r.minor.digits, decimal r.patch.digits⟩

/-- What may stand before the version of a range. -/
inductive Operator where
  | bare
  | equal
  | atLeast
  | atMost
  | above
  | below
  | caret
  | tilde
deriving DecidableEq

def Operator.text : Operator → Text
  | .bare => []
  | .equal => "=".toList
  | .atLeast => ">=".toList
  | .atMost => "<=".toList
  | .above => ">".toList
  | .below => "<".toList
  | .caret => "^".toList
  | .tilde => "~".toList

def rangeText (op : Operator) (required : Release) : Text := op.text ++ required.text

/-- The comparison the loader takes it for. -/
def Operator.rangeOp : Operator → RangeOp
  | .bare | .equal => .exactly
  | .atLeast => .atLeast
  | .atMost => .atMost
  | .above => .above
  | .below => .below
  | .caret => .caret
  | .tilde => .tilde

section Digits

variable {c : Char} {part : Component}

theorem ne_of_isDigit {d : Char} (hc : c.isDigit = true) (hd : d.isDigit = false) : c ≠ d := by
  rintro rfl
  rw [hc] at hd
  cases hd

theorem isSeparator_of_isDigit (hc : c.isDigit = true) : isSeparator c = false := by
  have hall : ([' ', '\t', '\n', '\r', '\x0b', '\x0c', ','].all fun d => !d.isDigit) = true := rfl
  unfold isSeparator
  rw [decide_eq_false_iff_not]
  intro hmem
  have hnot := List.all_eq_true.mp hall c hmem
  rw [hc] at hnot
  cases hnot

theorem Component.digits_ne_dot (part : Component) : ∀ c ∈ part.digits, (c == '.') = false :=
  fun c hc => beq_false_of_ne (ne_of_isDigit (part.isDigit c hc) rfl)

theorem parsePart_digits (text : Text) (part : Component) :
    parsePart text part.digits = .ok (decimal part.digits) := if_pos part.fits

theorem toInt_digits (part : Component) :
    Package.toInt part.digits = .ok (decimal part.digits) := if_pos part.fits

theorem number_digits (part : Component) :
    Package.number (some part.digits) = .ok (decimal part.digits) := toInt_digits part

theorem takeWhile_digits (part : Component) {rest : Text}
    (hrest : ∀ c ∈ rest.head?, c.isDigit = false) :
    (part.digits ++ rest).takeWhile Char.isDigit = part.digits := by
  rw [List.takeWhile_append_of_pos part.isDigit]
  cases rest with
  | nil => simp
  | cons c rest => simp [hrest c rfl]

theorem dropWhile_digits (part : Component) {rest : Text}
    (hrest : ∀ c ∈ rest.head?, c.isDigit = false) :
    (part.digits ++ rest).dropWhile Char.isDigit = rest := by
  rw [List.dropWhile_append_of_pos part.isDigit]
  cases rest with
  | nil => rfl
  | cons c rest => simp [hrest c rfl]

theorem component_digits (part : Component) {rest : Text}
    (hrest : ∀ c ∈ rest.head?, c.isDigit = false) :
    Package.component ('.' :: (part.digits ++ rest)) = (some part.digits, rest) := by
  change (if (part.digits ++ rest).takeWhile Char.isDigit = [] then _
    else (some ((part.digits ++ rest).takeWhile Char.isDigit), _)) = _
  rw [takeWhile_digits part hrest, dropWhile_digits part hrest, if_neg part.nonempty]

end Digits

/-- The loader reads a release as it is meant. -/
theorem Release.parseVersion_text (r : Release) : parseVersion r.text = .ok r.version := by
  have hsplit : r.text.splitOn '.' = [r.major.digits, r.minor.digits, r.patch.digits] := by
    unfold Release.text
    rw [List.splitOn_append_cons_of_forall_mem_beq_eq_false r.major.digits_ne_dot _
        (beq_self_eq_true _),
      List.splitOn_append_cons_of_forall_mem_beq_eq_false r.minor.digits_ne_dot _
        (beq_self_eq_true _),
      List.splitOn_eq_singleton_of_beq_eq_false r.patch.digits_ne_dot]
  have hall : ([r.major.digits, r.minor.digits, r.patch.digits].all fun part =>
      part ≠ [] && part.all Char.isDigit) = true := by
    simp [r.major.nonempty, r.minor.nonempty, r.patch.nonempty,
      List.all_eq_true.mpr r.major.isDigit, List.all_eq_true.mpr r.minor.isDigit,
      List.all_eq_true.mpr r.patch.isDigit]
  unfold parseVersion
  rw [hsplit]
  dsimp only
  rw [if_pos hall, parsePart_digits, parsePart_digits, parsePart_digits]
  rfl

theorem Release.text_eq_cons (r : Release) : ∃ c rest, r.text = c :: rest ∧ c.isDigit = true := by
  rcases List.exists_cons_of_ne_nil r.major.nonempty with ⟨c, digits, heq⟩
  refine ⟨c, digits ++ '.' :: (r.minor.digits ++ '.' :: r.patch.digits), ?_, ?_⟩
  · unfold Release.text
    rw [heq]
    rfl
  · exact r.major.isDigit c (heq ▸ List.mem_cons_self)

/-- So does the package manager. -/
theorem Release.parse_text (r : Release) :
    Package.SemVer.parse r.text
      = .ok ⟨r.version.major, r.version.minor, r.version.patch, []⟩ := by
  have hhead : r.text.head? ≠ some 'v' := by
    rcases r.text_eq_cons with ⟨c, rest, heq, hc⟩
    rw [heq]
    exact fun h => ne_of_isDigit hc rfl (Option.some.inj h)
  have hdot (text : Text) : ∀ c ∈ ('.' :: text).head?, c.isDigit = false := by
    rintro c hc
    cases hc
    rfl
  have hpatch : Package.component ('.' :: (r.patch.digits ++ [])) = (some r.patch.digits, []) :=
    component_digits r.patch fun c hc => by cases hc
  rw [List.append_nil] at hpatch
  unfold Package.SemVer.parse Package.SemVer.parseBody
  rw [if_neg hhead]
  unfold Release.text
  dsimp only
  rw [takeWhile_digits _ (hdot _), dropWhile_digits _ (hdot _), component_digits _ (hdot _), hpatch]
  change (if r.major.digits = [] then _ else _) = _
  rw [if_neg r.major.nonempty, toInt_digits, number_digits, number_digits]
  rfl

/-- A text that begins with an operator is no version, and is read as one. -/
theorem parse_operator {c : Char} (hdigit : c.isDigit = false) (hv : c ≠ 'v') (rest : Text) :
    Package.SemVer.parse (c :: rest) = .ok {} := by
  have hhead : (c :: rest).head? ≠ some 'v' := fun h => hv (Option.some.inj h)
  unfold Package.SemVer.parse Package.SemVer.parseBody
  rw [if_neg hhead, List.takeWhile_cons_of_neg (by simp [hdigit])]
  dsimp only
  split <;> rfl

/-! ## The two answers -/

theorem Release.text_no_separator (r : Release) : ∀ c ∈ r.text, isSeparator c = false := by
  intro c hc
  unfold Release.text at hc
  rw [List.mem_append, List.mem_cons, List.mem_append, List.mem_cons] at hc
  rcases hc with hc | rfl | hc | rfl | hc
  · exact isSeparator_of_isDigit (r.major.isDigit c hc)
  · rfl
  · exact isSeparator_of_isDigit (r.minor.isDigit c hc)
  · rfl
  · exact isSeparator_of_isDigit (r.patch.isDigit c hc)

theorem rangeText_no_separator (op : Operator) (required : Release) :
    ∀ c ∈ rangeText op required, isSeparator c = false := by
  have hop : (op.text.all fun c => !isSeparator c) = true := by cases op <;> rfl
  intro c hc
  rcases List.mem_append.mp hc with hc | hc
  · simpa using List.all_eq_true.mp hop c hc
  · exact required.text_no_separator c hc

theorem splitOp_rangeText (op : Operator) (required : Release) :
    splitOp (rangeText op required) = (op.rangeOp, required.text) := by
  rcases required.text_eq_cons with ⟨c, rest, heq, hc⟩
  have hne (d : Char) (hd : d.isDigit = false) : c ≠ d := ne_of_isDigit hc hd
  unfold rangeText
  rw [heq]
  cases op with
  | bare =>
      have h1 := hne '>' rfl
      have h2 := hne '<' rfl
      have h3 := hne '^' rfl
      have h4 := hne '~' rfl
      have h5 := hne '=' rfl
      change splitOp (c :: rest) = _
      unfold splitOp
      split <;> simp_all [Operator.rangeOp]
  | above =>
      have h1 := hne '=' rfl
      change splitOp ('>' :: c :: rest) = _
      unfold splitOp
      split <;> simp_all [Operator.rangeOp]
  | below =>
      have h1 := hne '=' rfl
      change splitOp ('<' :: c :: rest) = _
      unfold splitOp
      split <;> simp_all [Operator.rangeOp]
  | _ => rfl

theorem satisfies_rangeText (op : Operator) (version required : Release) :
    satisfies version.text (rangeText op required)
      = .ok (op.rangeOp.holds version.version required.version) := by
  rcases required.text_eq_cons with ⟨c, rest, heq, hc⟩
  have htext : required.text ≠ [] := by simp [heq]
  have hnonempty : rangeText op required ≠ [] := by simp [rangeText, htext]
  have hstar : ¬(rangeText op required = [] ∨ rangeText op required = "*".toList) := by
    rintro (h | h)
    · exact hnonempty h
    · have hsplit := splitOp_rangeText op required
      rw [h] at hsplit
      have hrest : "*".toList = required.text := congrArg Prod.snd hsplit
      rw [heq] at hrest
      exact ne_of_isDigit hc rfl (List.cons.inj hrest).1.symm
  unfold satisfies
  rw [if_neg hstar, version.parseVersion_text,
    List.splitOnP_eq_singleton (rangeText_no_separator op required)]
  dsimp only
  rw [List.filter_singleton, decide_eq_true hnonempty, cond_true]
  unfold satisfiesTokens
  rw [splitOp_rangeText]
  dsimp only
  rw [if_neg htext, required.parseVersion_text]
  dsimp only
  cases op.rangeOp.holds version.version required.version <;> rfl

/-- What the package manager compares. -/
def Operator.packageHolds (version required : Version) : Operator → Bool
  | .bare => version = required
  | .equal | .above | .below => version = ⟨0, 0, 0⟩
  | .atLeast => !version.less required
  | .atMost => !required.less version
  | .caret => version.major = required.major
      ∧ (required.minor < version.minor
        ∨ version.minor = required.minor ∧ required.patch ≤ version.patch)
  | .tilde => version.major = required.major ∧ version.minor = required.minor
      ∧ required.patch ≤ version.patch

/-- A range without an operator that the package manager knows. -/
theorem package_satisfies_other {version target : Package.SemVer} {text constraint : Text}
    (hversion : Package.SemVer.parse text = .ok version)
    (htarget : Package.SemVer.parse constraint = .ok target)
    (hspecial : ¬(constraint = "*".toList ∨ constraint = []))
    (hcaret : ∀ rest, constraint ≠ '^' :: rest) (htilde : ∀ rest, constraint ≠ '~' :: rest)
    (hatLeast : ∀ rest, constraint ≠ '>' :: '=' :: rest)
    (hatMost : ∀ rest, constraint ≠ '<' :: '=' :: rest) :
    Package.SemVer.satisfies text constraint = .ok (version.major = target.major
      ∧ version.minor = target.minor ∧ version.patch = target.patch) := by
  unfold Package.SemVer.satisfies
  rw [if_neg hspecial, hversion]
  dsimp only [bind, Except.bind]
  split
  · exact absurd rfl (hcaret _)
  · exact absurd rfl (htilde _)
  · exact absurd rfl (hatLeast _)
  · exact absurd rfl (hatMost _)
  · rw [htarget]

theorem Version.eq_iff {v w : Version} :
    v = w ↔ v.major = w.major ∧ v.minor = w.minor ∧ v.patch = w.patch := by
  cases v
  cases w
  simp

theorem Version.not_less_eq (v w : Version) :
    (!v.less w) = if v.major ≠ w.major then decide (w.major < v.major)
      else if v.minor ≠ w.minor then decide (w.minor < v.minor)
      else decide (w.patch ≤ v.patch) := by
  unfold Version.less
  split
  · rw [← decide_not, decide_eq_decide]
    omega
  split
  · rw [← decide_not, decide_eq_decide]
    omega
  · rw [← decide_not, decide_eq_decide]
    omega

theorem Version.not_less_eq' (v w : Version) :
    (!w.less v) = if v.major ≠ w.major then decide (v.major < w.major)
      else if v.minor ≠ w.minor then decide (v.minor < w.minor)
      else decide (v.patch ≤ w.patch) := by
  rw [Version.not_less_eq]
  simp only [ne_comm]

theorem package_satisfies_rangeText (op : Operator) (version required : Release) :
    Package.SemVer.satisfies version.text (rangeText op required)
      = .ok (op.packageHolds version.version required.version) := by
  rcases required.text_eq_cons with ⟨c, rest, heq, hc⟩
  have hne (d : Char) (hd : d.isDigit = false) : c ≠ d := ne_of_isDigit hc hd
  have hhead (d : Char) (hd : d.isDigit = false) (text : Text) : c :: rest ≠ d :: text :=
    fun h => hne d hd (List.cons.inj h).1
  have hparse := required.parse_text
  have hzero (d : Char) (hd : d.isDigit = false) (hv : d ≠ 'v')
      (hspecial : ¬(d :: c :: rest = "*".toList ∨ d :: c :: rest = []))
      (hcaret : d ≠ '^') (htilde : d ≠ '~') :
      Package.SemVer.satisfies version.text (d :: c :: rest)
        = .ok (version.version = ⟨0, 0, 0⟩) := by
    refine (package_satisfies_other version.parse_text (parse_operator hd hv _) hspecial
      (fun _ h => hcaret (List.cons.inj h).1) (fun _ h => htilde (List.cons.inj h).1)
      (fun _ h => hne '=' rfl (List.cons.inj (List.cons.inj h).2).1)
      fun _ h => hne '=' rfl (List.cons.inj (List.cons.inj h).2).1).trans ?_
    exact congrArg Except.ok (decide_eq_decide.mpr
      (Version.eq_iff (v := version.version) (w := ⟨0, 0, 0⟩)).symm)
  unfold rangeText
  rw [heq] at hparse ⊢
  cases op with
  | bare =>
      refine (package_satisfies_other version.parse_text hparse ?_ (hhead '^' rfl) (hhead '~' rfl)
        (fun _ => hhead '>' rfl _) fun _ => hhead '<' rfl _).trans ?_
      · rintro (h | h)
        · exact hhead '*' rfl _ h
        · cases h
      · exact congrArg Except.ok (decide_eq_decide.mpr
          (Version.eq_iff (v := version.version) (w := required.version)).symm)
  | equal => exact hzero '=' rfl (by decide) (by simp) (by decide) (by decide)
  | above => exact hzero '>' rfl (by decide) (by simp) (by decide) (by decide)
  | below => exact hzero '<' rfl (by decide) (by simp) (by decide) (by decide)
  | atLeast =>
      change Package.SemVer.satisfies version.text ('>' :: '=' :: c :: rest)
        = .ok (!version.version.less required.version)
      rw [Version.not_less_eq]
      unfold Package.SemVer.satisfies
      rw [if_neg (by simp), version.parse_text]
      simp only [bind, Except.bind, hparse]
  | atMost =>
      change Package.SemVer.satisfies version.text ('<' :: '=' :: c :: rest)
        = .ok (!required.version.less version.version)
      rw [Version.not_less_eq']
      unfold Package.SemVer.satisfies
      rw [if_neg (by simp), version.parse_text]
      simp only [bind, Except.bind, hparse]
  | caret =>
      change Package.SemVer.satisfies version.text ('^' :: c :: rest) = _
      unfold Package.SemVer.satisfies
      rw [if_neg (by simp), version.parse_text]
      simp only [bind, Except.bind, hparse]
      rfl
  | tilde =>
      change Package.SemVer.satisfies version.text ('~' :: c :: rest) = _
      unfold Package.SemVer.satisfies
      rw [if_neg (by simp), version.parse_text]
      simp only [bind, Except.bind, hparse]
      rfl

/-! ## Where they agree -/

/-- The loader counts a part of the range up that is the greatest `int`. -/
def Overflows (required : Version) : Operator → Prop
  | .caret =>
      if required.major ≠ 0 then required.major = 2 ^ 31 - 1
      else if required.minor ≠ 0 then required.minor = 2 ^ 31 - 1
      else required.patch = 2 ^ 31 - 1
  | .tilde => required.minor = 2 ^ 31 - 1
  | _ => False

/-- Both have an answer, and it is one; what an overflow answers is not defined. -/
def SameAnswer (op : Operator) (version required : Release) : Prop :=
  ¬Overflows required.version op ∧ ∃ answer,
    satisfies version.text (rangeText op required) = .ok answer
      ∧ Package.SemVer.satisfies version.text (rangeText op required) = .ok answer

/-- Where a range means the same to both. -/
def ReadAlike (version required : Version) : Operator → Prop
  | .bare | .atLeast | .atMost => True
  | .equal => required = ⟨0, 0, 0⟩ ∨ version ≠ required ∧ version ≠ ⟨0, 0, 0⟩
  | .above => version ≠ ⟨0, 0, 0⟩ ∧ ¬required.less version
  | .below => if version = ⟨0, 0, 0⟩ then required ≠ ⟨0, 0, 0⟩ else ¬version.less required
  | .tilde => ¬Overflows required .tilde
  | .caret => ¬Overflows required .caret
      ∧ (version.major = 0 → required.major = 0 → ¬version.less required →
        version.less (caretUpper required))

theorem Version.less_iff {v w : Version} : v.less w = true ↔ v.major < w.major
    ∨ v.major = w.major ∧ (v.minor < w.minor ∨ v.minor = w.minor ∧ v.patch < w.patch) := by
  unfold Version.less
  split
  · rw [decide_eq_true_iff]
    omega
  split
  · rw [decide_eq_true_iff]
    omega
  · rw [decide_eq_true_iff]
    omega

theorem same_tilde {v w : Version} :
    RangeOp.tilde.holds v w = Operator.tilde.packageHolds v w := by
  unfold RangeOp.holds Operator.packageHolds
  rw [Bool.eq_iff_iff, Bool.and_eq_true, Bool.not_eq_true', ← Bool.not_eq_true, Version.less_iff,
    Version.less_iff, decide_eq_true_iff]
  dsimp only
  omega

theorem same_caret_iff {v w : Version} :
    RangeOp.caret.holds v w = Operator.caret.packageHolds v w
      ↔ (v.major = 0 → w.major = 0 → ¬v.less w → v.less (caretUpper w)) := by
  unfold RangeOp.holds Operator.packageHolds caretUpper
  rw [Bool.eq_iff_iff, Bool.and_eq_true, Bool.not_eq_true', ← Bool.not_eq_true, Version.less_iff,
    Version.less_iff, decide_eq_true_iff]
  split
  · dsimp only
    omega
  split
  · dsimp only
    omega
  · dsimp only
    omega

theorem same_equal_iff {v w : Version} :
    RangeOp.exactly.holds v w = Operator.equal.packageHolds v w
      ↔ w = ⟨0, 0, 0⟩ ∨ v ≠ w ∧ v ≠ ⟨0, 0, 0⟩ := by
  unfold RangeOp.holds Operator.packageHolds
  rw [decide_eq_decide]
  constructor
  · intro h
    by_cases hw : w = ⟨0, 0, 0⟩
    · exact .inl hw
    · exact .inr ⟨fun heq => hw (heq ▸ h.mp heq), fun hzero => hw (h.mpr hzero ▸ hzero)⟩
  · rintro (rfl | ⟨hne, hzero⟩)
    · exact Iff.rfl
    · exact iff_of_false hne hzero

theorem Version.not_less_zero (v : Version) : v.less ⟨0, 0, 0⟩ = false := by
  rw [Bool.eq_false_iff, Ne, Version.less_iff]
  rintro (h | ⟨-, h | ⟨-, h⟩⟩) <;> exact Nat.not_lt_zero _ h

theorem same_above_iff {v w : Version} :
    RangeOp.above.holds v w = Operator.above.packageHolds v w
      ↔ v ≠ ⟨0, 0, 0⟩ ∧ ¬w.less v := by
  unfold RangeOp.holds Operator.packageHolds
  by_cases hzero : v = ⟨0, 0, 0⟩
  · rw [hzero, Version.not_less_zero]
    simp
  · rw [decide_eq_false hzero]
    simp [hzero]

theorem same_below_iff {v w : Version} :
    RangeOp.below.holds v w = Operator.below.packageHolds v w
      ↔ if v = ⟨0, 0, 0⟩ then w ≠ ⟨0, 0, 0⟩ else ¬v.less w := by
  unfold RangeOp.holds Operator.packageHolds
  by_cases hzero : v = ⟨0, 0, 0⟩
  · rw [if_pos hzero, decide_eq_true hzero, Version.less_iff, hzero, Ne, Version.eq_iff]
    dsimp only
    omega
  · rw [if_neg hzero, decide_eq_false hzero, Bool.not_eq_true]

/-- The loader and the package manager give one answer exactly if the range is read
alike. -/
theorem same_answer_iff (op : Operator) (version required : Release) :
    SameAnswer op version required ↔ ReadAlike version.version required.version op := by
  have hanswer : SameAnswer op version required ↔ ¬Overflows required.version op
      ∧ op.rangeOp.holds version.version required.version
        = op.packageHolds version.version required.version := by
    unfold SameAnswer
    rw [satisfies_rangeText, package_satisfies_rangeText]
    simp only [Except.ok.injEq, exists_eq_left']
    exact and_congr_right fun _ => eq_comm
  rw [hanswer]
  cases op with
  | bare => exact iff_of_true ⟨not_false, rfl⟩ trivial
  | atLeast => exact iff_of_true ⟨not_false, rfl⟩ trivial
  | atMost => exact iff_of_true ⟨not_false, rfl⟩ trivial
  | equal => exact (and_iff_right not_false).trans same_equal_iff
  | above => exact (and_iff_right not_false).trans same_above_iff
  | below => exact (and_iff_right not_false).trans same_below_iff
  | caret => exact and_congr_right fun _ => same_caret_iff
  | tilde => exact and_iff_left same_tilde

/-- `1.0.0` -/
def firstRelease : Release where
  major := ⟨['1'], by simp, List.forall_mem_singleton.mpr rfl, by decide⟩
  minor := ⟨['0'], by simp, List.forall_mem_singleton.mpr rfl, by decide⟩
  patch := ⟨['0'], by simp, List.forall_mem_singleton.mpr rfl, by decide⟩

/-- `=1.0.0` is met by `1.0.0` for the loader only. -/
theorem equal_not_same : ¬SameAnswer .equal firstRelease firstRelease := by
  rintro ⟨-, answer, hloader, hpackage⟩
  have htrue : satisfies firstRelease.text (rangeText .equal firstRelease) = .ok true := rfl
  have hfalse : Package.SemVer.satisfies firstRelease.text (rangeText .equal firstRelease)
      = .ok false := rfl
  rw [htrue] at hloader
  rw [hfalse] at hpackage
  cases hloader
  cases hpackage

end Plugin

end Absolute
