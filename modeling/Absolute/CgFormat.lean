import Mathlib.Data.List.Basic
import Mathlib.Tactic.Common

/-!
# Format templates

`CountFormatPlaceholders` of the analyzer and `BuildFormat` of the backend read the braces
of a template; what `BuildFormat` makes of it is read by `snprintf`. The two scanners see
the same segments (`countFormatPlaceholders_eq`, `buildFormat_ok_iff`), and what is printed
are the segments in their order (`snprintf_buildFormat`).
-/

namespace Absolute

namespace Format

/-- Bytes of a string. -/
abbrev Text := List Char

def openBrace : Char := '\x7b'
def closeBrace : Char := '\x7d'

/-! ## The scanners -/

def countFormatPlaceholders : Text → Option ℕ
  | [] => some 0
  | [c] => if c = openBrace ∨ c = closeBrace then none else some 0
  | c :: d :: rest =>
      if c = openBrace then
        if d = openBrace then countFormatPlaceholders rest
        else if d = closeBrace then (countFormatPlaceholders rest).map (· + 1)
        else none
      else if c = closeBrace then
        if d = closeBrace then countFormatPlaceholders rest else none
      else countFormatPlaceholders (d :: rest)

/-- The specifiers of `PreparePrintable`. -/
inductive Specifier where
  | s
  | c
  | d
  | u
  | lld
  | llu
  | g
deriving DecidableEq, Repr

def Specifier.text : Specifier → Text
  | s => ['%', 's']
  | c => ['%', 'c']
  | d => ['%', 'd']
  | u => ['%', 'u']
  | lld => ['%', 'l', 'l', 'd']
  | llu => ['%', 'l', 'l', 'u']
  | g => ['%', 'g']

/-- A value to print, and what the C library writes for it. -/
structure PrintableValue where
  specifier : Specifier
  text : Text

/-- `values[valueIndex++]` -/
def nextValue : List PrintableValue → Except String (PrintableValue × List PrintableValue)
  | [] => .error "format has too few values"
  | value :: values => .ok (value, values)

/-- The loop of `BuildFormat`, with the values not used yet. -/
def buildFormatGo : Text → Text → List PrintableValue → Except String Text
  | [], result, values =>
      if values.isEmpty then .ok result else .error "format has too many values"
  | [c], result, values =>
      if c = '%' then buildFormatGo [] (result ++ ['%', '%']) values
      else if c = openBrace then .error "format contains an unmatched '\x7b'"
      else if c = closeBrace then .error "format contains an unmatched '\x7d'"
      else buildFormatGo [] (result ++ [c]) values
  | c :: d :: rest, result, values =>
      if c = '%' then buildFormatGo (d :: rest) (result ++ ['%', '%']) values
      else if c = openBrace then
        if d = openBrace then buildFormatGo rest (result ++ [openBrace]) values
        else if d = closeBrace then do
          let (value, values) ← nextValue values
          buildFormatGo rest (result ++ value.specifier.text) values
        else .error "format contains an unmatched '\x7b'"
      else if c = closeBrace then
        if d = closeBrace then buildFormatGo rest (result ++ [closeBrace]) values
        else .error "format contains an unmatched '\x7d'"
      else buildFormatGo (d :: rest) (result ++ [c]) values

def buildFormat (source : Text) (values : List PrintableValue) : Except String Text :=
  buildFormatGo source [] values

/-! ## The C library -/

/-- A directive takes the next value, which has to be of its kind. -/
def directive (specifier : Specifier) (values : List PrintableValue)
    (rest : List PrintableValue → Option Text) : Option Text :=
  match values with
  | [] => none
  | value :: values =>
      if value.specifier = specifier then (rest values).map (value.text ++ ·) else none

/-- What `snprintf` writes: nothing after the first NUL of its format, and nothing that can
be relied on where a directive does not fit its argument. -/
def snprintf : Text → List PrintableValue → Option Text
  | [], _ => some []
  | '%' :: '%' :: rest, values => (snprintf rest values).map ('%' :: ·)
  | '%' :: 's' :: rest, values => directive .s values (snprintf rest)
  | '%' :: 'c' :: rest, values => directive .c values (snprintf rest)
  | '%' :: 'd' :: rest, values => directive .d values (snprintf rest)
  | '%' :: 'u' :: rest, values => directive .u values (snprintf rest)
  | '%' :: 'l' :: 'l' :: 'd' :: rest, values => directive .lld values (snprintf rest)
  | '%' :: 'l' :: 'l' :: 'u' :: rest, values => directive .llu values (snprintf rest)
  | '%' :: 'g' :: rest, values => directive .g values (snprintf rest)
  | c :: rest, values =>
      if c = '\x00' then some []
      else if c = '%' then none
      else (snprintf rest values).map (c :: ·)

/-- The buffer `EmitFormat` fills. -/
def emitFormat (format : Text) (values : List PrintableValue) : Option Text :=
  snprintf format values

/-! ## Segments -/

/-- What a template is made of. -/
inductive Segment where
  | character (c : Char)
  | value
deriving DecidableEq

def segments : Text → Option (List Segment)
  | [] => some []
  | [c] => if c = openBrace ∨ c = closeBrace then none else some [.character c]
  | c :: d :: rest =>
      if c = openBrace then
        if d = openBrace then (segments rest).map (.character openBrace :: ·)
        else if d = closeBrace then (segments rest).map (.value :: ·)
        else none
      else if c = closeBrace then
        if d = closeBrace then (segments rest).map (.character closeBrace :: ·) else none
      else (segments (d :: rest)).map (.character c :: ·)

/-- How many values the segments print. -/
def values (segs : List Segment) : ℕ := segs.count .value

/-- The format of segments. -/
def fill : List Segment → List PrintableValue → Text
  | [], _ => []
  | .character c :: segs, vs => (if c = '%' then ['%', '%'] else [c]) ++ fill segs vs
  | .value :: segs, v :: vs => v.specifier.text ++ fill segs vs
  | .value :: segs, [] => fill segs []

/-- The text of segments, cut at a NUL. -/
def output : List Segment → List PrintableValue → Text
  | [], _ => []
  | .character c :: segs, vs => if c = '\x00' then [] else c :: output segs vs
  | .value :: segs, v :: vs => v.text ++ output segs vs
  | .value :: segs, [] => output segs []

/-! ## One segment at a time -/

/-- A brace that is neither doubled nor part of a placeholder. -/
def Unmatched (c : Char) (rest : Text) : Prop :=
  (c = openBrace ∧ rest.head? ≠ some openBrace ∧ rest.head? ≠ some closeBrace)
    ∨ (c = closeBrace ∧ rest.head? ≠ some closeBrace)

/-- A template is read one segment at a time. -/
theorem template_induction {P : Text → Prop} (nil : P [])
    (doubled : ∀ {c rest}, c = openBrace ∨ c = closeBrace → P rest → P (c :: c :: rest))
    (value : ∀ {rest}, P rest → P (openBrace :: closeBrace :: rest))
    (plain : ∀ {c rest}, c ≠ openBrace → c ≠ closeBrace → P rest → P (c :: rest))
    (unmatched : ∀ {c rest}, Unmatched c rest → P (c :: rest)) (source : Text) : P source := by
  induction source using segments.induct with
  | case1 => exact nil
  | case2 c h => exact unmatched (h.imp (fun h => ⟨h, by simp⟩) (fun h => ⟨h, by simp⟩))
  | case3 c h => exact plain (fun hc => h (.inl hc)) (fun hc => h (.inr hc)) nil
  | case4 rest ih => exact doubled (.inl rfl) ih
  | case5 rest _ ih => exact value ih
  | case6 d rest hopen hclose =>
    exact unmatched (.inl ⟨rfl, by simpa using hopen, by simpa using hclose⟩)
  | case7 rest _ ih => exact doubled (.inr rfl) ih
  | case8 d rest hd _ => exact unmatched (.inr ⟨rfl, by simpa using hd⟩)
  | case9 c d rest hopen hclose ih => exact plain hopen hclose ih

theorem segments_single (c : Char) :
    segments [c] = if c = openBrace ∨ c = closeBrace then none else some [.character c] := rfl

theorem segments_pair (c d : Char) (rest : Text) :
    segments (c :: d :: rest) =
      if c = openBrace then
        if d = openBrace then (segments rest).map (.character openBrace :: ·)
        else if d = closeBrace then (segments rest).map (.value :: ·)
        else none
      else if c = closeBrace then
        if d = closeBrace then (segments rest).map (.character closeBrace :: ·) else none
      else (segments (d :: rest)).map (.character c :: ·) := rfl

theorem segments_doubled {c : Char} (h : c = openBrace ∨ c = closeBrace) (rest : Text) :
    segments (c :: c :: rest) = (segments rest).map (.character c :: ·) := by
  rcases h with rfl | rfl
  · rw [segments_pair, if_pos rfl, if_pos rfl]
  · rw [segments_pair, if_neg (by decide), if_pos rfl, if_pos rfl]

theorem segments_value (rest : Text) :
    segments (openBrace :: closeBrace :: rest) = (segments rest).map (.value :: ·) := by
  rw [segments_pair, if_pos rfl, if_neg (by decide), if_pos rfl]

theorem segments_plain {c : Char} (hopen : c ≠ openBrace) (hclose : c ≠ closeBrace)
    (rest : Text) : segments (c :: rest) = (segments rest).map (.character c :: ·) := by
  cases rest with
  | nil => rw [segments_single, if_neg (not_or.mpr ⟨hopen, hclose⟩)]; rfl
  | cons d rest => rw [segments_pair, if_neg hopen, if_neg hclose]

theorem segments_unmatched {c : Char} {rest : Text} (h : Unmatched c rest) :
    segments (c :: rest) = none := by
  cases rest with
  | nil => rw [segments_single, if_pos (h.imp And.left And.left)]
  | cons d rest =>
    simp only [Unmatched, List.head?_cons, ne_eq, Option.some.injEq] at h
    rcases h with ⟨rfl, hopen, hclose⟩ | ⟨rfl, hclose⟩
    · rw [segments_pair, if_pos rfl, if_neg hopen, if_neg hclose]
    · rw [segments_pair, if_neg (by decide), if_pos rfl, if_neg hclose]

/-- The analyzer counts the values among the segments. -/
theorem countFormatPlaceholders_eq (source : Text) :
    countFormatPlaceholders source = (segments source).map values := by
  induction source using template_induction with
  | nil => rfl
  | @doubled c rest h ih =>
    have hcount : countFormatPlaceholders (c :: c :: rest) = countFormatPlaceholders rest := by
      rcases h with rfl | rfl
      · rw [countFormatPlaceholders, if_pos rfl, if_pos rfl]
      · rw [countFormatPlaceholders, if_neg (by decide), if_pos rfl, if_pos rfl]
    rw [hcount, ih, segments_doubled h, Option.map_map]
    exact congrFun (congrArg Option.map (funext fun segs => by simp [values])) _
  | @value rest ih =>
    rw [countFormatPlaceholders, if_pos rfl, if_neg (by decide), if_pos rfl, ih, segments_value,
      Option.map_map, Option.map_map]
    exact congrFun (congrArg Option.map (funext fun segs => by simp [values])) _
  | @plain c rest hopen hclose ih =>
    have hcount : countFormatPlaceholders (c :: rest) = countFormatPlaceholders rest := by
      cases rest with
      | nil => simp [countFormatPlaceholders, hopen, hclose]
      | cons d rest => rw [countFormatPlaceholders, if_neg hopen, if_neg hclose]
    rw [hcount, ih, segments_plain hopen hclose, Option.map_map]
    exact congrFun (congrArg Option.map (funext fun segs => by simp [values])) _
  | @unmatched c rest h =>
    rw [segments_unmatched h, Option.map_none]
    cases rest with
    | nil => rw [countFormatPlaceholders, if_pos (h.imp And.left And.left)]
    | cons d rest =>
      simp only [Unmatched, List.head?_cons, ne_eq, Option.some.injEq] at h
      rcases h with ⟨rfl, hopen, hclose⟩ | ⟨rfl, hclose⟩
      · rw [countFormatPlaceholders, if_pos rfl, if_neg hopen, if_neg hclose]
      · rw [countFormatPlaceholders, if_neg (by decide), if_pos rfl, if_neg hclose]

/-! ## What is built -/

theorem buildFormatGo_single (c : Char) (result : Text) (vs : List PrintableValue) :
    buildFormatGo [c] result vs =
      if c = '%' then buildFormatGo [] (result ++ ['%', '%']) vs
      else if c = openBrace then .error "format contains an unmatched '\x7b'"
      else if c = closeBrace then .error "format contains an unmatched '\x7d'"
      else buildFormatGo [] (result ++ [c]) vs := rfl

theorem buildFormatGo_pair (c d : Char) (rest result : Text) (vs : List PrintableValue) :
    buildFormatGo (c :: d :: rest) result vs =
      if c = '%' then buildFormatGo (d :: rest) (result ++ ['%', '%']) vs
      else if c = openBrace then
        if d = openBrace then buildFormatGo rest (result ++ [openBrace]) vs
        else if d = closeBrace then do
          let (value, vs) ← nextValue vs
          buildFormatGo rest (result ++ value.specifier.text) vs
        else .error "format contains an unmatched '\x7b'"
      else if c = closeBrace then
        if d = closeBrace then buildFormatGo rest (result ++ [closeBrace]) vs
        else .error "format contains an unmatched '\x7d'"
      else buildFormatGo (d :: rest) (result ++ [c]) vs := rfl

theorem buildFormatGo_doubled {c : Char} (h : c = openBrace ∨ c = closeBrace) (rest result : Text)
    (vs : List PrintableValue) :
    buildFormatGo (c :: c :: rest) result vs = buildFormatGo rest (result ++ [c]) vs := by
  rcases h with rfl | rfl
  · rw [buildFormatGo_pair, if_neg (by decide), if_pos rfl, if_pos rfl]
  · rw [buildFormatGo_pair, if_neg (by decide), if_neg (by decide), if_pos rfl, if_pos rfl]

theorem buildFormatGo_value (rest result : Text) (vs : List PrintableValue) :
    buildFormatGo (openBrace :: closeBrace :: rest) result vs
      = nextValue vs >>= fun next =>
          buildFormatGo rest (result ++ next.1.specifier.text) next.2 := by
  rw [buildFormatGo_pair, if_neg (by decide), if_pos rfl, if_neg (by decide), if_pos rfl]

theorem buildFormatGo_plain {c : Char} (hopen : c ≠ openBrace) (hclose : c ≠ closeBrace)
    (rest result : Text) (vs : List PrintableValue) :
    buildFormatGo (c :: rest) result vs
      = buildFormatGo rest (result ++ if c = '%' then ['%', '%'] else [c]) vs := by
  cases rest with
  | nil =>
    by_cases hpercent : c = '%'
    · simp [buildFormatGo_single, hpercent]
    · simp [buildFormatGo_single, hpercent, hopen, hclose]
  | cons d rest =>
    rw [buildFormatGo_pair, if_neg hopen, if_neg hclose]
    split <;> rfl

theorem buildFormatGo_unmatched {c : Char} {rest : Text} (h : Unmatched c rest) (result : Text)
    (vs : List PrintableValue) :
    ∃ message, buildFormatGo (c :: rest) result vs = .error message := by
  cases rest with
  | nil =>
    rcases h with ⟨rfl, -, -⟩ | ⟨rfl, -⟩
    · exact ⟨_, by rw [buildFormatGo_single, if_neg (by decide), if_pos rfl]⟩
    · exact ⟨_, by rw [buildFormatGo_single, if_neg (by decide), if_neg (by decide), if_pos rfl]⟩
  | cons d rest =>
    simp only [Unmatched, List.head?_cons, ne_eq, Option.some.injEq] at h
    rcases h with ⟨rfl, hopen, hclose⟩ | ⟨rfl, hclose⟩
    · exact ⟨_, by rw [buildFormatGo_pair, if_neg (by decide), if_pos rfl, if_neg hopen, if_neg hclose]⟩
    · exact ⟨_, by rw [buildFormatGo_pair, if_neg (by decide), if_neg (by decide), if_pos rfl,
        if_neg hclose]⟩

/-- `BuildFormat` succeeds where there is a value for each of the placeholders, and puts its
specifier there. -/
theorem buildFormatGo_ok_iff {source result text : Text} {vs : List PrintableValue} :
    buildFormatGo source result vs = .ok text
      ↔ ∃ segs, segments source = some segs ∧ values segs = vs.length
        ∧ text = result ++ fill segs vs := by
  induction source using template_induction generalizing result vs with
  | nil =>
    cases vs with
    | nil => simp [buildFormatGo, segments, values, fill, eq_comm]
    | cons v vs => simp [buildFormatGo, segments, values]
  | @doubled c rest h ih =>
    have hpercent : c ≠ '%' := by rcases h with rfl | rfl <;> decide
    rw [buildFormatGo_doubled h, ih, segments_doubled h]
    simp [Option.map_eq_some_iff, values, fill, hpercent]
  | @value rest ih =>
    rw [buildFormatGo_value, segments_value]
    cases vs with
    | nil => simp [Option.map_eq_some_iff, values, nextValue, bind, Except.bind]
    | cons v vs =>
      simp only [nextValue, bind, Except.bind, ih, Option.map_eq_some_iff]
      simp [values, fill]
  | @plain c rest hopen hclose ih =>
    rw [buildFormatGo_plain hopen hclose, ih, segments_plain hopen hclose]
    simp [Option.map_eq_some_iff, values, fill]
  | @unmatched c rest h =>
    obtain ⟨message, hmessage⟩ := buildFormatGo_unmatched h result vs
    rw [hmessage, segments_unmatched h]
    simp

theorem buildFormat_eq_ok_iff {source text : Text} {vs : List PrintableValue} :
    buildFormat source vs = .ok text
      ↔ ∃ segs, segments source = some segs ∧ values segs = vs.length ∧ text = fill segs vs := by
  rw [buildFormat, buildFormatGo_ok_iff]
  simp only [List.nil_append]

/-! ## What is printed -/

theorem snprintf_character {c : Char} (h : c ≠ '%') (rest : Text) (vs : List PrintableValue) :
    snprintf (c :: rest) vs
      = if c = '\x00' then some [] else (snprintf rest vs).map (c :: ·) := by
  conv_lhs => unfold snprintf
  split <;> simp_all

theorem snprintf_specifier (v : PrintableValue) (rest : Text) (vs : List PrintableValue) :
    snprintf (v.specifier.text ++ rest) (v :: vs) = (snprintf rest vs).map (v.text ++ ·) := by
  have hdirective : directive v.specifier (v :: vs) (snprintf rest)
      = (snprintf rest vs).map (v.text ++ ·) := if_pos rfl
  rw [← hdirective]
  cases v.specifier <;> rfl

theorem snprintf_fill {segs : List Segment} {vs : List PrintableValue}
    (h : values segs = vs.length) : snprintf (fill segs vs) vs = some (output segs vs) := by
  induction segs generalizing vs with
  | nil => rfl
  | cons seg segs ih =>
    cases seg with
    | character c =>
      have hrest := ih (by simpa [values] using h)
      rw [fill, output]
      split
      · rename_i hpercent
        subst hpercent
        rw [List.cons_append, List.cons_append, List.nil_append, snprintf, hrest]
        rfl
      · rename_i hpercent
        rw [List.singleton_append, snprintf_character hpercent, hrest]
        split <;> rfl
    | value =>
      cases vs with
      | nil => simp [values] at h
      | cons v vs =>
        rw [fill, snprintf_specifier, ih (by simpa [values] using h), output]
        rfl

/-! ## How long a template and its output are -/

def isBrace (c : Char) : Bool := c = openBrace ∨ c = closeBrace

/-- The segments that are braces. -/
def braces (segs : List Segment) : ℕ :=
  segs.countP fun | .character c => isBrace c | .value => false

@[simp] theorem values_nil : values [] = 0 := rfl

@[simp] theorem values_character (c : Char) (segs : List Segment) :
    values (.character c :: segs) = values segs := by
  simp [values]

@[simp] theorem values_value (segs : List Segment) : values (.value :: segs) = values segs + 1 := by
  simp [values]

@[simp] theorem braces_nil : braces [] = 0 := rfl

@[simp] theorem braces_character (c : Char) (segs : List Segment) :
    braces (.character c :: segs) = braces segs + if isBrace c then 1 else 0 := by
  simp [braces, List.countP_cons]

@[simp] theorem braces_value (segs : List Segment) : braces (.value :: segs) = braces segs := by
  simp [braces]

theorem isBrace_iff {c : Char} : isBrace c = true ↔ c = openBrace ∨ c = closeBrace := by
  simp [isBrace]

/-- A placeholder takes two characters of a template, a brace that is printed two more
braces, any other character itself. -/
theorem length_of_segments {source : Text} {segs : List Segment} (h : segments source = some segs) :
    source.length = segs.length + values segs + braces segs
      ∧ source.countP isBrace = 2 * values segs + 2 * braces segs := by
  induction source using template_induction generalizing segs with
  | nil =>
    obtain rfl := Option.some.inj h
    simp
  | @doubled c rest hc ih =>
    rw [segments_doubled hc] at h
    obtain ⟨segs, hsegs, rfl⟩ := Option.map_eq_some_iff.mp h
    obtain ⟨hlength, hbraces⟩ := ih hsegs
    have hbrace := isBrace_iff.mpr hc
    simp only [List.length_cons, List.countP_cons, hlength, hbraces, hbrace, values_character,
      braces_character, if_true]
    omega
  | @value rest ih =>
    rw [segments_value] at h
    obtain ⟨segs, hsegs, rfl⟩ := Option.map_eq_some_iff.mp h
    obtain ⟨hlength, hbraces⟩ := ih hsegs
    have hopen : isBrace openBrace = true := rfl
    have hclose : isBrace closeBrace = true := rfl
    simp only [List.length_cons, List.countP_cons, hlength, hbraces, hopen, hclose, values_value,
      braces_value, if_true]
    omega
  | @plain c rest hopen hclose ih =>
    rw [segments_plain hopen hclose] at h
    obtain ⟨segs, hsegs, rfl⟩ := Option.map_eq_some_iff.mp h
    obtain ⟨hlength, hbraces⟩ := ih hsegs
    have hbrace : isBrace c = false := by simp [isBrace, hopen, hclose]
    simp only [List.length_cons, List.countP_cons, hlength, hbraces, hbrace, values_character,
      braces_character, Bool.false_eq_true, if_false]
    omega
  | @unmatched c rest hc =>
    rw [segments_unmatched hc] at h
    cases h

theorem character_mem_of_segments {source : Text} {segs : List Segment}
    (h : segments source = some segs) {c : Char} (hbrace : isBrace c = false) (hc : c ∈ source) :
    .character c ∈ segs := by
  induction source using template_induction generalizing segs with
  | nil => cases hc
  | @doubled d rest hd ih =>
    rw [segments_doubled hd] at h
    obtain ⟨segs, hsegs, rfl⟩ := Option.map_eq_some_iff.mp h
    have hne : c ≠ d := by
      rintro rfl
      rw [isBrace_iff.mpr hd] at hbrace
      cases hbrace
    simp only [List.mem_cons, hne, false_or] at hc
    exact List.mem_cons_of_mem _ (ih hsegs hc)
  | @value rest ih =>
    rw [segments_value] at h
    obtain ⟨segs, hsegs, rfl⟩ := Option.map_eq_some_iff.mp h
    have hopen : c ≠ openBrace := by rintro rfl; cases hbrace
    have hclose : c ≠ closeBrace := by rintro rfl; cases hbrace
    simp only [List.mem_cons, hopen, hclose, false_or] at hc
    exact List.mem_cons_of_mem _ (ih hsegs hc)
  | @plain d rest hopen hclose ih =>
    rw [segments_plain hopen hclose] at h
    obtain ⟨segs, hsegs, rfl⟩ := Option.map_eq_some_iff.mp h
    rcases List.mem_cons.mp hc with rfl | hc
    · exact List.mem_cons_self
    · exact List.mem_cons_of_mem _ (ih hsegs hc)
  | @unmatched d rest hd =>
    rw [segments_unmatched hd] at h
    cases h

/-- Values that print nothing leave the characters, up to a NUL. -/
theorem length_output {segs : List Segment} {vs : List PrintableValue}
    (hvs : ∀ v ∈ vs, v.text = []) :
    (output segs vs).length + values segs ≤ segs.length
      ∧ (.character '\x00' ∈ segs → (output segs vs).length + values segs < segs.length) := by
  have hvalues : ∀ segs, values segs ≤ segs.length := fun segs => List.count_le_length
  induction segs generalizing vs with
  | nil => exact ⟨Nat.le_refl _, fun h => by cases h⟩
  | cons seg segs ih =>
    cases seg with
    | character c =>
      have := hvalues segs
      obtain ⟨hle, hlt⟩ := ih hvs
      rw [output]
      split
      · simp only [List.length_nil, values_character, List.length_cons]
        omega
      · rename_i hc
        simp only [List.length_cons, values_character, List.mem_cons, Segment.character.injEq,
          Ne.symm hc, false_or]
        exact ⟨by omega, fun h => by have := hlt h; omega⟩
    | value =>
      have hmem : ∀ segs : List Segment, .character '\x00' ∈ Segment.value :: segs
          → .character '\x00' ∈ segs := by simp
      cases vs with
      | nil =>
        obtain ⟨hle, hlt⟩ := ih hvs
        rw [output, values_value, List.length_cons]
        exact ⟨by omega, fun h => by have := hlt (hmem _ h); omega⟩
      | cons v vs =>
        obtain ⟨hle, hlt⟩ := @ih vs fun w hw => hvs w (List.mem_cons_of_mem _ hw)
        rw [output, hvs v List.mem_cons_self, List.nil_append, values_value, List.length_cons]
        exact ⟨by omega, fun h => by have := hlt (hmem _ h); omega⟩

end Format

end Absolute
