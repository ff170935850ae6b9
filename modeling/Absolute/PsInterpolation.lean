import Absolute.CgFormat

/-!
# Interpolated strings

`ParseStringLiteralExpr` turns a literal with `${..}` parts into a call of `format`: the
text between the parts goes into the template as it is, each part becomes a placeholder and
its expression an argument. What the template does with braces and NULs it then does with
those of the text, and what a part holds after its expression is dropped.

`meansConcatenation_iff` says for which literals the call renders the text and the parts in
their order. The lexer and the parser of expressions are parameters.
-/

namespace Absolute

namespace Interpolation

open Format

/-! ## The parser -/

/-- What the letter of an escape stands for. -/
def escapeOf (c : Char) : Option Char :=
  if c = '0' then some '\x00'
  else if c = 'a' then some '\x07'
  else if c = 'b' then some '\x08'
  else if c = 'f' then some '\x0c'
  else if c = 'n' then some '\n'
  else if c = 'r' then some '\r'
  else if c = 't' then some '\t'
  else if c = 'v' then some '\x0b'
  else if c = '\\' ∨ c = '"' ∨ c = '\x27' ∨ c = '$' then some c
  else none

def unescapeString : Text → Except String Text
  | [] => .ok []
  | [c] => if c = '\\' then .error "Incomplete escape sequence in literal" else .ok [c]
  | c :: d :: rest =>
      if c = '\\' then
        match escapeOf d with
        | none => .error ("Unsupported escape sequence: \\" ++ String.singleton d)
        | some e => (unescapeString rest).map (e :: ·)
      else (unescapeString (d :: rest)).map (c :: ·)

/-- The loop that sets `hasInterpolation`. -/
def hasInterpolation : Text → Bool
  | [] => false
  | [_] => false
  | c :: d :: rest =>
      if c = '\\' then hasInterpolation rest
      else if c = '$' ∧ d = openBrace then true
      else hasInterpolation (d :: rest)

/-- Where the loop over a literal is: between parts, or in one, with the braces that are
open and what it has read of the part. -/
inductive Mode where
  | text
  | part (braceDepth : ℕ) (code : Text)

/-- The loop over the literal, with `formatTemplate`, `currentSegment` and `exprStrings`. -/
def interpolate : Mode → Text → Text → List Text → Text → Except String (Text × List Text)
  | .text, template, segment, parts, [] => do
      let text ← unescapeString segment
      return (template ++ text, parts)
  | .text, template, segment, parts, [c] =>
      interpolate .text template (segment ++ [c]) parts []
  | .text, template, segment, parts, c :: d :: rest =>
      if c = '\\' then
        if d = '$' then interpolate .text template (segment ++ ['$']) parts rest
        else interpolate .text template (segment ++ ['\\', d]) parts rest
      else if c = '$' ∧ d = openBrace then do
        let text ← unescapeString segment
        interpolate (.part 1 []) (template ++ text ++ [openBrace, closeBrace]) [] parts rest
      else interpolate .text template (segment ++ [c]) parts (d :: rest)
  | .part _ _, _, _, _, [] => .error "Unmatched '\x7b' in string interpolation"
  | .part depth code, template, segment, parts, c :: rest =>
      if c = openBrace then
        interpolate (.part (depth + 1) (code ++ [c])) template segment parts rest
      else if c = closeBrace then
        if depth = 1 then interpolate .text template segment (parts ++ [code]) rest
        else interpolate (.part (depth - 1) (code ++ [c])) template segment parts rest
      else interpolate (.part depth (code ++ [c])) template segment parts rest

/-- The parser of the expressions: its lexer, and `ParseExpression` with the tokens it
leaves. -/
structure ExpressionParser (Token Expr : Type*) where
  lexer : Text → Except String (List Token)
  parseExpression : List Token → Except String (Option Expr × List Token)

/-- What a string literal is parsed to. -/
inductive Parsed (Expr : Type*) where
  | literal (value : Text)
  | format (template : Text) (arguments : List Expr)

variable {Token Expr : Type*}

def parsePart (P : ExpressionParser Token Expr) (code : Text) : Except String Expr :=
  match P.lexer code with
  | .error message => .error message
  | .ok [] => .error "Empty expression in string interpolation"
  | .ok tokens =>
      match P.parseExpression tokens with
      | .error message => .error message
      | .ok (none, _) => .error "Failed to parse expression in string interpolation"
      | .ok (some parsed, _) => .ok parsed

def parseParts (P : ExpressionParser Token Expr) : List Text → Except String (List Expr)
  | [] => .ok []
  | code :: codes =>
      match parsePart P code with
      | .error message => .error message
      | .ok parsed => (parseParts P codes).map (parsed :: ·)

/-- `ParseStringLiteralExpr` on what stands between the quotes. -/
def parseStringLiteralExpr (P : ExpressionParser Token Expr) (rawContent : Text) :
    Except String (Parsed Expr) :=
  if hasInterpolation rawContent then
    match interpolate .text [] [] [] rawContent with
    | .error message => .error message
    | .ok (template, parts) => (parseParts P parts).map (.format template)
  else (unescapeString rawContent).map .literal

/-! ## Pieces -/

/-- What a literal is made of: text with its escapes, and the code of parts. -/
inductive Piece where
  | text (segment : Text)
  | part (code : Text)
deriving DecidableEq

def piecesFrom : Mode → Text → Text → List Piece
  | .text, segment, [] => [.text segment]
  | .text, segment, [c] => [.text (segment ++ [c])]
  | .text, segment, c :: d :: rest =>
      if c = '\\' then
        if d = '$' then piecesFrom .text (segment ++ ['$']) rest
        else piecesFrom .text (segment ++ ['\\', d]) rest
      else if c = '$' ∧ d = openBrace then .text segment :: piecesFrom (.part 1 []) [] rest
      else piecesFrom .text (segment ++ [c]) (d :: rest)
  | .part _ _, _, [] => []
  | .part depth code, segment, c :: rest =>
      if c = openBrace then piecesFrom (.part (depth + 1) (code ++ [c])) segment rest
      else if c = closeBrace then
        if depth = 1 then .part code :: piecesFrom .text segment rest
        else piecesFrom (.part (depth - 1) (code ++ [c])) segment rest
      else piecesFrom (.part depth (code ++ [c])) segment rest

def pieces (rawContent : Text) : List Piece := piecesFrom .text [] rawContent

/-- The pieces with the escapes of their text read. -/
def unescapePieces : List Piece → Except String (List Piece)
  | [] => .ok []
  | .text segment :: rest => do
      let text ← unescapeString segment
      let pieces ← unescapePieces rest
      return .text text :: pieces
  | .part code :: rest => do
      let pieces ← unescapePieces rest
      return .part code :: pieces

/-- The text of the pieces, with a value printed for each part. -/
def render : List Piece → List PrintableValue → Text
  | [], _ => []
  | .text text :: rest, vs => text ++ render rest vs
  | .part _ :: rest, v :: vs => v.text ++ render rest vs
  | .part _ :: rest, [] => render rest []

/-- The code of the parts. -/
def codes : List Piece → List Text
  | [] => []
  | .text _ :: rest => codes rest
  | .part code :: rest => code :: codes rest

/-- The template of pieces. -/
def template : List Piece → Text
  | [] => []
  | .text text :: rest => text ++ template rest
  | .part _ :: rest => openBrace :: closeBrace :: template rest

/-- A part that is one expression and nothing else. -/
def Whole (P : ExpressionParser Token Expr) (code : Text) : Prop :=
  ∃ tokens parsed, P.lexer code = .ok tokens ∧ P.parseExpression tokens = .ok (some parsed, [])

/-- A literal with parts that the parser accepts. -/
def Accepted (P : ExpressionParser Token Expr) (rawContent : Text) : Prop :=
  ∃ format arguments, parseStringLiteralExpr P rawContent = .ok (.format format arguments)

/-- What is asked of a literal, and of the scanners of templates. -/
structure MeansConcatenation (P : ExpressionParser Token Expr) (rawContent : Text) : Prop where
  /-- A literal that is accepted prints its pieces. -/
  renders : ∀ format arguments,
    parseStringLiteralExpr P rawContent = .ok (.format format arguments) →
      (∀ code ∈ codes (pieces rawContent), Whole P code)
      ∧ countFormatPlaceholders format = some arguments.length
      ∧ ∃ unescaped, unescapePieces (pieces rawContent) = .ok unescaped
        ∧ ∀ vs : List PrintableValue, vs.length = arguments.length →
          ∃ built, buildFormat format vs = .ok built
            ∧ emitFormat built vs = some (render unescaped vs)
  /-- The placeholders that are counted are those that are built, one value for each. -/
  scanners : ∀ format (vs : List PrintableValue),
    countFormatPlaceholders format = some vs.length
      ↔ ∃ segs, values segs = vs.length ∧ buildFormat format vs = .ok (fill segs vs)

/-! ## The template of a literal -/

/-- What the template has of a part that is being read. -/
def Mode.placeholder : Mode → Text
  | .text => []
  | .part _ _ => [openBrace, closeBrace]

theorem bind_ok {α β : Type} {x : Except String α} {f : α → Except String β} {b : β}
    (h : x >>= f = .ok b) : ∃ a, x = .ok a ∧ f a = .ok b := by
  cases x with
  | error message => cases h
  | ok a => exact ⟨a, rfl, h⟩

/-- What the loop has collected at the end. -/
theorem interpolate_ok {mode : Mode} {start front segment raw result : Text}
    {parts read : List Text} (hstart : start = front ++ mode.placeholder)
    (h : interpolate mode start segment parts raw = .ok (result, read)) :
    ∃ unescaped, unescapePieces (piecesFrom mode segment raw) = .ok unescaped
      ∧ result = front ++ template unescaped
      ∧ read = parts ++ codes (piecesFrom mode segment raw) := by
  induction mode, start, segment, parts, raw using interpolate.induct generalizing front with
  | case1 start segment parts =>
    rw [interpolate] at h
    obtain ⟨text, htext, hresult⟩ := bind_ok h
    obtain ⟨rfl, rfl⟩ := Prod.mk.inj (Except.ok.inj hresult)
    refine ⟨[.text text], ?_, ?_, by simp [piecesFrom, codes]⟩
    · rw [piecesFrom, unescapePieces, htext]
      rfl
    · simp [hstart, template, Mode.placeholder]
  | case2 start segment parts c ih =>
    rw [interpolate] at h
    obtain ⟨unescaped, hunescaped, hresult, hread⟩ := ih hstart h
    exact ⟨unescaped, hunescaped, hresult, hread⟩
  | case3 start segment parts rest ih =>
    rw [interpolate, if_pos rfl, if_pos rfl] at h
    rw [piecesFrom, if_pos rfl, if_pos rfl]
    exact ih hstart h
  | case4 start segment parts d rest hd ih =>
    rw [interpolate, if_pos rfl, if_neg hd] at h
    rw [piecesFrom, if_pos rfl, if_neg hd]
    exact ih hstart h
  | case5 start segment parts c d rest hc hopens ih =>
    rw [interpolate, if_neg hc, if_pos hopens] at h
    obtain ⟨text, htext, hrest⟩ := bind_ok h
    obtain ⟨unescaped, hunescaped, hresult, hread⟩ := ih text rfl hrest
    rw [piecesFrom, if_neg hc, if_pos hopens]
    refine ⟨.text text :: unescaped, ?_, ?_, hread⟩
    · rw [unescapePieces, htext, hunescaped]
      rfl
    · rw [hresult, hstart]
      simp [template, Mode.placeholder]
  | case6 start segment parts c d rest hc hopens ih =>
    rw [interpolate, if_neg hc, if_neg hopens] at h
    rw [piecesFrom, if_neg hc, if_neg hopens]
    exact ih hstart h
  | case7 depth code start segment parts => cases h
  | case8 depth code start segment parts rest ih =>
    rw [interpolate, if_pos rfl] at h
    rw [piecesFrom, if_pos rfl]
    exact ih hstart h
  | case9 code start segment parts rest hne ih =>
    rw [interpolate, if_neg hne, if_pos rfl, if_pos rfl] at h
    rw [piecesFrom, if_neg hne, if_pos rfl, if_pos rfl]
    obtain ⟨unescaped, hunescaped, hresult, hread⟩ := @ih start (by simp [Mode.placeholder]) h
    refine ⟨.part code :: unescaped, by rw [unescapePieces, hunescaped]; rfl, ?_, ?_⟩
    · rw [hresult, hstart]
      simp [template, Mode.placeholder]
    · rw [hread, codes, List.append_assoc, List.singleton_append]
  | case10 depth code start segment parts rest hdepth hne ih =>
    rw [interpolate, if_neg hne, if_pos rfl, if_neg hdepth] at h
    rw [piecesFrom, if_neg hne, if_pos rfl, if_neg hdepth]
    exact ih hstart h
  | case11 depth code start segment parts c rest hopen hclose ih =>
    rw [interpolate, if_neg hopen, if_neg hclose] at h
    rw [piecesFrom, if_neg hopen, if_neg hclose]
    exact ih hstart h

theorem parseParts_length {P : ExpressionParser Token Expr} {read : List Text}
    {arguments : List Expr} (h : parseParts P read = .ok arguments) :
    arguments.length = read.length := by
  induction read generalizing arguments with
  | nil =>
    obtain rfl := Except.ok.inj h
    rfl
  | cons code read ih =>
    rw [parseParts] at h
    cases hpart : parsePart P code with
    | error message => rw [hpart] at h; cases h
    | ok parsed =>
      rw [hpart] at h
      cases hrest : parseParts P read with
      | error message => rw [hrest] at h; cases h
      | ok parsedRest =>
        rw [hrest] at h
        obtain rfl := Except.ok.inj h
        rw [List.length_cons, List.length_cons, ih hrest]

/-- What an accepted literal is parsed to. -/
theorem parseStringLiteralExpr_format {P : ExpressionParser Token Expr} {raw format : Text}
    {arguments : List Expr} (h : parseStringLiteralExpr P raw = .ok (.format format arguments)) :
    ∃ unescaped, unescapePieces (pieces raw) = .ok unescaped ∧ format = template unescaped
      ∧ arguments.length = (codes (pieces raw)).length := by
  unfold parseStringLiteralExpr at h
  split at h
  · cases hloop : interpolate .text [] [] [] raw with
    | error message => rw [hloop] at h; cases h
    | ok collected =>
      rw [hloop] at h
      cases hparts : parseParts P collected.2 with
      | error message =>
        simp only [hparts] at h
        cases h
      | ok parsed =>
        simp only [hparts] at h
        injection h with h
        injection h with hformat harguments
        obtain ⟨unescaped, hunescaped, hresult, hread⟩ :=
          @interpolate_ok .text [] [] _ _ _ _ _ rfl hloop
        refine ⟨unescaped, hunescaped, hformat.symm.trans hresult, ?_⟩
        rw [← harguments, parseParts_length hparts, hread]
        rfl
  · cases hplain : unescapeString raw with
    | error message => rw [hplain] at h; cases h
    | ok value => rw [hplain] at h; cases h

/-! ## Templates of text without braces -/

/-- Text that a template prints as it is. -/
def Unmarked (text : Text) : Prop := ∀ c ∈ text, isBrace c = false ∧ c ≠ '\x00'

/-- The segments a piece has in a template. -/
def segmentsOf : Piece → List Segment
  | .text segment => segment.map .character
  | .part _ => [.value]

theorem segments_append {text : Text} (h : Unmarked text) (rest : Text) :
    segments (text ++ rest) = (segments rest).map (text.map .character ++ ·) := by
  induction text with
  | nil => simp
  | cons c text ih =>
    have hbrace := (h c List.mem_cons_self).1
    rw [Bool.eq_false_iff, ne_eq, isBrace_iff, not_or] at hbrace
    rw [List.cons_append, segments_plain hbrace.1 hbrace.2,
      ih fun d hd => h d (List.mem_cons_of_mem _ hd), Option.map_map]
    rfl

theorem segments_template {unescaped : List Piece}
    (h : ∀ text, .text text ∈ unescaped → Unmarked text) :
    segments (template unescaped) = some (unescaped.flatMap segmentsOf) := by
  induction unescaped with
  | nil => rfl
  | cons piece rest ih =>
    have hrest := ih fun text htext => h text (List.mem_cons_of_mem _ htext)
    cases piece with
    | text text =>
      rw [template, segments_append (h text List.mem_cons_self), hrest]
      rfl
    | part code =>
      rw [template, segments_value, hrest]
      rfl

theorem values_segments (unescaped : List Piece) :
    values (unescaped.flatMap segmentsOf) = (codes unescaped).length := by
  have htext : ∀ (text : Text) segs, values (text.map .character ++ segs) = values segs := by
    intro text segs
    induction text with
    | nil => rfl
    | cons c text ih => rw [List.map_cons, List.cons_append, values_character, ih]
  induction unescaped with
  | nil => rfl
  | cons piece rest ih =>
    cases piece with
    | text text => rw [List.flatMap_cons, segmentsOf, htext, ih, codes]
    | part code =>
      rw [List.flatMap_cons, segmentsOf, List.singleton_append, values_value, ih, codes,
        List.length_cons]

theorem output_characters {text : Text} (h : Unmarked text) (segs : List Segment)
    (vs : List PrintableValue) :
    output (text.map .character ++ segs) vs = text ++ output segs vs := by
  induction text with
  | nil => rfl
  | cons c text ih =>
    rw [List.map_cons, List.cons_append, output, if_neg (h c List.mem_cons_self).2,
      ih fun d hd => h d (List.mem_cons_of_mem _ hd), List.cons_append]

theorem output_segments {unescaped : List Piece}
    (h : ∀ text, .text text ∈ unescaped → Unmarked text) (vs : List PrintableValue) :
    output (unescaped.flatMap segmentsOf) vs = render unescaped vs := by
  induction unescaped generalizing vs with
  | nil => rfl
  | cons piece rest ih =>
    have hrest := @ih fun text htext => h text (List.mem_cons_of_mem _ htext)
    cases piece with
    | text text =>
      rw [List.flatMap_cons, segmentsOf, output_characters (h text List.mem_cons_self), hrest,
        render]
    | part code =>
      rw [List.flatMap_cons, segmentsOf, List.singleton_append]
      cases vs with
      | nil => rw [output, hrest, render]
      | cons v vs => rw [output, hrest, render]

/-! ## Templates in general -/

/-- Values that print nothing leave the text, and each part took two braces of the
template. -/
theorem length_template {unescaped : List Piece} {vs : List PrintableValue}
    (hvs : ∀ v ∈ vs, v.text = []) :
    (template unescaped).length = (render unescaped vs).length + 2 * (codes unescaped).length := by
  induction unescaped generalizing vs with
  | nil => rfl
  | cons piece rest ih =>
    cases piece with
    | text text =>
      rw [template, render, codes, List.length_append, List.length_append, ih hvs]
      omega
    | part code =>
      rw [template, codes, List.length_cons, List.length_cons, List.length_cons]
      cases vs with
      | nil => rw [render, ih hvs]; omega
      | cons v vs =>
        have hrest := @ih vs fun w hw => hvs w (List.mem_cons_of_mem _ hw)
        rw [render, hvs v List.mem_cons_self, List.nil_append, hrest]
        omega

theorem braces_template (unescaped : List Piece) :
    2 * (codes unescaped).length ≤ (template unescaped).countP isBrace
      ∧ ((∃ text, .text text ∈ unescaped ∧ ∃ c ∈ text, isBrace c = true) →
        2 * (codes unescaped).length < (template unescaped).countP isBrace) := by
  induction unescaped with
  | nil =>
    refine ⟨Nat.le_refl _, ?_⟩
    rintro ⟨text, htext, -⟩
    cases htext
  | cons piece rest ih =>
    obtain ⟨hle, hlt⟩ := ih
    cases piece with
    | text text =>
      rw [template, codes, List.countP_append]
      refine ⟨by omega, ?_⟩
      rintro ⟨other, hother, c, hc, hbrace⟩
      rcases List.mem_cons.mp hother with heq | hother
      · obtain rfl := Piece.text.inj heq
        have hpos : 0 < other.countP isBrace := List.countP_pos_iff.mpr ⟨c, hc, hbrace⟩
        omega
      · have := hlt ⟨other, hother, c, hc, hbrace⟩
        omega
    | part code =>
      have hopen : isBrace openBrace = true := rfl
      have hclose : isBrace closeBrace = true := rfl
      rw [template, codes, List.length_cons, List.countP_cons, List.countP_cons, if_pos hopen,
        if_pos hclose]
      refine ⟨by omega, ?_⟩
      rintro ⟨other, hother, hbrace⟩
      have hrest : .text other ∈ rest := by simpa using hother
      have := hlt ⟨other, hrest, hbrace⟩
      omega

theorem mem_template {unescaped : List Piece} {text : Text} (h : .text text ∈ unescaped) {c : Char}
    (hc : c ∈ text) : c ∈ template unescaped := by
  induction unescaped with
  | nil => cases h
  | cons piece rest ih =>
    cases piece with
    | text other =>
      rw [template]
      rcases List.mem_cons.mp h with heq | h
      · obtain rfl := Piece.text.inj heq
        exact List.mem_append_left _ hc
      · exact List.mem_append_right _ (ih h)
    | part code =>
      have hrest : .text text ∈ rest := by simpa using h
      exact List.mem_cons_of_mem _ (List.mem_cons_of_mem _ (ih hrest))

/-- Values that print nothing show what a template does to its text. -/
theorem unmarked_of_output {unescaped : List Piece} {segs : List Segment}
    {vs : List PrintableValue} (hsegs : segments (template unescaped) = some segs)
    (hvalues : values segs = (codes unescaped).length) (hvs : ∀ v ∈ vs, v.text = [])
    (houtput : output segs vs = render unescaped vs) :
    ∀ text, .text text ∈ unescaped → Unmarked text := by
  obtain ⟨hlength, hbraces⟩ := length_of_segments hsegs
  obtain ⟨hle, hlt⟩ := @length_output segs vs hvs
  have htemplate := @length_template unescaped vs hvs
  rw [← houtput] at htemplate
  have hnone : braces segs = 0 := by omega
  intro text htext c hc
  have hbrace : isBrace c = false := by
    by_contra hbrace
    have := (braces_template unescaped).2 ⟨text, htext, c, hc, by simpa using hbrace⟩
    omega
  refine ⟨hbrace, ?_⟩
  rintro rfl
  have := hlt (character_mem_of_segments hsegs hbrace (mem_template htext hc))
  omega

theorem codes_unescapePieces {ps unescaped : List Piece} (h : unescapePieces ps = .ok unescaped) :
    codes unescaped = codes ps := by
  induction ps generalizing unescaped with
  | nil =>
    obtain rfl := Except.ok.inj h
    rfl
  | cons piece rest ih =>
    cases piece with
    | text segment =>
      rw [unescapePieces] at h
      obtain ⟨text, -, h⟩ := bind_ok h
      obtain ⟨unescapedRest, hrest, h⟩ := bind_ok h
      obtain rfl := Except.ok.inj h
      rw [codes, codes, ih hrest]
    | part code =>
      rw [unescapePieces] at h
      obtain ⟨unescapedRest, hrest, h⟩ := bind_ok h
      obtain rfl := Except.ok.inj h
      rw [codes, codes, ih hrest]

/-! ## Which literals are concatenations -/

theorem scanners_agree (format : Text) (vs : List PrintableValue) :
    countFormatPlaceholders format = some vs.length
      ↔ ∃ segs, values segs = vs.length ∧ buildFormat format vs = .ok (fill segs vs) := by
  rw [countFormatPlaceholders_eq, Option.map_eq_some_iff]
  constructor
  · rintro ⟨segs, hsegs, hvalues⟩
    exact ⟨segs, hvalues, buildFormat_eq_ok_iff.mpr ⟨segs, hsegs, hvalues, rfl⟩⟩
  · rintro ⟨_, -, hbuilt⟩
    obtain ⟨segs, hsegs, hvalues, -⟩ := buildFormat_eq_ok_iff.mp hbuilt
    exact ⟨segs, hsegs, hvalues⟩

/-- A literal means the concatenation of its pieces where its text has no braces and no NUL,
and each of its parts is one expression. -/
theorem meansConcatenation_iff (P : ExpressionParser Token Expr) (rawContent : Text) :
    MeansConcatenation P rawContent
      ↔ (Accepted P rawContent →
          (∀ code ∈ codes (pieces rawContent), Whole P code)
          ∧ ∀ unescaped, unescapePieces (pieces rawContent) = .ok unescaped →
            ∀ text, .text text ∈ unescaped → Unmarked text) := by
  constructor
  · rintro h ⟨format, arguments, hparsed⟩
    obtain ⟨hwhole, hcount, unescaped, hunescaped, hrenders⟩ := h.renders format arguments hparsed
    obtain ⟨unescaped', hunescaped', hformat, hlength⟩ := parseStringLiteralExpr_format hparsed
    obtain rfl := Except.ok.inj (hunescaped.symm.trans hunescaped')
    refine ⟨hwhole, fun other hother => ?_⟩
    obtain rfl := Except.ok.inj (hunescaped.symm.trans hother)
    -- values that print nothing
    let vs := List.replicate arguments.length (⟨.s, []⟩ : PrintableValue)
    have hvs : ∀ v ∈ vs, v.text = [] := fun v hv => by rw [List.eq_of_mem_replicate hv]
    obtain ⟨built, hbuilt, hemit⟩ := hrenders vs List.length_replicate
    obtain ⟨segs, hsegs, hvalues, rfl⟩ := buildFormat_eq_ok_iff.mp hbuilt
    rw [emitFormat, snprintf_fill hvalues] at hemit
    refine unmarked_of_output (hformat ▸ hsegs) ?_ hvs (Option.some.inj hemit)
    rw [hvalues, codes_unescapePieces hunescaped, ← hlength]
    exact List.length_replicate
  · intro h
    refine ⟨fun format arguments hparsed => ?_, scanners_agree⟩
    obtain ⟨hwhole, hunmarked⟩ := h ⟨format, arguments, hparsed⟩
    obtain ⟨unescaped, hunescaped, rfl, hlength⟩ := parseStringLiteralExpr_format hparsed
    have hsegs := segments_template (hunmarked unescaped hunescaped)
    have hvalues : values (unescaped.flatMap segmentsOf) = arguments.length := by
      rw [values_segments, codes_unescapePieces hunescaped, hlength]
    refine ⟨hwhole, ?_, unescaped, hunescaped, fun vs hvs => ?_⟩
    · rw [countFormatPlaceholders_eq, hsegs, Option.map_some, hvalues]
    · refine ⟨_, buildFormat_eq_ok_iff.mpr ⟨_, hsegs, hvalues.trans hvs.symm, rfl⟩, ?_⟩
      rw [emitFormat, snprintf_fill (hvalues.trans hvs.symm),
        output_segments (hunmarked unescaped hunescaped)]

/-- A parser of expressions that are single words. -/
def wordParser : ExpressionParser Text Text where
  lexer code := .ok ((code.splitOn ' ').filter (· ≠ []))
  parseExpression
    | [] => .error "expected an expression"
    | word :: rest => .ok (some word, rest)

/-- `"a{b${x}"`, whose template is `a{b{}`. -/
def braceInText : Text := ['a', openBrace, 'b', '$', openBrace, 'x', closeBrace]

theorem not_meansConcatenation : ¬MeansConcatenation wordParser braceInText := by
  intro h
  obtain ⟨-, hcount, -⟩ :=
    h.renders ['a', openBrace, 'b', openBrace, closeBrace] [['x']] rfl
  cases hcount

end Interpolation

end Absolute
