import Absolute.StdTextParts
import Mathlib.Computability.StateTransition

/-!
# Form data

`std.form.parseMultipart` and the writer `std.http.multipartBody` beside it. The reader goes
over a body with one position, from one delimiter to the next, and takes what is between two
of them for a part. In the headers of a part it looks for its fields by their names.

The loop of the reader is the transition `round`. It leaves on every body
(`parseMultipart_mem_eval`), and on a text that is cut at delimiters a round comes from one part to
the next (`round_part`, `round_end`).
-/

namespace Absolute

open Strings

namespace Form

structure FormEntry where
  name : Text
  value : Text
  filename : Text
  contentType : Text
  isFile : Bool
deriving DecidableEq

def createEntry (nameVal valueVal : Text) : FormEntry := ⟨nameVal, valueVal, [], [], false⟩

def createFileEntry (nameVal valueVal fileVal mimeVal : Text) : FormEntry :=
  ⟨nameVal, valueVal, fileVal, mimeVal, fileVal ≠ []⟩

structure FormData where
  entries : List FormEntry := []
deriving DecidableEq

def FormData.addEntry (form : FormData) (entry : FormEntry) : FormData :=
  ⟨form.entries ++ [entry]⟩

/-- A part may have no entry. -/
def FormData.addPart (form : FormData) : Option FormEntry → FormData
  | some entry => form.addEntry entry
  | none => form

/-! ## The writer -/

inductive Fault where
  | emptyBoundary
deriving DecidableEq

/-- One turn of the writer's loop. -/
def appendEntry (boundary body : Text) (entry : FormEntry) : Text :=
  let safeName := replace entry.name (bytes "\"") []
  let safeFilename := replace entry.filename (bytes "\"") []
  let body := body ++ (bytes "--" ++ boundary ++ bytes "\r\n")
  let body := body ++ (bytes "Content-Disposition: form-data; name=\"" ++ safeName ++ bytes "\"")
  let body :=
    if entry.isFile then body ++ (bytes "; filename=\"" ++ safeFilename ++ bytes "\"") else body
  let body := body ++ bytes "\r\n"
  let body :=
    if entry.isFile ∧ entry.contentType ≠ [] then
      body ++ (bytes "Content-Type: " ++ entry.contentType ++ bytes "\r\n")
    else body
  body ++ bytes "\r\n" ++ entry.value ++ bytes "\r\n"

def multipartBody (form : FormData) (boundary : Text) : Except Fault Text :=
  if boundary = [] then .error .emptyBoundary
  else
    let body := form.entries.foldl (appendEntry boundary) []
    .ok (body ++ (bytes "--" ++ boundary ++ bytes "--\r\n"))

/-! ## The reader -/

/-- What stands between the first `field` of the headers and the next quotation mark. -/
def quotedField (headers field : Text) (width : ℕ) : Text :=
  match cutAt headers field width with
  | none => []
  | some (_, sub) =>
    let quote := indexOf sub (bytes "\"")
    if quote ≥ 0 then substring sub 0 quote else []

/-- What stands between the first `field` of the headers and the end of the line. -/
def lineField (headers field : Text) (width : ℕ) : Text :=
  match cutAt headers field width with
  | none => []
  | some (_, sub) =>
    let endLine := indexOf sub (bytes "\r\n")
    if endLine ≥ 0 then substring sub 0 endLine else sub

/-- The entry of a part, if it has one. -/
def readPart (chunk : Text) : Option FormEntry :=
  match cutAt chunk (bytes "\r\n\r\n") 4 with
  | none => none
  | some (headers, partBody) =>
    let partBody :=
      if Strings.endsWith partBody (bytes "\r\n") then
        substring partBody 0 (codePointCount partBody - 2)
      else partBody
    let name := quotedField headers (bytes "name=\"") 6
    let filename := quotedField headers (bytes "filename=\"") 10
    let contentType := lineField headers (bytes "Content-Type: ") 14
    if name ≠ [] then some (createFileEntry name partBody filename contentType) else none

/-- The variables of the reader's loop. -/
structure Reader where
  start : ℤ
  form : FormData
deriving DecidableEq

/-- The line end behind a delimiter belongs to it. -/
def skipLineEnd (body : Text) (start : ℤ) : ℤ :=
  if Strings.startsWith (substringFrom body start) (bytes "\r\n") then start + 2 else start

/-- What is left up to the next delimiter, or to the end of the body. -/
def chunkAt (body delimiter : Text) (start : ℤ) : Text :=
  let nextDelim := indexOf (substringFrom body start) delimiter
  if nextDelim ≥ 0 then substring body start nextDelim else substringFrom body start

/-- One round of the loop, `none` where the loop is left. -/
def round (body delimiter : Text) (reader : Reader) : Option Reader :=
  if reader.start < codePointCount body then
    let partPos := indexOf (substringFrom body reader.start) delimiter
    if partPos < 0 then none
    else
      let start := reader.start + partPos + codePointCount delimiter
      if Strings.startsWith (substringFrom body start) (bytes "--") then none
      else
        let start := skipLineEnd body start
        some ⟨start, reader.form.addPart (readPart (chunkAt body delimiter start))⟩
  else none

/-- At most so many rounds. -/
def rounds (body delimiter : Text) : ℕ → Reader → Reader
  | 0, reader => reader
  | n + 1, reader =>
    match round body delimiter reader with
    | none => reader
    | some next => rounds body delimiter n next

def delimiterOf (boundary : Text) : Text := bytes "--" ++ boundary

def parseMultipart (body boundary : Text) : FormData :=
  if body = [] ∨ boundary = [] then {}
  else (rounds body (delimiterOf boundary) (codePointCount body + 1) ⟨0, {}⟩).form

/-! ## The loop is left -/

section Loop

variable {body delimiter : Text} {reader next : Reader}

theorem le_skipLineEnd (body : Text) (start : ℤ) : start ≤ skipLineEnd body start := by
  rw [skipLineEnd]
  split_ifs <;> omega

/-- A round comes behind the next delimiter. -/
theorem round_start (hne : delimiter ≠ []) (h : round body delimiter reader = some next) :
    reader.start < codePointCount body ∧ reader.start < next.start := by
  have hpos := codePointCount_pos hne
  rw [round] at h
  split_ifs at h with hlt
  refine ⟨hlt, ?_⟩
  dsimp only at h
  split_ifs at h with hfound hlast
  obtain rfl := Option.some.inj h
  have hle := le_skipLineEnd body (reader.start +
    indexOf (substringFrom body reader.start) delimiter + codePointCount delimiter)
  dsimp only
  omega

/-- The rounds come to an end, and a body has no more of them than code points. -/
theorem rounds_mem_eval (hne : delimiter ≠ []) {n : ℕ}
    (hn : codePointCount body ≤ reader.start + n) :
    rounds body delimiter (n + 1) reader ∈
      StateTransition.eval (round body delimiter) reader := by
  induction n generalizing reader with
  | zero =>
    rcases h : round body delimiter reader with - | next
    · rw [rounds, h]
      exact StateTransition.mem_eval.mpr ⟨.refl, h⟩
    · obtain ⟨hlt, -⟩ := round_start hne h
      omega
  | succ n ih =>
    rcases h : round body delimiter reader with - | next
    · rw [rounds, h]
      exact StateTransition.mem_eval.mpr ⟨.refl, h⟩
    · obtain ⟨-, hlt⟩ := round_start hne h
      rw [rounds, h, StateTransition.reaches_eval (.single h)]
      exact ih (by omega)

theorem delimiterOf_ne_nil (boundary : Text) : delimiterOf boundary ≠ [] := List.cons_ne_nil _ _

/-- The loop of the reader is left on every body, and the reader returns its form. -/
theorem parseMultipart_mem_eval (body boundary : Text) :
    ∃ reader ∈ StateTransition.eval (round body (delimiterOf boundary)) ⟨0, {}⟩,
      parseMultipart body boundary =
        if body = [] ∨ boundary = [] then {} else reader.form := by
  have hcount : (codePointCount body : ℤ) ≤ (Reader.mk 0 {}).start + codePointCount body := by
    rw [Int.zero_add]
  exact ⟨_, rounds_mem_eval (delimiterOf_ne_nil boundary) hcount, rfl⟩

end Loop

/-! ## A body that is cut at delimiters -/

section Parts

variable {boundary x w z q : Text}

theorem stops_delimiter (a b boundary : Text) : Stops a (delimiterOf boundary ++ b) :=
  .of_head a (0x2D :: (boundary ++ b)) (by decide)

/-- Where the reader is behind the delimiter that it finds. -/
theorem found_delimiter (hx : ∀ y, Stops x y) (hw : Occurrence.Clear (delimiterOf boundary) w)
    (hz : Stops (delimiterOf boundary) z) :
    substringFrom (x ++ (w ++ (delimiterOf boundary ++ z))) (codePointCount x) =
        w ++ (delimiterOf boundary ++ z) ∧
      indexOf (w ++ (delimiterOf boundary ++ z)) (delimiterOf boundary) = codePointCount w ∧
      substringFrom (x ++ (w ++ (delimiterOf boundary ++ z)))
        (codePointCount x + codePointCount w + codePointCount (delimiterOf boundary)) = z := by
  refine ⟨substringFrom_append (hx _), indexOf_firstAt ⟨rfl, hw⟩ (stops_delimiter w z boundary),
    ?_⟩
  rw [← Int.natCast_add, ← (hx w).codePointCount, ← List.append_assoc x]
  exact substringFrom_behind (stops_delimiter (x ++ w) z boundary) hz rfl

theorem round_end (form : FormData) (hx : ∀ y, Stops x y)
    (hw : Occurrence.Clear (delimiterOf boundary) w) (z : Text) :
    round (x ++ (w ++ (delimiterOf boundary ++ (bytes "--" ++ z)))) (delimiterOf boundary)
      ⟨codePointCount x, form⟩ = none := by
  have hz : Stops (delimiterOf boundary) (bytes "--" ++ z) :=
    .of_head _ (0x2D :: z) (by decide)
  obtain ⟨hrest, hfound, hbehind⟩ := found_delimiter hx hw hz
  rw [round]
  split_ifs with hlt
  · simp only [hrest, hfound]
    rw [if_neg (by omega), hbehind, if_pos]
    exact Strings.startsWith_iff.mpr (List.prefix_append _ _)
  · rfl

/-- What is left up to the next delimiter. -/
theorem chunkAt_eq (hx : ∀ y, Stops x y) (hq : Occurrence.Clear (delimiterOf boundary) q)
    (z : Text) :
    chunkAt (x ++ (q ++ (delimiterOf boundary ++ z))) (delimiterOf boundary)
      (codePointCount x) = q := by
  have hstop := stops_delimiter q z boundary
  rw [chunkAt, substringFrom_append (hx _), indexOf_firstAt ⟨rfl, hq⟩ hstop]
  rw [if_pos (by omega), substring_between (hx _) hstop]

/-- A round at a delimiter that is followed by a part. -/
theorem round_part {body : Text} (form : FormData) (hx : ∀ y, Stops x y)
    (hw : Occurrence.Clear (delimiterOf boundary) w)
    (hq : Occurrence.Clear (delimiterOf boundary) q)
    (hbody : body =
      x ++ (w ++ (delimiterOf boundary ++ (bytes "\r\n" ++ (q ++ (delimiterOf boundary ++ z)))))) :
    round body (delimiterOf boundary) ⟨codePointCount x, form⟩ =
      some ⟨codePointCount (x ++ w ++ delimiterOf boundary ++ bytes "\r\n"),
        form.addPart (readPart q)⟩ := by
  have hline (a t : Text) : Stops a (bytes "\r\n" ++ t) := .of_head a (0x0A :: t) (by decide)
  have hbehindLine (t : Text) : Stops (x ++ w ++ delimiterOf boundary ++ bytes "\r\n") t := by
    rw [show bytes "\r\n" = [0x0D] ++ [0x0A] from rfl, ← List.append_assoc]
    exact .of_last _ t (by decide)
  have hdelimiter := stops_delimiter (x ++ w) [] boundary
  obtain ⟨hrest, hfound, hbehind⟩ := found_delimiter hx hw (hline (delimiterOf boundary) _)
  rw [← hbody] at hrest hbehind
  have hcount : (codePointCount x : ℤ) + codePointCount w +
      codePointCount (delimiterOf boundary) + 2 =
      codePointCount (x ++ w ++ delimiterOf boundary ++ bytes "\r\n") := by
    have hend := hline (x ++ w ++ delimiterOf boundary) []
    rw [List.append_nil] at hdelimiter hend
    rw [hend.codePointCount, hdelimiter.codePointCount, (hx w).codePointCount]
    simp only [Int.natCast_add]
    rfl
  have hlt : codePointCount x < codePointCount body := by
    have hpos : 0 < codePointCount (w ++ (delimiterOf boundary ++ (bytes "\r\n" ++
        (q ++ (delimiterOf boundary ++ z))))) := by
      refine codePointCount_pos fun hnil => ?_
      rw [List.append_eq_nil_iff, List.append_eq_nil_iff] at hnil
      exact List.cons_ne_nil _ _ hnil.2.1
    rw [hbody, (hx _).codePointCount]
    omega
  have hchunk := chunkAt_eq hbehindLine hq z
  simp only [List.append_assoc] at hchunk
  rw [← hbody] at hchunk
  rw [round, if_pos (Int.ofNat_lt.mpr hlt)]
  simp only [hrest, hfound]
  rw [if_neg (by omega), hbehind, if_neg (by exact Bool.false_ne_true), skipLineEnd, hbehind,
    if_pos (Strings.startsWith_iff.mpr (List.prefix_append _ _)), hcount]
  simp only [List.append_assoc]
  rw [hchunk]

/-- The text of a body, from its parts. -/
def partsText (boundary : Text) : List Text → Text
  | [] => delimiterOf boundary ++ bytes "--\r\n"
  | part :: parts =>
    delimiterOf boundary ++ (bytes "\r\n" ++ (part ++ partsText boundary parts))

theorem partsText_delimiter (boundary : Text) (parts : List Text) :
    ∃ z, partsText boundary parts = delimiterOf boundary ++ z := by
  cases parts with
  | nil => exact ⟨_, rfl⟩
  | cons part parts => exact ⟨_, rfl⟩

/-- The rounds over the parts that are left. -/
theorem eval_parts {body : Text} {parts : List Text} (form : FormData) (hx : ∀ y, Stops x y)
    (hw : Occurrence.Clear (delimiterOf boundary) w)
    (hparts : ∀ part ∈ parts, Occurrence.Clear (delimiterOf boundary) part)
    (hbody : body = x ++ (w ++ partsText boundary parts)) :
    ∃ reader ∈ StateTransition.eval (round body (delimiterOf boundary))
        ⟨codePointCount x, form⟩,
      reader.form.entries = form.entries ++ parts.filterMap readPart := by
  induction parts generalizing x w form with
  | nil =>
    refine ⟨_, StateTransition.mem_eval.mpr ⟨.refl, ?_⟩, (List.append_nil _).symm⟩
    rw [hbody]
    exact round_end form hx hw (bytes "\r\n")
  | cons part parts ih =>
    obtain ⟨hpart, hrest⟩ := List.forall_mem_cons.mp hparts
    obtain ⟨z, hz⟩ := partsText_delimiter boundary parts
    have hround := round_part form hx hw hpart
      (hbody.trans (by rw [partsText, hz]))
    have hnext (t : Text) : Stops (x ++ w ++ delimiterOf boundary ++ bytes "\r\n") t := by
      rw [show bytes "\r\n" = [0x0D] ++ [0x0A] from rfl, ← List.append_assoc]
      exact .of_last _ t (by decide)
    obtain ⟨reader, heval, hentries⟩ := ih (form.addPart (readPart part)) hnext hpart
      hrest (by rw [hbody, partsText]; simp only [List.append_assoc])
    refine ⟨reader, ?_, ?_⟩
    · rwa [StateTransition.reaches_eval (.single hround)]
    · rw [hentries, List.filterMap_cons]
      rcases readPart part with - | entry
      · rfl
      · exact List.append_assoc _ _ _

/-- The parts are read one after the other. -/
theorem parseMultipart_parts {parts : List Text} (hne : boundary ≠ [])
    (hparts : ∀ part ∈ parts, Occurrence.Clear (delimiterOf boundary) part) :
    (parseMultipart (partsText boundary parts) boundary).entries = parts.filterMap readPart := by
  have hbody : partsText boundary parts ≠ [] := by
    obtain ⟨z, hz⟩ := partsText_delimiter boundary parts
    rw [hz]
    exact List.append_ne_nil_of_left_ne_nil (delimiterOf_ne_nil boundary) z
  obtain ⟨reader, hreader, hform⟩ := parseMultipart_mem_eval (partsText boundary parts) boundary
  rw [if_neg (not_or.mpr ⟨hbody, hne⟩)] at hform
  obtain ⟨reader', hreader', hentries⟩ := eval_parts {} Stops.nil
    (Occurrence.clear_nil (delimiterOf boundary)) hparts rfl
  obtain rfl := Part.mem_unique hreader hreader'
  rw [hform, hentries]
  rfl

end Parts

end Form

end Absolute
