import Absolute.StdForm

/-!
# Form data that is sent and read

The writer puts names, file names and content types into the headers of a part as they are,
and the reader looks for `filename=`, `Content-Type:` and the end of the headers wherever they
first stand. An entry is read as it was written exactly if nothing in its fields is taken for
one of these (`Readable`), on the condition that the delimiter stands in the body only where
the writer has put it (`Apart`).
-/

namespace Absolute

open Strings Occurrence

namespace Form

/-! ## The parts of the body -/

/-- The line of the content type, without its end. -/
def typeLine (entry : FormEntry) : Text :=
  if entry.contentType ≠ [] then bytes "\r\nContent-Type: " ++ entry.contentType else []

/-- What follows the name in the headers. -/
def behindName (entry : FormEntry) : Text :=
  if entry.isFile then
    bytes "; filename=" ++ 0x22 :: (entry.filename ++ 0x22 :: typeLine entry)
  else []

def headers (entry : FormEntry) : Text :=
  bytes "Content-Disposition: form-data; name=" ++ 0x22 ::
    (entry.name ++ 0x22 :: behindName entry)

def partText (entry : FormEntry) : Text :=
  headers entry ++ (bytes "\r\n\r\n" ++ (entry.value ++ bytes "\r\n"))

/-- The writer removes quotation marks, and finds none. -/
theorem appendEntry_eq {entry : FormEntry} (hname : 0x22 ∉ entry.name)
    (hfilename : 0x22 ∉ entry.filename) (boundary body : Text) :
    appendEntry boundary body entry =
      body ++ (delimiterOf boundary ++ (bytes "\r\n" ++ partText entry)) := by
  have hquote {t : Text} (ht : 0x22 ∉ t) : replace t (bytes "\"") [] = t :=
    replace_none (List.cons_ne_nil _ _) (not_infix_mark ht) []
  have hlead : bytes "Content-Disposition: form-data; name=\"" =
      bytes "Content-Disposition: form-data; name=" ++ [0x22] := rfl
  have hbetween : bytes "; filename=\"" = bytes "; filename=" ++ [0x22] := rfl
  have hclose : bytes "\"" = [0x22] := rfl
  have hend : bytes "\r\n\r\n" = bytes "\r\n" ++ bytes "\r\n" := rfl
  have htype : bytes "\r\nContent-Type: " = bytes "\r\n" ++ bytes "Content-Type: " := rfl
  rw [appendEntry, hquote hname, hquote hfilename, partText, headers, behindName, typeLine,
    delimiterOf, hlead, hbetween, hclose, hend, htype]
  rcases entry.isFile
  · simp only [Bool.false_eq_true, false_and, if_false, List.append_assoc, List.cons_append,
      List.nil_append]
  · by_cases hcontent : entry.contentType = []
    · simp only [hcontent, ne_eq, not_true_eq_false, and_false, if_false, if_true,
        List.append_assoc, List.cons_append, List.nil_append]
    · simp only [hcontent, ne_eq, not_false_eq_true, and_true, if_true, List.append_assoc,
        List.cons_append, List.nil_append]

theorem multipartBody_eq {form : FormData} {boundary : Text} (hne : boundary ≠ [])
    (hquotes : ∀ entry ∈ form.entries, 0x22 ∉ entry.name ∧ 0x22 ∉ entry.filename) :
    multipartBody form boundary = .ok (partsText boundary (form.entries.map partText)) := by
  have hloop (entries : List FormEntry) (body : Text)
      (h : ∀ entry ∈ entries, 0x22 ∉ entry.name ∧ 0x22 ∉ entry.filename) :
      entries.foldl (appendEntry boundary) body ++ (bytes "--" ++ boundary ++ bytes "--\r\n") =
        body ++ partsText boundary (entries.map partText) := by
    induction entries generalizing body with
    | nil => rfl
    | cons entry entries ih =>
      obtain ⟨⟨hname, hfilename⟩, hrest⟩ := List.forall_mem_cons.mp h
      rw [List.foldl_cons, appendEntry_eq hname hfilename, ih _ hrest, List.map_cons, partsText]
      simp only [List.append_assoc]
  rw [multipartBody, if_neg hne]
  exact congrArg _ (hloop form.entries [] hquotes)

/-! ## The fields of a header -/

section Fields

variable {text field a b v : Text} {width : ℕ}

/-- What is left of a text before its first line end. -/
def firstLine (text : Text) : Text :=
  match text.dropInfix? (bytes "\r\n") with
  | some (line, _) => line
  | none => text

theorem clear_line : Clear (bytes "\r\n") a ↔ ¬bytes "\r\n" <:+: a :=
  clear_pair (by decide)

theorem firstLine_of_firstAt (h : FirstAt (bytes "\r\n") text a b) : firstLine text = a := by
  rw [firstLine, dropInfix?_eq_some.mpr h]

theorem firstLine_of_absent (h : ¬bytes "\r\n" <:+: text) : firstLine text = text := by
  rw [firstLine, dropInfix?_eq_none.mpr h]

theorem absent_firstLine (text : Text) : ¬bytes "\r\n" <:+: firstLine text := by
  by_cases h : bytes "\r\n" <:+: text
  · obtain ⟨a, b, hab⟩ := exists_firstAt h
    rw [firstLine_of_firstAt hab]
    exact clear_line.mp hab.2
  · rwa [firstLine_of_absent h]

/-- What follows a line end does not matter. -/
theorem firstLine_append (a b : Text) : firstLine (a ++ (bytes "\r\n" ++ b)) = firstLine a := by
  by_cases h : bytes "\r\n" <:+: a
  · obtain ⟨x, y, hxy⟩ := exists_firstAt h
    rw [firstLine_of_firstAt hxy, firstLine_of_firstAt (hxy.append _)]
  · rw [firstLine_of_absent h, firstLine_of_firstAt ⟨rfl, clear_line.mpr h⟩]

theorem quotedField_none (h : ¬field <:+: text) : quotedField text field width = [] := by
  rw [quotedField, cutAt_none h]

/-- A field with both its quotation marks. -/
theorem quotedField_closed (hcut : cutAt text field width = some (a, v ++ 0x22 :: b))
    (hv : 0x22 ∉ v) :
    quotedField text field width = v := by
  have hquote : indexOf (v ++ 0x22 :: b) (bytes "\"") = codePointCount v :=
    indexOf_mark hv (by decide)
  rw [quotedField, hcut]
  simp only [hquote]
  rw [if_pos (by omega), substring_before (.of_head v b (by decide))]

/-- A field whose second quotation mark is missing. -/
theorem quotedField_open (hcut : cutAt text field width = some (a, v)) (hv : 0x22 ∉ v) :
    quotedField text field width = [] := by
  have hquote : indexOf v (bytes "\"") = -1 := indexOf_none (not_infix_mark hv)
  rw [quotedField, hcut]
  simp only [hquote]
  rfl

theorem lineField_none (h : ¬field <:+: text) : lineField text field width = [] := by
  rw [lineField, cutAt_none h]

theorem lineField_eq (hcut : cutAt text field width = some (a, b)) :
    lineField text field width = firstLine b := by
  rw [lineField, hcut]
  by_cases h : bytes "\r\n" <:+: b
  · obtain ⟨x, y, hxy⟩ := exists_firstAt h
    have hstop : Stops x (bytes "\r\n" ++ y) := .of_head x (0x0A :: y) (by decide)
    simp only [indexOf_firstAt hxy hstop]
    rw [if_pos (by omega), firstLine_of_firstAt hxy, hxy.1, substring_before hstop]
  · simp only [indexOf_none h]
    rw [firstLine_of_absent h]
    rfl

end Fields

/-! ## Where the headers end -/

section HeaderEnd

variable {entry : FormEntry}

theorem clear_typeLine :
    Clear (bytes "\r\n\r\n") (typeLine entry) ↔
      Clear (bytes "\r\n\r\n") entry.contentType := by
  rw [typeLine]
  split_ifs with h
  · have hspace : bytes "\r\nContent-Type: " ++ entry.contentType =
        bytes "\r\nContent-Type:" ++ 0x20 :: entry.contentType := rfl
    have hfree : ¬bytes "\r\n\r\n" <:+: bytes "\r\nContent-Type:" :=
      dropInfix?_eq_none.mp (by decide)
    have hforeign : (0x20 : UInt8) ∉ bytes "\r\n\r\n" := by decide
    have hne : bytes "\r\n\r\n" ≠ [] := List.cons_ne_nil _ _
    rw [hspace, clear_append_cons hforeign hne]
    exact and_iff_right hfree
  · rw [not_not.mp h]

/-- The headers end where the writer ends them if no field of theirs ends them earlier. -/
theorem clear_headers :
    Clear (bytes "\r\n\r\n") (headers entry) ↔
      ¬bytes "\r\n\r\n" <:+: entry.name ∧ (entry.isFile = true →
        ¬bytes "\r\n\r\n" <:+: entry.filename ∧
          Clear (bytes "\r\n\r\n") entry.contentType) := by
  have hquote : (0x22 : UInt8) ∉ bytes "\r\n\r\n" := by decide
  have hne : bytes "\r\n\r\n" ≠ [] := List.cons_ne_nil _ _
  have hlead : ¬bytes "\r\n\r\n" <:+: bytes "Content-Disposition: form-data; name=" :=
    dropInfix?_eq_none.mp (by decide)
  have hbetween : ¬bytes "\r\n\r\n" <:+: bytes "; filename=" :=
    dropInfix?_eq_none.mp (by decide)
  rw [headers, clear_append_cons hquote hne, and_iff_right hlead, clear_append_cons hquote hne,
    behindName]
  refine and_congr_right fun _ => ?_
  split_ifs with hfile
  · rw [clear_append_cons hquote hne, and_iff_right hbetween, clear_append_cons hquote hne,
      clear_typeLine]
    exact ⟨fun h _ => h, fun h => h hfile⟩
  · exact ⟨fun _ h => absurd h hfile, fun _ => clear_nil _⟩

end HeaderEnd

/-! ## What the reader finds in the headers -/

section Headers

variable {entry : FormEntry}

theorem name_headers (hname : 0x22 ∉ entry.name) :
    quotedField (headers entry) (bytes "name=\"") 6 = entry.name := by
  have hlead : bytes "Content-Disposition: form-data; name=" =
      bytes "Content-Disposition: form-data; " ++ bytes "name=" := by decide
  have hmark : bytes "name=\"" = bytes "name=" ++ [0x22] := rfl
  have hfound : FirstAt (bytes "name=\"") (headers entry)
      (bytes "Content-Disposition: form-data; ") (entry.name ++ 0x22 :: behindName entry) := by
    refine ⟨?_, clear_of_not_mem (f := bytes "name=") (c := 0x22) (by decide) (by decide)⟩
    rw [headers, hlead, hmark, List.append_assoc, List.append_assoc, List.singleton_append]
  exact quotedField_closed (cutAt_ascii hfound (by decide) (by decide) rfl) hname

/-- The reader looks for `filename=` from the start of the headers: a name that ends so is taken
for it. -/
theorem filename_headers (hname : 0x22 ∉ entry.name) (hfilename : 0x22 ∉ entry.filename) :
    quotedField (headers entry) (bytes "filename=\"") 10 =
      if entry.isFile then
        if bytes "filename=" <:+ entry.name then bytes "; filename=" else entry.filename
      else [] := by
  have hmark : bytes "filename=\"" = bytes "filename=" ++ [0x22] := rfl
  have hquote : (0x22 : UInt8) ∉ bytes "filename=" := by decide
  have hlead : (0x22 : UInt8) ∉ bytes "Content-Disposition: form-data; name=" := by decide
  have hleadEnd : ¬bytes "filename=" <:+ bytes "Content-Disposition: form-data; name=" := by
    decide
  have hcut {a b : Text} (h : FirstAt (bytes "filename=\"") (headers entry) a b) :
      cutAt (headers entry) (bytes "filename=\"") 10 = some (a, b) :=
    cutAt_ascii h (by decide) (by decide) rfl
  by_cases hend : bytes "filename=" <:+ entry.name
  · rw [if_pos hend]
    obtain ⟨name, hshort⟩ := hend
    have hshortQuote : 0x22 ∉ name := fun h => hname (hshort ▸ List.mem_append_left _ h)
    have hfound : FirstAt (bytes "filename=\"") (headers entry)
        (bytes "Content-Disposition: form-data; name=" ++ 0x22 :: name) (behindName entry) := by
      refine ⟨?_, clear_append_mark hquote hlead hleadEnd (clear_of_not_mem hquote hshortQuote)⟩
      rw [headers, ← hshort, hmark]
      simp only [List.append_assoc, List.cons_append, List.nil_append]
    split_ifs with hfile
    · rw [behindName, if_pos hfile] at hfound
      exact quotedField_closed (hcut hfound) (by decide)
    · rw [behindName, if_neg hfile] at hfound
      exact quotedField_open (hcut hfound) List.not_mem_nil
  · have hbefore {rest : Text} (h : Clear (bytes "filename=\"") rest) :
        Clear (bytes "filename=\"")
          (bytes "Content-Disposition: form-data; name=" ++ 0x22 ::
            (entry.name ++ 0x22 :: rest)) :=
      clear_append_mark hquote hlead hleadEnd (clear_append_mark hquote hname hend h)
    rw [if_neg hend]
    split_ifs with hfile
    · have hfound : FirstAt (bytes "filename=\"") (headers entry)
          (bytes "Content-Disposition: form-data; name=" ++ 0x22 ::
            (entry.name ++ 0x22 :: bytes "; "))
          (entry.filename ++ 0x22 :: typeLine entry) := by
        refine ⟨?_, hbefore (clear_of_not_mem hquote (by decide))⟩
        have hbetween : bytes "; filename=" = bytes "; " ++ bytes "filename=" := by decide
        rw [headers, behindName, if_pos hfile, hbetween, hmark]
        simp only [List.append_assoc, List.cons_append, List.nil_append]
      exact quotedField_closed (hcut hfound) hfilename
    · refine quotedField_none ?_
      rw [headers, behindName, if_neg hfile]
      exact (hbefore (clear_nil _)).absent (by decide)

/-- The line of the content disposition behind the first quotation mark. -/
def dispositionRest (entry : FormEntry) : Text :=
  entry.name ++ 0x22 :: (bytes "; filename=" ++ 0x22 :: (entry.filename ++ [0x22]))

/-- The reader looks for `Content-Type:` from the start of the headers. -/
theorem contentType_headers (hfile : entry.isFile = true) :
    lineField (headers entry) (bytes "Content-Type: ") 14 =
      match (dispositionRest entry).dropInfix? (bytes "Content-Type: ") with
      | some (_, rest) => firstLine rest
      | none => firstLine entry.contentType := by
  have hquote : (0x22 : UInt8) ∉ bytes "Content-Type: " := by decide
  have hne : bytes "Content-Type: " ≠ [] := by decide
  have hlead : ¬bytes "Content-Type: " <:+: bytes "Content-Disposition: form-data; name=" :=
    dropInfix?_eq_none.mp (by decide)
  have hheaders : headers entry = bytes "Content-Disposition: form-data; name=" ++ 0x22 ::
      (dispositionRest entry ++ typeLine entry) := by
    rw [headers, behindName, if_pos hfile, dispositionRest]
    simp only [List.append_assoc, List.cons_append, List.nil_append]
  have hcut {a b : Text} (h : FirstAt (bytes "Content-Type: ")
      (dispositionRest entry ++ typeLine entry) a b) :
      lineField (headers entry) (bytes "Content-Type: ") 14 = firstLine b := by
    have hfound : FirstAt (bytes "Content-Type: ") (headers entry)
        (bytes "Content-Disposition: form-data; name=" ++ 0x22 :: a) b := by
      refine ⟨?_, (clear_append_cons hquote hne).mpr ⟨hlead, h.2⟩⟩
      rw [hheaders, h.1, List.append_assoc, List.cons_append]
    exact lineField_eq (cutAt_ascii hfound (by decide) hne rfl)
  by_cases hrest : bytes "Content-Type: " <:+: dispositionRest entry
  · obtain ⟨a, b, hab⟩ := exists_firstAt hrest
    rw [dropInfix?_eq_some.mpr hab, hcut (hab.append _), typeLine]
    dsimp only
    split_ifs
    · exact firstLine_append b _
    · rw [List.append_nil]
  · rw [dropInfix?_eq_none.mpr hrest]
    dsimp only
    by_cases hcontent : entry.contentType = []
    · rw [hcontent, lineField_none]
      · rfl
      · rw [hheaders, typeLine, if_neg (not_not.mpr hcontent), List.append_nil,
          infix_append_cons hquote]
        exact not_or.mpr ⟨hlead, hrest⟩
    · refine hcut (a := dispositionRest entry ++ bytes "\r\n") ⟨?_, ?_⟩
      · have htype : bytes "\r\nContent-Type: " = bytes "\r\n" ++ bytes "Content-Type: " := rfl
        rw [typeLine, if_pos hcontent, htype, List.append_assoc, List.append_assoc]
      · have hclose : dispositionRest entry ++ bytes "\r\n" =
            (entry.name ++ 0x22 :: (bytes "; filename=" ++ 0x22 :: entry.filename)) ++
              0x22 :: bytes "\r\n" := by
          rw [dispositionRest]
          simp only [List.append_assoc, List.cons_append, List.nil_append]
        have hline : Clear (bytes "Content-Type: ") (bytes "\r\n") := by
          have hfirst : (bytes "\r\nContent-Type: ").dropInfix? (bytes "Content-Type: ") =
              some (bytes "\r\n", []) := by decide
          exact (dropInfix?_eq_some.mp hfirst).2
        rw [hclose, clear_append_cons hquote hne]
        refine ⟨fun hin => hrest (hin.trans ?_), hline⟩
        rw [dispositionRest]
        exact ⟨[], [0x22], by simp only [List.append_assoc, List.cons_append, List.nil_append]⟩

end Headers

/-! ## A part that is written and read -/

section Part

variable {entry found : FormEntry}

/-- One line end behind the value of a part is dropped. -/
theorem dropLineEnd (v : Text) :
    (if Strings.endsWith (v ++ bytes "\r\n") (bytes "\r\n") then
      substring (v ++ bytes "\r\n") 0 (codePointCount (v ++ bytes "\r\n") - 2)
    else v ++ bytes "\r\n") = v := by
  have hstop : Stops v (bytes "\r\n") := .of_head v [0x0A] (by decide)
  have hline : codePointCount (bytes "\r\n") = 2 := rfl
  have hends : Strings.endsWith (v ++ bytes "\r\n") (bytes "\r\n") = true :=
    List.isSuffixOf_iff_suffix.mpr (List.suffix_append _ _)
  have hlength : ((codePointCount v + 2 : ℕ) : ℤ) - 2 = codePointCount v := by omega
  rw [if_pos hends, hstop.codePointCount, hline, hlength, substring_before hstop]

/-- A part whose headers end where they should. -/
theorem readPart_clear (hclear : Clear (bytes "\r\n\r\n") (headers entry))
    (hne : entry.name ≠ []) (hname : 0x22 ∉ entry.name) :
    readPart (partText entry) = some (createFileEntry entry.name entry.value
      (quotedField (headers entry) (bytes "filename=\"") 10)
      (lineField (headers entry) (bytes "Content-Type: ") 14)) := by
  have hcut : cutAt (partText entry) (bytes "\r\n\r\n") 4 =
      some (headers entry, entry.value ++ bytes "\r\n") :=
    cutAt_ascii ⟨rfl, hclear⟩ (by decide) (by decide) rfl
  rw [readPart, hcut]
  simp only [dropLineEnd, name_headers hname]
  exact if_pos hne

/-- Headers that end too early leave the rest of them to the value. -/
theorem value_ne_of_not_clear (hclear : ¬Clear (bytes "\r\n\r\n") (headers entry))
    (h : readPart (partText entry) = some found) : found.value ≠ entry.value := by
  have hinfix : bytes "\r\n\r\n" <:+: partText entry :=
    ⟨headers entry, entry.value ++ bytes "\r\n", List.append_assoc _ _ _⟩
  obtain ⟨a, b, htext, ha⟩ := exists_firstAt hinfix
  have hlt : a.length < (headers entry).length := by
    refine Nat.lt_of_le_of_ne (ha.le (htext.symm.trans rfl)) fun hlen => hclear ?_
    rwa [(List.append_inj htext hlen.symm).1]
  have hlength := congrArg List.length htext
  rw [partText] at hlength
  simp only [List.length_append] at hlength
  obtain ⟨c, hc⟩ : entry.value ++ bytes "\r\n" <:+ b := by
    have hvalue : entry.value ++ bytes "\r\n" <:+ partText entry :=
      ⟨headers entry ++ bytes "\r\n\r\n", List.append_assoc _ _ _⟩
    have hrest : b <:+ partText entry := ⟨a ++ bytes "\r\n\r\n", by rw [htext, List.append_assoc]⟩
    refine List.suffix_of_suffix_length_le hvalue hrest ?_
    rw [List.length_append]
    omega
  have hcut : cutAt (partText entry) (bytes "\r\n\r\n") 4 =
      some (a, (c ++ entry.value) ++ bytes "\r\n") := by
    rw [List.append_assoc, hc]
    exact cutAt_ascii ⟨htext, ha⟩ (by decide) (by decide) rfl
  rw [readPart, hcut] at h
  simp only [dropLineEnd] at h
  split_ifs at h
  obtain rfl := Option.some.inj h
  intro hvalue
  have hlong := congrArg List.length (show c ++ entry.value = entry.value from hvalue)
  rw [← hc] at hlength
  simp only [List.length_append] at hlength hlong
  omega

end Part

/-! ## What is read as it was written -/

/-- The entry that is asked for: the content type is sent with files only. -/
def Returned (entry found : FormEntry) : Prop :=
  found.name = entry.name ∧ found.value = entry.value ∧ found.filename = entry.filename ∧
    (entry.isFile = true → found.contentType = entry.contentType)

/-- No field of the entry is taken for the end of the headers or for another field, or what is
taken for it happens to be that field. -/
structure Readable (entry : FormEntry) : Prop where
  name : ¬bytes "\r\n\r\n" <:+: entry.name
  noFile : entry.isFile = false → entry.filename = []
  filename : entry.isFile = true → ¬bytes "\r\n\r\n" <:+: entry.filename ∧
    (bytes "filename=" <:+ entry.name → entry.filename = bytes "; filename=")
  contentType : entry.isFile = true → ¬bytes "\r\n" <:+: entry.contentType ∧
    ∀ a b, FirstAt (bytes "Content-Type: ") (dispositionRest entry) a b →
      firstLine b = entry.contentType

section Returned

variable {entry : FormEntry}

theorem filename_returned (hname : 0x22 ∉ entry.name) (hfilename : 0x22 ∉ entry.filename) :
    quotedField (headers entry) (bytes "filename=\"") 10 = entry.filename ↔
      (entry.isFile = false → entry.filename = []) ∧ (entry.isFile = true →
        bytes "filename=" <:+ entry.name → entry.filename = bytes "; filename=") := by
  rw [filename_headers hname hfilename]
  split_ifs with hfile hend
  · exact ⟨fun h => ⟨fun hno => absurd (hfile.symm.trans hno) (by decide), fun _ _ => h.symm⟩,
      fun h => (h.2 hfile hend).symm⟩
  · exact ⟨fun _ => ⟨fun hno => absurd (hfile.symm.trans hno) (by decide),
      fun _ h => absurd h hend⟩, fun _ => rfl⟩
  · exact ⟨fun h => ⟨fun _ => h.symm, fun h' => absurd h' hfile⟩,
      fun h => (h.1 (Bool.eq_false_iff.mpr hfile)).symm⟩

theorem contentType_returned (hfile : entry.isFile = true) :
    lineField (headers entry) (bytes "Content-Type: ") 14 = entry.contentType ↔
      ¬bytes "\r\n" <:+: entry.contentType ∧
        ∀ a b, FirstAt (bytes "Content-Type: ") (dispositionRest entry) a b →
          firstLine b = entry.contentType := by
  rw [contentType_headers hfile]
  by_cases hrest : bytes "Content-Type: " <:+: dispositionRest entry
  · obtain ⟨a, b, hab⟩ := exists_firstAt hrest
    rw [dropInfix?_eq_some.mpr hab]
    dsimp only
    constructor
    · intro h
      refine ⟨h ▸ absent_firstLine b, fun a' b' hab' => ?_⟩
      rw [(hab'.unique hab).2, h]
    · exact fun h => h.2 a b hab
  · rw [dropInfix?_eq_none.mpr hrest]
    dsimp only
    constructor
    · exact fun h => ⟨h ▸ absent_firstLine _, fun a b hab => absurd hab.occurs hrest⟩
    · exact fun h => firstLine_of_absent h.1

theorem returned_iff (hne : entry.name ≠ []) (hname : 0x22 ∉ entry.name)
    (hfilename : 0x22 ∉ entry.filename) :
    (∃ found, readPart (partText entry) = some found ∧ Returned entry found) ↔
      Readable entry := by
  constructor
  · rintro ⟨found, hread, hfound⟩
    have hclear : Clear (bytes "\r\n\r\n") (headers entry) := by
      by_contra hclear
      exact value_ne_of_not_clear hclear hread hfound.2.1
    rw [readPart_clear hclear hne hname] at hread
    obtain rfl := Option.some.inj hread
    obtain ⟨-, -, hreadFilename, hreadType⟩ := hfound
    obtain ⟨hnoFile, hmark⟩ := (filename_returned hname hfilename).mp hreadFilename
    obtain ⟨hnameEnd, hfileEnd⟩ := clear_headers.mp hclear
    exact ⟨hnameEnd, hnoFile, fun hfile => ⟨(hfileEnd hfile).1, hmark hfile⟩,
      fun hfile => (contentType_returned hfile).mp (hreadType hfile)⟩
  · intro h
    have hclear : Clear (bytes "\r\n\r\n") (headers entry) := by
      refine clear_headers.mpr ⟨h.name, fun hfile => ⟨(h.filename hfile).1, ?_⟩⟩
      exact (clear_line.mpr (h.contentType hfile).1).append (bytes "\r\n")
    refine ⟨_, readPart_clear hclear hne hname, rfl, rfl, ?_, fun hfile => ?_⟩
    · exact (filename_returned hname hfilename).mpr ⟨h.noFile, fun hfile => (h.filename hfile).2⟩
    · exact (contentType_returned hfile).mpr (h.contentType hfile)

end Returned

/-! ## The round trip -/

/-- Form data as it may be sent with a boundary. -/
structure Sendable (form : FormData) (boundary : Text) : Prop where
  nonempty : boundary ≠ []
  names : ∀ entry ∈ form.entries, entry.name ≠ [] ∧ 0x22 ∉ entry.name
  filenames : ∀ entry ∈ form.entries, 0x22 ∉ entry.filename ∧
    (entry.isFile = true → entry.filename ≠ [])
  delimiter : ∀ entry ∈ form.entries,
    ∀ text ∈ [entry.name, entry.filename, entry.contentType, entry.value],
      ¬delimiterOf boundary <:+: text

/-- The delimiter stands nowhere in the written part but at its end: it does not begin in a
field and go on in what the writer puts behind it. -/
def Apart (boundary : Text) (entry : FormEntry) : Prop :=
  Clear (delimiterOf boundary) (partText entry)

section Plain

variable {boundary : Text}

/-- The delimiter begins with two hyphens, so it does not begin in a text without them. -/
theorem delimiter_infix_append {fixed text : Text} (hfixed : ¬bytes "--" <:+: fixed)
    (hlast : fixed.getLast? ≠ some 0x2D) (h : delimiterOf boundary <:+: fixed ++ text) :
    delimiterOf boundary <:+: text := by
  induction fixed with
  | nil => exact h
  | cons c fixed ih =>
    rcases List.infix_cons_iff.mp h with hprefix | hinfix
    · obtain ⟨rfl, hsecond⟩ := List.cons_prefix_cons.mp hprefix
      rcases fixed with - | ⟨e, fixed⟩
      · exact absurd rfl hlast
      · obtain ⟨rfl, -⟩ := List.cons_prefix_cons.mp hsecond
        exact absurd ⟨[], fixed, rfl⟩ hfixed
    · refine ih (fun hin => hfixed (hin.trans (List.suffix_cons c fixed).isInfix)) ?_ hinfix
      rcases fixed with - | ⟨e, fixed⟩
      · exact Option.some_ne_none _ ∘ Eq.symm
      · rwa [List.getLast?_cons_cons] at hlast

/-- A boundary without quotation marks and line ends is met in the body only where it was put. -/
theorem apart_of_plain {entry : FormEntry} (hquote : 0x22 ∉ boundary) (hreturn : 0x0D ∉ boundary)
    (h : ∀ text ∈ [entry.name, entry.filename, entry.contentType, entry.value],
      ¬delimiterOf boundary <:+: text) : Apart boundary entry := by
  have hquote' : 0x22 ∉ delimiterOf boundary := List.not_mem_append (by decide) hquote
  have hreturn' : 0x0D ∉ delimiterOf boundary := List.not_mem_append (by decide) hreturn
  have hne := delimiterOf_ne_nil boundary
  have hnil : ¬delimiterOf boundary <:+: [] := fun hin => hne (List.infix_nil.mp hin)
  have hfree {fixed text : Text} (hfixed : fixed.dropInfix? (bytes "--") = none)
      (hlast : fixed.getLast? ≠ some 0x2D) (htext : ¬delimiterOf boundary <:+: text) :
      ¬delimiterOf boundary <:+: fixed ++ text := fun hin =>
    htext (delimiter_infix_append (dropInfix?_eq_none.mp hfixed) hlast hin)
  have hno {fixed : Text} (hfixed : fixed.dropInfix? (bytes "--") = none)
      (hlast : fixed.getLast? ≠ some 0x2D) : ¬delimiterOf boundary <:+: fixed := by
    have hin := hfree hfixed hlast hnil
    rwa [List.append_nil] at hin
  have hline : Clear (delimiterOf boundary) [0x0A] := by
    intro x y hx
    rcases x with - | ⟨c, x⟩
    · exact absurd (List.cons.inj hx).1 (by decide)
    · exact Nat.succ_le_succ (Nat.zero_le _)
  obtain ⟨rest, hrest, hclear⟩ : ∃ rest, bytes "\r\n\r\n" ++ (entry.value ++ bytes "\r\n") =
      0x0D :: rest ∧ Clear (delimiterOf boundary) rest := by
    refine ⟨[0x0A] ++ 0x0D :: ([0x0A] ++ entry.value ++ 0x0D :: [0x0A]), rfl, ?_⟩
    refine (clear_append_cons hreturn' hne).mpr ⟨hno (by decide) (by decide), ?_⟩
    refine (clear_append_cons hreturn' hne).mpr ⟨?_, hline⟩
    exact hfree (by decide) (by decide) (h entry.value (by simp))
  have htype : Clear (delimiterOf boundary) (typeLine entry ++ 0x0D :: rest) := by
    rw [typeLine]
    split_ifs
    · refine (clear_append_cons (a := []) hreturn' hne).mpr ⟨hnil, ?_⟩
      refine (clear_append_cons (a := bytes "\nContent-Type: " ++ entry.contentType)
        hreturn' hne).mpr ⟨?_, hclear⟩
      exact hfree (by decide) (by decide) (h entry.contentType (by simp))
    · exact (clear_append_cons hreturn' hne).mpr ⟨hnil, hclear⟩
  have hbehind : Clear (delimiterOf boundary) (behindName entry ++ 0x0D :: rest) := by
    rw [behindName]
    split_ifs
    · rw [List.append_assoc, List.cons_append, List.append_assoc, List.cons_append]
      refine (clear_append_cons hquote' hne).mpr ⟨hno (by decide) (by decide), ?_⟩
      exact (clear_append_cons hquote' hne).mpr ⟨h entry.filename (by simp), htype⟩
    · exact (clear_append_cons hreturn' hne).mpr ⟨hnil, hclear⟩
  rw [Apart, partText, hrest, headers, List.append_assoc, List.cons_append, List.append_assoc,
    List.cons_append]
  refine (clear_append_cons hquote' hne).mpr ⟨hno (by decide) (by decide), ?_⟩
  exact (clear_append_cons hquote' hne).mpr ⟨h entry.name (by simp), hbehind⟩

end Plain

def RoundTrip (form : FormData) (boundary : Text) : Prop :=
  ∃ body, multipartBody form boundary = .ok body ∧
    List.Forall₂ Returned form.entries (parseMultipart body boundary).entries

theorem forall₂_filterMap {α β : Type*} {R : α → β → Prop} {g : α → Option β} {l : List α} :
    List.Forall₂ R l (l.filterMap g) ↔ ∀ a ∈ l, ∃ b, g a = some b ∧ R a b := by
  induction l with
  | nil => simp
  | cons a l ih =>
    rw [List.forall_mem_cons, ← ih]
    rcases hg : g a with - | b
    · rw [List.filterMap_cons_none hg]
      constructor
      · intro h
        have hlength := h.length_eq
        have hle := List.length_filterMap_le g l
        rw [List.length_cons] at hlength
        omega
      · rintro ⟨⟨b, hb, -⟩, -⟩
        cases hb
    · rw [List.filterMap_cons_some hg, List.forall₂_cons]
      exact and_congr_left' ⟨fun h => ⟨b, rfl, h⟩, fun ⟨b', hb', h⟩ => Option.some.inj hb' ▸ h⟩

theorem roundTrip_iff {form : FormData} {boundary : Text} (h : Sendable form boundary)
    (hapart : ∀ entry ∈ form.entries, Apart boundary entry) :
    RoundTrip form boundary ↔ ∀ entry ∈ form.entries, Readable entry := by
  have hbody := multipartBody_eq h.nonempty fun entry hentry =>
    ⟨(h.names entry hentry).2, (h.filenames entry hentry).1⟩
  have hparts : (parseMultipart (partsText boundary (form.entries.map partText)) boundary).entries =
      form.entries.filterMap fun entry => readPart (partText entry) := by
    rw [parseMultipart_parts h.nonempty (List.forall_mem_map.mpr hapart), List.filterMap_map]
    rfl
  have hreturned : RoundTrip form boundary ↔ ∀ entry ∈ form.entries,
      ∃ found, readPart (partText entry) = some found ∧ Returned entry found := by
    rw [← forall₂_filterMap, ← hparts]
    constructor
    · rintro ⟨body, hok, hread⟩
      obtain rfl := Except.ok.inj (hbody.symm.trans hok)
      exact hread
    · exact fun hread => ⟨_, hbody, hread⟩
  rw [hreturned]
  refine forall₂_congr fun entry hentry => ?_
  exact returned_iff (h.names entry hentry).1 (h.names entry hentry).2 (h.filenames entry hentry).1

/-- The reader returns on every body, and what was written is read back exactly if no entry has
a field that is taken for something else. -/
theorem parseMultipart_multipartBody (boundary : Text) :
    (∀ body,
      ∃ reader ∈ StateTransition.eval (round body (delimiterOf boundary)) ⟨0, {}⟩,
        parseMultipart body boundary =
          if body = [] ∨ boundary = [] then {} else reader.form) ∧
    ∀ form, Sendable form boundary → (∀ entry ∈ form.entries, Apart boundary entry) →
      (RoundTrip form boundary ↔ ∀ entry ∈ form.entries, Readable entry) :=
  ⟨fun body => parseMultipart_mem_eval body boundary, fun _ h hapart => roundTrip_iff h hapart⟩

/-- A value may hold line ends, and the headers' end too. -/
def noteAndPicture : FormData :=
  ⟨[createEntry (bytes "note") (bytes "a\r\n\r\nb\r\n"),
    createFileEntry (bytes "picture") (bytes "--") (bytes "p.png") (bytes "image/png")]⟩

theorem sendable_noteAndPicture : Sendable noteAndPicture (bytes "B") :=
  ⟨by decide, by decide, by decide, by decide⟩

theorem readable_noteAndPicture : ∀ entry ∈ noteAndPicture.entries, Readable entry := by
  rw [noteAndPicture]
  simp only [List.forall_mem_cons, List.not_mem_nil, false_implies, implies_true, and_true]
  constructor
  · have hfile (h : false = true) : False := absurd h (by decide)
    exact ⟨by decide, fun _ => rfl, fun h => (hfile h).elim, fun h => (hfile h).elim⟩
  · have hfile (h : true = false) : False := absurd h (by decide)
    refine ⟨by decide, fun h => (hfile h).elim, fun _ => ⟨by decide, by decide⟩,
      fun _ => ⟨by decide, fun a b h => ?_⟩⟩
    exact absurd h.occurs (dropInfix?_eq_none.mp (by decide))

theorem parseMultipart_noteAndPicture : RoundTrip noteAndPicture (bytes "B") := by
  refine ((parseMultipart_multipartBody (bytes "B")).2 _ sendable_noteAndPicture
    fun entry hentry => ?_).mpr readable_noteAndPicture
  exact apart_of_plain (by decide) (by decide) (sendable_noteAndPicture.delimiter entry hentry)

/-- A file whose field is called `filename=`. -/
def misnamed : FormData :=
  ⟨[createFileEntry (bytes "filename=") (bytes "v") (bytes "f") []]⟩

theorem not_roundTrip_misnamed :
    Sendable misnamed (bytes "B") ∧ ¬RoundTrip misnamed (bytes "B") := by
  have hsend : Sendable misnamed (bytes "B") := ⟨by decide, by decide, by decide, by decide⟩
  refine ⟨hsend, fun h => ?_⟩
  have hread := (roundTrip_iff hsend fun entry hentry =>
    apart_of_plain (by decide) (by decide) (hsend.delimiter entry hentry)).mp h
  have hfilename := ((hread _ List.mem_cons_self).filename rfl).2 (List.suffix_refl _)
  exact absurd hfilename (by decide)

end Form

end Absolute
