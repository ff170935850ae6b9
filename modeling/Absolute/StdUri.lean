import Absolute.StdText
import Mathlib.Data.List.TakeWhile
import Mathlib.Data.Nat.Digits.Defs

/-!
# URLs

`std.uri.parse` and `Uri.toString`. The parser cuts a text at one mark after the other:
scheme, fragment, query, path, user information, host and port; each mark is looked for in
what the cuts before it left. What it returns is in a form (`Canonical`) whose text is cut in
the same places again, so that parsing is stable (`parse_toString`).
-/

namespace Absolute

open Strings

structure Uri where
  scheme : Text := bytes "http"
  host : Text := []
  port : ℤ := 80
  path : Text := bytes "/"
  query : Text := []
  fragment : Text := []
deriving DecidableEq

namespace Uri

/-- What `{}` prints for an `int32`. -/
def decimal (n : ℤ) : Text :=
  let digits := if n = 0 then [0x30]
    else (Nat.digits 10 n.natAbs).reverse.map fun d => UInt8.ofNat (0x30 + d)
  if n < 0 then 0x2D :: digits else digits

def defaultPortFor (scheme : Text) : ℤ :=
  if scheme = bytes "https" then 443
  else if scheme = bytes "ws" then 80
  else if scheme = bytes "wss" then 443
  else 80

def toString (uri : Uri) : Text :=
  let result := uri.scheme ++ bytes "://" ++ uri.host
  let result :=
    if uri.port ≠ defaultPortFor uri.scheme then result ++ bytes ":" ++ decimal uri.port
    else result
  let result := result ++ uri.path
  let result := if uri.query ≠ [] then result ++ bytes "?" ++ uri.query else result
  if uri.fragment ≠ [] then result ++ bytes "#" ++ uri.fragment else result

/-! ## The parser

One function for each mark, with the part of the URL that is known and the text that is left. -/

inductive Fault where
  | unterminatedHost (rawUrl : Text)
  | textAfterHost (rawUrl : Text)
deriving DecidableEq

def parseScheme (rawUrl : Text) : Uri × Text :=
  match cutAt rawUrl (bytes "://") 3 with
  | some (scheme, remaining) =>
    (⟨scheme, [], defaultPortFor scheme, bytes "/", [], []⟩, remaining)
  | none => (⟨bytes "http", [], 80, bytes "/", [], []⟩, rawUrl)

def parseFragment (uri : Uri) (remaining : Text) : Uri × Text :=
  match cutAt remaining (bytes "#") 1 with
  | some (before, fragment) => (⟨uri.scheme, uri.host, uri.port, uri.path, uri.query, fragment⟩,
      before)
  | none => (uri, remaining)

def parseQuery (uri : Uri) (remaining : Text) : Uri × Text :=
  match cutAt remaining (bytes "?") 1 with
  | some (before, query) => (⟨uri.scheme, uri.host, uri.port, uri.path, query, uri.fragment⟩,
      before)
  | none => (uri, remaining)

/-- The path keeps its mark; what is before it is the authority. -/
def parsePath (uri : Uri) (remaining : Text) : Uri × Text :=
  match cutAt remaining (bytes "/") 0 with
  | some (authority, path) => (⟨uri.scheme, uri.host, uri.port, path, uri.query, uri.fragment⟩,
      authority)
  | none => (⟨uri.scheme, uri.host, uri.port, bytes "/", uri.query, uri.fragment⟩, remaining)

def dropUserInfo (authority : Text) : Text :=
  let userInfoEnd := lastIndexOf authority (bytes "@")
  if userInfoEnd ≥ 0 then substringFrom authority (userInfoEnd + 1) else authority

/-- The host and where it ends. -/
def parseHost (rawUrl authority : Text) : Except Fault (Text × ℤ) :=
  if Strings.startsWith authority (bytes "[") then
    let bracketEnd := indexOf authority (bytes "]")
    if bracketEnd < 0 then .error (.unterminatedHost rawUrl)
    else .ok (substring authority 0 (bracketEnd + 1), bracketEnd + 1)
  else
    let portSep := indexOf authority (bytes ":")
    let hostEnd : ℤ := if portSep ≥ 0 then portSep else codePointCount authority
    .ok (substring authority 0 hostEnd, hostEnd)

def parsePort (rawUrl : Text) (uri : Uri) (authority : Text) (hostEnd : ℤ) : Except Fault ℤ :=
  let authorityLength : ℤ := codePointCount authority
  if hostEnd < authorityLength then
    let separator := substring authority hostEnd 1
    if separator ≠ bytes ":" then .error (.textAfterHost rawUrl)
    else
      let portText := substring authority (hostEnd + 1) (authorityLength - (hostEnd + 1))
      if portText ≠ [] then .ok (parseInt portText) else .ok uri.port
  else .ok (defaultPortFor uri.scheme)

def parseAuthority (rawUrl : Text) (uri : Uri) (authority : Text) : Except Fault Uri :=
  match parseHost rawUrl authority with
  | .error fault => .error fault
  | .ok (host, hostEnd) =>
    match parsePort rawUrl uri authority hostEnd with
    | .error fault => .error fault
    | .ok port => .ok ⟨uri.scheme, host, port, uri.path, uri.query, uri.fragment⟩

def parse (rawUrl : Text) : Except Fault Uri :=
  let (uri, remaining) := parseScheme rawUrl
  let (uri, remaining) := parseFragment uri remaining
  let (uri, remaining) := parseQuery uri remaining
  let (uri, authority) := parsePath uri remaining
  parseAuthority rawUrl uri (dropUserInfo authority)

theorem parse_eq {t r₀ r₁ r₂ a : Text} {u₀ u₁ u₂ u₃ : Uri} (h₀ : parseScheme t = (u₀, r₀))
    (h₁ : parseFragment u₀ r₀ = (u₁, r₁)) (h₂ : parseQuery u₁ r₁ = (u₂, r₂))
    (h₃ : parsePath u₂ r₂ = (u₃, a)) : parse t = parseAuthority t u₃ (dropUserInfo a) := by
  rw [parse, h₀]
  simp only [h₁, h₂, h₃]

/-! ## Numbers as texts -/

def isDigitOrSign (c : UInt8) : Prop := c = 0x2D ∨ 0x30 ≤ c.toNat ∧ c.toNat ≤ 0x39

theorem digitsValue_append (s : Text) (c : UInt8) :
    digitsValue (s ++ [c]) = 10 * digitsValue s + (c.toNat - 0x30) := by
  rw [digitsValue, List.foldl_append]
  rfl

theorem toNat_digitByte {d : ℕ} (h : d < 10) : (UInt8.ofNat (0x30 + d)).toNat = 0x30 + d := by
  rw [UInt8.toNat_ofNat']
  exact Nat.mod_eq_of_lt (by omega)

theorem digitsValue_digits {ds : List ℕ} (h : ∀ d ∈ ds, d < 10) :
    digitsValue (ds.reverse.map fun d => UInt8.ofNat (0x30 + d)) = Nat.ofDigits 10 ds := by
  induction ds with
  | nil => rfl
  | cons d ds ih =>
    obtain ⟨hd, hds⟩ := List.forall_mem_cons.mp h
    rw [List.reverse_cons, List.map_append, List.map_singleton, digitsValue_append, ih hds,
      toNat_digitByte hd, Nat.ofDigits_cons]
    omega

/-- The digits of a number, without its sign. -/
def digitsOf (n : ℤ) : Text :=
  if n = 0 then [0x30] else (Nat.digits 10 n.natAbs).reverse.map fun d => UInt8.ofNat (0x30 + d)

theorem digitsOf_ne_nil (n : ℤ) : digitsOf n ≠ [] := by
  rw [digitsOf]
  split_ifs with h
  · exact List.cons_ne_nil _ _
  · simp only [ne_eq, List.map_eq_nil_iff, List.reverse_eq_nil_iff, Nat.digits_eq_nil_iff_eq_zero]
    omega

theorem digitsValue_digitsOf (n : ℤ) : digitsValue (digitsOf n) = n.natAbs := by
  rw [digitsOf]
  split_ifs with h
  · rw [h]
    rfl
  · rw [digitsValue_digits fun d hd => Nat.digits_lt_base (by omega) hd, Nat.ofDigits_digits]

theorem digitsOf_range {n : ℤ} {c : UInt8} (hc : c ∈ digitsOf n) :
    0x30 ≤ c.toNat ∧ c.toNat ≤ 0x39 := by
  rw [digitsOf] at hc
  split_ifs at hc
  · rw [List.mem_singleton.mp hc]
    decide
  · obtain ⟨d, hd, rfl⟩ := List.mem_map.mp hc
    have hlt : d < 10 := Nat.digits_lt_base (by omega) (List.mem_reverse.mp hd)
    rw [toNat_digitByte hlt]
    omega

theorem decimal_eq (n : ℤ) :
    decimal n = if n < 0 then 0x2D :: digitsOf n else digitsOf n := rfl

theorem decimal_range {n : ℤ} {c : UInt8} (hc : c ∈ decimal n) : isDigitOrSign c := by
  rw [decimal_eq] at hc
  split_ifs at hc
  · rcases List.mem_cons.mp hc with rfl | hc
    · exact .inl rfl
    · exact .inr (digitsOf_range hc)
  · exact .inr (digitsOf_range hc)

/-- A number that was printed is read again. -/
theorem parseInt_decimal {n : ℤ} (hlow : -2 ^ 31 ≤ n) (hhigh : n < 2 ^ 31) :
    parseInt (decimal n) = n := by
  have hdigit (c : UInt8) (hc : c ∈ digitsOf n) : isdigit c = true := by
    obtain ⟨h₀, h₉⟩ := digitsOf_range hc
    rw [isdigit, Bool.and_eq_true, decide_eq_true_eq, decide_eq_true_eq, UInt8.le_iff_toNat_le,
      UInt8.le_iff_toNat_le]
    exact ⟨h₀, h₉⟩
  have htake : (digitsOf n).takeWhile isdigit = digitsOf n :=
    List.takeWhile_eq_self_iff.mpr hdigit
  obtain ⟨c, rest, hcons⟩ := List.exists_cons_of_ne_nil (digitsOf_ne_nil n)
  have hrange := digitsOf_range (hcons ▸ List.mem_cons_self : c ∈ digitsOf n)
  have hread : parseInt (decimal n) =
      (if -2 ^ 31 ≤ n ∧ n < 2 ^ 31 then n else 0) := by
    rw [decimal_eq, parseInt]
    by_cases hneg : n < 0
    · rw [if_pos hneg, List.dropWhile_cons_of_neg (by decide)]
      dsimp only [readSign]
      rw [if_pos rfl]
      dsimp only
      rw [htake, if_neg (digitsOf_ne_nil n), digitsValue_digitsOf, if_pos rfl,
        show (-(n.natAbs : ℤ)) = n by omega]
    · have hsign : readSign (digitsOf n) = (false, digitsOf n) := by
        rw [hcons, readSign, if_neg, if_neg]
        · rintro rfl
          exact absurd hrange.1 (by decide)
        · rintro rfl
          exact absurd hrange.1 (by decide)
      rw [if_neg hneg, hcons, List.dropWhile_cons_of_neg, ← hcons, hsign]
      · dsimp only
        rw [htake, if_neg (digitsOf_ne_nil n), digitsValue_digitsOf,
          if_neg Bool.false_ne_true, show ((n.natAbs : ℤ)) = n by omega]
      · simp only [isspace, Bool.or_eq_true, Bool.and_eq_true, decide_eq_true_eq,
          UInt8.le_iff_toNat_le, ← UInt8.toNat_inj]
        show ¬(c.toNat = 32 ∨ 9 ≤ c.toNat ∧ c.toNat ≤ 13)
        omega
  rw [hread, if_pos ⟨hlow, hhigh⟩]

/-! ## Canonical URLs -/

/-- What the parser leaves in a URL: none of its parts contains a mark at which the text of
the URL would be cut earlier. -/
structure Canonical (u : Uri) : Prop where
  scheme : Occurrence.Clear (bytes "://") u.scheme
  host : ∀ c ∈ bytes "#?/@", c ∉ u.host
  hostEnd : (∃ h, u.host = bytes "[" ++ h ++ bytes "]" ∧ ∀ c ∈ bytes "]", c ∉ h) ∨
    Strings.startsWith u.host (bytes "[") = false ∧ ∀ c ∈ bytes ":", c ∉ u.host
  port : -2 ^ 31 ≤ u.port ∧ u.port < 2 ^ 31
  path : ∃ p, u.path = bytes "/" ++ p ∧ ∀ c ∈ bytes "#?", c ∉ p
  query : ∀ c ∈ bytes "#", c ∉ u.query

/-! ## What the parser returns is canonical -/

section Sound

variable {t : Text}

/-- The mark of the scheme, where it is met first. -/
theorem cutAt_scheme {s r : Text} (h : Occurrence.FirstAt (bytes "://") t s r) :
    cutAt t (bytes "://") 3 = some (s, r) :=
  cutAt_firstAt h (.of_head s _ (by decide)) (.of_last (bytes ":/") r (by decide)) rfl

theorem parseScheme_spec (t : Text) :
    ∃ s r, parseScheme t = (⟨s, [], defaultPortFor s, bytes "/", [], []⟩, r) ∧
      Occurrence.Clear (bytes "://") s := by
  by_cases h : bytes "://" <:+: t
  · obtain ⟨a, b, hab⟩ := Occurrence.exists_firstAt h
    refine ⟨a, b, ?_, hab.2⟩
    rw [parseScheme, cutAt_scheme hab]
  · have hhttp : (bytes "http://").dropInfix? (bytes "://") = some (bytes "http", []) := by
      decide
    refine ⟨bytes "http", t, ?_, (Occurrence.dropInfix?_eq_some.mp hhttp).2⟩
    rw [parseScheme, cutAt_none h]
    rfl

theorem parseFragment_spec {u : Uri} (t : Text) (hu : u.fragment = []) :
    ∃ f r, parseFragment u t = (⟨u.scheme, u.host, u.port, u.path, u.query, f⟩, r) ∧
      0x23 ∉ r := by
  rw [parseFragment, show bytes "#" = [0x23] from rfl]
  rcases mark_cases t 0x23 with ⟨a, b, rfl, -, hno⟩ | ⟨hno, hinfix⟩
  · refine ⟨b, a, ?_, hno⟩
    rw [cutAt_mark hno (by decide)]
  · refine ⟨[], t, ?_, hno⟩
    rw [cutAt_none hinfix, ← hu]

theorem parseQuery_spec {u : Uri} (t : Text) (hu : u.query = []) :
    ∃ q r, parseQuery u t = (⟨u.scheme, u.host, u.port, u.path, q, u.fragment⟩, r) ∧
      0x3F ∉ r ∧ q ⊆ t ∧ r ⊆ t := by
  rw [parseQuery, show bytes "?" = [0x3F] from rfl]
  rcases mark_cases t 0x3F with ⟨a, b, rfl, -, hno⟩ | ⟨hno, hinfix⟩
  · refine ⟨b, a, ?_, hno, ?_, List.subset_append_left a _⟩
    · rw [cutAt_mark hno (by decide)]
    · intro c hc
      exact List.mem_append_right a (List.mem_append_right _ hc)
  · refine ⟨[], t, ?_, hno, List.nil_subset t, List.Subset.refl t⟩
    rw [cutAt_none hinfix, ← hu]

theorem parsePath_spec (u : Uri) (t : Text) :
    ∃ p a, parsePath u t =
        (⟨u.scheme, u.host, u.port, bytes "/" ++ p, u.query, u.fragment⟩, a) ∧
      0x2F ∉ a ∧ p ⊆ t ∧ a ⊆ t := by
  rw [parsePath, show bytes "/" = [0x2F] from rfl]
  rcases mark_cases t 0x2F with ⟨a, b, rfl, -, hno⟩ | ⟨hno, hinfix⟩
  · refine ⟨b, a, ?_, hno, ?_, List.subset_append_left a _⟩
    · rw [cutAt_mark_zero hno (by decide)]
    · intro c hc
      exact List.mem_append_right a (List.mem_append_right _ hc)
  · refine ⟨[], t, ?_, hno, List.nil_subset t, List.Subset.refl t⟩
    rw [cutAt_none hinfix, List.append_nil]

theorem dropUserInfo_spec (t : Text) : 0x40 ∉ dropUserInfo t ∧ dropUserInfo t ⊆ t := by
  rw [dropUserInfo, show bytes "@" = [0x40] from rfl]
  have hascii : (0x40 : UInt8).toNat ≤ 0x7F := by decide
  rcases lastIndexOf_cases t hascii with ⟨a, b, rfl, hno, hfind⟩ | ⟨hno, hfind⟩
  · have hrest : substringFrom (a ++ ([0x40] ++ b)) (codePointCount a + 1) = b :=
      substringFrom_behind (.of_head a b hascii) (.of_last [] b hascii) rfl
    simp only [hfind]
    rw [if_pos (by omega), hrest]
    refine ⟨hno, ?_⟩
    intro c hc
    exact List.mem_append_right a (List.mem_append_right _ hc)
  · simp only [hfind]
    exact ⟨hno, List.Subset.refl t⟩

/-- The host is a beginning of the authority. -/
theorem parseHost_spec {raw host : Text} {hostEnd : ℤ}
    (h : parseHost raw t = .ok (host, hostEnd)) :
    host ⊆ t ∧
      ((∃ m, host = bytes "[" ++ m ++ bytes "]" ∧ ∀ c ∈ bytes "]", c ∉ m) ∨
        Strings.startsWith host (bytes "[") = false ∧ ∀ c ∈ bytes ":", c ∉ host) := by
  rw [parseHost, show bytes "[" = [0x5B] from rfl, show bytes "]" = [0x5D] from rfl,
    show bytes ":" = [0x3A] from rfl] at h
  rw [show bytes "[" = [0x5B] from rfl, show bytes "]" = [0x5D] from rfl,
    show bytes ":" = [0x3A] from rfl]
  simp only [List.forall_mem_singleton]
  by_cases hbracket : Strings.startsWith t [0x5B] = true
  · rw [if_pos hbracket] at h
    rcases mark_cases t 0x5D with ⟨a, b, rfl, hab, hno⟩ | ⟨-, hinfix⟩
    · have hcount : ((codePointCount a : ℤ) + 1) = codePointCount (a ++ [0x5D]) := by
        rw [(Stops.of_head a [] (by decide)).codePointCount, Int.natCast_add]
        rfl
      have hhost : substring (a ++ ([0x5D] ++ b)) 0 (codePointCount a + 1) = a ++ [0x5D] := by
        rw [hcount, ← List.append_assoc, substring_before (.of_last a b (by decide))]
      simp only [indexOf_firstAt hab (.of_head a b (by decide))] at h
      rw [if_neg (by omega), hhost] at h
      obtain ⟨rfl, -⟩ := Prod.mk.inj (Except.ok.inj h)
      refine ⟨?_, .inl ?_⟩
      · rw [← List.append_assoc]
        exact List.subset_append_left _ b
      · obtain ⟨rest, hrest⟩ := Strings.startsWith_iff.mp hbracket
        rcases a with - | ⟨c, m⟩
        · cases hrest
        · obtain rfl : (0x5B : UInt8) = c := (List.cons.inj hrest).1
          exact ⟨m, rfl, fun hm => hno (List.mem_cons_of_mem _ hm)⟩
    · simp only [indexOf_none hinfix] at h
      cases h
  · rw [if_neg hbracket] at h
    rcases mark_cases t 0x3A with ⟨a, b, rfl, hab, hno⟩ | ⟨hno, hinfix⟩
    · have hstop : Stops a ([0x3A] ++ b) := .of_head a b (by decide)
      simp only [indexOf_firstAt hab hstop] at h
      rw [if_pos (by omega), substring_before hstop] at h
      obtain ⟨rfl, -⟩ := Prod.mk.inj (Except.ok.inj h)
      refine ⟨List.subset_append_left a _, .inr ⟨?_, hno⟩⟩
      rw [Bool.eq_false_iff]
      intro hstart
      have hfirst : bytes "[" <+: a := Strings.startsWith_iff.mp hstart
      exact hbracket (Strings.startsWith_iff.mpr (hfirst.trans (List.prefix_append _ _)))
    · simp only [indexOf_none hinfix] at h
      rw [if_neg (by omega), substring_all t] at h
      obtain ⟨rfl, -⟩ := Prod.mk.inj (Except.ok.inj h)
      exact ⟨List.Subset.refl t, .inr ⟨Bool.eq_false_iff.mpr hbracket, hno⟩⟩

theorem defaultPortFor_range (scheme : Text) :
    -2 ^ 31 ≤ defaultPortFor scheme ∧ defaultPortFor scheme < 2 ^ 31 := by
  rw [defaultPortFor]
  split_ifs <;> omega

theorem parsePort_range {raw : Text} {u : Uri} {hostEnd port : ℤ}
    (hu : -2 ^ 31 ≤ u.port ∧ u.port < 2 ^ 31) (h : parsePort raw u t hostEnd = .ok port) :
    -2 ^ 31 ≤ port ∧ port < 2 ^ 31 := by
  simp only [parsePort] at h
  split_ifs at h <;> cases h
  · exact parseInt_range _
  · exact hu
  · exact defaultPortFor_range _

theorem parseAuthority_spec {raw : Text} {u v : Uri}
    (hu : -2 ^ 31 ≤ u.port ∧ u.port < 2 ^ 31) (h : parseAuthority raw u t = .ok v) :
    ∃ host port, v = ⟨u.scheme, host, port, u.path, u.query, u.fragment⟩ ∧
      (-2 ^ 31 ≤ port ∧ port < 2 ^ 31) ∧ host ⊆ t ∧
      ((∃ m, host = bytes "[" ++ m ++ bytes "]" ∧ ∀ c ∈ bytes "]", c ∉ m) ∨
        Strings.startsWith host (bytes "[") = false ∧ ∀ c ∈ bytes ":", c ∉ host) := by
  rw [parseAuthority] at h
  rcases hhost : parseHost raw t with fault | ⟨host, hostEnd⟩
  · rw [hhost] at h
    cases h
  rw [hhost] at h
  dsimp only at h
  rcases hport : parsePort raw u t hostEnd with fault | port
  · rw [hport] at h
    cases h
  rw [hport] at h
  exact ⟨host, port, (Except.ok.inj h).symm, parsePort_range hu hport, parseHost_spec hhost⟩

/-- What the parser returns is canonical. -/
theorem parse_canonical {u : Uri} (h : parse t = .ok u) : Canonical u := by
  obtain ⟨s, r₀, hscheme, hclear⟩ := parseScheme_spec t
  obtain ⟨f, r₁, hfragment, hfno⟩ :=
    parseFragment_spec (u := ⟨s, [], defaultPortFor s, bytes "/", [], []⟩) r₀ rfl
  obtain ⟨q, r₂, hquery, hqno, hqsub, hrsub⟩ :=
    parseQuery_spec (u := ⟨s, [], defaultPortFor s, bytes "/", [], f⟩) r₁ rfl
  obtain ⟨p, a, hpath, hano, hpsub, hasub⟩ :=
    parsePath_spec ⟨s, [], defaultPortFor s, bytes "/", q, f⟩ r₂
  obtain ⟨hdno, hdsub⟩ := dropUserInfo_spec a
  rw [parse_eq hscheme hfragment hquery hpath] at h
  obtain ⟨host, port, rfl, hport, hhostsub, hform⟩ :=
    parseAuthority_spec (defaultPortFor_range s) h
  have hmarks (c : UInt8) (hc : c ∉ dropUserInfo a) : c ∉ host := fun hmem =>
    hc (hhostsub hmem)
  have hnot₂ : 0x23 ∉ r₂ := fun hmem => hfno (hrsub hmem)
  refine ⟨hclear, ?_, hform, hport, ⟨p, rfl, ?_⟩, ?_⟩
  · rw [show bytes "#?/@" = [0x23, 0x3F, 0x2F, 0x40] from rfl]
    simp only [List.forall_mem_cons, List.not_mem_nil, false_implies, implies_true, and_true]
    exact ⟨hmarks _ fun hmem => hnot₂ (hasub (hdsub hmem)),
      hmarks _ fun hmem => hqno (hasub (hdsub hmem)), hmarks _ fun hmem => hano (hdsub hmem),
      hmarks _ hdno⟩
  · rw [show bytes "#?" = [0x23, 0x3F] from rfl]
    simp only [List.forall_mem_cons, List.not_mem_nil, false_implies, implies_true, and_true]
    exact ⟨fun hmem => hnot₂ (hpsub hmem), fun hmem => hqno (hpsub hmem)⟩
  · rw [show bytes "#" = [0x23] from rfl]
    simp only [List.forall_mem_singleton]
    exact fun hmem => hfno (hqsub hmem)

end Sound

/-! ## The text of a canonical URL is read back -/

section Back

def portPart (u : Uri) : Text :=
  if u.port ≠ defaultPortFor u.scheme then bytes ":" ++ decimal u.port else []

def queryPart (u : Uri) : Text := if u.query ≠ [] then bytes "?" ++ u.query else []

def fragmentPart (u : Uri) : Text := if u.fragment ≠ [] then bytes "#" ++ u.fragment else []

theorem toString_eq (u : Uri) :
    u.toString = u.scheme ++ (bytes "://" ++
      (u.host ++ portPart u ++ u.path ++ queryPart u ++ fragmentPart u)) := by
  rw [toString, portPart, queryPart, fragmentPart]
  split_ifs <;> simp only [List.append_assoc, List.append_nil]

variable {u : Uri}

theorem portPart_range {c : UInt8} (hc : c ∈ portPart u) :
    c.toNat = 0x2D ∨ 0x30 ≤ c.toNat ∧ c.toNat ≤ 0x3A := by
  rw [portPart] at hc
  split_ifs at hc
  · rcases List.mem_append.mp hc with hc | hc
    · rw [List.mem_singleton.mp hc]
      decide
    · rcases decimal_range hc with rfl | ⟨h₀, h₉⟩
      · exact .inl rfl
      · exact .inr ⟨h₀, by omega⟩
  · cases hc

theorem portPart_ascii {c : UInt8} (h : c.toNat ≠ 0x2D) (h' : c.toNat < 0x30 ∨ 0x3A < c.toNat) :
    c ∉ portPart u := fun hc => by
  have hrange := portPart_range hc
  omega

theorem Canonical.hash_not_mem_queryPart (hu : Canonical u) : 0x23 ∉ queryPart u := by
  rw [queryPart]
  split_ifs
  · exact List.not_mem_append (by decide) (hu.query _ (by decide))
  · exact List.not_mem_nil

theorem parseScheme_back {s : Text} (hclear : Occurrence.Clear (bytes "://") s) (r : Text) :
    parseScheme (s ++ (bytes "://" ++ r)) =
      (⟨s, [], defaultPortFor s, bytes "/", [], []⟩, r) := by
  rw [parseScheme, cutAt_scheme ⟨rfl, hclear⟩]

theorem parseFragment_back {v : Uri} {r : Text} (hv : v.fragment = []) (hno : 0x23 ∉ r) :
    parseFragment v (r ++ fragmentPart u) =
      (⟨v.scheme, v.host, v.port, v.path, v.query, u.fragment⟩, r) := by
  rw [parseFragment, fragmentPart, show bytes "#" = [0x23] from rfl]
  split_ifs with h
  · rw [cutAt_mark hno (by decide)]
  · rw [List.append_nil, cutAt_none (not_infix_mark hno), not_not.mp h, ← hv]

theorem parseQuery_back {v : Uri} {r : Text} (hv : v.query = []) (hno : 0x3F ∉ r) :
    parseQuery v (r ++ queryPart u) =
      (⟨v.scheme, v.host, v.port, v.path, u.query, v.fragment⟩, r) := by
  rw [parseQuery, queryPart, show bytes "?" = [0x3F] from rfl]
  split_ifs with h
  · rw [cutAt_mark hno (by decide)]
  · rw [List.append_nil, cutAt_none (not_infix_mark hno), not_not.mp h, ← hv]

theorem parsePath_back (v : Uri) (p : Text) {r : Text} (hno : 0x2F ∉ r) :
    parsePath v (r ++ (bytes "/" ++ p)) =
      (⟨v.scheme, v.host, v.port, bytes "/" ++ p, v.query, v.fragment⟩, r) := by
  rw [parsePath, show bytes "/" = [0x2F] from rfl, cutAt_mark_zero hno (by decide)]

theorem dropUserInfo_back {t : Text} (hno : 0x40 ∉ t) : dropUserInfo t = t := by
  rw [dropUserInfo, show bytes "@" = [0x40] from rfl]
  rcases lastIndexOf_cases t (by decide : (0x40 : UInt8).toNat ≤ 0x7F) with
    ⟨a, b, rfl, -, -⟩ | ⟨-, hfind⟩
  · exact absurd (by simp) hno
  · simp only [hfind]
    exact if_neg (by omega)

/-- What follows the host begins with a colon. -/
theorem stops_portPart (host : Text) (u : Uri) : Stops host (portPart u) := by
  rw [portPart]
  split_ifs
  · exact .of_head host (decimal u.port) (by decide)
  · exact stops_end host

theorem parseHost_back {t : Text} (hu : Canonical u) :
    parseHost t (u.host ++ portPart u) = .ok (u.host, codePointCount u.host) := by
  have hstop := stops_portPart u.host u
  rw [parseHost]
  rcases hu.hostEnd with ⟨m, hm, hno⟩ | ⟨hstart, hno⟩
  · have hno' : 0x5D ∉ bytes "[" ++ m := List.not_mem_append (by decide) (hno _ (by decide))
    have hhost : u.host = bytes "[" ++ m ++ [0x5D] := hm
    have hcount : ((codePointCount (bytes "[" ++ m) : ℤ) + 1) = codePointCount u.host := by
      rw [hhost, (Stops.of_head (bytes "[" ++ m) [] (by decide)).codePointCount, Int.natCast_add]
      rfl
    have hat : indexOf (u.host ++ portPart u) (bytes "]") = codePointCount (bytes "[" ++ m) := by
      rw [hhost, List.append_assoc (bytes "[" ++ m)]
      exact indexOf_mark hno' (by decide)
    have hstart : Strings.startsWith (u.host ++ portPart u) (bytes "[") = true := by
      rw [Strings.startsWith_iff, hhost, List.append_assoc, List.append_assoc]
      exact List.prefix_append _ _
    rw [if_pos hstart]
    simp only [hat]
    rw [if_neg (by omega), hcount, substring_before hstop]
  · have hno' : 0x3A ∉ u.host := hno _ (by decide)
    have hstart' : Strings.startsWith (u.host ++ portPart u) (bytes "[") = false := by
      rw [Bool.eq_false_iff] at hstart ⊢
      intro h
      obtain ⟨rest, hrest⟩ := Strings.startsWith_iff.mp h
      rcases hhost : u.host with - | ⟨c, host⟩
      · rw [hhost] at hrest
        have hmem : (0x5B : UInt8) ∈ portPart u := by
          rw [← List.nil_append (portPart u), ← hrest]
          exact List.mem_cons_self
        exact portPart_ascii (by decide) (by decide) hmem
      · rw [hhost] at hrest hstart
        obtain rfl := (List.cons.inj hrest).1
        exact hstart (Strings.startsWith_iff.mpr ⟨host, rfl⟩)
    rw [if_neg (Bool.eq_false_iff.mp hstart')]
    by_cases hdefault : u.port ≠ defaultPortFor u.scheme
    · have hpart : portPart u = [0x3A] ++ decimal u.port := if_pos hdefault
      have hat : indexOf (u.host ++ portPart u) (bytes ":") = codePointCount u.host := by
        rw [hpart]
        exact indexOf_mark hno' (by decide)
      simp only [hat]
      rw [if_pos (by omega), substring_before hstop]
    · have hpart : portPart u = [] := if_neg hdefault
      have hat : indexOf u.host (bytes ":") = -1 := indexOf_none (not_infix_mark hno')
      rw [hpart, List.append_nil]
      simp only [hat]
      rw [if_neg (by omega), substring_all]

theorem parsePort_back {t : Text} {v : Uri} (hu : Canonical u) (hv : v.scheme = u.scheme) :
    parsePort t v (u.host ++ portPart u) (codePointCount u.host) = .ok u.port := by
  have hcount := (stops_portPart u.host u).codePointCount
  rw [parsePort]
  by_cases hdefault : u.port ≠ defaultPortFor u.scheme
  · have hpart : portPart u = [0x3A] ++ decimal u.port := if_pos hdefault
    have hstop : Stops u.host ([0x3A] ++ decimal u.port) := .of_head _ _ (by decide)
    have hmark : Stops [0x3A] (decimal u.port) := .of_last [] _ (by decide)
    have hseparator : substring (u.host ++ portPart u) (codePointCount u.host) 1 = [0x3A] := by
      rw [hpart]
      exact substring_between hstop hmark
    have hrest : substringFrom (u.host ++ portPart u) (codePointCount u.host + 1) =
        decimal u.port := by
      rw [hpart]
      exact substringFrom_behind hstop hmark rfl
    have hpos : codePointCount u.host < codePointCount (u.host ++ portPart u) := by
      rw [hcount]
      have := codePointCount_pos (a := portPart u) (by rw [hpart]; exact List.cons_ne_nil _ _)
      omega
    have hne : decimal u.port ≠ [] := by
      rw [decimal_eq]
      split_ifs
      · exact List.cons_ne_nil _ _
      · exact digitsOf_ne_nil _
    simp only [hseparator]
    rw [if_pos (by omega), if_neg (fun h => h rfl)]
    rw [substringFrom] at hrest
    rw [hrest, if_pos hne, parseInt_decimal hu.port.1 hu.port.2]
  · have hpart : portPart u = [] := if_neg hdefault
    dsimp only
    rw [hpart, List.append_nil, if_neg (by omega), hv, ← not_not.mp hdefault]

/-- A canonical URL is read back from its text. -/
theorem Canonical.parse_toString (hu : Canonical u) : parse u.toString = .ok u := by
  obtain ⟨p, hp, hpno⟩ := hu.path
  have hno {c : UInt8} (h : c ∈ bytes "#?/@") (h' : c.toNat ≠ 0x2D)
      (h'' : c.toNat < 0x30 ∨ 0x3A < c.toNat) : c ∉ u.host ++ portPart u :=
    List.not_mem_append (hu.host c h) (portPart_ascii h' h'')
  have hslash : 0x2F ∉ u.host ++ portPart u := hno (by decide) (by decide) (by decide)
  have hquestion : 0x3F ∉ u.host ++ portPart u ++ (bytes "/" ++ p) :=
    List.not_mem_append (hno (by decide) (by decide) (by decide))
      (List.not_mem_append (by decide) (hpno _ (by decide)))
  have hhash : 0x23 ∉ u.host ++ portPart u ++ (bytes "/" ++ p) ++ queryPart u :=
    List.not_mem_append
      (List.not_mem_append (hno (by decide) (by decide) (by decide))
        (List.not_mem_append (by decide) (hpno _ (by decide))))
      hu.hash_not_mem_queryPart
  rw [toString_eq, hp, parse_eq (parseScheme_back hu.scheme _) (parseFragment_back rfl hhash)
    (parseQuery_back rfl hquestion) (parsePath_back _ p hslash),
    dropUserInfo_back (hno (by decide) (by decide) (by decide)), parseAuthority,
    parseHost_back hu]
  dsimp only
  rw [parsePort_back (v := ⟨u.scheme, [], _, bytes "/" ++ p, u.query, u.fragment⟩) hu rfl]
  dsimp only
  rw [← hp]

/-- Parsing is stable: the text of a parsed URL is parsed to the same URL. -/
theorem parse_stable {t : Text} {u : Uri} (h : parse t = .ok u) :
    ∃ u', parse u.toString = .ok u' ∧ u'.scheme = u.scheme ∧ u'.host = u.host ∧
      u'.port = u.port ∧ u'.path = u.path ∧ u'.query = u.query ∧ u'.fragment = u.fragment := by
  have hcanonical : Canonical u := parse_canonical h
  exact ⟨u, hcanonical.parse_toString, rfl, rfl, rfl, rfl, rfl, rfl⟩

/-- The user information and the port of the scheme are dropped, the host in brackets is kept. -/
theorem parse_stable_bracketed :
    ∃ u', parse (toString ⟨bytes "https", bytes "[::1]", 443, bytes "/a", bytes "b?", []⟩) =
        .ok u' ∧
      u'.scheme = bytes "https" ∧ u'.host = bytes "[::1]" ∧ u'.port = 443 ∧
      u'.path = bytes "/a" ∧ u'.query = bytes "b?" ∧ u'.fragment = [] :=
  parse_stable (t := bytes "https://x:y@[::1]:443/a?b?#")
    (u := ⟨bytes "https", bytes "[::1]", 443, bytes "/a", bytes "b?", []⟩) (by decide)

end Back

end Uri

end Absolute
