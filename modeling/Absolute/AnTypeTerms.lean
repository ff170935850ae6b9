import Mathlib.Data.List.Basic
import Mathlib.Data.List.TakeDrop
import Mathlib.Data.List.TakeWhile
import Mathlib.Data.List.Count
import Absolute.AnTypeNames

/-!
# Type terms and the names that stand for them

The types canonical names are meant to encode, as terms, and how much of a term
its name keeps. `canonicalName` writes a term the way the analyzer builds names
(`CanonicalPointerName`, an array's `[]`, a generic application); the readers
of `AnTypeNames` are then measured against it:

- `parseGenericTypeName_canonicalName` and `substituteGenericType_canonicalName`
  hold of every term;
- the qualifier of a pointer is written in front of the whole name and its star
  behind it, so `Unique (Sub T)` and `Sub (Unique T)` are both `sub T**`.
  Which terms survive that is the subject of `AnTypeFaithful`.
-/

namespace Absolute

/-! ## Terms -/

/-- A character that none of the type constructors writes. -/
def NameChar (c : Char) : Prop := c ∉ "<>,*[]& ".toList

instance : DecidablePred NameChar := fun c => inferInstanceAs (Decidable (c ∉ _))

def IsName (n : TypeName) : Prop := n ≠ [] ∧ ∀ c ∈ n, NameChar c

instance : DecidablePred IsName := fun n =>
  decidable_of_iff (n ≠ [] ∧ n.all (fun c => decide (NameChar c)) = true)
    (by simp [IsName])

/-- The (possibly qualified) name of a declared type, primitive or parameter. -/
abbrev Ident := {n : TypeName // IsName n}

/-- The four kinds of handle a type can be. -/
inductive PointerKind where
  | unique
  | sub
  | weak
  | raw
deriving Repr, DecidableEq

def PointerKind.ownership : PointerKind → OwnershipKind
  | .unique => .Unique
  | .sub => .Sub
  | .weak => .Weak
  | .raw => .Raw

inductive TypeTerm where
  | name (n : Ident)
  | app (base : Ident) (first : TypeTerm) (rest : List TypeTerm)
  | array (element : TypeTerm)
  | pointer (kind : PointerKind) (pointee : TypeTerm)

namespace TypeTerm

/-- Induction on terms, with the arguments of an application as one list. -/
theorem induct {P : TypeTerm → Prop} (name : ∀ n, P (.name n))
    (app : ∀ base first rest, (∀ t ∈ first :: rest, P t) → P (.app base first rest))
    (array : ∀ t, P t → P (.array t)) (pointer : ∀ k t, P t → P (.pointer k t)) :
    ∀ t, P t :=
  @TypeTerm.rec P (fun ts => ∀ t ∈ ts, P t)
    name (fun base first rest hf hr => app base first rest (List.forall_mem_cons.mpr ⟨hf, hr⟩))
    array pointer (by simp) (fun _ _ ht hts => List.forall_mem_cons.mpr ⟨ht, hts⟩)

mutual

def canonicalName : TypeTerm → TypeName
  | .name n => n.1
  | .app base first rest =>
      genericTypeName base.1 (canonicalName first :: canonicalNames rest)
  | .array element => canonicalName element ++ "[]".toList
  | .pointer kind pointee => canonicalPointerName (canonicalName pointee) kind.ownership

def canonicalNames : List TypeTerm → List TypeName
  | [] => []
  | t :: ts => canonicalName t :: canonicalNames ts

end

/-- Substitution of terms for the names that stand for themselves. -/
abbrev TermSubst := Ident → Option TypeTerm

mutual

def subst (σ : TermSubst) : TypeTerm → TypeTerm
  | .name n => (σ n).getD (.name n)
  | .app base first rest => .app base (subst σ first) (substAll σ rest)
  | .array element => .array (subst σ element)
  | .pointer kind pointee => .pointer kind (subst σ pointee)

def substAll (σ : TermSubst) : List TypeTerm → List TypeTerm
  | [] => []
  | t :: ts => subst σ t :: substAll σ ts

end

/-- The names a substitution of terms gives the analyzer. -/
def nameSubst (σ : TermSubst) : Substitutions := fun n =>
  if h : IsName n then (σ ⟨n, h⟩).map canonicalName else none

theorem canonicalNames_eq_map (ts : List TypeTerm) :
    canonicalNames ts = ts.map canonicalName := by
  induction ts with
  | nil => rfl
  | cons t ts ih => rw [canonicalNames, ih, List.map_cons]

theorem substAll_eq_map (σ : TermSubst) (ts : List TypeTerm) :
    substAll σ ts = ts.map (subst σ) := by
  induction ts with
  | nil => rfl
  | cons t ts ih => rw [substAll, ih, List.map_cons]

theorem canonicalName_app (base : Ident) (first : TypeTerm) (rest : List TypeTerm) :
    canonicalName (.app base first rest)
      = genericTypeName base.1 ((first :: rest).map canonicalName) := by
  rw [canonicalName, canonicalNames_eq_map, List.map_cons]

theorem subst_app (σ : TermSubst) (base : Ident) (first : TypeTerm) (rest : List TypeTerm) :
    subst σ (.app base first rest)
      = .app base (subst σ first) (rest.map (subst σ)) := by
  rw [subst, substAll_eq_map]

/-! ## The last character tells the outermost constructor -/

theorem canonicalName_ne_nil (t : TypeTerm) : canonicalName t ≠ [] := by
  cases t with
  | name n => exact n.2.1
  | app base first rest => simp [canonicalName, genericTypeName]
  | array t => simp [canonicalName]
  | pointer k t => simp [canonicalName, canonicalPointerName]

/-- Read off the last character of a name. -/
inductive LastChar : TypeTerm → Char → Prop where
  | name {n : Ident} {c : Char} : NameChar c → LastChar (.name n) c
  | app {base : Ident} {first : TypeTerm} {rest : List TypeTerm} :
      LastChar (.app base first rest) '>'
  | array {t : TypeTerm} : LastChar (.array t) ']'
  | pointer {k : PointerKind} {t : TypeTerm} : LastChar (.pointer k t) '*'

theorem lastChar_of_eq {t : TypeTerm} {front : TypeName} {c : Char}
    (h : canonicalName t = front ++ [c]) : LastChar t c := by
  cases t with
  | name n =>
      refine .name (n.2.2 c ?_)
      rw [canonicalName] at h
      rw [h]; simp
  | app base first rest =>
      rw [canonicalName, genericTypeName] at h
      obtain rfl : '>' = c := by simpa using (List.append_inj' h rfl).2
      exact .app
  | array t =>
      rw [canonicalName, show canonicalName t ++ "[]".toList
        = (canonicalName t ++ ['[']) ++ [']'] by simp] at h
      obtain rfl : ']' = c := by simpa using (List.append_inj' h rfl).2
      exact .array
  | pointer k t =>
      rw [canonicalName, canonicalPointerName] at h
      obtain rfl : '*' = c := by simpa using (List.append_inj' h rfl).2
      exact .pointer

theorem endsWith_star {t : TypeTerm} :
    endsWith (canonicalName t) "*".toList = true ↔ ∃ k p, t = .pointer k p := by
  rw [endsWith_iff]
  constructor
  · rintro ⟨front, h⟩
    cases lastChar_of_eq h with
    | name hc => exact absurd hc (by decide)
    | pointer => exact ⟨_, _, rfl⟩
  · rintro ⟨k, p, rfl⟩
    exact ⟨_, rfl⟩

theorem endsWith_brackets {t : TypeTerm} :
    endsWith (canonicalName t) "[]".toList = true ↔ ∃ e, t = .array e := by
  rw [endsWith_iff]
  constructor
  · rintro ⟨front, h⟩
    have h' : canonicalName t = (front ++ ['[']) ++ [']'] := by rw [h]; simp
    cases lastChar_of_eq h' with
    | name hc => exact absurd hc (by decide)
    | array => exact ⟨_, rfl⟩
  · rintro ⟨e, rfl⟩
    exact ⟨_, rfl⟩

theorem not_isValueReferenceType (t : TypeTerm) :
    isValueReferenceType (canonicalName t) = false := by
  rw [isValueReferenceType, Bool.eq_false_iff]
  intro h
  obtain ⟨front, h⟩ := endsWith_iff.mp h
  cases lastChar_of_eq h with
  | name hc => exact absurd hc (by decide)

theorem dropBrackets_append (s : TypeName) : dropBrackets (s ++ "[]".toList) = s := by
  simp [dropBrackets]

/-! ## Reading the arguments of an application -/

/-- A stretch of text the argument loop of `parseGenericTypeName` copies into
the current argument, at nesting depth `d` and above. -/
def Chunk (d : Nat) (s : TypeName) : Prop :=
  ∀ rest d' current, d ≤ d' →
    parseArguments (s ++ rest) d' current = parseArguments rest d' (current ++ s)

theorem Chunk.mono {d e : Nat} {s : TypeName} (h : Chunk d s) (hde : d ≤ e) : Chunk e s :=
  fun rest d' current hd => h rest d' current (Nat.le_trans hde hd)

theorem Chunk.append {d : Nat} {s s' : TypeName} (h : Chunk d s) (h' : Chunk d s') :
    Chunk d (s ++ s') := by
  intro rest d' current hd
  rw [List.append_assoc, h _ _ _ hd, h' _ _ _ hd, List.append_assoc]

theorem Chunk.nil (d : Nat) : Chunk d [] := fun rest d' current _ => by simp

theorem Chunk.char {d : Nat} {c : Char} (h1 : c ≠ '<') (h2 : c ≠ '>')
    (h3 : c = ',' → 0 < d) : Chunk d [c] := by
  intro rest d' current hd
  have h4 : ¬(c = ',' ∧ d' = 0) := by
    rintro ⟨hc, rfl⟩
    have := h3 hc
    omega
  simp only [List.singleton_append]
  rw [parseArguments, if_neg h1, if_neg h2, if_neg h4]

theorem Chunk.of_forall {d : Nat} {s : TypeName}
    (h : ∀ c ∈ s, c ≠ '<' ∧ c ≠ '>' ∧ (c = ',' → 0 < d)) : Chunk d s := by
  induction s with
  | nil => exact .nil d
  | cons c s ih =>
      rw [List.forall_mem_cons] at h
      exact .append (.char h.1.1 h.1.2.1 h.1.2.2) (ih h.2)

/-- What stands between brackets is copied whole. -/
theorem Chunk.bracketed {s : TypeName} (h : Chunk 1 s) (d : Nat) :
    Chunk d ("<".toList ++ s ++ ">".toList) := by
  intro rest d' current _
  have hopen : ∀ r, parseArguments ('<' :: r) d' current
      = parseArguments r (d' + 1) (current ++ ['<']) := fun r => by
    rw [parseArguments, if_pos rfl]
  have hclose : ∀ r cur, parseArguments ('>' :: r) (d' + 1) cur
      = parseArguments r d' (cur ++ ['>']) := fun r cur => by
    rw [parseArguments, if_neg (by decide), if_pos rfl, if_neg (by omega)]
    rfl
  have hassoc : "<".toList ++ s ++ ">".toList ++ rest = '<' :: (s ++ '>' :: rest) := by simp
  rw [hassoc, hopen, h _ _ _ (by omega), hclose]
  simp

theorem Chunk.intercalate {names : List TypeName} (h : ∀ n ∈ names, Chunk 1 n) :
    Chunk 1 (List.intercalate ",".toList names) := by
  have hcomma : Chunk 1 ",".toList := .char (by decide) (by decide) (by decide)
  induction names with
  | nil => exact .nil 1
  | cons n ns ih =>
      rw [List.forall_mem_cons] at h
      cases ns with
      | nil => simpa [List.intercalate] using h.1
      | cons m ms =>
          have := (h.1.append hcomma).append (ih h.2)
          simpa [List.intercalate] using this

theorem nameChar_chunk {n : TypeName} (h : ∀ c ∈ n, NameChar c) : Chunk 0 n :=
  .of_forall fun c hc => by
    have := h c hc
    refine ⟨?_, ?_, ?_⟩ <;> rintro rfl <;> exact absurd this (by decide)

theorem prefix_chunk (k : OwnershipKind) : Chunk 0 (canonicalOwnershipPrefix k) :=
  .of_forall (by cases k <;> simp [canonicalOwnershipPrefix])

theorem canonicalName_chunk (t : TypeTerm) : Chunk 0 (canonicalName t) := by
  induction t using induct with
  | name n => exact nameChar_chunk n.2.2
  | app base first rest ih =>
      rw [canonicalName_app, genericTypeName]
      have hargs : Chunk 1 (List.intercalate ",".toList
          ((first :: rest).map canonicalName)) :=
        Chunk.intercalate fun n hn => by
          obtain ⟨t, ht, rfl⟩ := List.mem_map.mp hn
          exact (ih t ht).mono (Nat.zero_le 1)
      have := (nameChar_chunk base.2.2).append (hargs.bracketed 0)
      simpa using this
  | array t ih => exact ih.append (.of_forall (by simp))
  | pointer k t ih =>
      exact ((prefix_chunk _).append ih).append (.of_forall (by simp))

theorem parseArguments_intercalate {n : TypeName} {ns : List TypeName}
    (h : ∀ m ∈ n :: ns, Chunk 0 m) :
    parseArguments (List.intercalate ",".toList (n :: ns)) 0 [] = some (n :: ns) := by
  induction ns generalizing n with
  | nil =>
      have := (h n (by simp)) [] 0 [] (Nat.le_refl 0)
      simpa [List.intercalate, parseArguments] using this
  | cons m ms ih =>
      rw [List.forall_mem_cons] at h
      have hsplit : List.intercalate ",".toList (n :: m :: ms)
          = n ++ ',' :: List.intercalate ",".toList (m :: ms) := by
        simp [List.intercalate]
      rw [hsplit, h.1 _ _ _ (Nat.le_refl 0), parseArguments, if_neg (by decide),
        if_neg (by decide), if_pos ⟨rfl, rfl⟩, ih h.2]
      rfl

/-- `ParseGenericTypeName` recovers the base and arguments of an application. -/
theorem parseGenericTypeName_canonicalName (base : Ident) (first : TypeTerm)
    (rest : List TypeTerm) :
    parseGenericTypeName (canonicalName (.app base first rest))
      = some (base.1, (first :: rest).map canonicalName) := by
  have hlt : ∀ c ∈ base.1, decide (c ≠ '<') = true := fun c hc => by
    have := base.2.2 c hc
    rw [decide_eq_true_eq]
    rintro rfl
    exact absurd this (by decide)
  rw [canonicalName_app, genericTypeName]
  set inner := List.intercalate ",".toList ((first :: rest).map canonicalName) with hinner
  have hshape : base.1 ++ "<".toList ++ inner ++ ">".toList
      = base.1 ++ '<' :: (inner ++ ['>']) := by simp
  have hparse : parseArguments inner 0 [] = some ((first :: rest).map canonicalName) :=
    parseArguments_intercalate fun m hm => by
      rw [← List.map_cons] at hm
      obtain ⟨t, -, rfl⟩ := List.mem_map.mp hm
      exact canonicalName_chunk t
  have hlast : (base.1 ++ '<' :: (inner ++ ['>'])).getLast? = some '>' := by
    rw [show base.1 ++ '<' :: (inner ++ ['>']) = (base.1 ++ '<' :: inner) ++ ['>'] by simp,
      List.getLast?_append]
    rfl
  rw [hshape, parseGenericTypeName, List.dropWhile_append_of_pos hlt,
    List.takeWhile_append_of_pos hlt]
  simp only [List.dropWhile_cons, List.takeWhile_cons, ne_eq, not_true_eq_false,
    decide_false, Bool.false_eq_true, if_false, hlast, List.append_nil,
    List.dropLast_concat, hparse]
  rw [if_pos]
  refine ⟨base.2.1, fun a ha => ?_⟩
  obtain ⟨t, -, rfl⟩ := List.mem_map.mp ha
  exact canonicalName_ne_nil t

theorem parseGenericTypeName_name (n : Ident) : parseGenericTypeName n.1 = none := by
  have : n.1.dropWhile (· ≠ '<') = [] := by
    rw [List.dropWhile_eq_nil_iff]
    intro c hc
    have := n.2.2 c hc
    rw [decide_eq_true_eq]
    rintro rfl
    exact absurd this (by decide)
  rw [parseGenericTypeName, this]

/-! ## The qualifier in front of a name -/

/-- The outermost qualifier on the chain of pointers and arrays `t` starts
with: the one its name begins with. -/
def leadKind : TypeTerm → PointerKind
  | .name _ => .unique
  | .app .. => .unique
  | .array t => leadKind t
  | .pointer .unique t => leadKind t
  | .pointer k _ => k

/-- `t` with that outermost qualified pointer made an owner. -/
def demote : TypeTerm → TypeTerm
  | .name n => .name n
  | .app base first rest => .app base first rest
  | .array t => .array (demote t)
  | .pointer .unique t => .pointer .unique (demote t)
  | .pointer _ t => .pointer .unique t

theorem canonicalName_pointer (k : PointerKind) (t : TypeTerm) :
    canonicalName (.pointer k t)
      = canonicalOwnershipPrefix k.ownership ++ (canonicalName t ++ ['*']) := by
  simp [canonicalName, canonicalPointerName]

theorem canonicalName_pointer_unique (t : TypeTerm) :
    canonicalName (.pointer .unique t) = canonicalName t ++ ['*'] :=
  canonicalName_pointer .unique t

/-- A name is its leading qualifier and the name of the demoted term. -/
theorem canonicalName_demote (t : TypeTerm) :
    canonicalName t
      = canonicalOwnershipPrefix (leadKind t).ownership ++ canonicalName (demote t) := by
  have hqual : ∀ k t, leadKind (.pointer k t) = k → demote (.pointer k t) = .pointer .unique t →
      canonicalName (.pointer k t)
        = canonicalOwnershipPrefix (leadKind (.pointer k t)).ownership
          ++ canonicalName (demote (.pointer k t)) := by
    intro k t hl hd
    rw [hl, hd, canonicalName_pointer_unique, canonicalName_pointer]
  induction t using induct with
  | name n => rfl
  | app base first rest => rfl
  | array t ih =>
      rw [leadKind, demote, canonicalName, canonicalName, ← List.append_assoc, ← ih]
  | pointer k t ih =>
      cases k with
      | unique =>
          rw [leadKind, demote, canonicalName_pointer_unique, canonicalName_pointer_unique,
            ← List.append_assoc, ← ih]
      | sub => exact hqual _ t rfl rfl
      | weak => exact hqual _ t rfl rfl
      | raw => exact hqual _ t rfl rfl

theorem demote_of_unique {t : TypeTerm} (h : leadKind t = .unique) : demote t = t := by
  induction t using induct with
  | name n => rfl
  | app base first rest => rfl
  | array t ih => rw [demote, ih h]
  | pointer k t ih =>
      cases k with
      | unique => rw [demote, ih h]
      | sub => cases h
      | weak => cases h
      | raw => cases h

/-- Text that starts with a type's own name: some name characters, then the
end or what follows a name inside a type. -/
def NameHead (s : TypeName) : Prop :=
  ∃ n r, s = n ++ r ∧ (∀ c ∈ n, NameChar c) ∧ ∀ c, r.head? = some c → c ∈ "<*[".toList

theorem NameHead.append {s tail : TypeName} (h : NameHead s)
    (htail : ∀ c, tail.head? = some c → c ∈ "<*[".toList) : NameHead (s ++ tail) := by
  obtain ⟨n, r, rfl, hn, hr⟩ := h
  cases r with
  | nil => exact ⟨n, tail, by simp, hn, htail⟩
  | cons c r => exact ⟨n, c :: r ++ tail, by simp, hn, fun d hd => hr d hd⟩

theorem nameHead_of_unique {t : TypeTerm} (h : leadKind t = .unique) :
    NameHead (canonicalName t) := by
  induction t using induct with
  | name n => exact ⟨n.1, [], by simp [canonicalName], n.2.2, by simp⟩
  | app base first rest =>
      refine ⟨base.1, _, by rw [canonicalName, genericTypeName, List.append_assoc,
        List.append_assoc], base.2.2, fun c hc => ?_⟩
      obtain rfl : '<' = c := by simpa using hc
      decide
  | array t ih => exact (ih h).append (by simp)
  | pointer k t ih =>
      cases k with
      | unique => rw [canonicalName_pointer_unique]; exact (ih h).append (by simp)
      | sub => cases h
      | weak => cases h
      | raw => cases h

/-- The blank that ends a qualifier is in no name. -/
theorem not_prefix_of_nameHead {word s : TypeName} (hs : NameHead s)
    (hword : ∀ c ∈ word, c ∉ "<*[".toList) : ¬(word ++ [' ']) <+: s := by
  obtain ⟨n, r, rfl, hn, hr⟩ := hs
  induction word generalizing n with
  | nil =>
      rintro ⟨tail, h⟩
      cases n with
      | nil =>
          rw [List.nil_append, List.nil_append] at h
          exact absurd (hr ' ' (by rw [← h]; rfl)) (by decide)
      | cons c n =>
          obtain ⟨rfl, -⟩ := List.cons.inj h
          exact absurd (hn ' ' (by simp)) (by decide)
  | cons c word ih =>
      rw [List.forall_mem_cons] at hword
      rintro ⟨tail, h⟩
      cases n with
      | nil =>
          rw [List.nil_append] at h
          exact hword.1 (hr c (by rw [← h]; rfl))
      | cons d n =>
          rw [List.forall_mem_cons] at hn
          exact ih hword.2 n hn.2 ⟨tail, (List.cons.inj h).2⟩

theorem not_startsWith_of_nameHead {s : TypeName} (hs : NameHead s) :
    startsWith s "raw ".toList = false ∧ startsWith s "weak ".toList = false
      ∧ startsWith s "sub ".toList = false := by
  have key : ∀ word, (∀ c ∈ word, c ∉ "<*[".toList) →
      startsWith s (word ++ [' ']) = false := by
    intro word hword
    rw [Bool.eq_false_iff, startsWith, ne_eq, List.isPrefixOf_iff_prefix]
    exact not_prefix_of_nameHead hs hword
  exact ⟨key "raw".toList (by simp), key "weak".toList (by simp),
    key "sub".toList (by simp)⟩

theorem canonicalOwnership_nameHead {s : TypeName} (hs : NameHead s) :
    canonicalOwnership (s ++ ['*']) = .Unique := by
  have hhead : NameHead (s ++ ['*']) := hs.append (by simp)
  obtain ⟨hraw, hweak, hsub⟩ := not_startsWith_of_nameHead hhead
  have hend : endsWith (s ++ ['*']) "*".toList = true := endsWith_iff.mpr ⟨s, rfl⟩
  rw [canonicalOwnership, hend, hraw, hweak, hsub, if_neg (by simp)]
  rfl

/-- A written qualifier is always read back. -/
theorem canonicalOwnership_qualified {kind : OwnershipKind} (h : kind ≠ .None)
    (hu : kind ≠ .Unique) (s : TypeName) :
    canonicalOwnership (canonicalPointerName s kind) = kind := by
  have hend : endsWith (canonicalPointerName s kind) "*".toList = true :=
    endsWith_iff.mpr ⟨_, rfl⟩
  have hne : canonicalPointerName s kind ≠ [] := by simp [canonicalPointerName]
  rw [canonicalOwnership, hend, if_neg (by simp [hne])]
  cases kind with
  | None => exact absurd rfl h
  | Unique => exact absurd rfl hu
  | Sub => rfl
  | Weak => rfl
  | Raw => rfl

/-- What `CanonicalOwnership` reads off a pointer: the leading qualifier of the
whole name, which for an owner is its pointee's. -/
theorem canonicalOwnership_pointer (k : PointerKind) (t : TypeTerm) :
    canonicalOwnership (canonicalName (.pointer k t))
      = (leadKind (.pointer k t)).ownership := by
  rw [canonicalName_demote]
  by_cases hl : leadKind (.pointer k t) = .unique
  · rw [hl, demote_of_unique hl]
    cases k with
    | unique =>
        rw [canonicalName_pointer_unique]
        exact canonicalOwnership_nameHead (nameHead_of_unique hl)
    | sub => cases hl
    | weak => cases hl
    | raw => cases hl
  · have hown : (leadKind (.pointer k t)).ownership ≠ .None
        ∧ (leadKind (.pointer k t)).ownership ≠ .Unique := by
      cases hk : leadKind (.pointer k t) <;> simp_all [PointerKind.ownership]
    obtain ⟨t', ht'⟩ : ∃ t', demote (.pointer k t) = .pointer .unique t' := by
      cases k <;> exact ⟨_, rfl⟩
    rw [ht', canonicalName_pointer_unique, ← List.append_assoc]
    exact canonicalOwnership_qualified hown.1 hown.2 _

/-- The pointee `CanonicalPointeeName` reads: for an owner, the pointee with the
qualifier it was mistaken for taken away. -/
theorem canonicalPointeeName_pointer (k : PointerKind) (t : TypeTerm) :
    canonicalPointeeName (canonicalName (.pointer k t))
      = canonicalName (if k = .unique then demote t else t) := by
  have hne : canonicalOwnership (canonicalName (.pointer k t)) ≠ .None := by
    rw [canonicalOwnership_pointer]
    cases leadKind (.pointer k t) <;> simp [PointerKind.ownership]
  have hshape : canonicalName (.pointer k t)
      = canonicalOwnershipPrefix (leadKind (.pointer k t)).ownership
        ++ (canonicalName (if k = .unique then demote t else t) ++ ['*']) := by
    rw [canonicalName_demote]
    cases k <;> simp [demote, canonicalName_pointer_unique]
  rw [canonicalPointeeName, if_neg hne, canonicalOwnership_pointer, hshape, List.drop_left,
    List.dropLast_concat]

/-! ## Substitution -/

theorem not_isName_of_mem {n : TypeName} {c : Char} (hc : c ∈ n) (hbad : ¬NameChar c) :
    ¬IsName n := fun h => hbad (h.2 c hc)

theorem nameSubst_of_mem (σ : TermSubst) {n : TypeName} {c : Char} (hc : c ∈ n)
    (hbad : ¬NameChar c) : nameSubst σ n = none := by
  rw [nameSubst, dif_neg (not_isName_of_mem hc hbad)]

theorem leadKind_subst (σ : TermSubst) {t : TypeTerm} (h : leadKind t ≠ .unique) :
    leadKind (subst σ t) = leadKind t ∧ demote (subst σ t) = subst σ (demote t) := by
  induction t using induct with
  | name n => exact absurd rfl h
  | app base first rest => exact absurd rfl h
  | array t ih =>
      obtain ⟨h1, h2⟩ := ih h
      exact ⟨by rw [subst, leadKind, leadKind, h1], by rw [subst, demote, demote, subst, h2]⟩
  | pointer k t ih =>
      cases k with
      | unique =>
          obtain ⟨h1, h2⟩ := ih h
          exact ⟨by rw [subst, leadKind, leadKind, h1],
            by rw [subst, demote, demote, subst, h2]⟩
      | sub => exact ⟨rfl, rfl⟩
      | weak => exact ⟨rfl, rfl⟩
      | raw => exact ⟨rfl, rfl⟩

theorem canonicalOpenOwnership_nameHead {s : TypeName} (hs : NameHead s) :
    canonicalOpenOwnership s = .None := by
  obtain ⟨hraw, hweak, hsub⟩ := not_startsWith_of_nameHead hs
  rw [canonicalOpenOwnership, hraw, hweak, hsub]
  split <;> rfl

theorem not_endsWith_brackets {t : TypeTerm} (h : ∀ e, t ≠ .array e) :
    endsWith (canonicalName t) "[]".toList = false := by
  rw [Bool.eq_false_iff, ne_eq, endsWith_brackets]
  rintro ⟨e, he⟩
  exact h e he

theorem not_endsWith_star {t : TypeTerm} (h : ∀ k p, t ≠ .pointer k p) :
    endsWith (canonicalName t) "*".toList = false := by
  rw [Bool.eq_false_iff, ne_eq, endsWith_star]
  rintro ⟨k, p, he⟩
  exact h k p he

theorem canonicalOwnership_of_not_pointer {t : TypeTerm} (h : ∀ k p, t ≠ .pointer k p) :
    canonicalOwnership (canonicalName t) = .None := by
  rw [canonicalOwnership, not_endsWith_star h, if_pos (by simp)]

/-- Substitution on names is substitution on terms, for every term: where a
qualifier is read at the wrong pointer, it is written back where it was. -/
theorem substituteGenericType_canonicalName (σ : TermSubst) (t : TypeTerm) :
    substituteGenericType (canonicalName t) (nameSubst σ) = canonicalName (subst σ t) := by
  -- on the length of the name: what an owner's pointee is read as is demoted,
  -- hence no subterm
  induction hn : (canonicalName t).length using Nat.strong_induction_on generalizing t with
  | _ n ih =>
  subst hn
  rw [substituteGenericType_eq, not_isValueReferenceType]
  simp only [Bool.false_eq_true, if_false]
  cases t with
  | name n =>
      have hb := not_endsWith_brackets (t := .name n) (fun _ h => by cases h)
      have ho := canonicalOpenOwnership_nameHead (nameHead_of_unique (t := .name n) rfl)
      have hp := canonicalOwnership_of_not_pointer (t := .name n) (fun _ _ h => by cases h)
      rw [canonicalName] at hb ho hp ⊢
      rw [subst, nameSubst, dif_pos n.2]
      cases hσ : σ ⟨n.1, n.2⟩ with
      | some s => simp
      | none =>
          simp only [Option.map_none, hb, ho, hp, parseGenericTypeName_name]
          simp [canonicalName]
  | app base first rest =>
      have hmem : '>' ∈ canonicalName (.app base first rest) := by
        simp [canonicalName, genericTypeName]
      rw [nameSubst_of_mem σ hmem (by decide)]
      simp only [not_endsWith_brackets (t := .app base first rest) (fun _ h => by cases h),
        canonicalOpenOwnership_nameHead
          (nameHead_of_unique (t := .app base first rest) rfl),
        canonicalOwnership_of_not_pointer (t := .app base first rest) (fun _ _ h => by cases h),
        parseGenericTypeName_canonicalName, ne_eq, not_true_eq_false, if_false,
        Bool.false_eq_true]
      rw [subst_app, canonicalName_app, ← List.map_cons (f := subst σ), List.map_map,
        List.map_map]
      congr 1
      refine List.map_congr_left fun a ha => ?_
      refine ih _ ?_ a rfl
      exact (length_of_mem_parseGenericTypeName
        (parseGenericTypeName_canonicalName base first rest)).2 _ (List.mem_map_of_mem ha)
  | array t =>
      have hmem : ']' ∈ canonicalName (.array t) := by simp [canonicalName]
      rw [nameSubst_of_mem σ hmem (by decide)]
      have hb : endsWith (canonicalName (.array t)) "[]".toList = true :=
        endsWith_brackets.mpr ⟨t, rfl⟩
      simp only [hb, if_true]
      rw [subst, canonicalName, dropBrackets_append, canonicalName,
        ih _ (by simp [canonicalName]) t rfl]
  | pointer k t =>
      have hmem : '*' ∈ canonicalName (.pointer k t) := by
        simp [canonicalName, canonicalPointerName]
      rw [nameSubst_of_mem σ hmem (by decide)]
      have hs : endsWith (canonicalName (.pointer k t)) "*".toList = true :=
        endsWith_star.mpr ⟨k, t, rfl⟩
      have ho : canonicalOpenOwnership (canonicalName (.pointer k t)) = .None := by
        rw [canonicalOpenOwnership, hs, if_pos (by simp)]
      have hp : canonicalOwnership (canonicalName (.pointer k t)) ≠ .None := by
        rw [canonicalOwnership_pointer]
        cases leadKind (.pointer k t) <;> simp [PointerKind.ownership]
      have hlen := length_canonicalPointeeName hp
      simp only [not_endsWith_brackets (t := .pointer k t) (fun _ h => by cases h), ho, hp, ne_eq,
        not_true_eq_false, not_false_eq_true, if_false, if_true, Bool.false_eq_true]
      rw [canonicalPointeeName_pointer] at hlen ⊢
      rw [canonicalOwnership_pointer, ih _ hlen _ rfl, subst, canonicalPointerName,
        List.append_assoc]
      by_cases hk : k = .unique
      · subst hk
        rw [if_pos rfl, canonicalName_pointer_unique, leadKind]
        by_cases hl : leadKind t = .unique
        · rw [hl, demote_of_unique hl]
          rfl
        · obtain ⟨h1, h2⟩ := leadKind_subst σ hl
          rw [← h1, ← h2, ← List.append_assoc, ← canonicalName_demote]
          rfl
      · rw [if_neg hk, canonicalName_pointer]
        have : leadKind (.pointer k t) = k := by cases k <;> simp_all [leadKind]
        rw [this]
        rfl

end TypeTerm

end Absolute
