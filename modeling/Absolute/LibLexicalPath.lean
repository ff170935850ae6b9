import Mathlib.Algebra.GroupWithZero.Nat
import Mathlib.Algebra.Order.BigOperators.Group.List
import Mathlib.Data.List.Infix

/-!
# Lexical paths

A path is a list with separators in it, read as the nonempty parts between them (`segments`).
Two of the parts are not names: `dot` stands for nothing and `parent` takes the name before it
away (`enter`). What is left of a list of parts is `resolve`d; it is `Normal`, and a normal list
is its own resolution.
-/

namespace LexicalPath

variable {α : Type*}

/-! ## Parts -/

/-- The nonempty parts between separators. -/
def segments (sep : α → Bool) (path : List α) : List (List α) :=
  (path.splitOnP sep).filter fun s => !s.isEmpty

/-- A part, as it is between separators. -/
def IsSegment (sep : α → Bool) (s : List α) : Prop := s ≠ [] ∧ ∀ c ∈ s, sep c = false

variable {sep : α → Bool}

@[simp] theorem segments_nil : segments sep [] = [] := rfl

/-- A separator cuts the parts before it from those behind it. -/
theorem segments_append_cons (a : List α) {c : α} (hc : sep c = true) (b : List α) :
    segments sep (a ++ c :: b) = segments sep a ++ segments sep b := by
  rw [segments, List.splitOnP_append_cons _ _ hc, List.filter_append, segments, segments]

theorem segments_cons {c : α} (hc : sep c = true) (b : List α) :
    segments sep (c :: b) = segments sep b := by
  rw [← List.nil_append (c :: b), segments_append_cons [] hc, segments_nil, List.nil_append]

theorem segments_dropWhile (path : List α) :
    segments sep (path.dropWhile sep) = segments sep path := by
  induction path with
  | nil => rfl
  | cons c path ih =>
    by_cases hc : sep c = true
    · rw [List.dropWhile_cons_of_pos hc, ih, segments_cons hc]
    · rw [List.dropWhile_cons_of_neg hc]

theorem IsSegment.segments {s : List α} (h : IsSegment sep s) : segments sep s = [s] := by
  obtain ⟨c, s, rfl⟩ := List.exists_cons_of_ne_nil h.1
  rw [LexicalPath.segments, List.splitOnP_eq_singleton h.2]
  rfl

/-- The first part is what stands before the first separator. -/
theorem segments_takeWhile {c : α} {path : List α} (hc : sep c = false) :
    segments sep (c :: path) =
      (c :: path).takeWhile (fun e => !sep e) ::
        segments sep ((c :: path).dropWhile fun e => !sep e) := by
  have hfirst : IsSegment sep ((c :: path).takeWhile fun e => !sep e) := by
    refine ⟨by rw [List.takeWhile_cons_of_pos (by rw [hc]; rfl)]; exact List.cons_ne_nil _ _, ?_⟩
    intro e he
    simpa using List.all_eq_true.mp List.all_takeWhile e he
  conv_lhs => rw [← List.takeWhile_append_dropWhile (p := fun e => !sep e) (l := c :: path)]
  rcases hrest : (c :: path).dropWhile fun e => !sep e with _ | ⟨d, rest⟩
  · rw [List.append_nil, hfirst.segments, segments_nil]
  · have hd : sep d = true := by
      have hhead := List.head?_dropWhile_not (fun e => !sep e) (c :: path)
      rw [hrest] at hhead
      simpa using hhead
    rw [segments_append_cons _ hd, hfirst.segments, segments_cons hd, List.singleton_append]

theorem mem_segments {path s : List α} (h : s ∈ segments sep path) : IsSegment sep s := by
  induction hn : path.length using Nat.strong_induction_on generalizing path with
  | _ n ih =>
    rcases path with - | ⟨c, path⟩
    · cases h
    subst hn
    by_cases hc : sep c = true
    · rw [segments_cons hc] at h
      exact ih _ (Nat.lt_succ_self _) h rfl
    · have hc : sep c = false := Bool.eq_false_iff.mpr hc
      rw [segments_takeWhile hc] at h
      rcases List.mem_cons.mp h with rfl | h
      · refine ⟨?_, fun e he => by simpa using List.all_eq_true.mp List.all_takeWhile e he⟩
        rw [List.takeWhile_cons_of_pos (by rw [hc]; rfl)]
        exact List.cons_ne_nil _ _
      · refine ih _ ?_ h rfl
        rw [List.dropWhile_cons_of_pos (by rw [hc]; rfl)]
        exact Nat.lt_succ_of_le (List.dropWhile_suffix _).length_le

/-- Parts put together with a separator are taken apart again. -/
theorem segments_intercalate {c : α} (hc : sep c = true) {l : List (List α)}
    (hl : ∀ s ∈ l, IsSegment sep s) : segments sep ([c].intercalate l) = l := by
  induction l with
  | nil => rfl
  | cons s l ih =>
    obtain ⟨hs, hl⟩ := List.forall_mem_cons.mp hl
    rcases l with - | ⟨s', l⟩
    · rw [List.intercalate_singleton, hs.segments]
    · rw [List.intercalate_cons_cons, List.append_assoc, List.singleton_append,
        segments_append_cons s hc, hs.segments, ih hl, List.singleton_append]

/-- The places a list of parts takes, each with a separator. -/
def weight (l : List (List α)) : ℕ := (l.map fun s => s.length + 1).sum

@[simp] theorem weight_nil : weight ([] : List (List α)) = 0 := rfl

@[simp] theorem weight_cons (s : List α) (l : List (List α)) :
    weight (s :: l) = s.length + 1 + weight l := by
  rw [weight, List.map_cons, List.sum_cons, weight]

theorem weight_segments_le (path : List α) : weight (segments sep path) ≤ path.length + 1 := by
  induction hn : path.length using Nat.strong_induction_on generalizing path with
  | _ n ih =>
    rcases path with - | ⟨c, path⟩
    · exact Nat.zero_le _
    subst hn
    by_cases hc : sep c = true
    · rw [segments_cons hc]
      exact (ih _ (Nat.lt_succ_self _) path rfl).trans (by rw [List.length_cons]; omega)
    · have hc : sep c = false := Bool.eq_false_iff.mpr hc
      have hsplit := congrArg List.length
        (List.takeWhile_append_dropWhile (p := fun e => !sep e) (l := c :: path))
      rw [List.length_append] at hsplit
      rw [segments_takeWhile hc, weight_cons]
      rcases hrest : (c :: path).dropWhile fun e => !sep e with _ | ⟨d, rest⟩
      · rw [hrest, List.length_nil] at hsplit
        rw [segments_nil, weight_nil]
        omega
      · have hd : sep d = true := by
          have hhead := List.head?_dropWhile_not (fun e => !sep e) (c :: path)
          rw [hrest] at hhead
          simpa using hhead
        rw [hrest, List.length_cons] at hsplit
        have hle := ih rest.length (by omega) rest rfl
        rw [segments_cons hd]
        omega

/-- The beginning of a path that stands at its root costs no more than its separator. -/
theorem weight_segments_cons_le {c : α} (hc : sep c = true) (path : List α) :
    weight (segments sep (c :: path)) ≤ (c :: path).length := by
  rw [segments_cons hc]
  exact weight_segments_le path

/-! ## Resolution -/

variable {S : Type*}

/-- Names that were entered, the innermost first, over as many parents as were left over. There
are none of these at the root. -/
inductive Names (dot parent : S) (rooted : Bool) : List S → Prop
  | ups (k : ℕ) : (rooted = true → k = 0) → Names dot parent rooted (List.replicate k parent)
  | name {s : S} {names : List S} :
      s ≠ dot → s ≠ parent → Names dot parent rooted names → Names dot parent rooted (s :: names)

/-- A list of parts that has nothing to resolve, the outermost first. -/
def Normal (dot parent : S) (rooted : Bool) (l : List S) : Prop := Names dot parent rooted l.reverse

variable {dot parent : S} {rooted : Bool}

theorem Names.nil : Names dot parent rooted [] := .ups 0 fun _ => rfl

variable [DecidableEq S]

/-- One name less. Nothing is above the root, and a parent is not a name. -/
def leave (parent : S) (rooted : Bool) : List S → List S
  | [] => if rooted then [] else [parent]
  | name :: rest => if name = parent then parent :: name :: rest else rest

/-- One part more. -/
def enter (dot parent : S) (rooted : Bool) (names : List S) (s : S) : List S :=
  if s = dot then names else if s = parent then leave parent rooted names else s :: names

/-- The parts, entered one after the other. -/
def resolve (dot parent : S) (rooted : Bool) (l : List S) : List S :=
  (l.foldl (enter dot parent rooted) []).reverse

theorem Names.enter {names : List S} (h : Names dot parent rooted names) (s : S) :
    Names dot parent rooted (enter dot parent rooted names s) := by
  rw [LexicalPath.enter]
  split_ifs with hdot hparent
  · exact h
  · cases h with
    | ups k hk =>
      rcases k with - | k
      · cases rooted with
        | true => exact .nil
        | false => exact .ups 1 fun h => Bool.noConfusion h
      · have hopen : ¬rooted = true := fun h => Nat.succ_ne_zero k (hk h)
        rw [List.replicate_succ, leave, if_pos rfl]
        exact .ups (k + 2) fun h => absurd h hopen
    | name hs hs' hrest => rwa [leave, if_neg hs']
  · exact .name hdot hparent h

theorem Names.foldl {names : List S} (h : Names dot parent rooted names) (l : List S) :
    Names dot parent rooted (l.foldl (LexicalPath.enter dot parent rooted) names) := by
  induction l generalizing names with
  | nil => exact h
  | cons s l ih => exact ih (h.enter s)

theorem resolve_normal (l : List S) : Normal dot parent rooted (resolve dot parent rooted l) := by
  rw [Normal, resolve, List.reverse_reverse]
  exact Names.nil.foldl l

theorem Names.foldl_reverse (hne : parent ≠ dot) {names : List S}
    (h : Names dot parent rooted names) :
    names.reverse.foldl (LexicalPath.enter dot parent rooted) [] = names := by
  induction h with
  | ups k hk =>
    rw [List.reverse_replicate]
    induction k with
    | zero => rfl
    | succ k ih =>
      have hopen : ¬rooted = true := fun h => Nat.succ_ne_zero k (hk h)
      have hup : leave parent rooted (List.replicate k parent) = List.replicate (k + 1) parent := by
        cases k with
        | zero => exact if_neg hopen
        | succ k => exact if_pos rfl
      rw [List.replicate_succ', List.foldl_append, ih fun h => absurd h hopen, List.foldl_cons,
        List.foldl_nil, LexicalPath.enter, if_neg hne, if_pos rfl, hup, List.replicate_succ']
  | name hs hs' _ ih =>
    rw [List.reverse_cons, List.foldl_append, ih, List.foldl_cons, List.foldl_nil,
      LexicalPath.enter, if_neg hs, if_neg hs']

/-- What is normal resolves to itself. -/
theorem Normal.resolve (hne : parent ≠ dot) {l : List S} (h : Normal dot parent rooted l) :
    resolve dot parent rooted l = l := by
  have hback := Names.foldl_reverse hne h
  rw [List.reverse_reverse] at hback
  rw [LexicalPath.resolve, hback, List.reverse_reverse]

/-- Every name is a part. -/
theorem mem_foldl_enter {l names : List S} {s : S}
    (h : s ∈ l.foldl (enter dot parent rooted) names) : s ∈ names ∨ s ∈ l := by
  induction l generalizing names with
  | nil => exact .inl h
  | cons e l ih =>
    rw [List.mem_cons]
    rcases ih h with h | h
    · rw [enter] at h
      split_ifs at h with hdot hparent
      · exact .inl h
      · subst hparent
        rcases names with - | ⟨name, names⟩
        · rw [leave] at h
          split_ifs at h
          · cases h
          · exact .inr (.inl (List.mem_singleton.mp h))
        · rw [leave] at h
          split_ifs at h with hname
          · exact (List.mem_cons.mp h).symm.imp_right .inl
          · exact .inl (List.mem_cons_of_mem _ h)
      · exact (List.mem_cons.mp h).symm.imp_right .inl
    · exact .inr (.inr h)

/-- Whatever is counted of the parts, the names have no more of it. -/
theorem sum_foldl_enter_le (f : S → ℕ) (l names : List S) :
    ((l.foldl (enter dot parent rooted) names).map f).sum ≤ (names.map f).sum + (l.map f).sum := by
  induction l generalizing names with
  | nil => exact Nat.le_add_right _ _
  | cons e l ih =>
    have hstep : ((enter dot parent rooted names e).map f).sum ≤ f e + (names.map f).sum := by
      rw [enter]
      split_ifs with hdot hparent
      · exact Nat.le_add_left _ _
      · subst hparent
        rcases names with - | ⟨name, names⟩
        · cases rooted <;> simp [leave]
        · rw [leave]
          split_ifs with hname
          · rw [List.map_cons, List.sum_cons]
          · rw [List.map_cons, List.sum_cons]
            omega
      · rw [List.map_cons, List.sum_cons]
    have hrest := ih (enter dot parent rooted names e)
    rw [List.foldl_cons, List.map_cons, List.sum_cons]
    omega

theorem length_foldl_enter_le (l names : List S) :
    (l.foldl (enter dot parent rooted) names).length ≤ names.length + l.length := by
  have hsum : ((l.foldl (enter dot parent rooted) names).map fun _ => 1).sum ≤ _ :=
    sum_foldl_enter_le (fun _ => 1) l names
  simpa using hsum

theorem weight_foldl_enter_le [DecidableEq α] {dot parent : List α} (l names : List (List α)) :
    weight (l.foldl (enter dot parent rooted) names) ≤ weight names + weight l :=
  sum_foldl_enter_le (fun s : List α => s.length + 1) l names

end LexicalPath
