import Absolute.LibDescent

/-!
# Collecting what lies below, and the least of it

`collect` walks a `next` once and keeps the nodes it has been to; it does not enter
a node that `skip` tells it to pass over, and gets past one only by another way. On
an acyclic `next` it collects exactly the nodes that are reached `Around` the
skipped ones (`mem_collect_iff`): a node that was there before is a finished one,
since one the walk is still inside of would close a cycle.

`leastOf` picks out of a list the node that is below every other.
-/

namespace Absolute

namespace Descent

variable {α : Type*} {skip : α → Bool} {next : α → List α}

/-! ## The walk -/

def collect [DecidableEq α] (skip : α → Bool) (next : α → List α) :
    Nat → List α → α → Option (List α)
  | 0, _, _ => none
  | depth + 1, into, a =>
      if skip a = true ∨ a ∈ into then some into
      else (next a).foldlM (collect skip next depth) (into ++ [a])

/-- `b` is `a` or lies below it on a line of nodes none of which is passed over. -/
inductive Around (skip : α → Bool) (next : α → List α) : α → α → Prop
  | here {a : α} : skip a = false → Around skip next a a
  | onward {a b c : α} : skip a = false → b ∈ next a → Around skip next b c →
      Around skip next a c

theorem Around.not_skip {a b : α} (h : Around skip next a b) : skip a = false := by
  cases h <;> assumption

theorem Around.trans {a b c : α} (h : Around skip next a b) (h' : Around skip next b c) :
    Around skip next a c := by
  induction h with
  | here => exact h'
  | onward hskip hmem _ ih => exact .onward hskip hmem (ih h')

/-- Everything at or below `a`. -/
abbrev AtOrBelow (next : α → List α) : α → α → Prop :=
  Relation.ReflTransGen fun a b => b ∈ next a

theorem Around.atOrBelow {a b : α} (h : Around skip next a b) : AtOrBelow next a b := by
  induction h with
  | here => exact .refl
  | onward _ hmem _ ih => exact .head hmem ih

theorem atOrBelow_antisymm (hacyclic : ∀ a, ¬Relation.TransGen (Below next) a a) {a b : α}
    (h : AtOrBelow next a b) (h' : AtOrBelow next b a) : a = b := by
  rcases Relation.reflTransGen_iff_eq_or_transGen.mp h with rfl | hdown
  · rfl
  · exact absurd (Relation.transGen_swap.mp (hdown.trans_left h')) (hacyclic a)

/-- A search along `next` finds what is there. -/
theorem finds_of_atOrBelow {κ : Type*} {goal : α → Prop} [DecidablePred goal]
    {visiting : List κ} {a b : α} (h : AtOrBelow next a b) (hb : goal b) :
    Finds (seek goal next) visiting a := by
  induction h using Relation.ReflTransGen.head_induction_on with
  | refl => exact .answer (by rw [seek, if_pos hb])
  | @head a c hmem _ ih =>
    by_cases ha : goal a
    · exact .answer (by rw [seek, if_pos ha])
    · have hlook : seek goal next a = .parts (none : Option κ) ((next a).map some) := by
        rw [seek, if_neg ha]
      exact .part hlook (by simp) (List.mem_map_of_mem hmem) ih

/-- Nothing is passed over where nothing is to be. -/
theorem around_of_atOrBelow {a b : α} (h : AtOrBelow next a b)
    (hskip : ∀ c, AtOrBelow next a c → skip c = false) : Around skip next a b := by
  induction h using Relation.ReflTransGen.head_induction_on with
  | refl => exact .here (hskip b .refl)
  | head hmem _ ih =>
    exact .onward (hskip _ .refl) hmem (ih fun c hc => hskip c (.head hmem hc))

/-! ## It comes to an end -/

section Collect

variable [DecidableEq α]

theorem collect_mono {depth depth' : Nat} (hd : depth ≤ depth') {into out : List α} {a : α}
    (h : collect skip next depth into a = some out) :
    collect skip next depth' into a = some out := by
  induction depth generalizing depth' into out a with
  | zero => simp [collect] at h
  | succ depth ih =>
    obtain ⟨depth', rfl⟩ : ∃ d, depth' = d + 1 := ⟨depth' - 1, by omega⟩
    rw [collect] at h ⊢
    split at h
    · rename_i hseen
      rwa [if_pos hseen]
    · rename_i hseen
      rw [if_neg hseen]
      generalize next a = children at h ⊢
      generalize into ++ [a] = start at h ⊢
      induction children generalizing start with
      | nil => exact h
      | cons b children ihc =>
        rw [List.foldlM_cons] at h ⊢
        obtain ⟨mid, hmid, h⟩ := Option.bind_eq_some_iff.mp h
        exact Option.bind_eq_some_iff.mpr ⟨mid, ih (by omega) hmid, ihc mid h⟩

theorem collect_ends {a : α} (h : Acc (Below next) a) :
    ∃ depth, ∀ into, (collect skip next depth into a).isSome = true := by
  induction h with
  | intro a _ ih =>
    obtain ⟨depth, hdepth⟩ := exists_common_depth
      (P := fun d b => ∀ into, (collect skip next d into b).isSome = true)
      (fun d d' b hd hs into => by
        obtain ⟨out, hout⟩ := Option.isSome_iff_exists.mp (hs into)
        exact Option.isSome_iff_exists.mpr ⟨out, collect_mono hd hout⟩) ih
    refine ⟨depth + 1, fun into => ?_⟩
    rw [collect]
    split
    · rfl
    · generalize next a = children at hdepth ⊢
      generalize into ++ [a] = start
      induction children generalizing start with
      | nil => rfl
      | cons b children ihc =>
        obtain ⟨mid, hmid⟩ := Option.isSome_iff_exists.mp (hdepth b List.mem_cons_self start)
        rw [List.foldlM_cons, hmid]
        exact ihc (fun c hc => hdepth c (List.mem_cons_of_mem _ hc)) mid

/-! ## What it collects -/

/-- Everything to be collected at `a` is there. -/
def Finished (skip : α → Bool) (next : α → List α) (into : List α) (a : α) : Prop :=
  ∀ b, Around skip next a b → b ∈ into

/-- What the walk has been to is finished, or lies above `a`: the walk is inside of it. -/
def Underway (skip : α → Bool) (next : α → List α) (into : List α) (a : α) : Prop :=
  ∀ b ∈ into, Finished skip next into b ∨ Relation.TransGen (Below next) a b

/-- What a walk that started with `into` has made of `a`. -/
structure Collected (skip : α → Bool) (next : α → List α) (into out : List α) (a : α) :
    Prop where
  keeps : into ⊆ out
  only : ∀ b ∈ out, b ∈ into ∨ Around skip next a b
  finished : Finished skip next out a

omit [DecidableEq α] in
theorem Finished.mono {into out : List α} {a : α} (h : Finished skip next into a)
    (hsub : into ⊆ out) : Finished skip next out a :=
  fun b hb => hsub (h b hb)

/-- What is collected at the children, one after the other, if it is so at each. -/
theorem collected_children {depth : Nat} {a : α}
    (ih : ∀ {into out : List α} {b : α}, Underway skip next into b →
      collect skip next depth into b = some out → Collected skip next into out b)
    {children into out : List α} (hchildren : ∀ b ∈ children, b ∈ next a)
    (hinto : ∀ b ∈ into,
      Finished skip next into b ∨ b = a ∨ Relation.TransGen (Below next) a b)
    (h : children.foldlM (collect skip next depth) into = some out) :
    into ⊆ out ∧ (∀ b ∈ out, b ∈ into ∨ ∃ c ∈ children, Around skip next c b) ∧
      ∀ c ∈ children, Finished skip next out c := by
  induction children generalizing into with
  | nil =>
    obtain rfl : into = out := Option.some.inj h
    exact ⟨fun b hb => hb, fun b hb => .inl hb, by simp⟩
  | cons c children ihc =>
    rw [List.foldlM_cons] at h
    obtain ⟨mid, hmid, h⟩ := Option.bind_eq_some_iff.mp h
    have hc : Below next c a := hchildren c List.mem_cons_self
    have hcollected : Collected skip next into mid c := by
      refine ih (fun b hb => ?_) hmid
      rcases hinto b hb with hfin | rfl | habove
      · exact .inl hfin
      · exact .inr (.single hc)
      · exact .inr (.head hc habove)
    have hmidway : ∀ b ∈ mid,
        Finished skip next mid b ∨ b = a ∨ Relation.TransGen (Below next) a b := by
      intro b hb
      rcases hcollected.only b hb with hold | hnew
      · exact (hinto b hold).imp_left fun hfin => hfin.mono hcollected.keeps
      · exact .inl fun d hd => hcollected.finished d (hnew.trans hd)
    obtain ⟨hkeeps, honly, hfinished⟩ :=
      ihc (fun b hb => hchildren b (List.mem_cons_of_mem _ hb)) hmidway h
    refine ⟨fun b hb => hkeeps (hcollected.keeps hb), fun b hb => ?_, fun d hd => ?_⟩
    · rcases honly b hb with hold | ⟨d, hd, hbelow⟩
      · exact (hcollected.only b hold).imp_right fun hnew => ⟨c, List.mem_cons_self, hnew⟩
      · exact .inr ⟨d, List.mem_cons_of_mem _ hd, hbelow⟩
    · rcases List.mem_cons.mp hd with rfl | hd
      · exact hcollected.finished.mono hkeeps
      · exact hfinished d hd

theorem collected_of_collect (hacyclic : ∀ a, ¬Relation.TransGen (Below next) a a)
    {depth : Nat} {into out : List α} {a : α} (hinto : Underway skip next into a)
    (h : collect skip next depth into a = some out) : Collected skip next into out a := by
  induction depth generalizing into out a with
  | zero => simp [collect] at h
  | succ depth ih =>
    rw [collect] at h
    split at h
    · rename_i hseen
      obtain rfl : into = out := Option.some.inj h
      refine ⟨fun b hb => hb, fun b hb => .inl hb, ?_⟩
      rcases hseen with hskip | hmem
      · intro b hb
        exact absurd hb.not_skip (by simp [hskip])
      · exact (hinto a hmem).resolve_right (hacyclic a)
    · rename_i hseen
      rw [not_or, Bool.not_eq_true] at hseen
      obtain ⟨hkeeps, honly, hfinished⟩ := collected_children (a := a) ih (fun b hb => hb)
        (fun b hb => by
          rcases List.mem_append.mp hb with hb | hb
          · rcases hinto b hb with hfin | habove
            · exact .inl (hfin.mono (List.subset_append_left _ _))
            · exact .inr (.inr habove)
          · exact .inr (.inl (List.mem_singleton.mp hb))) h
      have hself : a ∈ out := hkeeps (by simp)
      refine ⟨fun b hb => hkeeps (List.mem_append_left _ hb), fun b hb => ?_, fun b hb => ?_⟩
      · rcases honly b hb with hold | ⟨c, hc, hbelow⟩
        · rcases List.mem_append.mp hold with hold | hold
          · exact .inl hold
          · obtain rfl := List.mem_singleton.mp hold
            exact .inr (.here hseen.1)
        · exact .inr (.onward hseen.1 hc hbelow)
      · cases hb with
        | here => exact hself
        | onward _ hc hbelow => exact hfinished _ hc b hbelow

theorem mem_collect_iff (hacyclic : ∀ a, ¬Relation.TransGen (Below next) a a) {depth : Nat}
    {out : List α} {a b : α} (h : collect skip next depth [] a = some out) :
    b ∈ out ↔ Around skip next a b := by
  have hcollected := collected_of_collect hacyclic (fun b hb => by simp at hb) h
  exact ⟨fun hb => (hcollected.only b hb).resolve_left (by simp), hcollected.finished b⟩

end Collect

/-! ## The least of a list -/

variable [DecidableEq α]

/-- `a` is below everything in the list. -/
def isLeast (le : α → α → Bool) (l : List α) (a : α) : Bool :=
  l.all fun b => b = a ∨ le a b

/-- The candidate that is least in the list; none if there is no such candidate, or a
second one. -/
def leastOf (le : α → α → Bool) (l : List α) : List α → Option α → Option α
  | [], best => best
  | candidate :: rest, best =>
      if isLeast le l candidate then
        if ∀ b ∈ best, b = candidate then leastOf le l rest (some candidate) else none
      else leastOf le l rest best

variable {le : α → α → Bool} {l : List α}

theorem isLeast_iff (hrefl : ∀ a, le a a = true) {a : α} :
    isLeast le l a = true ↔ ∀ b ∈ l, le a b = true := by
  simp only [isLeast, List.all_eq_true, decide_eq_true_eq]
  refine forall₂_congr fun b _ => ⟨?_, .inr⟩
  rintro (rfl | h)
  · exact hrefl b
  · exact h

theorem leastOf_eq_some_iff (hrefl : ∀ a, le a a = true)
    (hanti : ∀ a b, le a b = true → le b a = true → a = b) {candidates : List α}
    (hcand : candidates ⊆ l) {best : Option α}
    (hbest : ∀ b ∈ best, b ∈ l ∧ isLeast le l b = true) {a : α} :
    leastOf le l candidates best = some a ↔
      (a ∈ candidates ∨ best = some a) ∧ isLeast le l a = true := by
  have hunique : ∀ {a b}, a ∈ l → b ∈ l → isLeast le l a = true → isLeast le l b = true →
      a = b := fun ha hb hla hlb =>
    hanti _ _ ((isLeast_iff hrefl).mp hla _ hb) ((isLeast_iff hrefl).mp hlb _ ha)
  induction candidates generalizing best with
  | nil =>
    rw [leastOf]
    constructor
    · rintro rfl
      exact ⟨.inr rfl, (hbest a rfl).2⟩
    · rintro ⟨h | h, -⟩
      · simp at h
      · exact h
  | cons c candidates ih =>
    have hc : c ∈ l := hcand List.mem_cons_self
    have hrest : candidates ⊆ l := fun b hb => hcand (List.mem_cons_of_mem _ hb)
    rw [leastOf]
    split
    · rename_i hleast
      have hsame : ∀ b ∈ best, b = c := fun b hb =>
        hunique (hbest b hb).1 hc (hbest b hb).2 hleast
      have hnow : ∀ b ∈ some c, b ∈ l ∧ isLeast le l b = true := by
        rintro b ⟨⟩
        exact ⟨hc, hleast⟩
      rw [if_pos hsame]
      refine (ih hrest hnow).trans ?_
      rw [List.mem_cons, Option.some.injEq]
      refine and_congr_left fun _ => ⟨?_, ?_⟩
      · rintro (h | rfl)
        · exact .inl (.inr h)
        · exact .inl (.inl rfl)
      · rintro ((rfl | h) | h)
        · exact .inr rfl
        · exact .inl h
        · exact .inr (hsame a h).symm
    · rename_i hleast
      refine (ih hrest hbest).trans ?_
      rw [List.mem_cons]
      refine and_congr_left fun ha => ⟨.imp_left .inr, ?_⟩
      rintro ((rfl | h) | h)
      · exact absurd ha hleast
      · exact .inl h
      · exact .inr h

end Descent

end Absolute
