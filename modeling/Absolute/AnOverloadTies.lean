import Mathlib.Data.List.Basic
import Mathlib.Data.List.Nodup
import Absolute.AnOverload

/-!
# The tie rules of overload resolution

The pass of `SelectOverload` passes over a candidate that ties with the best one
and has its name and owner, which overloads of one function all have. So a tie
between them is settled by whichever is considered first. Here: what the tie
rules end with on a list of equally cheap candidates, and `TiesApart`, the lists
on which they end with the best one in any order (`isBest_of_tiesApart`).
-/

namespace Absolute

namespace Overload

/-! ## The pass is a running best -/

theorem tie_bestCost (b : Best) (a : Applicable) : (tie b a).bestCost = b.bestCost := by
  rw [tie]
  split_ifs <;> rfl

theorem foldl_consider (l : List Applicable) (o : Option (Nat × Best))
    (ho : ∀ c b, o = some (c, b) → b.bestCost = c) :
    l.foldl consider (o.map Prod.snd)
      = (l.foldl (RunningBest.consider Applicable.cost take tie) o).map Prod.snd := by
  induction l generalizing o with
  | nil => rfl
  | cons a l ih =>
      have hstep : consider (o.map Prod.snd) a
          = (RunningBest.consider Applicable.cost take tie o a).map Prod.snd ∧
          ∀ c b, RunningBest.consider Applicable.cost take tie o a = some (c, b) →
            b.bestCost = c := by
        cases o with
        | none =>
            refine ⟨rfl, fun c b h => ?_⟩
            obtain ⟨rfl, rfl⟩ := Prod.mk.inj (Option.some.inj h)
            rfl
        | some p =>
            obtain ⟨c, b⟩ := p
            obtain rfl := ho c b rfl
            simp only [Option.map_some, consider, RunningBest.consider]
            split_ifs
            · exact ⟨rfl, fun _ _ h => by obtain ⟨rfl, rfl⟩ := Prod.mk.inj (Option.some.inj h); rfl⟩
            · exact ⟨rfl, fun _ _ h => by
                obtain ⟨rfl, rfl⟩ := Prod.mk.inj (Option.some.inj h)
                exact tie_bestCost b a⟩
            · exact ⟨rfl, fun _ _ h => by obtain ⟨rfl, rfl⟩ := Prod.mk.inj (Option.some.inj h); rfl⟩
      rw [List.foldl_cons, List.foldl_cons, hstep.1, ih _ hstep.2]

/-- Only the cheapest candidates and the tie rules decide. -/
theorem considerAll_eq (l : List Applicable) :
    l.foldl consider none
      = RunningBest.ties take tie (RunningBest.cheapest Applicable.cost l) := by
  have h := foldl_consider l none nofun
  have hpass := RunningBest.pass_eq Applicable.cost take tie l
  rw [RunningBest.pass] at hpass
  rw [Option.map_none] at h
  rw [h, hpass]
  cases hl : RunningBest.least Applicable.cost l with
  | none =>
      obtain rfl := (RunningBest.least_eq_none_iff Applicable.cost).mp hl
      rfl
  | some m =>
      rw [Option.bind_some, Option.map_map]
      exact Option.map_id'

/-! ## What the tie rules end with -/

/-- The name and owner the first tie rule compares. -/
def Applicable.key (a : Applicable) : TypeName × TypeName := (a.name, a.memberOwner)

theorem key_eq_iff {a b : Applicable} :
    a.key = b.key ↔ a.name = b.name ∧ a.memberOwner = b.memberOwner := by
  rw [Applicable.key, Applicable.key, Prod.mk.injEq]

/-- The tie rules, one equation each. -/
theorem tie_same {b : Best} {a : Applicable} (hk : a.key = b.best.key) : tie b a = b := by
  rw [tie, if_pos (key_eq_iff.mp hk.symm)]

theorem tie_takes_over {b : Best} {a : Applicable} (hk : a.key ≠ b.best.key)
    (hb : b.bestWasGeneric = true) (ha : a.isGeneric = false) :
    tie b a = { b with best := a, bestGenericArguments := [], bestWasGeneric := false,
                       ambiguous := false } := by
  rw [tie, if_neg fun h => hk (key_eq_iff.mpr h).symm, if_pos (by rw [hb, ha]; rfl)]

theorem tie_clash {b : Best} {a : Applicable} (hk : a.key ≠ b.best.key)
    (hb : b.bestWasGeneric = a.isGeneric) : tie b a = { b with ambiguous := true } := by
  rw [tie, if_neg fun h => hk (key_eq_iff.mpr h).symm, if_neg (by simp [hb]), if_pos hb]

theorem tie_weaker {b : Best} {a : Applicable} (hk : a.key ≠ b.best.key)
    (hb : b.bestWasGeneric = false) (ha : a.isGeneric = true) : tie b a = b := by
  rw [tie, if_neg fun h => hk (key_eq_iff.mpr h).symm, if_neg (by simp [hb]),
    if_neg (by simp [hb, ha])]

/-- Once the best candidate is not generic it stays, and is ambiguous with every
further one that is not generic and not of its name and owner. -/
theorem foldl_tie_of_not_generic (l : List Applicable) (b : Best)
    (hb : b.bestWasGeneric = false) :
    (l.foldl tie b).best = b.best ∧
      ((l.foldl tie b).ambiguous = true
        ↔ b.ambiguous = true ∨ ∃ a ∈ l, a.isGeneric = false ∧ a.key ≠ b.best.key) := by
  induction l generalizing b with
  | nil => simp
  | cons a l ih =>
      rw [List.foldl_cons]
      by_cases hk : a.key = b.best.key
      · rw [tie_same hk]
        obtain ⟨h1, h2⟩ := ih b hb
        exact ⟨h1, by simp [h2, hk]⟩
      · cases ha : a.isGeneric with
        | true =>
            rw [tie_weaker hk hb ha]
            obtain ⟨h1, h2⟩ := ih b hb
            exact ⟨h1, by simp [h2, ha]⟩
        | false =>
            rw [tie_clash hk (hb.trans ha.symm)]
            obtain ⟨h1, h2⟩ := ih { b with ambiguous := true } hb
            exact ⟨h1, by simp [h2, ha, hk]⟩

/-- A generic best candidate stays while no other one but of its name and owner
comes that is not generic. -/
theorem foldl_tie_of_generic (l : List Applicable) (b : Best) (hb : b.bestWasGeneric = true)
    (hl : ∀ a ∈ l, a.isGeneric = false → a.key = b.best.key) :
    (l.foldl tie b).best = b.best ∧ (l.foldl tie b).bestWasGeneric = true ∧
      ((l.foldl tie b).ambiguous = true
        ↔ b.ambiguous = true ∨ ∃ a ∈ l, a.isGeneric = true ∧ a.key ≠ b.best.key) := by
  induction l generalizing b with
  | nil => simp [hb]
  | cons a l ih =>
      rw [List.forall_mem_cons] at hl
      rw [List.foldl_cons]
      by_cases hk : a.key = b.best.key
      · rw [tie_same hk]
        obtain ⟨h1, h2, h3⟩ := ih b hb hl.2
        exact ⟨h1, h2, by simp [h3, hk]⟩
      · have ha : a.isGeneric = true := by
          cases ha : a.isGeneric with
          | true => rfl
          | false => exact absurd (hl.1 ha) hk
        rw [tie_clash hk (hb.trans ha.symm)]
        obtain ⟨h1, h2, h3⟩ := ih { b with ambiguous := true } hb hl.2
        exact ⟨h1, h2, by simp [h3, ha, hk]⟩

/-- What the arguments of the best candidate are: its own. -/
theorem foldl_tie_arguments (l : List Applicable) (b : Best)
    (h : b.best.isGeneric = true → b.bestGenericArguments = b.best.inferredArguments)
    (hl : (l.foldl tie b).best.isGeneric = true) :
    (l.foldl tie b).bestGenericArguments = (l.foldl tie b).best.inferredArguments := by
  induction l generalizing b with
  | nil => exact h hl
  | cons a l ih =>
      refine ih (tie b a) (fun ha => ?_) hl
      rw [tie] at ha ⊢
      split_ifs at ha ⊢ with h1 h2 h3
      · exact h ha
      · -- what takes over is not generic
        rw [Bool.and_eq_true, Bool.not_eq_true'] at h2
        exact absurd ha (Bool.eq_false_iff.mp h2.2)
      · exact h ha
      · exact h ha

/-! ## Ties the rules can tell apart -/

/-- The answer when `a` is chosen. -/
def Applicable.selection (a : Applicable) : Selection :=
  if a.isGeneric then .specialization a.id a.inferredArguments else .function a.id

def answer (displayName : TypeName) (b : Best) : Selection :=
  if b.ambiguous then ambiguousOverload displayName else b.best.selection

/-- The first rule passes over no candidate that matters: among the cheapest
candidates, several that are not generic are not all of one name and owner, also
beside any generic one; a single one shares them with no generic one; and where
all are generic, several are not all of one name and owner. -/
structure TiesApart (cheapest : List Applicable) : Prop where
  several : ∀ a ∈ cheapest, ∀ b ∈ cheapest, a.isGeneric = false → b.isGeneric = false → a ≠ b →
    ∃ c ∈ cheapest, c.isGeneric = false ∧ c.key ≠ a.key
  beside : ∀ a ∈ cheapest, ∀ b ∈ cheapest, a.isGeneric = false → b.isGeneric = false → a ≠ b →
    ∀ g ∈ cheapest, g.isGeneric = true →
      ∃ c ∈ cheapest, ∃ d ∈ cheapest, c.isGeneric = false ∧ d.isGeneric = false ∧
        c.key ≠ d.key ∧ c.key ≠ g.key ∧ d.key ≠ g.key
  single : ∀ n ∈ cheapest, n.isGeneric = false →
    (∀ a ∈ cheapest, a.isGeneric = false → a = n) →
    ∀ g ∈ cheapest, g.isGeneric = true → g.key ≠ n.key
  generic : (∀ a ∈ cheapest, a.isGeneric = true) → ∀ a ∈ cheapest, ∀ b ∈ cheapest, a ≠ b →
    ∃ c ∈ cheapest, c.key ≠ a.key

/-- What a choice of the best says of the cheapest candidates: the only one that
is not generic, else the only one at all, else an ambiguity. -/
inductive IsBest (displayName : TypeName) (cheapest : List Applicable) : Selection → Prop where
  | nonGeneric {n : Applicable} : n ∈ cheapest → n.isGeneric = false →
      (∀ a ∈ cheapest, a.isGeneric = false → a = n) → IsBest displayName cheapest n.selection
  | generic {g : Applicable} : g ∈ cheapest → g.isGeneric = true → (∀ a ∈ cheapest, a = g) →
      IsBest displayName cheapest g.selection
  | ambiguous {a b : Applicable} : a ∈ cheapest → b ∈ cheapest → a ≠ b →
      a.isGeneric = b.isGeneric → (a.isGeneric = true → ∀ n ∈ cheapest, n.isGeneric = true) →
      IsBest displayName cheapest (ambiguousOverload displayName)

theorem IsBest.congr {displayName : TypeName} {l l' : List Applicable} {s : Selection}
    (h : IsBest displayName l s) (hmem : ∀ a, a ∈ l' ↔ a ∈ l) : IsBest displayName l' s := by
  cases h with
  | nonGeneric hn hg hu =>
      exact .nonGeneric ((hmem _).mpr hn) hg fun a ha => hu a ((hmem a).mp ha)
  | generic hn hg hu =>
      exact .generic ((hmem _).mpr hn) hg fun a ha => hu a ((hmem a).mp ha)
  | ambiguous ha hb hne hg hall =>
      exact .ambiguous ((hmem _).mpr ha) ((hmem _).mpr hb) hne hg
        fun h n hn => hall h n ((hmem n).mp hn)

theorem IsBest.unique {displayName : TypeName} {l : List Applicable} {s s' : Selection}
    (h : IsBest displayName l s) (h' : IsBest displayName l s') : s = s' := by
  have hclash : ∀ {n a b : Applicable}, n.isGeneric = false → n ∈ l →
      (∀ a ∈ l, a.isGeneric = false → a = n) → a ∈ l → b ∈ l → a ≠ b →
      a.isGeneric = b.isGeneric → (a.isGeneric = true → ∀ n ∈ l, n.isGeneric = true) → False := by
    intro n a b hg hn hu ha hb hne hab hall
    cases haG : a.isGeneric with
    | true =>
        rw [hall haG n hn] at hg
        cases hg
    | false => exact hne ((hu a ha haG).trans (hu b hb (hab ▸ haG)).symm)
  cases h with
  | @nonGeneric n hn hg hu =>
      cases h' with
      | nonGeneric hn' hg' hu' => rw [hu _ hn' hg']
      | generic hn' hg' hu' =>
          rw [hu' _ hn] at hg
          exact absurd (hg.symm.trans hg') Bool.false_ne_true
      | ambiguous ha hb hne hab hall => exact (hclash hg hn hu ha hb hne hab hall).elim
  | @generic g hn hg hu =>
      cases h' with
      | nonGeneric hn' hg' hu' =>
          rw [hu _ hn'] at hg'
          exact absurd (hg'.symm.trans hg) Bool.false_ne_true
      | generic hn' hg' hu' => rw [hu _ hn']
      | ambiguous ha hb hne hab hall => exact absurd ((hu _ ha).trans (hu _ hb).symm) hne
  | ambiguous ha hb hne hab hall =>
      cases h' with
      | nonGeneric hn' hg' hu' => exact (hclash hg' hn' hu' ha hb hne hab hall).elim
      | generic hn' hg' hu' => exact absurd ((hu' _ ha).trans (hu' _ hb).symm) hne
      | ambiguous => rfl

theorem answer_selected {displayName : TypeName} {b : Best} {a : Applicable} (hb : b.best = a)
    (h : ¬b.ambiguous = true) : answer displayName b = a.selection := by
  rw [answer, if_neg h, hb]

theorem answer_ambiguous {displayName : TypeName} {b : Best} (h : b.ambiguous = true) :
    answer displayName b = ambiguousOverload displayName := by
  rw [answer, if_pos h]

/-- From a best candidate that is not generic, with everything before it of its
genericity passed over rightly. -/
theorem isBest_of_nonGeneric {displayName : TypeName} {cheapest rest : List Applicable}
    {b : Best} {n : Applicable} (hb : b.best = n) (hg : b.bestWasGeneric = false)
    (hamb : b.ambiguous = false) (hn : n ∈ cheapest) (hnG : n.isGeneric = false)
    (hrest : ∀ a ∈ rest, a ∈ cheapest)
    (hother : ∀ a ∈ cheapest, a.isGeneric = false → a ≠ n →
      ∃ c ∈ rest, c.isGeneric = false ∧ c.key ≠ n.key) :
    IsBest displayName cheapest (answer displayName (rest.foldl tie b)) := by
  obtain ⟨hbest, hiff⟩ := foldl_tie_of_not_generic rest b hg
  rw [hamb, hb] at hiff
  by_cases hu : ∀ a ∈ cheapest, a.isGeneric = false → a = n
  · rw [answer_selected (hbest.trans hb) fun h => ?_]
    · exact .nonGeneric hn hnG hu
    · obtain h | ⟨c, hc, hcG, hck⟩ := hiff.mp h
      · cases h
      · exact hck (by rw [hu c (hrest c hc) hcG])
  · simp only [not_forall] at hu
    obtain ⟨a, ha, haG, hne⟩ := hu
    rw [answer_ambiguous (hiff.mpr (.inr (hother a ha haG hne)))]
    exact .ambiguous ha hn hne (haG.trans hnG.symm) fun h => by rw [haG] at h; cases h

/-- Where the ties are apart, the tie rules end with the best, in any order. -/
theorem isBest_of_tiesApart {displayName : TypeName} {cheapest : List Applicable}
    (h : TiesApart cheapest) {e : Applicable} {rest : List Applicable}
    (hmem : ∀ a, a ∈ e :: rest ↔ a ∈ cheapest) :
    IsBest displayName cheapest (answer displayName (rest.foldl tie (take e))) := by
  have he : e ∈ cheapest := (hmem e).mp List.mem_cons_self
  have hrest : ∀ a ∈ rest, a ∈ cheapest := fun a ha => (hmem a).mp (List.mem_cons_of_mem _ ha)
  have hback : ∀ c ∈ cheapest, c.key ≠ e.key → c ∈ rest := fun c hc hk => by
    rcases List.mem_cons.mp ((hmem c).mpr hc) with rfl | hc
    · exact absurd rfl hk
    · exact hc
  cases heG : e.isGeneric with
  | false =>
      refine isBest_of_nonGeneric rfl heG rfl he heG hrest fun a ha haG hne => ?_
      obtain ⟨c, hc, hcG, hck⟩ := h.several e he a ha heG haG (Ne.symm hne)
      exact ⟨c, hback c hc hck, hcG, hck⟩
  | true =>
      by_cases hover : ∃ n ∈ rest, n.isGeneric = false ∧ n.key ≠ e.key
      · -- the first that is not generic and not of `e`'s name and owner takes over
        let successor : Applicable → Bool := fun n => n.isGeneric = false ∧ n.key ≠ e.key
        obtain ⟨n, hfind⟩ : ∃ n, rest.find? successor = some n := by
          obtain ⟨n, hn, hover⟩ := hover
          exact Option.isSome_iff_exists.mp
            (List.find?_isSome.mpr ⟨n, hn, decide_eq_true hover⟩)
        obtain ⟨hov, pre, post, rfl, hpre⟩ := List.find?_eq_some_iff_append.mp hfind
        obtain ⟨hnG, hnk⟩ := of_decide_eq_true hov
        have hpre' : ∀ a ∈ pre, a.isGeneric = false → a.key = e.key := fun a ha haG => by
          by_contra hk
          have := hpre a ha
          rw [Bool.not_eq_true', decide_eq_false_iff_not] at this
          exact this ⟨haG, hk⟩
        obtain ⟨hb, hbG, -⟩ := foldl_tie_of_generic pre (take e) heG hpre'
        have hn : n ∈ cheapest := hrest n (by simp)
        rw [List.foldl_append, List.foldl_cons, tie_takes_over (by rw [hb]; exact hnk) hbG hnG]
        refine isBest_of_nonGeneric rfl rfl rfl hn hnG (fun a ha => hrest a (by simp [ha]))
          fun a ha haG hne => ?_
        -- two keys besides `e`'s: one of them is not `n`'s, and comes after it
        have hafter : ∀ c ∈ cheapest, c.isGeneric = false → c.key ≠ e.key → c.key ≠ n.key →
            ∃ c ∈ post, c.isGeneric = false ∧ c.key ≠ n.key := fun c hc hcG hce hcn => by
          have hmem := hback c hc hce
          rw [List.mem_append, List.mem_cons] at hmem
          rcases hmem with hp | rfl | hp
          · exact absurd (hpre' c hp hcG) hce
          · exact absurd rfl hcn
          · exact ⟨c, hp, hcG, hcn⟩
        obtain ⟨c, hc, d, hd, hcG, hdG, hcd, hce, hde⟩ := h.beside a ha n hn haG hnG hne e he heG
        by_cases hcn : c.key = n.key
        · exact hafter d hd hdG hde fun hdn => hcd (hcn.trans hdn.symm)
        · exact hafter c hc hcG hce hcn
      · have hsame : ∀ a ∈ rest, a.isGeneric = false → a.key = e.key := fun a ha haG => by
          by_contra hk
          exact hover ⟨a, ha, haG, hk⟩
        have hall : ∀ a ∈ cheapest, a.isGeneric = true := fun a ha => by
          by_contra haG
          have haG := Bool.eq_false_iff.mpr haG
          by_cases hu : ∀ b ∈ cheapest, b.isGeneric = false → b = a
          · have hk := h.single a ha haG hu e he heG
            exact hover ⟨a, hback a ha (Ne.symm hk), haG, Ne.symm hk⟩
          · simp only [not_forall] at hu
            obtain ⟨b, hb, hbG, hne⟩ := hu
            obtain ⟨c, hc, -, -, hcG, -, -, hce, -⟩ := h.beside b hb a ha hbG haG hne e he heG
            exact hover ⟨c, hback c hc hce, hcG, hce⟩
        obtain ⟨hb, -, hiff⟩ := foldl_tie_of_generic rest (take e) heG hsame
        by_cases hu : ∀ a ∈ cheapest, a = e
        · rw [answer_selected hb fun h => ?_]
          · exact .generic he heG hu
          · obtain h | ⟨c, hc, -, hck⟩ := hiff.mp h
            · cases h
            · exact hck (by rw [hu c (hrest c hc)]; rfl)
        · simp only [not_forall] at hu
          obtain ⟨a, ha, hne⟩ := hu
          obtain ⟨c, hc, hck⟩ := h.generic hall e he a ha (Ne.symm hne)
          rw [answer_ambiguous (hiff.mpr (.inr ⟨c, hback c hc hck, hall c hc, hck⟩))]
          exact .ambiguous ha he hne ((hall a ha).trans heG.symm) fun _ => hall

end Overload

end Absolute
