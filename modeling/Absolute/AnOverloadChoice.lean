import Mathlib.Data.List.Basic
import Mathlib.Data.List.Nodup
import Absolute.AnOverloadTies

/-!
# When overload resolution is a choice of the best candidate

`ChoosesBest` is what `SelectOverload` is for: an answer that does not depend on
the order of declaration, cheapest first, non-generic before generic, and an
error where that leaves two. `choosesBest_iff` says for which candidates it
holds: those whose cheapest are `TiesApart`. Where they are not, an order in
which the wrong candidate comes first is built (`exists_order`).
-/

namespace Absolute

namespace Overload

/-! ## The best candidate, whatever the order -/

section Choosing

variable (q : TypeQueries) (table : SymbolTable) (candidates : List SymbolId)
  (arguments : List TypeName) (displayName : TypeName) (explicitTypeArguments : List TypeName)

/-- The applicable candidates of least cost. -/
def cheapestCandidates : List Applicable :=
  RunningBest.cheapest Applicable.cost
    (applicable q table candidates arguments explicitTypeArguments)

/-- Overload resolution as a choice of the best candidate. -/
structure ChoosesBest : Prop where
  /-- The order of declaration does not matter. -/
  order : ∀ candidates', candidates'.Perm candidates →
    selectOverload q table candidates' arguments displayName explicitTypeArguments
      = selectOverload q table candidates arguments displayName explicitTypeArguments
  /-- What is selected is applicable and nothing applicable is cheaper; where
  nothing is applicable, that is reported. -/
  best : (∃ a ∈ applicable q table candidates arguments explicitTypeArguments,
      selectOverload q table candidates arguments displayName explicitTypeArguments
        = a.selection ∧
      ∀ b ∈ applicable q table candidates arguments explicitTypeArguments, a.cost ≤ b.cost) ∨
    (applicable q table candidates arguments explicitTypeArguments ≠ [] ∧
      selectOverload q table candidates arguments displayName explicitTypeArguments
        = ambiguousOverload displayName) ∨
    (applicable q table candidates arguments explicitTypeArguments = [] ∧
      selectOverload q table candidates arguments displayName explicitTypeArguments
        = noMatchingOverload displayName arguments)
  /-- On equal cost a candidate that is not generic wins over a generic one. -/
  nonGeneric : ∀ n ∈ cheapestCandidates q table candidates arguments explicitTypeArguments,
    n.isGeneric = false →
    (∀ a ∈ cheapestCandidates q table candidates arguments explicitTypeArguments,
      a.isGeneric = false → a = n) →
    selectOverload q table candidates arguments displayName explicitTypeArguments = n.selection
  /-- Two equally cheap candidates of one genericity, generic ones only where no
  other is as cheap, are ambiguous. -/
  ambiguous : ∀ a ∈ cheapestCandidates q table candidates arguments explicitTypeArguments,
    ∀ b ∈ cheapestCandidates q table candidates arguments explicitTypeArguments,
    a ≠ b → a.isGeneric = b.isGeneric →
    (a.isGeneric = true →
      ∀ n ∈ cheapestCandidates q table candidates arguments explicitTypeArguments,
        n.isGeneric = true) →
    selectOverload q table candidates arguments displayName explicitTypeArguments
      = ambiguousOverload displayName

end Choosing

/-! ## Orders of declaration -/

theorem mem_distinctGo {l acc : List SymbolId} {id : SymbolId} :
    id ∈ distinctGo acc l ↔ id ∈ acc ∨ id ∈ l := by
  induction l generalizing acc with
  | nil => simp [distinctGo]
  | cons a l ih =>
      rw [distinctGo]
      split
      · rw [ih, List.mem_cons]
        constructor
        · exact fun h => h.imp_right .inr
        · rintro (h | rfl | h)
          exacts [.inl h, .inl ‹_›, .inr h]
      · rw [ih, List.mem_append, List.mem_singleton, List.mem_cons, or_assoc]

theorem nodup_distinctGo {l acc : List SymbolId} (h : acc.Nodup) : (distinctGo acc l).Nodup := by
  induction l generalizing acc with
  | nil => exact h
  | cons a l ih =>
      rw [distinctGo]
      split
      · exact ih h
      · refine ih (List.nodup_append.mpr ⟨h, List.nodup_singleton a, ?_⟩)
        rintro x hx y hy rfl
        rw [List.mem_singleton] at hy
        exact absurd (hy ▸ hx) ‹_›

/-- Candidates put first are considered first. -/
theorem distinctGo_append {front rest : List SymbolId} {acc : List SymbolId}
    (h : (acc ++ front).Nodup) :
    distinctGo acc (front ++ rest) = distinctGo (acc ++ front) rest := by
  induction front generalizing acc with
  | nil => rw [List.nil_append, List.append_nil]
  | cons a front ih =>
      have ha : a ∉ acc := fun ha => by
        rw [List.nodup_append] at h
        exact h.2.2 a ha a (by simp) rfl
      rw [List.append_cons] at h ⊢
      rw [List.cons_append, distinctGo, if_neg ha, ih h]

theorem distinctGo_prefix (l acc : List SymbolId) : ∃ back, distinctGo acc l = acc ++ back := by
  induction l generalizing acc with
  | nil => exact ⟨[], by rw [distinctGo, List.append_nil]⟩
  | cons a l ih =>
      rw [distinctGo]
      split
      · exact ih acc
      · obtain ⟨back, h⟩ := ih (acc ++ [a])
        exact ⟨a :: back, by rw [h, List.append_assoc, List.singleton_append]⟩

section Choosing

variable {q : TypeQueries} {table : SymbolTable} {candidates : List SymbolId}
  {arguments : List TypeName} {displayName : TypeName} {explicitTypeArguments : List TypeName}

theorem evaluate_id {id : SymbolId} {a : Applicable}
    (h : evaluate q table arguments explicitTypeArguments id = some a) : a.id = id := by
  simp only [evaluate, Option.bind_eq_bind, Option.bind_eq_some_iff] at h
  obtain ⟨candidate, -, h⟩ := h
  split at h
  · cases h
  · obtain ⟨signature, -, h⟩ := Option.bind_eq_some_iff.mp h
    split at h
    · cases h
    · obtain ⟨cost, -, h⟩ := Option.bind_eq_some_iff.mp h
      rw [← Option.some.inj h]

theorem mem_applicable {a : Applicable} :
    a ∈ applicable q table candidates arguments explicitTypeArguments
      ↔ a.id ∈ candidates ∧ evaluate q table arguments explicitTypeArguments a.id = some a := by
  rw [applicable, List.mem_filterMap]
  constructor
  · rintro ⟨id, hid, ha⟩
    rw [distinct, mem_distinctGo] at hid
    obtain rfl := evaluate_id ha
    exact ⟨hid.resolve_left List.not_mem_nil, ha⟩
  · rintro ⟨hid, ha⟩
    exact ⟨a.id, by rw [distinct, mem_distinctGo]; exact .inr hid, ha⟩

theorem mem_cheapestCandidates_perm {candidates' : List SymbolId}
    (h : candidates'.Perm candidates) (a : Applicable) :
    a ∈ cheapestCandidates q table candidates' arguments explicitTypeArguments
      ↔ a ∈ cheapestCandidates q table candidates arguments explicitTypeArguments := by
  simp only [cheapestCandidates, RunningBest.mem_cheapest, mem_applicable, h.mem_iff]

/-- Only the cheapest candidates and the tie rules decide the answer. -/
theorem selectOverload_eq :
    selectOverload q table candidates arguments displayName explicitTypeArguments
      = match cheapestCandidates q table candidates arguments explicitTypeArguments with
        | [] => noMatchingOverload displayName arguments
        | e :: rest => answer displayName (rest.foldl tie (take e)) := by
  rw [selectOverload, considerAll_eq]
  change finish displayName arguments (RunningBest.ties take tie
    (cheapestCandidates q table candidates arguments explicitTypeArguments)) = _
  cases cheapestCandidates q table candidates arguments explicitTypeArguments with
  | nil => rfl
  | cons e rest =>
      have hargs := foldl_tie_arguments rest (take e) fun _ => rfl
      simp only [RunningBest.ties, finish, answer, Applicable.selection]
      split_ifs with h1 h2
      · rfl
      · rw [hargs h2]
      · rfl

/-- The cheapest candidates in any order, put before all others, are considered
in that order. -/
theorem exists_order {front : List Applicable} (hnodup : (front.map Applicable.id).Nodup)
    (hfront : ∀ a ∈ front,
      a ∈ cheapestCandidates q table candidates arguments explicitTypeArguments) :
    ∃ candidates' back, candidates'.Perm candidates ∧
      cheapestCandidates q table candidates' arguments explicitTypeArguments = front ++ back ∧
      ∀ a ∈ back, a ∉ front := by
  have happ : ∀ a ∈ front, a.id ∈ candidates ∧
      evaluate q table arguments explicitTypeArguments a.id = some a := fun a ha =>
    mem_applicable.mp ((RunningBest.mem_cheapest _).mp (hfront a ha)).1
  have hids : (front.map Applicable.id ++ candidates.diff (front.map Applicable.id)).Perm
      candidates := by
    refine List.subperm_append_diff_self_of_count_le fun id hid => ?_
    obtain ⟨a, ha, rfl⟩ := List.mem_map.mp hid
    rw [List.count_eq_one_of_mem hnodup hid]
    exact List.count_pos_iff.mpr (happ a ha).1
  obtain ⟨back, hback⟩ := distinctGo_prefix (candidates.diff (front.map Applicable.id))
    (front.map Applicable.id)
  have hdistinct : distinct (front.map Applicable.id
      ++ candidates.diff (front.map Applicable.id)) = front.map Applicable.id ++ back := by
    rw [distinct, distinctGo_append (by simpa using hnodup), List.nil_append, hback]
  have hdisjoint : ∀ id ∈ back, id ∉ front.map Applicable.id := by
    have := nodup_distinctGo (l := candidates.diff (front.map Applicable.id)) hnodup
    rw [hback, List.nodup_append] at this
    exact fun id hid hmem => this.2.2 id hmem id hid rfl
  have hmap : (front.map Applicable.id).filterMap
      (evaluate q table arguments explicitTypeArguments) = front := by
    rw [List.filterMap_map]
    exact (List.filterMap_congr fun a ha => (happ a ha).2).trans List.filterMap_some
  have hsplit : applicable q table (front.map Applicable.id
        ++ candidates.diff (front.map Applicable.id)) arguments explicitTypeArguments
      = front ++ back.filterMap (evaluate q table arguments explicitTypeArguments) := by
    rw [applicable, hdistinct, List.filterMap_append, hmap]
  have hall : ∀ a ∈ front, a ∈ cheapestCandidates q table (front.map Applicable.id
      ++ candidates.diff (front.map Applicable.id)) arguments explicitTypeArguments :=
    fun a ha => (mem_cheapestCandidates_perm hids a).mpr (hfront a ha)
  rw [cheapestCandidates, hsplit] at hall
  obtain ⟨others, hcheap, hothers⟩ := RunningBest.cheapest_append Applicable.cost hall
  refine ⟨_, others, hids, by rw [cheapestCandidates, hsplit, hcheap], fun a ha hmem => ?_⟩
  obtain ⟨id, hid, heval⟩ := List.mem_filterMap.mp (hothers a ha)
  exact hdisjoint id hid (List.mem_map.mpr ⟨a, hmem, evaluate_id heval⟩)

/-- The answer with `e :: front` considered before the other cheapest candidates,
where the order does not matter. -/
theorem ChoosesBest.answer_of_front
    (h : ChoosesBest q table candidates arguments displayName explicitTypeArguments)
    (e : Applicable) (front : List Applicable)
    (hnodup : ((e :: front).map Applicable.id).Nodup)
    (hfront : ∀ a ∈ e :: front,
      a ∈ cheapestCandidates q table candidates arguments explicitTypeArguments) :
    ∃ back, selectOverload q table candidates arguments displayName explicitTypeArguments
        = answer displayName ((front ++ back).foldl tie (take e)) ∧
      (∀ a, a ∈ e :: front ++ back
        ↔ a ∈ cheapestCandidates q table candidates arguments explicitTypeArguments) ∧
      ∀ a ∈ back, a ∉ e :: front := by
  obtain ⟨candidates', back, hperm, hcheap, hdisjoint⟩ := exists_order hnodup hfront
  refine ⟨back, ?_, fun a => ?_, hdisjoint⟩
  · rw [← h.order candidates' hperm, selectOverload_eq, hcheap]
    rfl
  · rw [← hcheap]
    exact mem_cheapestCandidates_perm hperm a

theorem eq_of_id {a b : Applicable}
    (ha : a ∈ cheapestCandidates q table candidates arguments explicitTypeArguments)
    (hb : b ∈ cheapestCandidates q table candidates arguments explicitTypeArguments)
    (h : a.id = b.id) : a = b := by
  have ha' := (mem_applicable.mp ((RunningBest.mem_cheapest _).mp ha).1).2
  have hb' := (mem_applicable.mp ((RunningBest.mem_cheapest _).mp hb).1).2
  rw [h] at ha'
  exact Option.some.inj (ha'.symm.trans hb')

theorem nodup_cheapest_ids :
    ((cheapestCandidates q table candidates arguments explicitTypeArguments).map
      Applicable.id).Nodup := by
  refine List.Nodup.sublist (List.filter_sublist.map _) (?_ : ((applicable q table candidates
    arguments explicitTypeArguments).map Applicable.id).Nodup)
  refine List.Nodup.map_on (fun a ha b hb h => ?_) ?_
  · have ha' := (mem_applicable.mp ha).2
    have hb' := (mem_applicable.mp hb).2
    rw [h] at ha'
    exact Option.some.inj (ha'.symm.trans hb')
  · refine List.Nodup.filterMap (fun i j a hi hj => ?_) (nodup_distinctGo List.nodup_nil)
    exact (evaluate_id hi).symm.trans (evaluate_id hj)

theorem selection_ne_ambiguous (a : Applicable) :
    a.selection ≠ ambiguousOverload displayName := by
  rw [Applicable.selection, ambiguousOverload]
  split <;> nofun

/-- Ties are apart wherever the order does not matter and the best is chosen. -/
theorem ChoosesBest.tiesApart
    (h : ChoosesBest q table candidates arguments displayName explicitTypeArguments) :
    TiesApart (cheapestCandidates q table candidates arguments explicitTypeArguments) := by
  -- a best candidate that is not generic and meets no other key is selected
  have hclear : ∀ {b : Best} {l : List Applicable}, b.bestWasGeneric = false →
      b.ambiguous = false → (∀ a ∈ l, a.isGeneric = false → a.key = b.best.key) →
      answer displayName (l.foldl tie b) = b.best.selection := by
    intro b l hb hamb hl
    obtain ⟨hbest, hiff⟩ := foldl_tie_of_not_generic l b hb
    refine answer_selected hbest fun ht => ?_
    obtain ht | ⟨a, ha, haG, hk⟩ := hiff.mp ht
    · rw [hamb] at ht
      cases ht
    · exact hk (hl a ha haG)
  have hfalse : ∀ (a : Applicable) (p : Prop), a.isGeneric = false → a.isGeneric = true → p :=
    fun a p h1 h2 => absurd (h1.symm.trans h2) Bool.false_ne_true
  have hseveral : ∀ a ∈ cheapestCandidates q table candidates arguments explicitTypeArguments,
      ∀ b ∈ cheapestCandidates q table candidates arguments explicitTypeArguments,
      a.isGeneric = false → b.isGeneric = false → a ≠ b →
      ∃ c ∈ cheapestCandidates q table candidates arguments explicitTypeArguments,
        c.isGeneric = false ∧ c.key ≠ a.key := by
    intro a ha b hb haG hbG hne
    by_contra hno
    obtain ⟨back, hselect, hmem, -⟩ := h.answer_of_front a []
      (List.nodup_singleton _) (by simpa using ha)
    rw [List.nil_append, hclear haG rfl fun c hc hcG => ?_,
      h.ambiguous a ha b hb hne (haG.trans hbG.symm) (hfalse a _ haG)] at hselect
    · exact selection_ne_ambiguous _ hselect.symm
    · by_contra hk
      exact hno ⟨c, (hmem c).mp (List.mem_cons_of_mem _ hc), hcG, hk⟩
  refine ⟨hseveral, ?_, ?_, ?_⟩
  · intro a ha b hb haG hbG hne g hg hgG
    by_contra hno
    -- at most one key is left beside `g`'s
    have hone : ∀ c ∈ cheapestCandidates q table candidates arguments explicitTypeArguments,
        ∀ d ∈ cheapestCandidates q table candidates arguments explicitTypeArguments,
        c.isGeneric = false → d.isGeneric = false → c.key ≠ g.key → d.key ≠ g.key →
        c.key = d.key := fun c hc d hd hcG hdG hcg hdg => by
      by_contra hcd
      exact hno ⟨c, hc, d, hd, hcG, hdG, hcd, hcg, hdg⟩
    let shadowed := (cheapestCandidates q table candidates arguments
      explicitTypeArguments).filter fun c => !c.isGeneric && c.key = g.key
    have hshadowed : ∀ {c}, c ∈ shadowed ↔
        c ∈ cheapestCandidates q table candidates arguments explicitTypeArguments ∧
          c.isGeneric = false ∧ c.key = g.key := fun {c} => by
      rw [List.mem_filter, Bool.and_eq_true, Bool.not_eq_true', decide_eq_true_eq]
    have hnodup : ((g :: shadowed).map Applicable.id).Nodup := by
      refine List.nodup_cons.mpr ⟨fun hmem => ?_, nodup_cheapest_ids.sublist
        (List.filter_sublist.map _)⟩
      obtain ⟨c, hc, hid⟩ := List.mem_map.mp hmem
      obtain ⟨hcm, hcG, -⟩ := hshadowed.mp hc
      rw [eq_of_id hcm hg hid] at hcG
      exact hfalse g _ hcG hgG
    obtain ⟨back, hselect, hmem, hdisjoint⟩ := h.answer_of_front g shadowed hnodup
      (List.forall_mem_cons.mpr ⟨hg, fun c hc => (hshadowed.mp hc).1⟩)
    have hbackM : ∀ c ∈ back,
        c ∈ cheapestCandidates q table candidates arguments explicitTypeArguments :=
      fun c hc => (hmem c).mp (List.mem_append_right _ hc)
    have hbackKey : ∀ c ∈ back, c.isGeneric = false → c.key ≠ g.key := fun c hc hcG hk =>
      hdisjoint c hc (List.mem_cons_of_mem _ (hshadowed.mpr ⟨hbackM c hc, hcG, hk⟩))
    -- the first of another key takes over from `g`, and meets no further key
    obtain ⟨n, hn, hnG⟩ : ∃ n ∈ back, n.isGeneric = false := by
      obtain ⟨n, hn, hnG, hnk⟩ : ∃ n ∈ cheapestCandidates q table candidates arguments
          explicitTypeArguments, n.isGeneric = false ∧ n.key ≠ g.key := by
        by_cases hag : a.key = g.key
        · obtain ⟨c, hc, hcG, hck⟩ := hseveral a ha b hb haG hbG hne
          exact ⟨c, hc, hcG, fun hcg => hck (hcg.trans hag.symm)⟩
        · exact ⟨a, ha, haG, hag⟩
      rcases List.mem_append.mp ((hmem n).mpr hn) with hn' | hn'
      · rcases List.mem_cons.mp hn' with rfl | hn'
        · exact absurd rfl hnk
        · exact absurd (hshadowed.mp hn').2.2 hnk
      · exact ⟨n, hn', hnG⟩
    obtain ⟨n, hfind⟩ : ∃ n, back.find? (fun c => !c.isGeneric) = some n :=
      Option.isSome_iff_exists.mp (List.find?_isSome.mpr ⟨n, hn, by rw [hnG]; rfl⟩)
    obtain ⟨hnG, pre, post, rfl, hpre⟩ := List.find?_eq_some_iff_append.mp hfind
    rw [Bool.not_eq_true'] at hnG
    have hquiet : ∀ c ∈ shadowed ++ pre, c.isGeneric = false → c.key = (take g).best.key := by
      intro c hc hcG
      rcases List.mem_append.mp hc with hc | hc
      · exact (hshadowed.mp hc).2.2
      · have := hpre c hc
        rw [hcG] at this
        cases this
    obtain ⟨hbest, hbestG, -⟩ := foldl_tie_of_generic (shadowed ++ pre) (take g) hgG hquiet
    have hnk := hbackKey n (by simp) hnG
    rw [← List.append_assoc, List.foldl_append, List.foldl_cons,
      tie_takes_over (by rw [hbest]; exact hnk) hbestG hnG,
      hclear rfl rfl fun c hc hcG => hone c (hbackM c (by simp [hc])) n (hbackM n (by simp))
        hcG hnG (hbackKey c (by simp [hc]) hcG) hnk,
      h.ambiguous a ha b hb hne (haG.trans hbG.symm) (hfalse a _ haG)] at hselect
    exact selection_ne_ambiguous _ hselect.symm
  · intro n hn hnG hu g hg hgG hk
    obtain ⟨back, hselect, hmem, -⟩ := h.answer_of_front g []
      (List.nodup_singleton _) (by simpa using hg)
    have hback : ∀ a ∈ back, a.isGeneric = false → a.key = (take g).best.key :=
      fun a ha haG => by
        rw [hu a ((hmem a).mp (List.mem_cons_of_mem _ ha)) haG]
        exact hk.symm
    obtain ⟨hbest, -, -⟩ := foldl_tie_of_generic back (take g) hgG hback
    rw [List.nil_append, h.nonGeneric n hn hnG hu, answer] at hselect
    split at hselect
    · exact selection_ne_ambiguous _ hselect
    · rw [hbest, show (take g).best = g from rfl, Applicable.selection, Applicable.selection,
        hnG, hgG] at hselect
      cases hselect
  · intro hall a ha b hb hne
    by_contra hno
    obtain ⟨back, hselect, hmem, -⟩ := h.answer_of_front a []
      (List.nodup_singleton _) (by simpa using ha)
    have hback : ∀ c ∈ back, c.key = (take a).best.key := fun c hc => by
      by_contra hk
      exact hno ⟨c, (hmem c).mp (List.mem_cons_of_mem _ hc), hk⟩
    obtain ⟨hbest, -, hiff⟩ := foldl_tie_of_generic back (take a) (hall a ha)
      fun c hc _ => hback c hc
    rw [List.nil_append, answer_selected hbest fun ht => ?_,
      h.ambiguous a ha b hb hne ((hall a ha).trans (hall b hb).symm) fun _ => hall] at hselect
    · exact selection_ne_ambiguous _ hselect.symm
    · obtain ht | ⟨c, hc, -, hk⟩ := hiff.mp ht
      · cases ht
      · exact hk (hback c hc)

/-- `SelectOverload` chooses the best candidate, whatever the order, exactly where
its tie rules pass over none that matters. -/
theorem choosesBest_iff (q : TypeQueries) (table : SymbolTable) (candidates : List SymbolId)
    (arguments : List TypeName) (displayName : TypeName)
    (explicitTypeArguments : List TypeName) :
    ChoosesBest q table candidates arguments displayName explicitTypeArguments
      ↔ TiesApart (cheapestCandidates q table candidates arguments explicitTypeArguments) := by
  refine ⟨ChoosesBest.tiesApart, fun hties => ?_⟩
  cases hM : cheapestCandidates q table candidates arguments explicitTypeArguments with
  | nil =>
      have hnone : ∀ candidates', candidates'.Perm candidates →
          selectOverload q table candidates' arguments displayName explicitTypeArguments
            = noMatchingOverload displayName arguments := fun candidates' hperm => by
        have : cheapestCandidates q table candidates' arguments explicitTypeArguments = [] :=
          List.eq_nil_iff_forall_not_mem.mpr fun a ha => by
            rw [mem_cheapestCandidates_perm hperm, hM] at ha
            exact List.not_mem_nil ha
        rw [selectOverload_eq, this]
      have hself := hnone candidates (.refl _)
      refine ⟨fun candidates' hperm => (hnone candidates' hperm).trans hself.symm,
        .inr (.inr ⟨(RunningBest.cheapest_eq_nil_iff _).mp hM, hself⟩), ?_, ?_⟩
      · intro n hn
        rw [hM] at hn
        exact absurd hn List.not_mem_nil
      · intro a ha
        rw [hM] at ha
        exact absurd ha List.not_mem_nil
  | cons e rest =>
      have hbest : ∀ candidates', candidates'.Perm candidates → IsBest displayName
          (cheapestCandidates q table candidates arguments explicitTypeArguments)
          (selectOverload q table candidates' arguments displayName explicitTypeArguments) :=
        fun candidates' hperm => by
          have hmem := fun a => @mem_cheapestCandidates_perm q table _ arguments
            explicitTypeArguments _ hperm a
          cases hM' : cheapestCandidates q table candidates' arguments explicitTypeArguments with
          | nil =>
              have he := (hmem e).mpr (by rw [hM]; exact List.mem_cons_self)
              rw [hM'] at he
              exact absurd he List.not_mem_nil
          | cons e' rest' =>
              rw [selectOverload_eq, hM']
              exact isBest_of_tiesApart hties fun a => by rw [← hM']; exact hmem a
      have hself := hbest candidates (.refl _)
      refine ⟨fun candidates' hperm => (hbest candidates' hperm).unique hself, ?_,
        fun n hn hnG hu => hself.unique (.nonGeneric hn hnG hu),
        fun a ha b hb hne hab hall => hself.unique (.ambiguous ha hb hne hab hall)⟩
      have hcheap := fun a => RunningBest.mem_cheapest Applicable.cost
        (l := applicable q table candidates arguments explicitTypeArguments) (a := a)
      generalize hs : selectOverload q table candidates arguments displayName
        explicitTypeArguments = s at hself
      cases hself with
      | nonGeneric hn _ _ => exact .inl ⟨_, ((hcheap _).mp hn).1, rfl, ((hcheap _).mp hn).2⟩
      | generic hn _ _ => exact .inl ⟨_, ((hcheap _).mp hn).1, rfl, ((hcheap _).mp hn).2⟩
      | ambiguous ha _ _ _ _ =>
          exact .inr (.inl ⟨List.ne_nil_of_mem ((hcheap _).mp ha).1, rfl⟩)

/-- A type table without declared types. -/
def noTypes : TypeQueries where
  genericParameters _ := none
  currentType := []
  isDerivedFrom _ _ := false
  isOpenGenericParameter _ := false
  typeOwnsUniqueResource _ := false

/-- `int32 ambiguous(int64 value)` and `int32 ambiguous(uint64 value)`. -/
def ambiguousPair : SymbolTable := fun id =>
  ([⟨"ambiguous".toList, [], ["int64".toList], false, 0, []⟩,
    ⟨"ambiguous".toList, [], ["uint64".toList], false, 0, []⟩] : List FunctionSymbol)[id]?

/-- An `int32` argument is as good for either; the one declared first is taken. -/
theorem ambiguousPair_not_choosesBest :
    selectOverload noTypes ambiguousPair [0, 1] ["int32".toList] "ambiguous".toList []
        = .function 0 ∧
      selectOverload noTypes ambiguousPair [1, 0] ["int32".toList] "ambiguous".toList []
        = .function 1 ∧
      ¬ChoosesBest noTypes ambiguousPair [0, 1] ["int32".toList] "ambiguous".toList [] := by
  have h01 : selectOverload noTypes ambiguousPair [0, 1] ["int32".toList]
      "ambiguous".toList [] = .function 0 := by decide
  have h10 : selectOverload noTypes ambiguousPair [1, 0] ["int32".toList]
      "ambiguous".toList [] = .function 1 := by decide
  refine ⟨h01, h10, fun h => ?_⟩
  have := h.order [1, 0] (.swap 0 1 [])
  rw [h01, h10] at this
  cases this

end Choosing

end Overload

end Absolute
