import Mathlib.Data.List.Basic
import Mathlib.Data.Fintype.Pigeonhole
import Mathlib.Data.Set.Finite.Basic
import Mathlib.Logic.Relation
import Mathlib.Order.WellFounded
import Mathlib.Tactic.Common

/-!
# Recursions that follow a relation

Two shapes of recursive walk over a `next` that may lead back to where the walk
has been. The first argument of each bounds the depth of the recursion; `none` is
a walk that went deeper.

- `gather` visits everything below a node and puts the results together. It
  returns from a node exactly if no line of successors goes on without end there
  (`gather_ends_iff`).
- `search` asks the parts of a node, one after the other, until one of them is
  found, and keeps the keys of the nodes it is inside of. What it answers is
  `Finds` (`search_eq_true_iff`), and it returns exactly if it has no endless
  line of parts to follow (`search_ends_iff`). A part behind one that is found is
  not followed, so `Follows` says what stands in front.
-/

namespace Absolute

namespace Descent

variable {α β κ : Type*}

/-! ## Lines without end -/

/-- `b` is directly below `a`. -/
def Below (next : α → List α) (b a : α) : Prop := b ∈ next a

/-- A line from `a` that goes on for ever, each node related to the one before. -/
def Endless (r : α → α → Prop) (a : α) : Prop :=
  ∃ line : ℕ → α, line 0 = a ∧ ∀ n, r (line (n + 1)) (line n)

theorem not_endless_iff {r : α → α → Prop} {a : α} : ¬Endless r a ↔ Acc r a :=
  not_iff_comm.mp not_acc_iff_exists_descending_chain

theorem not_cycle_of_acc {r : α → α → Prop} {a : α} (h : Acc r a) :
    ¬Relation.TransGen r a a := by
  have hacc := h.transGen
  clear h
  induction hacc with
  | intro a _ ih => exact fun hcycle => ih a hcycle hcycle

theorem transGen_of_line {r : α → α → Prop} {line : ℕ → α}
    (h : ∀ n, r (line (n + 1)) (line n)) {i j : ℕ} (hij : i < j) :
    Relation.TransGen r (line j) (line i) := by
  induction j with
  | zero => omega
  | succ j ih =>
      rcases Nat.lt_succ_iff_lt_or_eq.mp hij with hlt | rfl
      · exact (Relation.TransGen.single (h j)).trans (ih hlt)
      · exact .single (h i)

/-- Where finitely many nodes have one in front of them, only a cycle goes on for
ever. -/
theorem acc_of_acyclic {r : α → α → Prop} (nodes : List α) (hnodes : ∀ b a, r b a → b ∈ nodes)
    (h : ∀ b, ¬Relation.TransGen r b b) (a : α) : Acc r a := by
  refine not_endless_iff.mp fun ⟨line, _, hline⟩ => ?_
  have hmem : ∀ n, line (n + 1) ∈ nodes := fun n => hnodes _ _ (hline n)
  have hfin : Finite {b // b ∈ nodes} := (List.finite_toSet nodes).to_subtype
  obtain ⟨i, j, hne, heq⟩ := Finite.exists_ne_map_eq_of_infinite
    fun n => (⟨line (n + 1), hmem n⟩ : {b // b ∈ nodes})
  have heq' : line (i + 1) = line (j + 1) := congrArg Subtype.val heq
  rcases Nat.lt_or_gt_of_ne hne with hlt | hlt
  · have hloop := transGen_of_line hline (Nat.succ_lt_succ hlt)
    exact h _ (heq' ▸ hloop)
  · have hloop := transGen_of_line hline (Nat.succ_lt_succ hlt)
    exact h _ (heq' ▸ hloop)

/-- A line that another relation follows step for step ends with the other's. -/
theorem acc_of_simulation {β : Type*} {r : α → α → Prop} {r' : β → β → Prop}
    {R : α → β → Prop} (hstep : ∀ a b, R a b → ∀ a', r a' a → ∃ b', r' b' b ∧ R a' b')
    {a : α} {b : β} (hR : R a b) (h : Acc r' b) : Acc r a := by
  induction h generalizing a with
  | intro b _ ih =>
      refine .intro a fun a' ha' => ?_
      obtain ⟨b', hb', hR'⟩ := hstep a b hR a' ha'
      exact ih b' hb' hR'

/-! ## Putting together what is below -/

def gather (next : α → List α) (combine : α → List β → β) : Nat → α → Option β
  | 0, _ => none
  | depth + 1, a => ((next a).mapM (gather next combine depth)).map (combine a)

theorem mapM_isSome {f : α → Option β} {l : List α} :
    (l.mapM f).isSome = true ↔ ∀ a ∈ l, (f a).isSome = true := by
  induction l with
  | nil => simp
  | cons a l ih =>
      rw [List.mapM_cons, List.forall_mem_cons, ← ih]
      cases f a with
      | none => simp
      | some b => cases l.mapM f <;> simp

theorem mapM_eq_some_mono {f g : α → Option β} (hfg : ∀ a b, f a = some b → g a = some b)
    {l : List α} {bs : List β} (h : l.mapM f = some bs) : l.mapM g = some bs := by
  induction l generalizing bs with
  | nil => simpa using h
  | cons a l ih =>
      rw [List.mapM_cons] at h ⊢
      obtain ⟨b, hb, h⟩ := Option.bind_eq_some_iff.mp h
      obtain ⟨rest, hrest, h⟩ := Option.bind_eq_some_iff.mp h
      simp only [hfg a b hb, ih hrest, Option.bind_eq_bind, Option.bind_some]
      exact h

theorem forall₂_of_mapM {f : α → Option β} {l : List α} {bs : List β} (h : l.mapM f = some bs) :
    List.Forall₂ (fun a b => f a = some b) l bs := by
  induction l generalizing bs with
  | nil =>
      obtain rfl := Option.some.inj h
      exact .nil
  | cons a l ih =>
      rw [List.mapM_cons] at h
      obtain ⟨b, hb, h⟩ := Option.bind_eq_some_iff.mp h
      obtain ⟨rest, hrest, h⟩ := Option.bind_eq_some_iff.mp h
      obtain rfl := Option.some.inj h
      exact .cons hb (ih hrest)

variable {next : α → List α} {combine : α → List β → β}

theorem gather_mono {depth depth' : Nat} (hd : depth ≤ depth') {a : α} {b : β}
    (h : gather next combine depth a = some b) : gather next combine depth' a = some b := by
  induction depth generalizing depth' a b with
  | zero => simp [gather] at h
  | succ depth ih =>
      cases depth' with
      | zero => omega
      | succ depth' =>
          rw [gather, Option.map_eq_some_iff] at h ⊢
          obtain ⟨bs, hbs, hb⟩ := h
          exact ⟨bs, mapM_eq_some_mono (fun _ _ hc => ih (by omega) hc) hbs, hb⟩

/-- Finitely many depths have one that serves for all of them. -/
theorem exists_common_depth {γ : Type*} {P : Nat → γ → Prop}
    (hmono : ∀ d d' c, d ≤ d' → P d c → P d' c) {l : List γ} (h : ∀ c ∈ l, ∃ d, P d c) :
    ∃ d, ∀ c ∈ l, P d c := by
  induction l with
  | nil => exact ⟨0, by simp⟩
  | cons c l ih =>
      obtain ⟨d, hd⟩ := h c List.mem_cons_self
      obtain ⟨d', hd'⟩ := ih fun c hc => h c (List.mem_cons_of_mem _ hc)
      refine ⟨max d d', List.forall_mem_cons.mpr ⟨?_, fun c hc => ?_⟩⟩
      · exact hmono _ _ _ (Nat.le_max_left _ _) hd
      · exact hmono _ _ _ (Nat.le_max_right _ _) (hd' c hc)

theorem gather_ends_iff {a : α} :
    (∃ depth, (gather next combine depth a).isSome = true) ↔ Acc (Below next) a := by
  constructor
  · rintro ⟨depth, h⟩
    induction depth generalizing a with
    | zero => simp [gather] at h
    | succ depth ih =>
        rw [gather, Option.isSome_map, mapM_isSome] at h
        exact .intro a fun b hb => ih (h b hb)
  · intro h
    induction h with
    | intro a _ ih =>
        obtain ⟨depth, hdepth⟩ :=
          exists_common_depth (P := fun d b => (gather next combine d b).isSome = true)
            (fun d d' b hd hs => by
              obtain ⟨r, hr⟩ := Option.isSome_iff_exists.mp hs
              exact Option.isSome_iff_exists.mpr ⟨r, gather_mono hd hr⟩) ih
        refine ⟨depth + 1, ?_⟩
        rw [gather, Option.isSome_map, mapM_isSome]
        exact hdepth

/-! ## Looking for a part -/

/-- What a search makes of a node: an answer of its own, or parts to ask. A node
with a key is not entered again while the search is inside of it. A part `none`
is found without looking further. -/
inductive Look (κ α : Type*) where
  | answer (found : Bool)
  | parts (key : Option κ) (next : List (Option α))

/-- Ask the parts in their order, up to the first that is found. -/
def anyPart (inspect : α → Option Bool) : List (Option α) → Option Bool
  | [] => some false
  | none :: _ => some true
  | some a :: rest =>
      match inspect a with
      | none => none
      | some true => some true
      | some false => anyPart inspect rest

def search [DecidableEq κ] (look : α → Look κ α) : Nat → List κ → α → Option Bool
  | 0, _, _ => none
  | depth + 1, visiting, a =>
      match look a with
      | .answer found => some found
      | .parts key next =>
          if ∀ k ∈ key.toList, k ∉ visiting then
            anyPart (search look depth (key.toList ++ visiting)) next
          else some false

/-- Something that is found lies below `a`, past nodes that are not being
visited. -/
inductive Finds (look : α → Look κ α) : List κ → α → Prop
  | answer {visiting : List κ} {a : α} : look a = .answer true → Finds look visiting a
  | hit {visiting : List κ} {a : α} {key : Option κ} {next : List (Option α)} :
      look a = .parts key next → (∀ k ∈ key.toList, k ∉ visiting) → none ∈ next →
      Finds look visiting a
  | part {visiting : List κ} {a b : α} {key : Option κ} {next : List (Option α)} :
      look a = .parts key next → (∀ k ∈ key.toList, k ∉ visiting) → some b ∈ next →
      Finds look (key.toList ++ visiting) b → Finds look visiting a

/-- The search at `x` goes on to `y`: nothing in front of it is found. -/
inductive Follows (look : α → Look κ α) : List κ × α → List κ × α → Prop
  | mk {visiting : List κ} {a b : α} {key : Option κ} {front rest : List (Option α)} :
      look a = .parts key (front ++ some b :: rest) → (∀ k ∈ key.toList, k ∉ visiting) →
      (∀ p ∈ front, ∃ c, p = some c ∧ ¬Finds look (key.toList ++ visiting) c) →
      Follows look (key.toList ++ visiting, b) (visiting, a)

theorem anyPart_mono {f g : α → Option Bool} (hfg : ∀ a r, f a = some r → g a = some r)
    {l : List (Option α)} {r : Bool} (h : anyPart f l = some r) : anyPart g l = some r := by
  induction l with
  | nil => exact h
  | cons p l ih =>
      cases p with
      | none => exact h
      | some a =>
          rw [anyPart] at h ⊢
          rcases hf : f a with - | - | -
          · simp [hf] at h
          · simp only [hf] at h
            simpa only [hfg a _ hf] using ih h
          · simp only [hf] at h
            simpa only [hfg a _ hf] using h

/-- What asking the parts answers, given what each part does. -/
theorem anyPart_eq_true_iff {f : α → Option Bool} {P : α → Prop}
    (hf : ∀ a r, f a = some r → (r = true ↔ P a)) {l : List (Option α)} {r : Bool}
    (h : anyPart f l = some r) : r = true ↔ none ∈ l ∨ ∃ a, some a ∈ l ∧ P a := by
  induction l with
  | nil => simp [anyPart] at h; simp [← h]
  | cons p l ih =>
      cases p with
      | none => simp [anyPart] at h; simp [← h]
      | some a =>
          rw [anyPart] at h
          rcases hfa : f a with - | - | -
          · simp [hfa] at h
          · have hnot : ¬P a := fun hp => by simpa using (hf a _ hfa).mpr hp
            simp only [hfa] at h
            rw [ih h]
            simp only [List.mem_cons, reduceCtorEq, false_or, Option.some.injEq]
            constructor
            · rintro (hn | ⟨b, hb, hp⟩)
              · exact .inl hn
              · exact .inr ⟨b, .inr hb, hp⟩
            · rintro (hn | ⟨b, rfl | hb, hp⟩)
              · exact .inl hn
              · exact absurd hp hnot
              · exact .inr ⟨b, hb, hp⟩
          · simp only [hfa, Option.some.injEq] at h
            exact iff_of_true h.symm (.inr ⟨a, by simp, (hf a _ hfa).mp rfl⟩)

/-- Asking the parts comes to an end if it does so at each part it gets to. -/
theorem anyPart_ends {f : α → Option Bool} {P : α → Prop}
    (hf : ∀ a r, f a = some r → (r = true ↔ P a)) {l : List (Option α)}
    (h : ∀ front a rest, l = front ++ some a :: rest →
      (∀ p ∈ front, ∃ c, p = some c ∧ ¬P c) → (f a).isSome = true) :
    (anyPart f l).isSome = true := by
  induction l with
  | nil => rfl
  | cons p l ih =>
      cases p with
      | none => rfl
      | some a =>
          obtain ⟨r, hr⟩ := Option.isSome_iff_exists.mp (h [] a l rfl (by simp))
          rw [anyPart]
          cases r with
          | true => simp [hr]
          | false =>
              have hnot : ¬P a := fun hp => by simpa using (hf a _ hr).mpr hp
              simp only [hr]
              refine ih fun front b rest hl hfront => h (some a :: front) b rest (by simp [hl]) ?_
              exact List.forall_mem_cons.mpr ⟨⟨a, rfl, hnot⟩, hfront⟩

/-- Asking the parts gets to each part that nothing found stands in front of. -/
theorem isSome_of_anyPart {f : α → Option Bool} {P : α → Prop}
    (hf : ∀ a r, f a = some r → (r = true ↔ P a)) {front rest : List (Option α)} {a : α}
    (h : (anyPart f (front ++ some a :: rest)).isSome = true)
    (hfront : ∀ p ∈ front, ∃ c, p = some c ∧ ¬P c) : (f a).isSome = true := by
  induction front with
  | nil =>
      rw [List.nil_append, anyPart] at h
      cases hfa : f a with
      | none => simp [hfa] at h
      | some r => rfl
  | cons p front ih =>
      obtain ⟨c, rfl, hnot⟩ := hfront p List.mem_cons_self
      rw [List.cons_append, anyPart] at h
      rcases hfc : f c with - | - | -
      · simp [hfc] at h
      · simp only [hfc] at h
        exact ih h fun p hp => hfront p (List.mem_cons_of_mem _ hp)
      · exact absurd ((hf c _ hfc).mp rfl) hnot

section Ends

variable [DecidableEq κ] {look : α → Look κ α}

theorem search_mono {depth depth' : Nat} (hd : depth ≤ depth') {visiting : List κ} {a : α}
    {r : Bool} (h : search look depth visiting a = some r) :
    search look depth' visiting a = some r := by
  induction depth generalizing depth' visiting a r with
  | zero => simp [search] at h
  | succ depth ih =>
      cases depth' with
      | zero => omega
      | succ depth' =>
          rw [search] at h ⊢
          cases hlook : look a with
          | answer found => simpa only [hlook] using h
          | parts key next =>
              simp only [hlook] at h ⊢
              split
              · rename_i hkey
                rw [if_pos hkey] at h
                exact anyPart_mono (fun _ _ hs => ih (by omega) hs) h
              · rename_i hkey
                rwa [if_neg hkey] at h

theorem search_eq_true_iff {depth : Nat} {visiting : List κ} {a : α} {r : Bool}
    (h : search look depth visiting a = some r) : r = true ↔ Finds look visiting a := by
  induction depth generalizing visiting a r with
  | zero => simp [search] at h
  | succ depth ih =>
      rw [search] at h
      cases hlook : look a with
      | answer found =>
          simp only [hlook, Option.some.injEq] at h
          subst h
          constructor
          · rintro rfl
            exact .answer hlook
          · intro hfinds
            cases hfinds with
            | answer hl => rw [hlook] at hl; injection hl
            | hit hl => rw [hlook] at hl; cases hl
            | part hl => rw [hlook] at hl; cases hl
      | parts key next =>
          simp only [hlook] at h
          split at h
          · rename_i hkey
            rw [anyPart_eq_true_iff (fun _ _ hs => ih hs) h]
            constructor
            · rintro (hn | ⟨b, hb, hfinds⟩)
              · exact .hit hlook hkey hn
              · exact .part hlook hkey hb hfinds
            · intro hfinds
              cases hfinds with
              | answer hl => rw [hlook] at hl; cases hl
              | hit hl _ hn => rw [hlook] at hl; cases hl; exact .inl hn
              | part hl _ hb hf => rw [hlook] at hl; cases hl; exact .inr ⟨_, hb, hf⟩
          · rename_i hkey
            simp only [Option.some.injEq] at h
            subst h
            refine iff_of_false (by simp) fun hfinds => hkey ?_
            cases hfinds with
            | answer hl => rw [hlook] at hl; cases hl
            | hit hl hk => rw [hlook] at hl; cases hl; exact hk
            | part hl hk => rw [hlook] at hl; cases hl; exact hk

theorem search_ends_iff {visiting : List κ} {a : α} :
    (∃ depth, (search look depth visiting a).isSome = true)
      ↔ Acc (Follows look) (visiting, a) := by
  constructor
  · rintro ⟨depth, h⟩
    induction depth generalizing visiting a with
    | zero => simp [search] at h
    | succ depth ih =>
        refine .intro _ fun y hy => ?_
        cases hy with
        | @mk _ _ b key _ _ hlook hkey hfront =>
            simp only [search, hlook, if_pos hkey] at h
            exact ih (isSome_of_anyPart (f := search look depth (key.toList ++ visiting))
              (fun _ _ hs => search_eq_true_iff hs) h hfront)
  · intro h
    generalize hx : (visiting, a) = x at h
    induction h generalizing visiting a with
    | intro x _ ih =>
        subst hx
        cases hlook : look a with
        | answer found => exact ⟨1, by simp [search, hlook]⟩
        | parts key next =>
            by_cases hkey : ∀ k ∈ key.toList, k ∉ visiting
            · -- the parts the search gets to, and a depth that serves for them all
              obtain ⟨depth, hdepth⟩ := exists_common_depth
                (P := fun d (p : Option α) => ∀ b front rest, p = some b →
                  next = front ++ some b :: rest →
                  (∀ p ∈ front, ∃ c, p = some c ∧ ¬Finds look (key.toList ++ visiting) c) →
                  (search look d (key.toList ++ visiting) b).isSome = true)
                (fun d d' p hd hp b front rest hb hn hf => by
                  obtain ⟨r, hr⟩ := Option.isSome_iff_exists.mp (hp b front rest hb hn hf)
                  exact Option.isSome_iff_exists.mpr ⟨r, search_mono hd hr⟩)
                (l := next) (fun p _ => by
                  by_cases hp : ∃ b front rest, p = some b ∧ next = front ++ some b :: rest ∧
                      ∀ p ∈ front, ∃ c, p = some c ∧ ¬Finds look (key.toList ++ visiting) c
                  · obtain ⟨b, front, rest, rfl, hn, hf⟩ := hp
                    obtain ⟨d, hd⟩ := ih _ (.mk (hn ▸ hlook) hkey hf) rfl
                    refine ⟨d, fun b' _ _ hb _ _ => ?_⟩
                    obtain rfl := Option.some.inj hb
                    exact hd
                  · exact ⟨0, fun b front rest hb hn hf =>
                      absurd ⟨b, front, rest, hb, hn, hf⟩ hp⟩)
              refine ⟨depth + 1, ?_⟩
              simp only [search, hlook, if_pos hkey]
              refine anyPart_ends (fun _ _ hs => search_eq_true_iff hs)
                fun front b rest hn hf => ?_
              exact hdepth (some b) (by simp [hn]) b front rest rfl hn hf
            · exact ⟨1, by simp only [search, hlook, if_neg hkey, Option.isSome_some]⟩

end Ends

/-! ## Lines to a part that is found -/

/-- Parts lead from `a` to something that is found, past nodes with these keys. -/
inductive Leads (look : α → Look κ α) : α → List κ → Prop
  | answer {a : α} : look a = .answer true → Leads look a []
  | hit {a : α} {key : Option κ} {next : List (Option α)} :
      look a = .parts key next → none ∈ next → Leads look a key.toList
  | part {a b : α} {key : Option κ} {next : List (Option α)} {keys : List κ} :
      look a = .parts key next → some b ∈ next → Leads look b keys →
      Leads look a (key.toList ++ keys)

section Lines

variable {look : α → Look κ α}

theorem nodup_toList (key : Option κ) : key.toList.Nodup := by
  cases key <;> simp

/-- Something is found where a line leads there that has no key twice. -/
theorem finds_iff_leads {visiting : List κ} {a : α} :
    Finds look visiting a ↔ ∃ keys, Leads look a keys ∧ keys.Nodup ∧ keys.Disjoint visiting := by
  constructor
  · intro h
    induction h with
    | answer hlook => exact ⟨[], .answer hlook, .nil, List.disjoint_nil_left _⟩
    | hit hlook hkey hnone =>
        exact ⟨_, .hit hlook hnone, nodup_toList _, fun k hk => hkey k hk⟩
    | part hlook hkey hb _ ih =>
        obtain ⟨keys, hleads, hnodup, hdisjoint⟩ := ih
        obtain ⟨hkeys, hvisiting⟩ := List.disjoint_append_right.mp hdisjoint
        exact ⟨_, .part hlook hb hleads,
          List.nodup_append.mpr ⟨nodup_toList _, hnodup, fun _ hk _ hk' heq =>
            hkeys hk' (heq ▸ hk)⟩,
          List.disjoint_append_left.mpr ⟨fun k hk => hkey k hk, hvisiting⟩⟩
  · rintro ⟨keys, hleads, hnodup, hdisjoint⟩
    induction hleads generalizing visiting with
    | answer hlook => exact .answer hlook
    | hit hlook hnone => exact .hit hlook (fun k hk => hdisjoint hk) hnone
    | part hlook hb _ ih =>
        obtain ⟨hkey, hkeys⟩ := List.disjoint_append_left.mp hdisjoint
        obtain ⟨-, hnodup, hne⟩ := List.nodup_append.mp hnodup
        exact .part hlook (fun k hk => hkey hk) hb (ih hnodup
          (List.disjoint_append_right.mpr ⟨fun k hk hk' => hne k hk' k hk rfl, hkeys⟩))

/-- A line of so many nodes. -/
inductive LeadsIn (look : α → Look κ α) : Nat → α → Prop
  | answer {a : α} : look a = .answer true → LeadsIn look 0 a
  | hit {a : α} {key : Option κ} {next : List (Option α)} :
      look a = .parts key next → none ∈ next → LeadsIn look 0 a
  | part {a b : α} {key : Option κ} {next : List (Option α)} {n : Nat} :
      look a = .parts key next → some b ∈ next → LeadsIn look n b → LeadsIn look (n + 1) a

theorem exists_leadsIn {a : α} {keys : List κ} (h : Leads look a keys) :
    ∃ n, LeadsIn look n a := by
  induction h with
  | answer hlook => exact ⟨0, .answer hlook⟩
  | hit hlook hnone => exact ⟨0, .hit hlook hnone⟩
  | part hlook hb _ ih =>
      obtain ⟨n, hn⟩ := ih
      exact ⟨n + 1, .part hlook hb hn⟩

/-- Where every node with a key is its own key, a shortest line has none twice. -/
theorem finds_of_leadsIn {look : α → Look α α}
    (hself : ∀ a k next, look a = .parts (some k) next → k = a) {n : Nat} {visiting : List α}
    {a : α} (h : LeadsIn look n a) (hmin : ∀ m < n, ¬LeadsIn look m a)
    (hvisiting : ∀ v ∈ visiting, ∀ m ≤ n, ¬LeadsIn look m v) : Finds look visiting a := by
  induction n using Nat.strong_induction_on generalizing visiting a with
  | _ n ih =>
      have hfree : ∀ {key next}, look a = .parts key next → ∀ k ∈ key.toList, k ∉ visiting := by
        intro key next hlook k hk hmem
        rw [Option.mem_toList] at hk
        rw [hself a k next (hk ▸ hlook)] at hmem
        exact hvisiting a hmem n le_rfl h
      cases h with
      | answer hlook => exact .answer hlook
      | hit hlook hnone => exact .hit hlook (hfree hlook) hnone
      | @part _ b key next n hlook hb hn =>
          obtain ⟨m, ⟨hm, hle⟩, hleast⟩ : ∃ m, (LeadsIn look m b ∧ m ≤ n) ∧
              ∀ m' < m, ¬LeadsIn look m' b := by
            classical
            have hex : ∃ m, LeadsIn look m b := ⟨n, hn⟩
            exact ⟨Nat.find hex, ⟨Nat.find_spec hex, Nat.find_min' hex hn⟩,
              fun _ => Nat.find_min hex⟩
          refine .part hlook (hfree hlook) hb (ih m (by omega) hm hleast fun v hv m' hm' => ?_)
          rcases List.mem_append.mp hv with hkey | hold
          · rw [Option.mem_toList] at hkey
            rw [hself a v next (hkey ▸ hlook)]
            exact hmin m' (by omega)
          · exact hvisiting v hold m' (by omega)

theorem finds_of_leads {look : α → Look α α}
    (hself : ∀ a k next, look a = .parts (some k) next → k = a) {a : α} {keys : List α}
    (h : Leads look a keys) : Finds look [] a := by
  classical
  have hex := exists_leadsIn h
  exact finds_of_leadsIn hself (Nat.find_spec hex) (fun _ => Nat.find_min hex) (by simp)

end Lines

/-! ## Looking for a node -/

/-- The search for a node with a property, along `next` and with no keys. -/
def seek (goal : α → Prop) [DecidablePred goal] (next : α → List α) (a : α) : Look κ α :=
  if goal a then .answer true else .parts none ((next a).map some)

variable {goal : α → Prop} [DecidablePred goal] {next : α → List α}

theorem follows_seek {y : List κ × α} {visiting : List κ} {a : α}
    (h : Follows (seek goal next) y (visiting, a)) : y.1 = visiting ∧ Below next y.2 a := by
  cases h with
  | @mk _ _ b _ _ _ hlook _ _ =>
      unfold seek at hlook
      split at hlook
      · cases hlook
      · obtain ⟨rfl, hnext⟩ := Look.parts.inj hlook
        refine ⟨rfl, ?_⟩
        have hmem : some b ∈ (next a).map some := by simp [hnext]
        simpa [Below] using hmem

theorem acc_seek {a : α} (h : Acc (Below next) a) (visiting : List κ) :
    Acc (Follows (seek goal next)) (visiting, a) := by
  induction h generalizing visiting with
  | intro a _ ih =>
      refine .intro _ fun ⟨visiting', b⟩ hb => ?_
      exact ih b (follows_seek hb).2 visiting'

theorem finds_seek {visiting : List κ} {a : α} (h : Finds (seek goal next) visiting a) :
    ∃ b, Relation.ReflTransGen (flip (Below next)) a b ∧ goal b := by
  induction h with
  | @answer _ a hlook =>
      refine ⟨a, .refl, ?_⟩
      unfold seek at hlook
      split at hlook
      · assumption
      · cases hlook
  | hit hlook _ hnone =>
      unfold seek at hlook
      split at hlook
      · cases hlook
      · obtain ⟨-, rfl⟩ := Look.parts.inj hlook
        simp at hnone
  | @part _ a b _ _ hlook _ hb _ ih =>
      obtain ⟨c, hreach, hc⟩ := ih
      unfold seek at hlook
      split at hlook
      · cases hlook
      · obtain ⟨-, rfl⟩ := Look.parts.inj hlook
        exact ⟨c, .head (show Below next b a by simpa [Below] using hb) hreach, hc⟩

/-- A search for what is not there follows every line there is. -/
theorem acc_of_acc_seek {visiting : List κ} {a : α}
    (hgoal : ∀ b, Relation.ReflTransGen (flip (Below next)) a b → ¬goal b)
    (h : Acc (Follows (seek goal next)) (visiting, a)) : Acc (Below next) a := by
  generalize hx : (visiting, a) = x at h
  induction h generalizing visiting a with
  | intro x _ ih =>
      subst hx
      refine .intro a fun b hb => ?_
      obtain ⟨front, rest, hsplit⟩ := List.append_of_mem (show b ∈ next a from hb)
      have hbelow : ∀ c ∈ next a, ∀ d, Relation.ReflTransGen (flip (Below next)) c d → ¬goal d :=
        fun c hc d hd => hgoal d (.head (show flip (Below next) a c from hc) hd)
      refine ih (visiting, b) ?_ (hbelow b hb) rfl
      have hlook : seek goal next a
          = .parts (none : Option κ) (front.map some ++ some b :: rest.map some) := by
        rw [seek, if_neg (hgoal a .refl), hsplit, List.map_append, List.map_cons]
      refine .mk hlook (by simp) fun p hp => ?_
      obtain ⟨c, hc, rfl⟩ := List.mem_map.mp hp
      refine ⟨c, rfl, fun hfinds => ?_⟩
      obtain ⟨d, hd, hgd⟩ := finds_seek hfinds
      exact hbelow c (by simp [hsplit, hc]) d hd hgd

end Descent

end Absolute
