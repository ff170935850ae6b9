import Mathlib.Data.Finset.Card
import Mathlib.Data.Set.Finite.Basic
import Mathlib.Data.List.Basic
import Mathlib.Tactic.Common

/-!
# Exploring a graph behind a visited list

`visit` is a depth-first walk that notes a node before it follows the node's
successors and turns back at a noted one. Its first argument bounds the depth of
the recursion; `none` is a walk that went deeper. The graph may be infinite, and
the guard alone does not stop the walk:

- `explored_of_visitAll`: what a walk that returns has noted;
- `visitAll_of_card`: a walk that can reach finitely many new nodes returns, at a
  depth of at most their number;
- `visits_iff_finite`: those are the only walks that return.

`settle` repeats a walk from successors of everything noted so far until a round
notes nothing new. `settles_iff_finite` is the same statement for it.
-/

namespace Absolute

namespace Explore

variable {α : Type}

/-- Reached from `roots` over nodes that are not `noted`. -/
inductive Reach (next : α → List α) (noted roots : List α) : α → Prop
  | root {node : α} : node ∈ roots → node ∉ noted → Reach next noted roots node
  | step {node succ : α} : Reach next noted roots node → succ ∈ next node →
      succ ∉ noted → Reach next noted roots succ

/-- What a walk from `roots` adds to `noted`. -/
structure Explored (next : α → List α) (noted roots after : List α) : Prop where
  grows : ∃ added, after = added ++ noted ∧ ∀ node ∈ added, node ∉ noted
  rooted : ∀ node ∈ roots, node ∈ after
  followed : ∀ node ∈ after, node ∉ noted → ∀ succ ∈ next node, succ ∈ after
  reached : ∀ node ∈ after, node ∉ noted → Reach next noted roots node

variable {next : α → List α} {noted roots after : List α}

/-! ## Reachability -/

theorem Reach.not_noted {node : α} (h : Reach next noted roots node) : node ∉ noted := by
  cases h with
  | root _ h => exact h
  | step _ _ h => exact h

/-- A walk that avoids more and starts from less reaches less. -/
theorem Reach.mono {noted' roots' : List α} {node : α} (h : Reach next noted roots node)
    (hn : ∀ node ∈ noted', node ∈ noted)
    (hr : ∀ r ∈ roots, r ∉ noted → Reach next noted' roots' r) :
    Reach next noted' roots' node := by
  induction h with
  | root hmem hnot => exact hr _ hmem hnot
  | step _ hmem hnot ih => exact .step ih hmem (fun hin => hnot (hn _ hin))

/-- A property the edges keep holds of everything reached. -/
theorem Reach.forall {P : α → Prop} (hroots : ∀ node ∈ roots, P node)
    (hnext : ∀ node, P node → ∀ succ ∈ next node, P succ) {node : α}
    (h : Reach next noted roots node) : P node := by
  induction h with
  | root hmem _ => exact hroots _ hmem
  | step _ hmem _ ih => exact hnext _ ih _ hmem

theorem Reach.tail {root node : α} (h : Reach next noted roots node) :
    Reach next noted (root :: roots) node :=
  h.mono (fun _ hn => hn) fun _ hmem hnot => .root (List.mem_cons_of_mem _ hmem) hnot

/-- What is reached below a root was reached from the root. -/
theorem Reach.of_below {root node : α} (hroot : root ∉ noted)
    (h : Reach next (root :: noted) (next root) node) :
    Reach next noted (root :: roots) node :=
  h.mono (fun _ hn => List.mem_cons_of_mem _ hn) fun _ hmem hnot =>
    .step (.root List.mem_cons_self hroot) hmem
      fun hin => hnot (List.mem_cons_of_mem _ hin)

/-! ## What a walk leaves behind -/

theorem Explored.mem (h : Explored next noted roots after) {node : α} (hn : node ∈ noted) :
    node ∈ after := by
  obtain ⟨added, rfl, -⟩ := h.grows
  exact List.mem_append_right _ hn

/-- A walk that returns has noted everything it can reach. -/
theorem Explored.complete (h : Explored next noted roots after) {node : α}
    (hr : Reach next noted roots node) : node ∈ after := by
  induction hr with
  | root hmem _ => exact h.rooted _ hmem
  | step hprev hmem _ ih => exact h.followed _ ih hprev.not_noted _ hmem

theorem Explored.nil : Explored next noted [] noted where
  grows := ⟨[], rfl, by simp⟩
  rooted := by simp
  followed := fun _ hin hnot => absurd hin hnot
  reached := fun _ hin hnot => absurd hin hnot

theorem Explored.seen {node : α} (h : node ∈ noted) : Explored next noted [node] noted where
  grows := ⟨[], rfl, by simp⟩
  rooted := by simpa using h
  followed := fun _ hin hnot => absurd hin hnot
  reached := fun _ hin hnot => absurd hin hnot

/-- Noting a new node and then following it. -/
theorem Explored.fresh {node : α} (hnode : node ∉ noted)
    (h : Explored next (node :: noted) (next node) after) :
    Explored next noted [node] after := by
  refine ⟨?_, ?_, ?_, ?_⟩
  · obtain ⟨added, rfl, hnew⟩ := h.grows
    refine ⟨added ++ [node], by simp, fun n hn => ?_⟩
    rcases List.mem_append.mp hn with hl | hr
    · exact fun hin => hnew n hl (List.mem_cons_of_mem _ hin)
    · rwa [List.mem_singleton.mp hr]
  · intro n hn
    obtain rfl := List.mem_singleton.mp hn
    exact h.mem List.mem_cons_self
  · intro n hin hnot succ hsucc
    by_cases hn : n = node
    · subst hn
      exact h.rooted _ hsucc
    · exact h.followed n hin (by simp [hn, hnot]) succ hsucc
  · intro n hin hnot
    by_cases hn : n = node
    · subst hn
      exact .root List.mem_cons_self hnode
    · exact (h.reached n hin (by simp [hn, hnot])).of_below hnode

/-- One walk after another. -/
theorem Explored.append {roots' after' : List α} (h : Explored next noted roots after)
    (h' : Explored next after roots' after') :
    Explored next noted (roots ++ roots') after' := by
  refine ⟨?_, ?_, ?_, ?_⟩
  · obtain ⟨added, rfl, hnew⟩ := h.grows
    obtain ⟨added', rfl, hnew'⟩ := h'.grows
    refine ⟨added' ++ added, by simp, fun n hn => ?_⟩
    rcases List.mem_append.mp hn with hl | hr
    · exact fun hin => hnew' n hl (List.mem_append_right _ hin)
    · exact hnew n hr
  · intro n hn
    rcases List.mem_append.mp hn with hl | hr
    · exact h'.mem (h.rooted n hl)
    · exact h'.rooted n hr
  · intro n hin hnot succ hsucc
    by_cases hn : n ∈ after
    · exact h'.mem (h.followed n hn hnot succ hsucc)
    · exact h'.followed n hin hn succ hsucc
  · intro n hin hnot
    by_cases hn : n ∈ after
    · exact (h.reached n hn hnot).mono (fun _ hm => hm)
        fun _ hmem hm => .root (List.mem_append_left _ hmem) hm
    · exact (h'.reached n hin hn).mono (fun _ hm => h.mem hm)
        fun _ hmem hm =>
          .root (List.mem_append_right _ hmem) (fun hin' => hm (h.mem hin'))

/-! ## The walk -/

section Walk

variable [DecidableEq α]

/-- One node: nothing to do where it is noted, else note it and follow it. -/
def visit (next : α → List α) : Nat → List α → α → Option (List α)
  | 0, _, _ => none
  | depth + 1, noted, node =>
      if node ∈ noted then some noted
      else (next node).foldlM (visit next depth) (node :: noted)

def visitAll (next : α → List α) (depth : Nat) (noted nodes : List α) :
    Option (List α) :=
  nodes.foldlM (visit next depth) noted

theorem explored_of_visitAll {depth : Nat}
    (h : visitAll next depth noted roots = some after) :
    Explored next noted roots after := by
  induction depth generalizing noted roots after with
  | zero =>
      cases roots with
      | nil =>
          obtain rfl := Option.some.inj h
          exact .nil
      | cons node rest => simp [visitAll, visit] at h
  | succ depth ihd =>
      induction roots generalizing noted with
      | nil =>
          obtain rfl := Option.some.inj h
          exact .nil
      | cons node rest ih =>
          rw [visitAll, List.foldlM_cons] at h
          obtain ⟨mid, hvisit, hrest⟩ := Option.bind_eq_some_iff.mp h
          have hfirst : Explored next noted [node] mid := by
            rw [visit] at hvisit
            split at hvisit
            · rename_i hmem
              obtain rfl := Option.some.inj hvisit
              exact .seen hmem
            · rename_i hmem
              exact .fresh hmem (ihd hvisit)
          exact hfirst.append (ih hrest)

/-! ## A walk that can return -/

theorem visit_mono {depth depth' : Nat} (hd : depth ≤ depth') {node : α}
    (h : visit next depth noted node = some after) :
    visit next depth' noted node = some after := by
  induction depth generalizing depth' noted node after with
  | zero => cases h
  | succ depth ih =>
      obtain ⟨depth', rfl⟩ : ∃ d, depth' = d + 1 := ⟨depth' - 1, by omega⟩
      rw [visit] at h ⊢
      split at h
      · rw [if_pos ‹_›]
        exact h
      · rw [if_neg ‹_›]
        generalize next node = nodes at h ⊢
        generalize node :: noted = start at h ⊢
        induction nodes generalizing start with
        | nil => exact h
        | cons n rest ihn =>
            rw [List.foldlM_cons] at h ⊢
            obtain ⟨mid, hvisit, hrest⟩ := Option.bind_eq_some_iff.mp h
            exact Option.bind_eq_some_iff.mpr ⟨mid, ih (by omega) hvisit, ihn _ hrest⟩

theorem visitAll_mono {depth depth' : Nat} (hd : depth ≤ depth')
    (h : visitAll next depth noted roots = some after) :
    visitAll next depth' noted roots = some after := by
  induction roots generalizing noted with
  | nil => exact h
  | cons node rest ih =>
      rw [visitAll, List.foldlM_cons] at h ⊢
      obtain ⟨mid, hvisit, hrest⟩ := Option.bind_eq_some_iff.mp h
      exact Option.bind_eq_some_iff.mpr ⟨mid, visit_mono hd hvisit, ih hrest⟩

theorem visitAll_append {depth : Nat} {roots' : List α} :
    visitAll next depth noted (roots ++ roots') = some after
      ↔ ∃ mid, visitAll next depth noted roots = some mid
        ∧ visitAll next depth mid roots' = some after := by
  rw [visitAll, List.foldlM_append]
  exact Option.bind_eq_some_iff

theorem visitAll_singleton {depth : Nat} {node : α} :
    visitAll next depth noted [node] = visit next depth noted node := by
  simp [visitAll]

/-- A walk returns with `after` at some depth. -/
def Visits (next : α → List α) (noted roots after : List α) : Prop :=
  ∃ depth, visitAll next depth noted roots = some after

theorem Visits.explored (h : Visits next noted roots after) :
    Explored next noted roots after := by
  obtain ⟨depth, h⟩ := h
  exact explored_of_visitAll h

theorem Visits.nil : Visits next noted [] noted := ⟨0, rfl⟩

theorem Visits.append {roots' after' : List α} (h : Visits next noted roots after)
    (h' : Visits next after roots' after') : Visits next noted (roots ++ roots') after' := by
  obtain ⟨depth, h⟩ := h
  obtain ⟨depth', h'⟩ := h'
  exact ⟨max depth depth', visitAll_append.mpr
    ⟨after, visitAll_mono (Nat.le_max_left _ _) h, visitAll_mono (Nat.le_max_right _ _) h'⟩⟩

theorem Visits.seen {node : α} (h : node ∈ noted) : Visits next noted [node] noted :=
  ⟨1, by rw [visitAll_singleton, visit, if_pos h]⟩

theorem Visits.fresh {node : α} (h : node ∉ noted)
    (hnext : Visits next (node :: noted) (next node) after) :
    Visits next noted [node] after := by
  obtain ⟨depth, hnext⟩ := hnext
  exact ⟨depth + 1, by rw [visitAll_singleton, visit, if_neg h]; exact hnext⟩

/-- Inside a finite set of nodes a walk needs no more depth than there are nodes
of it left to note. -/
theorem visitAll_of_card {region : Finset α} {depth : Nat}
    (hregion : ∀ node, Reach next noted roots node → node ∈ region)
    (hcard : (region.filter (· ∉ noted)).card ≤ depth) :
    ∃ after, visitAll next (depth + 1) noted roots = some after := by
  induction depth generalizing noted roots with
  | zero =>
      -- nothing is left, so every root is noted already
      have hnoted : ∀ node ∈ roots, node ∈ noted := by
        intro node hmem
        by_contra hnot
        have hin : node ∈ region.filter (· ∉ noted) :=
          Finset.mem_filter.mpr ⟨hregion node (.root hmem hnot), by simpa using hnot⟩
        rw [Finset.card_eq_zero.mp (Nat.le_zero.mp hcard)] at hin
        simp at hin
      refine ⟨noted, ?_⟩
      clear hregion
      induction roots with
      | nil => rfl
      | cons node rest ih =>
          rw [List.forall_mem_cons] at hnoted
          rw [visitAll, List.foldlM_cons, visit, if_pos hnoted.1]
          exact ih hnoted.2
  | succ depth ihd =>
      induction roots generalizing noted with
      | nil => exact ⟨noted, rfl⟩
      | cons node rest ih =>
          have hvisit : ∃ mid, visit next (depth + 2) noted node = some mid := by
            by_cases hmem : node ∈ noted
            · exact ⟨noted, by rw [visit, if_pos hmem]⟩
            · have hless : (region.filter (· ∉ node :: noted)).card
                  < (region.filter (· ∉ noted)).card := by
                refine Finset.card_lt_card (Finset.ssubset_iff_of_subset ?_ |>.mpr ?_)
                · intro n hn
                  simp only [Finset.mem_filter, List.mem_cons, not_or] at hn ⊢
                  exact ⟨hn.1, hn.2.2⟩
                · refine ⟨node, ?_, by simp⟩
                  simpa [hmem] using hregion node (.root List.mem_cons_self hmem)
              have hbelow : ∀ n, Reach next (node :: noted) (next node) n → n ∈ region :=
                fun n hn => hregion n (hn.of_below hmem)
              obtain ⟨mid, hmid⟩ := ihd hbelow (by omega)
              exact ⟨mid, by rw [visit, if_neg hmem]; exact hmid⟩
          obtain ⟨mid, hmid⟩ := hvisit
          have hexp : Explored next noted [node] mid :=
            explored_of_visitAll (visitAll_singleton.trans hmid)
          have hrest : ∀ n, Reach next mid rest n → n ∈ region := fun n hn =>
            hregion n ((hn.mono (fun _ hm => hexp.mem hm)
              fun _ hm hnot => .root hm fun hin => hnot (hexp.mem hin)).tail)
          have hless : (region.filter (· ∉ mid)).card ≤ (region.filter (· ∉ noted)).card := by
            refine Finset.card_le_card fun n hn => ?_
            rw [Finset.mem_filter] at hn ⊢
            exact ⟨hn.1, fun hin => hn.2 (hexp.mem hin)⟩
          obtain ⟨after, hafter⟩ := ih hrest (hless.trans hcard)
          refine ⟨after, ?_⟩
          rw [visitAll, List.foldlM_cons]
          exact Option.bind_eq_some_iff.mpr ⟨mid, hmid, hafter⟩

/-- A walk returns exactly if it can reach finitely many new nodes. -/
theorem visits_iff_finite :
    (∃ after, Visits next noted roots after)
      ↔ {node | Reach next noted roots node}.Finite := by
  constructor
  · rintro ⟨after, depth, h⟩
    exact (List.finite_toSet after).subset fun n hn => (explored_of_visitAll h).complete hn
  · intro h
    have hregion : ∀ node, Reach next noted roots node → node ∈ h.toFinset :=
      fun _ hn => by simpa using hn
    obtain ⟨after, hrun⟩ := visitAll_of_card hregion le_rfl
    exact ⟨after, _, hrun⟩

/-! ## Rounds -/

/-- Rounds of walks from the `again`-successors of everything noted, taken in
the order `arrange` gives, until a round notes nothing new. -/
def settle (next again : α → List α) (arrange : List α → List α) (depth : Nat) :
    Nat → List α → Option (List α)
  | 0, _ => none
  | rounds + 1, noted =>
      (visitAll next depth noted ((arrange noted).flatMap again)).bind fun after =>
        if noted.length < after.length then settle next again arrange depth rounds after
        else some after

end Walk

/-- What the rounds from `base` must note: `again`-successors of everything, and
`next`-successors of what was not there at the start. -/
inductive Settled (next again : α → List α) (base : List α) : α → Prop
  | base {node : α} : node ∈ base → Settled next again base node
  | again {node succ : α} : Settled next again base node → succ ∈ again node →
      Settled next again base succ
  | next {node succ : α} : Settled next again base node → node ∉ base →
      succ ∈ next node → Settled next again base succ

/-- Between two rounds: what was noted since the start has been followed. -/
structure Settling (next again : α → List α) (base noted : List α) : Prop where
  started : ∀ node ∈ base, node ∈ noted
  followed : ∀ node ∈ noted, node ∉ base → ∀ succ ∈ next node, succ ∈ noted
  settled : ∀ node ∈ noted, Settled next again base node

variable {again : α → List α} {base : List α}

theorem Settling.start : Settling next again base base :=
  ⟨fun _ h => h, fun _ h hnot => absurd h hnot, fun _ h => .base h⟩

theorem Settling.reach (h : Settling next again base noted)
    (hroots : ∀ node ∈ roots, Settled next again base node) {node : α}
    (hr : Reach next noted roots node) : Settled next again base node := by
  induction hr with
  | root hmem _ => exact hroots _ hmem
  | step hprev hmem _ ih => exact .next ih (fun hin => hprev.not_noted (h.started _ hin)) hmem

/-- A round keeps the invariant. -/
theorem Settling.round (h : Settling next again base noted)
    (hroots : ∀ node ∈ roots, Settled next again base node)
    (he : Explored next noted roots after) : Settling next again base after := by
  refine ⟨fun n hn => he.mem (h.started n hn), ?_, ?_⟩
  · intro n hin hnot succ hsucc
    by_cases hn : n ∈ noted
    · exact he.mem (h.followed n hn hnot succ hsucc)
    · exact he.followed n hin hn succ hsucc
  · intro n hin
    by_cases hn : n ∈ noted
    · exact h.settled n hn
    · exact h.reach hroots (he.reached n hin hn)

/-- Where a round notes nothing new, everything is noted. -/
theorem Settling.complete (h : Settling next again base noted)
    (hagain : ∀ node ∈ noted, ∀ succ ∈ again node, succ ∈ noted) {node : α}
    (hs : Settled next again base node) : node ∈ noted := by
  induction hs with
  | base hmem => exact h.started _ hmem
  | again _ hmem ih => exact hagain _ ih _ hmem
  | next _ hnot hmem ih => exact h.followed _ ih hnot _ hmem

variable {arrange : List α → List α}

theorem Settling.sources (harrange : ∀ l (node : α), node ∈ arrange l ↔ node ∈ l)
    (h : Settling next again base noted) :
    ∀ node ∈ (arrange noted).flatMap again, Settled next again base node := by
  intro node hnode
  obtain ⟨prev, hprev, hmem⟩ := List.mem_flatMap.mp hnode
  exact .again (h.settled prev ((harrange _ _).mp hprev)) hmem

section Rounds

variable [DecidableEq α]

theorem settle_mono {depth depth' rounds : Nat} (hd : depth ≤ depth')
    (h : settle next again arrange depth rounds noted = some after) :
    settle next again arrange depth' rounds noted = some after := by
  induction rounds generalizing noted with
  | zero => cases h
  | succ rounds ih =>
      rw [settle] at h ⊢
      obtain ⟨mid, hvisit, h⟩ := Option.bind_eq_some_iff.mp h
      rw [visitAll_mono hd hvisit, Option.bind_some]
      split at h
      · rw [if_pos ‹_›]
        exact ih h
      · rw [if_neg ‹_›]
        exact h

/-- The rounds come to an end with `after` at some depth. -/
def Settles (next again : α → List α) (arrange : List α → List α) (noted after : List α) :
    Prop :=
  ∃ depth rounds, settle next again arrange depth rounds noted = some after

theorem Settles.last (h : Visits next noted ((arrange noted).flatMap again) after)
    (hlen : ¬noted.length < after.length) : Settles next again arrange noted after := by
  obtain ⟨depth, h⟩ := h
  exact ⟨depth, 1, by rw [settle, h, Option.bind_some, if_neg hlen]⟩

theorem Settles.round {mid : List α}
    (h : Visits next noted ((arrange noted).flatMap again) mid)
    (hlen : noted.length < mid.length) (hrest : Settles next again arrange mid after) :
    Settles next again arrange noted after := by
  obtain ⟨depth, h⟩ := h
  obtain ⟨depth', rounds, hrest⟩ := hrest
  refine ⟨max depth depth', rounds + 1, ?_⟩
  rw [settle, visitAll_mono (Nat.le_max_left _ _) h, Option.bind_some, if_pos hlen]
  exact settle_mono (Nat.le_max_right _ _) hrest

/-- Rounds that come to an end have noted everything. -/
theorem settled_of_settle (harrange : ∀ l (node : α), node ∈ arrange l ↔ node ∈ l)
    {depth rounds : Nat} (h : Settling next again base noted)
    (hrun : settle next again arrange depth rounds noted = some after) {node : α}
    (hs : Settled next again base node) : node ∈ after := by
  induction rounds generalizing noted with
  | zero => cases hrun
  | succ rounds ih =>
      rw [settle] at hrun
      obtain ⟨mid, hvisit, hrun⟩ := Option.bind_eq_some_iff.mp hrun
      have he := explored_of_visitAll hvisit
      split at hrun
      · exact ih (h.round (h.sources harrange) he) hrun
      · obtain rfl := Option.some.inj hrun
        -- the list is no longer than before, so nothing was added
        obtain ⟨added, hadded, -⟩ := he.grows
        have hnil : added = [] := by
          have := congrArg List.length hadded
          rw [List.length_append] at this
          exact List.length_eq_zero_iff.mp (by omega)
        rw [hnil, List.nil_append] at hadded
        subst hadded
        exact h.complete (fun n hn succ hsucc => he.rooted succ
          (List.mem_flatMap.mpr ⟨n, (harrange _ _).mpr hn, hsucc⟩)) hs

theorem Settling.walk (harrange : ∀ l (node : α), node ∈ arrange l ↔ node ∈ l)
    {region : Finset α} (hregion : ∀ node, Settled next again base node → node ∈ region)
    (h : Settling next again base noted) :
    ∃ mid, visitAll next (region.card + 1) noted ((arrange noted).flatMap again) = some mid :=
  visitAll_of_card (fun node hn => hregion node (h.reach (h.sources harrange) hn))
    (Finset.card_le_card (Finset.filter_subset _ _))

/-- A round that lengthened the list noted something of the region. -/
theorem Explored.card_lt {region : Finset α} (he : Explored next noted roots after)
    (hregion : ∀ node ∈ after, node ∈ region) (hlen : noted.length < after.length) :
    (region.filter (· ∉ after)).card < (region.filter (· ∉ noted)).card := by
  obtain ⟨added, rfl, hnew⟩ := he.grows
  cases added with
  | nil => simp at hlen
  | cons node added =>
      refine Finset.card_lt_card (Finset.ssubset_iff_of_subset ?_ |>.mpr ⟨node, ?_, ?_⟩)
      · intro n hn
        rw [Finset.mem_filter] at hn ⊢
        exact ⟨hn.1, fun hin => hn.2 (List.mem_append_right _ hin)⟩
      · exact Finset.mem_filter.mpr ⟨hregion node (by simp), hnew node List.mem_cons_self⟩
      · simp

theorem settle_of_card (harrange : ∀ l (node : α), node ∈ arrange l ↔ node ∈ l)
    {region : Finset α} {rounds : Nat}
    (hregion : ∀ node, Settled next again base node → node ∈ region)
    (h : Settling next again base noted)
    (hcard : (region.filter (· ∉ noted)).card ≤ rounds) :
    ∃ after, settle next again arrange (region.card + 1) (rounds + 1) noted = some after := by
  induction rounds generalizing noted with
  | zero =>
      obtain ⟨mid, hmid⟩ := h.walk harrange hregion
      have he := explored_of_visitAll hmid
      have hin := (h.round (h.sources harrange) he).settled
      refine ⟨mid, ?_⟩
      rw [settle, hmid, Option.bind_some, if_neg]
      intro hlen
      have := he.card_lt (fun node hn => hregion node (hin node hn)) hlen
      omega
  | succ rounds ih =>
      obtain ⟨mid, hmid⟩ := h.walk harrange hregion
      have he := explored_of_visitAll hmid
      have hround := h.round (h.sources harrange) he
      rw [settle, hmid, Option.bind_some]
      split
      · rename_i hlen
        have := he.card_lt (fun node hn => hregion node (hround.settled node hn)) hlen
        exact ih hround (by omega)
      · exact ⟨mid, rfl⟩

/-- The rounds come to an end exactly if what they must note is finite. -/
theorem settles_iff_finite (harrange : ∀ l (node : α), node ∈ arrange l ↔ node ∈ l) :
    (∃ after, Settles next again arrange base after)
      ↔ {node | Settled next again base node}.Finite := by
  constructor
  · rintro ⟨after, depth, rounds, hrun⟩
    exact (List.finite_toSet after).subset fun n hn =>
      settled_of_settle harrange .start hrun hn
  · intro h
    have hregion : ∀ node, Settled next again base node → node ∈ h.toFinset :=
      fun _ hn => by simpa using hn
    obtain ⟨after, hrun⟩ := settle_of_card harrange hregion .start le_rfl
    exact ⟨after, _, _, hrun⟩

end Rounds

end Explore

end Absolute
