import Absolute.LibHeadcount
import Absolute.LibRuns

/-!
# Task groups

`absolute_task_group_add`, `absolute_task_group_cancel_and_join` and
`absolute_task_group_destroy` on one group. A step is one critical section of the
group's mutex, or the beginning or the end of the wait for one child. The sweep that
cancels the children and the step that closes the group and takes them are critical
sections of their own, and an add may come between them.

Every child that is handed over is in the group, with one caller, or joined, and
joined once. A child that was accepted behind the last sweep is waited for without
being cancelled.
-/

namespace Absolute

namespace TaskGroup

open Function Headcount Runs

inductive Call where
  | cancelAndJoin
  | destroy
deriving DecidableEq, Repr

/-- Where a caller stands, and the children it has taken. -/
inductive Place (χ : Type) where
  | outside
  /-- between the sweep and the step that closes the group -/
  | swept (call : Call)
  | joining (call : Call) (children : List χ)
  | waiting (call : Call) (child : χ) (children : List χ)
  /-- an add that found the group closed -/
  | rejecting (child : χ)
  | rejected (child : χ)
deriving DecidableEq

structure State (τ χ : Type) where
  children : List χ := []
  closed : Bool := false
  /-- the group is deleted -/
  deleted : Bool := false
  place : τ → Place χ := fun _ => .outside
  cancelRequested : χ → Bool := fun _ => false
  /-- the children that were handed to an add -/
  handed : χ → Bool := fun _ => false
  /-- how often a child was joined -/
  joins : χ → ℕ := fun _ => 0
  /-- the children that were accepted behind the last sweep -/
  late : List χ := []

inductive Event (τ χ : Type) where
  | add (t : τ) (child : χ)
  /-- `absolute_task_group_cancel`, the first part of a call -/
  | cancel (t : τ) (call : Call)
  /-- the critical section of `absolute_task_group_join` -/
  | close (t : τ)
  /-- the wait for the next child begins -/
  | wait (t : τ)
  /-- the child is done, and destroyed -/
  | join (t : τ)
  /-- the end of a call; `absolute_task_group_destroy` deletes the group -/
  | finish (t : τ)
  | cancelRejected (t : τ)
  | joinRejected (t : τ)

variable {τ χ : Type} [DecidableEq τ] [DecidableEq χ]

namespace State

def accept (s : State τ χ) (child : χ) : State τ χ :=
  { s with
    children := s.children ++ [child]
    handed := update s.handed child true
    late := s.late ++ [child] }

def reject (s : State τ χ) (t : τ) (child : χ) : State τ χ :=
  { s with
    handed := update s.handed child true
    place := update s.place t (.rejecting child) }

def sweep (s : State τ χ) (t : τ) (call : Call) : State τ χ :=
  { s with
    cancelRequested := fun child => s.cancelRequested child || s.children.contains child
    place := update s.place t (.swept call)
    late := [] }

def close (s : State τ χ) (t : τ) (call : Call) : State τ χ :=
  { s with
    closed := true
    children := []
    place := update s.place t (.joining call s.children) }

def join (s : State τ χ) (t : τ) (child : χ) (place : Place χ) : State τ χ :=
  { s with
    joins := update s.joins child (s.joins child + 1)
    place := update s.place t place }

def cancelRejected (s : State τ χ) (t : τ) (child : χ) : State τ χ :=
  { s with
    cancelRequested := update s.cancelRequested child true
    place := update s.place t (.rejected child) }

/-- A caller is in one call at a time, and a child handed over once. -/
def apply (s : State τ χ) : Event τ χ → Option (State τ χ)
  | .add t child =>
      if s.deleted = false ∧ s.place t = .outside ∧ s.handed child = false then
        some (if s.closed = false then s.accept child else s.reject t child)
      else none
  | .cancel t call =>
      if s.deleted = false ∧ s.place t = .outside then some (s.sweep t call) else none
  | .close t =>
      match s.place t with
      | .swept call => some (s.close t call)
      | _ => none
  | .wait t =>
      match s.place t with
      | .joining call (child :: children) =>
          some { s with place := update s.place t (.waiting call child children) }
      | _ => none
  | .join t =>
      match s.place t with
      | .waiting call child children => some (s.join t child (.joining call children))
      | _ => none
  | .finish t =>
      match s.place t with
      | .joining call [] => some { s with
          deleted := s.deleted || call = .destroy, place := update s.place t .outside }
      | _ => none
  | .cancelRejected t =>
      match s.place t with
      | .rejecting child => some (s.cancelRejected t child)
      | _ => none
  | .joinRejected t =>
      match s.place t with
      | .rejected child => some (s.join t child .outside)
      | _ => none

end State

/-- No one has to come back to a group that is deleted. -/
def Permitted (s : State τ χ) : Event τ χ → Prop
  | .finish t => s.place t = .joining .destroy [] → ∀ u call, s.place u ≠ .swept call
  | _ => True

def Step (s : State τ χ) (e : Event τ χ) (s' : State τ χ) : Prop :=
  Permitted s e ∧ s.apply e = some s'

/-- The children that a caller has taken and not joined. -/
def Place.holding : Place χ → List χ
  | .joining _ children => children
  | .waiting _ child children => child :: children
  | .rejecting child => [child]
  | .rejected child => [child]
  | _ => []

/-- A child that was handed over is in the group, with one caller or joined, and one of
these once; a closed group has no children. -/
structure Accounted (s : State τ χ) : Prop where
  ledger : ∀ child, ∃ held, Total (fun t => (s.place t).holding.count child) held
    ∧ s.children.count child + held + s.joins child = (s.handed child).toNat
  closed : s.closed = true → s.children = []

/-- A child that `cancel_and_join` comes to wait for was cancelled before. -/
def CancelledFirst (s : State τ χ) : Prop :=
  ∀ t call child children, s.place t = .joining call (child :: children) →
    s.cancelRequested child = true

/-- A group closes with no child that was accepted behind the last sweep. -/
def Swept (s : State τ χ) : Event τ χ → Prop
  | .close _ => s.late = []
  | _ => True

variable {s s' : State τ χ} {t : τ} {child : χ} {past : List (Event τ χ)} {e : Event τ χ}

/-! ## The children are accounted for -/

theorem Accounted.initial : Accounted ({} : State τ χ) where
  ledger child := ⟨0, .zero, rfl⟩
  closed h := by cases h

/-- What a caller holds changes by as much as is joined, handed over or taken. -/
theorem ledger_move {place : τ → Place χ} {x : Place χ} {children children' : List χ}
    {joins joins' total total' : ℕ}
    (h : ∃ held, Total (fun t => (place t).holding.count child) held
      ∧ children.count child + held + joins = total)
    (hsame : children'.count child + x.holding.count child + joins' + total
      = children.count child + (place t).holding.count child + joins + total') :
    ∃ held, Total (fun u => (update place t x u).holding.count child) held
      ∧ children'.count child + held + joins' = total' := by
  rcases h with ⟨held, htotal, heq⟩
  have hpart := htotal.le t
  refine ⟨held + x.holding.count child - (place t).holding.count child, ?_, by omega⟩
  exact Total.update (fun _ (x : Place χ) => x.holding.count child) htotal t x (by omega)

theorem Accounted.accept (h : Accounted s) (hnew : s.handed child = false)
    (hopen : s.closed = false) : Accounted (s.accept child) where
  ledger other := by
    rcases h.ledger other with ⟨held, htotal, heq⟩
    refine ⟨held, htotal, ?_⟩
    unfold State.accept
    dsimp only
    rw [List.count_append]
    by_cases hother : other = child
    · subst hother
      rw [hnew, Bool.toNat_false] at heq
      rw [update_self, List.count_singleton_self, Bool.toNat_true]
      omega
    · rw [update_of_ne hother, ← heq, List.count_singleton, if_neg (by simp [Ne.symm hother]),
        Nat.add_zero]
  closed hclosed := by
    rw [State.accept, hopen] at hclosed
    cases hclosed

theorem Accounted.reject (h : Accounted s) (hnew : s.handed child = false)
    (ht : s.place t = .outside) : Accounted (s.reject t child) where
  ledger other := by
    refine ledger_move (h.ledger other) ?_
    rw [ht]
    by_cases hother : other = child
    · subst hother
      rw [hnew]
      simp only [State.reject, Place.holding, update_self, List.count_singleton_self,
        List.count_nil, Bool.toNat_false, Bool.toNat_true]
      omega
    · simp [State.reject, Place.holding, update_of_ne hother, Ne.symm hother]
  closed := h.closed

theorem Accounted.join {x : Place χ} (h : Accounted s)
    (ht : (s.place t).holding = child :: x.holding) : Accounted (s.join t child x) where
  ledger other := by
    refine ledger_move (h.ledger other) ?_
    rw [ht, List.count_cons]
    unfold State.join
    dsimp only
    by_cases hother : other = child
    · subst hother
      rw [update_self, beq_self_eq_true, if_pos rfl]
      omega
    · have hbeq : ¬(child == other) = true := by simp [Ne.symm hother]
      rw [update_of_ne hother, if_neg hbeq]
      omega
  closed := h.closed

/-- A caller goes on with what it holds. -/
theorem Accounted.goOn {x : Place χ} (h : Accounted s) (ht : (s.place t).holding = x.holding)
    (hplace : s'.place = update s.place t x) (hchildren : s'.children = s.children)
    (hclosed : s'.closed = s.closed) (hhanded : s'.handed = s.handed)
    (hjoins : s'.joins = s.joins) : Accounted s' where
  ledger other := by
    rw [hplace, hchildren, hhanded, hjoins]
    refine ledger_move (h.ledger other) ?_
    rw [ht]
  closed := by
    rw [hclosed, hchildren]
    exact h.closed

theorem Accounted.step (h : Accounted s) (hstep : Step s e s') : Accounted s' := by
  rcases hstep with ⟨-, hstep⟩
  cases e with
  | add t child =>
      dsimp only [State.apply] at hstep
      split at hstep <;> cases hstep
      rename_i hready
      split
      · rename_i hopen
        exact h.accept hready.2.2 hopen
      · exact h.reject hready.2.2 hready.2.1
  | cancel t call =>
      dsimp only [State.apply] at hstep
      split at hstep <;> cases hstep
      rename_i hready
      exact h.goOn (x := .swept call) (by rw [hready.2]; rfl) rfl rfl rfl rfl rfl
  | close t =>
      dsimp only [State.apply] at hstep
      split at hstep <;> cases hstep
      rename_i call ht
      refine ⟨fun other => ledger_move (h.ledger other) ?_, fun _ => rfl⟩
      rw [ht]
      simp only [State.close, Place.holding, List.count_nil]
      omega
  | wait t =>
      dsimp only [State.apply] at hstep
      split at hstep <;> cases hstep
      rename_i call child children ht
      exact h.goOn (x := .waiting call child children) (by rw [ht]; rfl) rfl rfl rfl rfl rfl
  | join t =>
      dsimp only [State.apply] at hstep
      split at hstep <;> cases hstep
      rename_i call child children ht
      exact h.join (by rw [ht]; rfl)
  | finish t =>
      dsimp only [State.apply] at hstep
      split at hstep <;> cases hstep
      rename_i call ht
      exact h.goOn (x := .outside) (by rw [ht]; rfl) rfl rfl rfl rfl rfl
  | cancelRejected t =>
      dsimp only [State.apply] at hstep
      split at hstep <;> cases hstep
      rename_i child ht
      exact h.goOn (x := .rejected child) (by rw [ht]; rfl) rfl rfl rfl rfl rfl
  | joinRejected t =>
      dsimp only [State.apply] at hstep
      split at hstep <;> cases hstep
      rename_i child ht
      exact h.join (by rw [ht]; rfl)

/-! ## The children are cancelled before they are waited for -/

/-- What was taken was cancelled, and what is in the group was, or came behind the last
sweep. -/
structure Marked (s : State τ χ) : Prop where
  taken : ∀ t call children, s.place t = .joining call children →
    ∀ child ∈ children, s.cancelRequested child = true
  waiting : ∀ t call child children, s.place t = .waiting call child children →
    ∀ other ∈ children, s.cancelRequested other = true
  present : ∀ child ∈ s.children, s.cancelRequested child = true ∨ child ∈ s.late

omit [DecidableEq τ] [DecidableEq χ] in
theorem Marked.initial : Marked ({} : State τ χ) where
  taken _ _ _ h := by cases h
  waiting _ _ _ _ h := by cases h
  present _ h := by cases h

omit [DecidableEq χ] in
/-- A caller moves, no request is withdrawn, and no child is new but a late one. -/
theorem Marked.move {x : Place χ} (h : Marked s) (hplace : s'.place = update s.place t x)
    (hjoining : ∀ call children, x = .joining call children →
      ∀ child ∈ children, s'.cancelRequested child = true)
    (hwaiting : ∀ call child children, x = .waiting call child children →
      ∀ other ∈ children, s'.cancelRequested other = true)
    (hrequested : ∀ child, s.cancelRequested child = true → s'.cancelRequested child = true)
    (hpresent : ∀ child ∈ s'.children, s'.cancelRequested child = true ∨ child ∈ s'.late) :
    Marked s' where
  taken u call children hu child hmem := by
    rw [hplace] at hu
    by_cases hut : u = t
    · subst hut
      rw [update_self] at hu
      exact hjoining call children hu child hmem
    · rw [update_of_ne hut] at hu
      exact hrequested child (h.taken u call children hu child hmem)
  waiting u call child children hu other hmem := by
    rw [hplace] at hu
    by_cases hut : u = t
    · subst hut
      rw [update_self] at hu
      exact hwaiting call child children hu other hmem
    · rw [update_of_ne hut] at hu
      exact hrequested other (h.waiting u call child children hu other hmem)
  present := hpresent

theorem Marked.step (h : Marked s) (hswept : Swept s e) (hstep : Step s e s') : Marked s' := by
  rcases hstep with ⟨-, hstep⟩
  cases e with
  | add t child =>
      dsimp only [State.apply] at hstep
      split at hstep <;> cases hstep
      split
      · refine ⟨h.taken, h.waiting, fun other hmem => ?_⟩
        rcases List.mem_append.mp hmem with hmem | hmem
        · exact (h.present other hmem).imp_right (List.mem_append_left _)
        · exact .inr (List.mem_append_right _ hmem)
      · exact h.move (x := .rejecting child) rfl (by simp) (by simp) (fun _ => id) h.present
  | cancel t call =>
      dsimp only [State.apply] at hstep
      split at hstep <;> cases hstep
      refine h.move (x := .swept call) rfl (by simp) (by simp) (fun child hchild => ?_)
        fun child hmem => .inl ?_
      · simp [State.sweep, hchild]
      · have hchild : child ∈ s.children := hmem
        simp [State.sweep, hchild]
  | close t =>
      dsimp only [State.apply] at hstep
      split at hstep <;> cases hstep
      rename_i call ht
      have hlate : s.late = [] := hswept
      refine h.move (x := .joining call s.children) rfl ?_ (by simp) (fun _ => id)
        fun _ hmem => by cases hmem
      rintro _ _ heq child hmem
      cases heq
      refine (h.present child hmem).resolve_right fun hchild => ?_
      rw [hlate] at hchild
      cases hchild
  | wait t =>
      dsimp only [State.apply] at hstep
      split at hstep <;> cases hstep
      rename_i call child children ht
      refine h.move (x := .waiting call child children) rfl (by simp) ?_ (fun _ => id) h.present
      rintro _ _ _ heq other hmem
      cases heq
      exact h.taken t call _ ht other (List.mem_cons_of_mem _ hmem)
  | join t =>
      dsimp only [State.apply] at hstep
      split at hstep <;> cases hstep
      rename_i call child children ht
      refine h.move (x := .joining call children) rfl ?_ (by simp) (fun _ => id) h.present
      rintro _ _ heq other hmem
      cases heq
      exact h.waiting t call child _ ht other hmem
  | finish t =>
      dsimp only [State.apply] at hstep
      split at hstep <;> cases hstep
      exact h.move (x := .outside) rfl (by simp) (by simp) (fun _ => id) h.present
  | cancelRejected t =>
      dsimp only [State.apply] at hstep
      split at hstep <;> cases hstep
      rename_i child ht
      have hrequested : ∀ other, s.cancelRequested other = true →
          (s.cancelRejected t child).cancelRequested other = true := by
        intro other hother
        change update s.cancelRequested child true other = true
        by_cases heq : other = child
        · rw [heq, update_self]
        · rw [update_of_ne heq, hother]
      exact h.move (x := .rejected child) rfl (by simp) (by simp) hrequested fun other hmem =>
        (h.present other hmem).imp_left (hrequested other)
  | joinRejected t =>
      dsimp only [State.apply] at hstep
      split at hstep <;> cases hstep
      exact h.move (x := .outside) rfl (by simp) (by simp) (fun _ => id) h.present

/-! ## Every run -/

theorem Accounted.run (h : Run Step ({} : State τ χ) past s) : Accounted s :=
  h.stateInvariant .initial fun _ _ _ hI hstep => hI.step hstep

theorem Marked.run (h : RunUnder Step Swept ({} : State τ χ) past s) : Marked s :=
  h.invariant (P := fun _ s => Marked s) .initial fun _ _ _ _ _ hI hswept hstep =>
    hI.step hswept hstep

theorem Accounted.joins_le_one (h : Accounted s) (child : χ) : s.joins child ≤ 1 := by
  rcases h.ledger child with ⟨held, -, heq⟩
  have := (s.handed child).toNat_le
  omega

/-- Where every call is over and the group is closed, each child was joined. -/
theorem Accounted.joins_eq_one (h : Accounted s) (hover : ∀ t, s.place t = .outside)
    (hclosed : s.closed = true) (hhanded : s.handed child = true) : s.joins child = 1 := by
  rcases h.ledger child with ⟨held, htotal, heq⟩
  have hheld : held = 0 :=
    htotal.unique (Total.zero.congr fun t => by rw [hover t]; rfl)
  rw [hhanded, h.closed hclosed, hheld] at heq
  simpa using heq

theorem closed_step (hclosed : s.closed = true) (hstep : Step s e s') : s'.closed = true := by
  rcases hstep with ⟨-, hstep⟩
  cases e with
  | add t child =>
      dsimp only [State.apply] at hstep
      split at hstep <;> cases hstep
      split <;> exact hclosed
  | close t =>
      dsimp only [State.apply] at hstep
      split at hstep <;> cases hstep
      rfl
  | cancel t _ | wait t | join t | finish t | cancelRejected t | joinRejected t =>
      dsimp only [State.apply] at hstep
      split at hstep <;> cases hstep
      exact hclosed

/-- A child is joined once at most, and was joined where a closed group is left alone; a
group that is closed stays so and takes no child. -/
structure JoinsOnce (s : State τ χ) : Prop extends Accounted s where
  once : ∀ child, s.joins child ≤ 1
  all : (∀ t, s.place t = .outside) → s.closed = true →
    ∀ child, s.handed child = true → s.joins child = 1
  stays : s.closed = true → ∀ e s', Step s e s' → s'.closed = true ∧ s'.children = []

theorem Accounted.joinsOnce (h : Accounted s) : JoinsOnce s where
  toAccounted := h
  once := h.joins_le_one
  all hover hclosed _ hhanded := h.joins_eq_one hover hclosed hhanded
  stays hclosed _ _ hstep :=
    have hclosed' := closed_step hclosed hstep
    ⟨hclosed', (h.step hstep).closed hclosed'⟩

/-- In every run each child is joined once. Where no group closes with a child that came
behind the last sweep, each was cancelled before it is waited for. -/
theorem task_group_joins (h : Run Step ({} : State τ χ) past s) :
    JoinsOnce s ∧ (RunUnder Step Swept ({} : State τ χ) past s → CancelledFirst s) :=
  ⟨(Accounted.run h).joinsOnce, fun hunder t call child _ ht =>
    (Marked.run hunder).taken t call _ ht child List.mem_cons_self⟩

/-- A child is added, and the group swept and closed. -/
theorem task_group_joins_one : ∃ s : State Bool Bool, s.place true = .joining .destroy [true]
    ∧ JoinsOnce s ∧ CancelledFirst s := by
  have hunder : RunUnder Step Swept ({} : State Bool Bool)
      [.close true, .cancel true .destroy, .add false true] _ :=
    .cons (.cons (.cons .nil trivial ⟨trivial, rfl⟩) trivial ⟨trivial, rfl⟩) rfl ⟨trivial, rfl⟩
  have hjoins := task_group_joins hunder.run
  exact ⟨_, rfl, hjoins.1, hjoins.2 hunder⟩

/-- A child is added between the sweep and the step that closes the group. -/
theorem late_child_not_cancelled : ∃ s : State Bool Bool,
    Run Step {} [.close true, .add false true, .cancel true .cancelAndJoin] s
      ∧ s.place true = .joining .cancelAndJoin [true] ∧ s.cancelRequested true = false
      ∧ ¬CancelledFirst s := by
  refine ⟨_, .cons (.cons (.cons .nil ⟨trivial, rfl⟩) ⟨trivial, rfl⟩) ⟨trivial, rfl⟩, rfl, rfl, ?_⟩
  intro h
  cases h true .cancelAndJoin true [] rfl

end TaskGroup

end Absolute
