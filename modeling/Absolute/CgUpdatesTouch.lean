import Mathlib.Data.List.Infix
import Absolute.CgUpdates

/-!
# Updates touch the place they name

`update_touches_place_iff`: on every operand the analyzer accepts, an update acts on
the place of the assignment and on nothing else exactly when the operand is `Sound` for
it. A compound assignment to an address always is. `++` and `--` are right on a
variable alone, and `delete` of a managed pointer depends on what is recorded of the
variable its operand starts from. On accessors all depends on the receiver.
-/

namespace Absolute

namespace Places

open Paired

variable {C : Context}

/-! ## What reaching a place leaves alone -/

theorem EffectAgain.place_eq_none {t u : List Effect} {x y : Effect}
    (h : EffectAgain C t u x y) : x.place = none ∧ y.place = none := by
  cases h <;> exact ⟨rfl, rfl⟩

theorem forall_place_eq_none {t u xs ys : List Effect}
    (h : List.Forall₂ (EffectAgain C t u) xs ys) :
    (∀ x ∈ xs, x.place = none) ∧ ∀ y ∈ ys, y.place = none := by
  induction h with
  | nil => simp
  | cons hxy _ ih =>
      exact ⟨List.forall_mem_cons.mpr ⟨hxy.place_eq_none.1, ih.1⟩,
        List.forall_mem_cons.mpr ⟨hxy.place_eq_none.2, ih.2⟩⟩

/-- An emission that acts on no place itself. -/
def Quiet {α : Type} (m : Emission α) : Prop :=
  ∀ ⦃t a s⦄, m t = .ok (a, s) → ∃ xs, s = t ++ xs ∧ ∀ x ∈ xs, x.place = none

theorem Quiet.pure {α : Type} (a : α) : Quiet (pure a : Emission α) := by
  intro t b s h
  cases h
  exact ⟨[], (List.append_nil t).symm, fun _ hx => by cases hx⟩

theorem Quiet.bind {α β : Type} {m : Emission α} {f : α → Emission β} (hm : Quiet m)
    (hf : ∀ a, Quiet (f a)) : Quiet (m >>= f) := by
  intro t b s h
  obtain ⟨a, r, hma, hfb⟩ := run_bind_eq_ok.mp h
  obtain ⟨xs, rfl, hxs⟩ := hm hma
  obtain ⟨ys, rfl, hys⟩ := hf a hfb
  exact ⟨xs ++ ys, List.append_assoc .., List.forall_mem_append.mpr ⟨hxs, hys⟩⟩

theorem quiet_of_inPace {α : Type} {R : List Effect → List Effect → α → α → Prop}
    {m : Emission α}
    (h : ∀ t u : List Effect, t.length < u.length → InPace (Since C t u) (R t u) m m) :
    Quiet m := by
  intro t a s hm
  have hlt : t.length < (t ++ [Effect.call 0]).length := by simp
  obtain ⟨-, -, -, -, xs, ys, rfl, -, hall⟩ := (h t _ hlt).of_ok .start hm
  exact ⟨xs, rfl, (forall_place_eq_none hall).1⟩

theorem visit_quiet (mode : Bool) (e : Operand) : Quiet (visit C mode e) :=
  quiet_of_inPace fun _ _ hlt => visit_repeats hlt mode e

theorem accessorReceiver_repeats {t u : List Effect} (hlt : t.length < u.length) (e : Operand) :
    Repeats C t u (accessorReceiver C e) (accessorReceiver C e) := by
  unfold accessorReceiver
  split
  · exact objectPointer_repeats hlt (visit_repeats hlt false _) (visit_repeats hlt true _)
  · exact fail_inPace _
  · exact objectPointer_repeats hlt (visit_repeats hlt false _) (visit_repeats hlt true _)
  · exact implicitReceiver_repeats

theorem accessorArguments_quiet (e : Operand) : Quiet (accessorArguments C e) := by
  unfold accessorArguments
  split
  · exact quiet_of_inPace fun _ _ hlt => visitIndexes_inPace hlt .nil _
  · exact .pure _

theorem evaluateAssigned_quiet (u : Update) : Quiet (evaluateAssigned u) := by
  unfold evaluateAssigned
  split
  · intro t a s h
    cases h
    exact ⟨_, rfl, by simp [Effect.place]⟩
  · exact .pure _

theorem beforeReceiver_quiet (u : Update) (e : Operand) : Quiet (beforeReceiver C u e) :=
  (accessorArguments_quiet e).bind fun _ => (evaluateAssigned_quiet u).bind fun _ => .pure _

/-! ## Bounds checks -/

theorem boundsChecks_append (xs ys : List Effect) :
    boundsChecks C (xs ++ ys) = boundsChecks C xs ++ boundsChecks C ys :=
  List.filterMap_append ..

theorem Effect.bounds_eq_none {x : Effect} (h : x.place ≠ none) : x.bounds C = none := by
  cases x <;> first | rfl | exact absurd rfl h

theorem constant?_again {t u : List Effect} {v w : Value} (h : Again C t u v w) :
    constant? C w = constant? C v := by
  induction h with
  | unary op _ ih => rw [constant?, constant?, ih]
  | binary op _ _ ihl ihr => rw [constant?, constant?, ihl, ihr]
  | _ => rfl

theorem isFolded_again {t u : List Effect} {a b i j : Value} (h : Again C t u a b)
    (hd : Again C t u i j) : isFolded C b j = isFolded C a i := by
  rw [isFolded, isFolded, constant?_again h, constant?_again hd]

/-- The checks of two evaluations, one by one. -/
def ChecksAgain (C : Context) (t u : List Effect) (c d : Value × Value) : Prop :=
  Again C t u c.1 d.1 ∧ Again C t u c.2 d.2

theorem boundsChecks_again {t u xs ys : List Effect}
    (h : List.Forall₂ (EffectAgain C t u) xs ys) :
    List.Forall₂ (ChecksAgain C t u) (boundsChecks C xs) (boundsChecks C ys) := by
  induction h with
  | nil => exact .nil
  | cons hxy _ ih =>
      unfold boundsChecks at ih ⊢
      cases hxy with
      | @check a b i j hi hd =>
          simp only [List.filterMap_cons, Effect.bounds, isFolded_again hi hd]
          cases isFolded C a i with
          | true => exact ih
          | false => exact .cons ⟨hi, hd⟩ ih
      | managedGet | spill | call | get => exact ih

/-- What the second evaluation checks is what the first does, when that is settled. -/
theorem checks_eq_iff {t u : List Effect} {cs ds : List (Value × Value)}
    (h : List.Forall₂ (ChecksAgain C t u) cs ds) :
    ds = cs ↔ ∀ c ∈ cs, (c.1.Settled fun a => version C u a = version C t a) ∧
      c.2.Settled fun a => version C u a = version C t a := by
  induction h with
  | nil => simp
  | cons hc _ ih =>
      rw [List.cons.injEq, List.forall_mem_cons, ih, Prod.ext_iff, hc.1.eq_iff, hc.2.eq_iff]

/-! ## Places -/

theorem Place.Same.refl (p : Place) : p.Same C p := by
  cases p <;> rfl

/-- Of a variable the target and the records lie in one place. -/
theorem allowed_variable {e : Operand} {v : Variable} {target : Place}
    (h : C.findVariable (identifierName e) = some v) :
    Allowed C e target v.place ↔ v.place.Same C target := by
  constructor
  · rintro (hsame | ⟨w, hw, hsame, -⟩)
    · exact hsame
    · cases h.symm.trans hw
      exact hsame
  · exact .inl

theorem allowed_record {e : Operand} {v : Variable} {target p : Place}
    (h : C.findVariable (identifierName e) = some v) (hp : p ∈ v.records) :
    Allowed C e target p ↔ v.place.Same C target ∨ p.Same C target := by
  constructor
  · rintro (hsame | ⟨w, hw, hsame, -⟩)
    · exact .inr hsame
    · cases h.symm.trans hw
      exact .inl hsame
  · rintro (hsame | hsame)
    · exact .inr ⟨v, h, hsame, hp⟩
    · exact .inl hsame

theorem allowed_member {e : Operand} {name : TypeName} {object object' : Value}
    {arguments : List Value} :
    Allowed C e (.member name object arguments) (.member name object' arguments) ↔
      object' = object := by
  constructor
  · rintro (hsame | ⟨v, -, -, hp⟩)
    · change Place.member _ _ _ = Place.member _ _ _ at hsame
      exact (Place.member.inj hsame).2.1
    · rw [Variable.records, List.mem_map] at hp
      obtain ⟨_, -, h⟩ := hp
      cases h
  · rintro rfl
    exact .inl rfl

/-! ## Addresses -/

section

variable {u : Update} {e : Operand} {target : Place} {path : List Effect}

/-- The target of an assignment to an address: the address, with what reaches it and
what is assigned. -/
theorem assignmentTarget_address (hacc : isAccessor C e = false)
    (h : assignmentTarget C u e [] = .ok (target, path)) :
    ∃ a reached, visit C true e [] = .ok (a, reached) ∧ target = .address a ∧
      ∃ value, evaluateAssigned u reached = .ok (value, path) := by
  rw [assignmentTarget, if_neg (by simp [hacc])] at h
  obtain ⟨a, reached, hvisit, h⟩ := run_bind_eq_ok.mp h
  obtain ⟨value, path', hassigned, h⟩ := run_bind_eq_ok.mp h
  cases h
  exact ⟨a, reached, hvisit, rfl, value, hassigned⟩

theorem readAddress_eq (a : Value) (s : List Effect) :
    readAddress C a s =
      .ok (.load a (version C (s ++ [.read (.address a)]) a), s ++ [.read (.address a)]) := rfl

theorem addressOf_eq_ok {v : Variable} {s t : List Effect}
    (h : addressOf C e s = .ok (v, t)) :
    identifierName e ≠ [] ∧ C.findVariable (identifierName e) = some v ∧ t = s := by
  unfold addressOf at h
  split at h
  · cases h
  · rename_i hname
    cases hw : C.findVariable (identifierName e) with
    | none =>
        rw [hw] at h
        cases h
    | some w =>
        rw [hw] at h
        cases h
        exact ⟨hname, rfl, rfl⟩

theorem addressOf_eq {v : Variable} (hname : identifierName e ≠ [])
    (h : C.findVariable (identifierName e) = some v) (s : List Effect) :
    addressOf C e s = .ok (v, s) := by
  rw [addressOf, if_neg hname, h]
  rfl

theorem stepValue_eq_ok {numeric : Bool} {current updated : Value} {s t : List Effect}
    (h : stepValue C u e numeric current s = .ok (updated, t)) :
    t = s ∧ (isRawPointerType (C.type e) = false → numeric = true) := by
  unfold stepValue at h
  split at h
  · rename_i hraw
    cases h
    exact ⟨rfl, fun h => by rw [hraw] at h; cases h⟩
  · split at h
    · rename_i hnumeric
      cases h
      exact ⟨rfl, fun _ => hnumeric⟩
    · cases h

theorem stepValue_runs {numeric : Bool} (current : Value)
    (h : isRawPointerType (C.type e) = false → numeric = true) (s : List Effect) :
    ∃ updated, stepValue C u e numeric current s = .ok (updated, s) := by
  unfold stepValue
  split
  · exact ⟨_, rfl⟩
  · rename_i hraw
    rw [h (by simpa using hraw)]
    exact ⟨_, rfl⟩

/-- `++` and `--` read and write the variable named last. -/
theorem stepVariable_eq_ok {values : Value × Value} {trace : List Effect}
    (h : stepVariable C u e [] = .ok (values, trace)) :
    identifierName e ≠ [] ∧ ∃ v updated, C.findVariable (identifierName e) = some v ∧
      (isRawPointerType (C.type e) = false → v.numeric = true) ∧
      trace = [.read v.place, .write v.place updated] := by
  obtain ⟨v, s, hv, h⟩ := run_bind_eq_ok.mp h
  obtain ⟨hname, hfind, rfl⟩ := addressOf_eq_ok hv
  obtain ⟨current, s, hread, h⟩ := run_bind_eq_ok.mp h
  rw [readAddress_eq] at hread
  cases hread
  obtain ⟨updated, s, hstep, h⟩ := run_bind_eq_ok.mp h
  obtain ⟨rfl, hnumeric⟩ := stepValue_eq_ok hstep
  cases h
  exact ⟨hname, v, updated, hfind, hnumeric, rfl⟩

theorem stepVariable_runs {v : Variable} (hname : identifierName e ≠ [])
    (hv : C.findVariable (identifierName e) = some v)
    (hnumeric : isRawPointerType (C.type e) = false → v.numeric = true) :
    ∃ values updated, stepVariable C u e [] =
      .ok (values, [.read v.place, .write v.place updated]) := by
  obtain ⟨updated, hstep⟩ := stepValue_runs (u := u)
    (.load (.given v.address) (version C [.read v.place] (.given v.address))) hnumeric
    [.read v.place]
  refine ⟨_, updated, run_bind_eq_ok.mpr ⟨v, [], addressOf_eq hname hv [], run_bind_eq_ok.mpr
    ⟨_, _, readAddress_eq _ _, run_bind_eq_ok.mpr ⟨updated, _, hstep, rfl⟩⟩⟩⟩

theorem boundsChecks_eq_nil {xs : List Effect} (h : ∀ x ∈ xs, x.place ≠ none) :
    boundsChecks C xs = [] :=
  List.filterMap_eq_nil_iff.mpr fun x hx => Effect.bounds_eq_none (h x hx)

/-- `++` and `--` are right on the variable they step and on nothing else. -/
theorem step_touches_iff :
    (∃ values trace, stepVariable C u e [] = .ok (values, trace) ∧
      Touches C e target path trace) ↔ IsVariable C e target path := by
  constructor
  · rintro ⟨values, trace, hrun, htouch⟩
    obtain ⟨hname, v, updated, hfind, hnumeric, rfl⟩ := stepVariable_eq_ok hrun
    have hsame := (allowed_variable hfind).mp
      (htouch.only (.read v.place) (List.mem_cons_self ..) v.place rfl)
    obtain ⟨again, -, hchecks⟩ := htouch.checks
    have hnone : boundsChecks C path ++ again = [] := hchecks.symm.trans
      (boundsChecks_eq_nil (by simp [Effect.place]))
    exact ⟨hname, v, hfind, hsame, (List.append_eq_nil_iff.mp hnone).1, hnumeric⟩
  · rintro ⟨hname, v, hfind, hsame, hchecks, hnumeric⟩
    obtain ⟨values, updated, hrun⟩ := stepVariable_runs (u := u) hname hfind hnumeric
    refine ⟨values, _, hrun, ?_, ?_, ?_, ?_⟩
    · intro x hx p hp
      have hplace : p = v.place := by
        rcases List.mem_pair.mp hx with rfl | rfl
        · exact (Option.some.inj hp).symm
        · exact (Option.some.inj hp).symm
      exact hplace ▸ (allowed_variable hfind).mpr hsame
    · exact ⟨v.place, by simp, hsame⟩
    · exact ⟨v.place, updated, by simp, hsame⟩
    · refine ⟨[], List.nil_suffix, ?_⟩
      rw [hchecks]
      exact boundsChecks_eq_nil (by simp [Effect.place])

theorem canonicalOwnership_of_isNumeric {type : TypeName} (h : isNumeric type = true) :
    canonicalOwnership type = .None := by
  have hall : ∀ name ∈ "float".toList :: "double".toList :: "char".toList :: integerTypeNames,
      canonicalOwnership name = .None := by decide
  refine hall type ?_
  rw [isNumeric, decide_eq_true_eq, isIntegerTypeName, List.contains_iff_mem] at h
  rcases h with rfl | rfl | h | rfl
  · exact List.mem_cons_self ..
  · exact List.mem_cons_of_mem _ (List.mem_cons_self ..)
  · exact List.mem_cons_of_mem _ (List.mem_cons_of_mem _ (List.mem_cons_of_mem _ h))
  · exact List.mem_cons_of_mem _ (List.mem_cons_of_mem _ (List.mem_cons_self ..))

/-- A type a compound assignment is accepted on is no managed pointer. -/
theorem accepts_assignment_type {op : String} {assigned : Assigned}
    (h : accepts C e (.assignment op assigned) = true) :
    isManagedPointerType (C.type e) = false := by
  rw [accepts, decide_eq_true_eq] at h
  obtain ⟨-, -, h⟩ := h
  split at h
  · rename_i hraw
    rw [isRawPointerType, decide_eq_true_eq] at hraw
    simp [isManagedPointerType, hraw]
  · rw [isManagedPointerType, canonicalOwnership_of_isNumeric h]
    rfl

/-- What an update does once its target is reached by effects on no place. -/
theorem touches_of_append {a value : Value} {own : List Effect}
    (hpath : ∀ x ∈ path, x.place = none) (hown : ∀ x ∈ own, x.place ≠ none)
    (honly : ∀ x ∈ own, ∀ p ∈ x.place, Allowed C e (.address a) p)
    (hread : .read (.address a) ∈ own) (hwrite : .write (.address a) value ∈ own) :
    Touches C e (.address a) path (path ++ own) := by
  refine ⟨?_, ⟨_, List.mem_append_right _ hread, .refl _⟩,
    ⟨_, value, List.mem_append_right _ hwrite, .refl _⟩, [], List.nil_suffix, ?_⟩
  · intro x hx p hp
    rcases List.mem_append.mp hx with hx | hx
    · rw [hpath x hx] at hp
      cases hp
    · exact honly x hx p hp
  · rw [boundsChecks_append, boundsChecks_eq_nil hown]

theorem assignAddress_eq {op : String} {assigned : Assigned}
    (htype : isManagedPointerType (C.type e) = false) {a : Value} {reached : List Effect}
    (hvisit : visit C true e [] = .ok (a, reached)) :
    ∃ values updated, assignAddress C op assigned e [] = .ok (values,
      reached ++ [.call assigned.number] ++ [.read (.address a)] ++
        [.write (.address a) updated]) := by
  have howner (s : List Effect) : replaceOwner C e assigned s = .ok ((), s) := by
    rw [replaceOwner, if_neg (by simp [htype])]
    rfl
  unfold assignAddress
  rw [run_bind_of_ok _ hvisit, run_bind_of_ok _ rfl, run_bind_of_ok _ (readAddress_eq ..),
    run_bind_of_ok _ (howner _), run_bind_of_ok _ rfl]
  exact ⟨_, _, rfl⟩

/-- A compound assignment acts on the address it assigns to. -/
theorem assignAddress_touches {assigned : Assigned} (op : String)
    (htype : isManagedPointerType (C.type e) = false) {a : Value} {reached : List Effect}
    (hvisit : visit C true e [] = .ok (a, reached)) :
    ∃ values trace, assignAddress C op assigned e [] = .ok (values, trace) ∧
      Touches C e (.address a) (reached ++ [.call assigned.number]) trace := by
  obtain ⟨values, updated, hrun⟩ := assignAddress_eq htype hvisit
  rw [List.append_assoc (_ ++ _), List.singleton_append] at hrun
  obtain ⟨xs, hxs, hquiet⟩ := visit_quiet true e hvisit
  obtain rfl : reached = xs := hxs
  refine ⟨values, _, hrun, touches_of_append ?_ ?_ ?_ (List.mem_cons_self ..)
    (List.mem_cons_of_mem _ (List.mem_singleton_self _))⟩
  · exact List.forall_mem_append.mpr ⟨hquiet, by simp [Effect.place]⟩
  · simp [Effect.place]
  · intro x hx p hp
    have hplace : p = .address a := by
      rcases List.mem_pair.mp hx with rfl | rfl
      · exact (Option.some.inj hp).symm
      · exact (Option.some.inj hp).symm
    exact hplace ▸ .inl (.refl _)

/-- What `delete` does to the ownership flag of a variable. -/
def Variable.spoilFlag (v : Variable) : List Effect :=
  match v.ownershipFlagStorage with
  | some flag => [.requireOwner (.given flag), .write (.address (.given flag)) (.constant 0)]
  | none => []

/-- What it does to the cached pointee. -/
def Variable.spoilPointee (v : Variable) : List Effect :=
  match v.managedPointee with
  | some slot => [.write (.address (.given slot)) (.constant 0)]
  | none => []

theorem deleteFlag_eq (v : Variable) (s : List Effect) :
    deleteFlag v s = .ok ((), s ++ v.spoilFlag) := by
  unfold deleteFlag Variable.spoilFlag
  cases v.ownershipFlagStorage with
  | none =>
      rw [List.append_nil]
      rfl
  | some flag =>
      rw [List.append_cons]
      exact run_bind_of_ok _ rfl

theorem deletePointee_eq (v : Variable) (s : List Effect) :
    deletePointee v s = .ok ((), s ++ v.spoilPointee) := by
  unfold deletePointee Variable.spoilPointee
  cases v.managedPointee with
  | none =>
      rw [List.append_nil]
      rfl
  | some slot => rfl

theorem deleteVariable_eq {v : Variable} (htype : isManagedPointerType (C.type e) = true)
    (hname : identifierName e ≠ []) (hv : C.findVariable (identifierName e) = some v)
    (s : List Effect) :
    deleteVariable C e s = .ok ((), s ++ (v.spoilFlag ++ v.spoilPointee)) := by
  rw [deleteVariable, if_neg (by simp [htype, hname]), hv]
  change (deleteFlag v >>= fun _ => deletePointee v) s = _
  rw [run_bind_of_ok _ (deleteFlag_eq v s), deletePointee_eq, List.append_assoc]

theorem spoil_place {v : Variable} {p : Place} :
    (∃ x ∈ v.spoilFlag ++ v.spoilPointee, p ∈ x.place) ↔ p ∈ v.records := by
  unfold Variable.spoilFlag Variable.spoilPointee Variable.records
  cases v.ownershipFlagStorage <;> cases v.managedPointee <;>
    simp [Effect.place, eq_comm]

theorem spoil_place_ne_none {v : Variable} :
    ∀ x ∈ v.spoilFlag ++ v.spoilPointee, x.place ≠ none := by
  unfold Variable.spoilFlag Variable.spoilPointee
  cases v.ownershipFlagStorage <;> cases v.managedPointee <;> simp [Effect.place]

/-- The effects of `delete` on a pointer, once it is reached. -/
def deleteEffects (a : Value) (own : List Effect) : List Effect :=
  .read (.address a) :: (own ++ [.release (.address a), .write (.address a) (.constant 0)])

theorem visitDestructorCall_eq {a : Value} {reached own : List Effect}
    (hvisit : visit C true e [] = .ok (a, reached))
    (hown : ∀ s, deleteVariable C e s = .ok ((), s ++ own)) :
    ∃ values, visitDestructorCall C e [] = .ok (values, reached ++ deleteEffects a own) := by
  have happend : reached ++ deleteEffects a own = reached ++ [.read (.address a)] ++ own ++
      [.release (.address a)] ++ [.write (.address a) (.constant 0)] := by
    simp [deleteEffects]
  unfold visitDestructorCall
  rw [run_bind_of_ok _ hvisit, run_bind_of_ok _ (readAddress_eq ..), run_bind_of_ok _ (hown _),
    run_bind_of_ok _ rfl, run_bind_of_ok _ rfl, happend]
  exact ⟨_, rfl⟩

/-- Of the effects of `delete`, those on the variable decide. -/
theorem deleteEffects_touches_iff {a : Value} {reached own : List Effect}
    (hreached : ∀ x ∈ reached, x.place = none) (hown : ∀ x ∈ own, x.place ≠ none) :
    Touches C e (.address a) reached (reached ++ deleteEffects a own) ↔
      ∀ x ∈ own, ∀ p ∈ x.place, Allowed C e (.address a) p := by
  constructor
  · intro h x hx
    refine h.only x (List.mem_append_right _ (List.mem_cons_of_mem _ ?_))
    exact List.mem_append_left _ hx
  · intro h
    refine touches_of_append hreached ?_ ?_ (List.mem_cons_self ..)
      (List.mem_cons_of_mem _ (List.mem_append_right _ (List.mem_cons_of_mem _
        (List.mem_singleton_self _))))
    · simpa [deleteEffects, Effect.place, or_imp, forall_and] using hown
    · intro x hx p hp
      rcases List.mem_cons.mp hx with rfl | hx
      · cases hp
        exact .inl (.refl _)
      rcases List.mem_append.mp hx with hx | hx
      · exact h x hx p hp
      rcases List.mem_pair.mp hx with rfl | rfl
      · cases hp
        exact .inl (.refl _)
      · cases hp
        exact .inl (.refl _)

/-- `delete` acts on the pointer it is given alone exactly when the records of the
variable named in it may be spoiled. -/
theorem delete_touches_iff {a : Value} {reached : List Effect}
    (hvisit : visit C true e [] = .ok (a, reached)) :
    (∃ values trace, visitDestructorCall C e [] = .ok (values, trace) ∧
      Touches C e (.address a) reached trace) ↔
    (isManagedPointerType (C.type e) = true → RecordsSafe C e (.address a)) := by
  obtain ⟨xs, hxs, hquiet⟩ := visit_quiet true e hvisit
  obtain rfl : reached = xs := hxs
  by_cases hskip : ¬isManagedPointerType (C.type e) = true ∨ identifierName e = []
  · have hown (s : List Effect) : deleteVariable C e s = .ok ((), s ++ []) := by
      rw [deleteVariable, if_pos hskip, List.append_nil]
      rfl
    obtain ⟨values, hrun⟩ := visitDestructorCall_eq hvisit hown
    refine iff_of_true ⟨values, _, hrun, (deleteEffects_touches_iff hquiet ?_).mpr ?_⟩ ?_
    · exact fun _ hx => by cases hx
    · exact fun _ hx => by cases hx
    · intro hmanaged hname
      exact absurd hskip (by simp [hmanaged, hname])
  rw [not_or, not_not] at hskip
  obtain ⟨hmanaged, hname⟩ := hskip
  cases hv : C.findVariable (identifierName e) with
  | none =>
      refine iff_of_false ?_ ?_
      · rintro ⟨values, trace, hrun, -⟩
        unfold visitDestructorCall at hrun
        rw [run_bind_of_ok _ hvisit, run_bind_of_ok _ (readAddress_eq ..)] at hrun
        obtain ⟨_, s, hdelete, _⟩ := run_bind_eq_ok.mp hrun
        unfold deleteVariable at hdelete
        rw [if_neg (by simp [hmanaged, hname]), hv] at hdelete
        cases hdelete
      · intro h
        obtain ⟨v, hfind, -⟩ := h hmanaged hname
        rw [hv] at hfind
        cases hfind
  | some v =>
      obtain ⟨values, hrun⟩ := visitDestructorCall_eq hvisit (deleteVariable_eq hmanaged hname hv)
      have hrecords : RecordsSafe C e (.address a) ↔
          ∀ p ∈ v.records, Allowed C e (.address a) p := by
        constructor
        · intro h p hp
          obtain ⟨w, hw, hsafe⟩ := h hname
          cases hv.symm.trans hw
          exact (allowed_record hv hp).mpr (hsafe.imp_right fun hsafe => hsafe p hp)
        · intro h _
          refine ⟨v, hv, or_iff_not_imp_left.mpr fun hne p hp => ?_⟩
          exact ((allowed_record hv hp).mp (h p hp)).resolve_left hne
      have htouches : Touches C e (.address a) reached
          (reached ++ deleteEffects a (v.spoilFlag ++ v.spoilPointee)) ↔
            ∀ p ∈ v.records, Allowed C e (.address a) p := by
        rw [deleteEffects_touches_iff hquiet spoil_place_ne_none]
        simp only [← spoil_place]
        exact ⟨fun h p ⟨x, hx, hp⟩ => h x hx p hp, fun h x hx p hp => h p ⟨x, hx, hp⟩⟩
      constructor
      · rintro ⟨values', trace, hrun', htouch⟩ -
        cases hrun.symm.trans hrun'
        exact hrecords.mpr (htouches.mp htouch)
      · exact fun h => ⟨values, _, hrun, htouches.mpr (hrecords.mp (h hmanaged))⟩

end

/-! ## Accessors -/

section

variable {u : Update} {e : Operand}

/-- The trace between the two evaluations of a receiver. -/
def betweenReceivers (C : Context) (e : Operand) (arguments : List Value) (object : Value)
    (reached : List Effect) : List Effect :=
  reached ++ [.read (.member (accessorName C e) object arguments)] ++
    [.get (getter C e) object arguments]

theorem version_eq_iff_unwritten {arguments : List Value} {object : Value}
    {before xs : List Effect} (a : Value) :
    version C (betweenReceivers C e arguments object (before ++ xs)) a = version C before a ↔
      Unwritten C (xs ++ [.get (getter C e) object arguments]) a := by
  have hread : Effect.writes C a (.read (.member (accessorName C e) object arguments)) = false :=
    rfl
  simp only [version, betweenReceivers, List.countP_append, List.countP_singleton, hread,
    Unwritten, List.forall_mem_append, List.forall_mem_singleton]
  rw [← List.countP_eq_zero.trans (by simp : (∀ x ∈ xs, ¬Effect.writes C a x = true) ↔
    ∀ x ∈ xs, Effect.writes C a x = false)]
  cases Effect.writes C a (.get (getter C e) object arguments) with
  | true => simp only [if_true, Bool.true_eq_false, and_false, iff_false]; omega
  | false => simp

/-- An update through accessors, from the runs of its parts. -/
theorem updateAccessor_eq {arguments : List Value} {assigned object object' : Value}
    {before reached after : List Effect} (hraw : isRawPointerType (C.type e) = false)
    (hbefore : beforeReceiver C u e [] = .ok ((arguments, assigned), before))
    (hobject : accessorReceiver C e before = .ok (object, reached))
    (hagain : accessorReceiver C e (betweenReceivers C e arguments object reached) =
      .ok (object', after)) :
    ∃ values updated, updateAccessor C u e [] = .ok (values,
      after ++ [.write (.member (accessorName C e) object' arguments) updated]) := by
  unfold updateAccessor
  rw [run_bind_of_ok _ hbefore]
  simp only
  rw [run_bind_of_ok _ hobject, run_bind_of_ok _ rfl, run_bind_of_ok _ rfl,
    if_neg (by simp [hraw])]
  rw [betweenReceivers] at hagain
  rw [run_bind_of_ok _ hagain]
  exact ⟨_, _, rfl⟩

theorem updateAccessor_raw {values : (Value × Value) × List Effect}
    (hraw : isRawPointerType (C.type e) = true) : updateAccessor C u e [] ≠ .ok values := by
  intro h
  obtain ⟨_, _, -, h⟩ := run_bind_eq_ok.mp h
  obtain ⟨_, _, -, h⟩ := run_bind_eq_ok.mp h
  obtain ⟨_, _, -, h⟩ := run_bind_eq_ok.mp h
  obtain ⟨_, _, -, h⟩ := run_bind_eq_ok.mp h
  rw [if_pos hraw] at h
  cases h

/-- The parts of an assignment through accessors. -/
theorem assignmentTarget_member {target : Place} {path : List Effect}
    (hacc : isAccessor C e = true) (h : assignmentTarget C u e [] = .ok (target, path)) :
    ∃ arguments assigned before object,
      beforeReceiver C u e [] = .ok ((arguments, assigned), before) ∧
      accessorReceiver C e before = .ok (object, path) ∧
      target = .member (accessorName C e) object arguments := by
  rw [assignmentTarget, if_pos hacc] at h
  obtain ⟨⟨arguments, assigned⟩, before, hbefore, h⟩ := run_bind_eq_ok.mp h
  obtain ⟨object, path', hobject, h⟩ := run_bind_eq_ok.mp h
  cases h
  exact ⟨arguments, assigned, before, object, hbefore, hobject, rfl⟩

/-- A suffix as long as the end of a list is that end. -/
theorem eq_of_suffix_append {α : Type} {again xs ys : List α} (h : again <:+ xs ++ ys)
    (hlength : again.length = ys.length) : again = ys :=
  (List.suffix_of_suffix_length_le h (List.suffix_append xs ys) hlength.le).eq_of_length hlength

/-- The update acts on the place of its getter exactly when the second receiver is the
first, reached by the same checks. -/
theorem touches_member_iff {arguments : List Value} {object object' updated : Value}
    {t u before xs ys : List Effect} (hbefore : ∀ x ∈ before, x.place = none)
    (hall : List.Forall₂ (EffectAgain C t u) xs ys) :
    Touches C e (.member (accessorName C e) object arguments) (before ++ xs)
      (betweenReceivers C e arguments object (before ++ xs) ++ ys ++
        [.write (.member (accessorName C e) object' arguments) updated]) ↔
    object' = object ∧ boundsChecks C ys = boundsChecks C xs := by
  have hchecks : boundsChecks C (betweenReceivers C e arguments object (before ++ xs) ++ ys ++
      [.write (.member (accessorName C e) object' arguments) updated]) =
      boundsChecks C (before ++ xs) ++ boundsChecks C ys := by
    have hsingle (x : Effect) (hx : x.bounds C = none) : boundsChecks C [x] = [] := by
      rw [boundsChecks, List.filterMap_cons_none hx, List.filterMap_nil]
    simp only [betweenReceivers, boundsChecks_append]
    rw [hsingle (.read _) rfl, hsingle (.get _ _ _) rfl, hsingle (.write _ _) rfl]
    simp only [List.append_nil]
  constructor
  · intro h
    refine ⟨allowed_member.mp (h.only _ (List.mem_append_right _
      (List.mem_singleton_self _)) _ rfl), ?_⟩
    obtain ⟨again, hsuffix, hagain⟩ := h.checks
    obtain rfl := List.append_cancel_left (hchecks.symm.trans hagain)
    rw [boundsChecks_append] at hsuffix
    exact eq_of_suffix_append hsuffix (boundsChecks_again hall).length_eq.symm
  · rintro ⟨rfl, hys⟩
    refine ⟨?_, ⟨_, ?_, .refl _⟩, ⟨_, updated, List.mem_append_right _
      (List.mem_singleton_self _), .refl _⟩, boundsChecks C ys, ?_, hchecks⟩
    · intro x hx p hp
      obtain ⟨hxs, hys⟩ := forall_place_eq_none hall
      simp only [betweenReceivers, List.mem_append, List.mem_singleton] at hx
      rcases hx with (((((hx | hx) | rfl) | rfl) | hx) | rfl)
      · rw [hbefore x hx] at hp
        cases hp
      · rw [hxs x hx] at hp
        cases hp
      · cases hp
        exact .inl (.refl _)
      · cases hp
      · rw [hys x hx] at hp
        cases hp
      · cases hp
        exact .inl (.refl _)
    · simp [betweenReceivers]
    · rw [hys, boundsChecks_append]
      exact List.suffix_append ..

/-- An update through accessors is right exactly when its receiver is settled. -/
theorem accessor_touches_iff {target : Place} {path : List Effect}
    (hacc : isAccessor C e = true) (htarget : assignmentTarget C u e [] = .ok (target, path)) :
    (∃ values trace, updateAccessor C u e [] = .ok (values, trace) ∧
      Touches C e target path trace) ↔
    isRawPointerType (C.type e) = false ∧ ReceiverSettled C u e := by
  obtain ⟨arguments, assigned, before, object, hbefore, hobject, rfl⟩ :=
    assignmentTarget_member hacc htarget
  cases hraw : isRawPointerType (C.type e) with
  | true =>
      refine iff_of_false ?_ (by simp)
      rintro ⟨values, trace, hrun, -⟩
      exact updateAccessor_raw hraw hrun
  | false =>
  obtain ⟨bs, hbs, hquiet⟩ := beforeReceiver_quiet u e hbefore
  obtain rfl : before = bs := hbs
  obtain ⟨xs, rfl, -⟩ := quiet_of_inPace (fun _ _ hlt => accessorReceiver_repeats hlt e) hobject
  have hlt : before.length <
      (betweenReceivers C e arguments object (before ++ xs)).length := by
    simp only [betweenReceivers, List.length_append, List.length_singleton]
    omega
  -- the second evaluation, in pace with the first
  obtain ⟨object', after, hagain, hobj, xs', ys, hxs, rfl, hall⟩ :=
    (accessorReceiver_repeats hlt e).of_ok .start hobject
  obtain rfl := List.append_cancel_left hxs
  obtain ⟨values, updated, hrun⟩ := updateAccessor_eq hraw hbefore hobject hagain
  have htouch := (touches_member_iff hquiet hall :
    Touches C e (.member (accessorName C e) object arguments) (before ++ xs) (_ ++ ys ++
      [.write (.member (accessorName C e) object' arguments) updated]) ↔ _)
  have hunwritten : Unwritten C (xs ++ [.get (getter C e) object arguments]) =
      fun a => version C (betweenReceivers C e arguments object (before ++ xs)) a =
        version C before a :=
    funext fun a => propext (version_eq_iff_unwritten a).symm
  have hsettled : ReceiverSettled C u e ↔ object' = object ∧
      boundsChecks C ys = boundsChecks C xs := by
    rw [hobj.eq_iff, checks_eq_iff (boundsChecks_again hall), ← hunwritten]
    constructor
    · intro h
      have h := h _ _ _ _ hbefore hobject
      rwa [List.drop_left] at h
    · rintro h values' before' object'' path' hbefore' hobject'
      cases hbefore.symm.trans hbefore'
      cases hobject.symm.trans hobject'
      rwa [List.drop_left]
  rw [hsettled, ← htouch]
  constructor
  · rintro ⟨values', trace, hrun', h⟩
    cases hrun.symm.trans hrun'
    exact ⟨rfl, h⟩
  · rintro ⟨-, h⟩
    exact ⟨values, _, hrun, h⟩

end

/-! ## Which operands are right -/

/-- No field of an object is a variable: `++` and `--` miss every field path. -/
theorem not_isVariable_field {e : Operand} {object : Value} {member : TypeName}
    {path : List Effect} : ¬IsVariable C e (.address (.field object member)) path := by
  rintro ⟨-, v, -, hsame, -⟩
  cases hsame

/-- Nor is a place reached through a pointer that was loaded. -/
theorem not_isVariable_load {e : Operand} {a : Value} {n : Nat} {path : List Effect} :
    ¬IsVariable C e (.address (.load a n)) path := by
  rintro ⟨-, v, -, hsame, -⟩
  cases hsame

/-- An element at an index other than the constant zero is none. -/
theorem not_isVariable_offset {e : Operand} {base index : Value} {path : List Effect}
    (h : constant? C index ≠ some 0) : ¬IsVariable C e (.address (.offset base index)) path := by
  rintro ⟨-, v, -, hsame, -⟩
  change normalize C (.given v.address) = normalize C (.offset base index) at hsame
  rw [normalize, normalize, if_neg h] at hsame
  · cases hsame
  · exact fun _ _ h => by cases h

/-- A name that stands for a variable is that variable. -/
theorem isVariable_identifier {name : TypeName} {v : Variable} {path : List Effect}
    (hname : name ≠ []) (hv : C.findVariable name = some v)
    (hnumeric : isRawPointerType (C.type (.identifier name)) = false → v.numeric = true)
    (hchecks : boundsChecks C path = []) :
    IsVariable C (.identifier name) v.place path :=
  ⟨hname, v, hv, .refl _, hchecks, hnumeric⟩

/-- On every operand the analyzer accepts, an update acts on the place of the
assignment, with its bounds checks and on nothing else, exactly when the operand is
`Sound` for it. -/
theorem update_touches_place_iff (C : Context) (u : Update) (e : Operand)
    (haccepts : accepts C e u = true) {target : Place} {path : List Effect}
    (htarget : assignmentTarget C u e [] = .ok (target, path)) :
    TouchesPlace C u e ↔ Sound C u e target path := by
  have hiff : TouchesPlace C u e ↔ ∃ values trace,
      emitUpdate C u e [] = .ok (values, trace) ∧ Touches C e target path trace := by
    constructor
    · exact fun h => h target path htarget
    · intro h target' path' htarget'
      cases htarget.symm.trans htarget'
      exact h
  rw [hiff]
  cases hacc : isAccessor C e with
  | true =>
      have hrun : emitUpdate C u e = updateAccessor C u e := by
        cases u with
        | destructorCall => simp [accepts, hacc] at haccepts
        | prefixUnary | postfixUnary | assignment => rw [emitUpdate, if_pos hacc]
      unfold Sound
      rw [hrun, if_pos hacc]
      exact accessor_touches_iff hacc htarget
  | false =>
      have hne : ¬isAccessor C e = true := by simp [hacc]
      unfold Sound
      rw [if_neg hne]
      obtain ⟨a, reached, hvisit, rfl, value, hassigned⟩ := assignmentTarget_address hacc htarget
      cases u with
      | prefixUnary op =>
          rw [emitUpdate, if_neg hne]
          exact step_touches_iff
      | postfixUnary op =>
          rw [emitUpdate, if_neg hne]
          exact step_touches_iff
      | assignment op assigned =>
          cases hassigned
          rw [emitUpdate, if_neg hne]
          exact iff_of_true (assignAddress_touches op (accepts_assignment_type haccepts) hvisit)
            trivial
      | destructorCall =>
          cases hassigned
          exact delete_touches_iff hvisit

/-! ## A counter in an object -/

section

/-- `Cell* cell` in scope, where `Cell` has a field `count`. -/
def cellScope : Context where
  info e :=
    match e with
    | .memberAccess _ _ => { type := "int32".toList, kind := some .Field }
    | _ => { type := "Cell*".toList, kind := some .Variable }
  findVariable name := if name = "cell".toList then some { address := 0 } else none
  globals _ := none
  enumConstants _ := none
  hasField type := if type = "Cell".toList then some (· = "count".toList) else none
  hasThis := false
  callWrites _ _ := false
  getterWrites _ _ := false

/-- `int32 cell` in scope. -/
def numberScope : Context :=
  { cellScope with info := fun _ => { type := "int32".toList, kind := some .Variable } }

theorem localStep_touches :
    accepts numberScope (.identifier "cell".toList) (.postfixUnary "++") = true ∧
      TouchesPlace numberScope (.postfixUnary "++") (.identifier "cell".toList) :=
  ⟨by decide, (update_touches_place_iff numberScope (.postfixUnary "++")
    (.identifier "cell".toList) (by decide) rfl).mpr
      ⟨by decide, { address := 0 }, rfl, rfl, rfl, fun _ => rfl⟩⟩

/-- `cell.count++` adds one to the handle in `cell`. -/
theorem fieldStep_misses :
    ¬∀ (C : Context) (u : Update) (e : Operand), accepts C e u = true → TouchesPlace C u e := by
  intro h
  obtain ⟨values, trace, hrun, htouch⟩ := h cellScope (.postfixUnary "++")
    (.memberAccess (.identifier "cell".toList) "count".toList) (by decide) _ _ rfl
  exact not_isVariable_field (step_touches_iff.mp ⟨values, trace, hrun, htouch⟩)

end

end Places

end Absolute
