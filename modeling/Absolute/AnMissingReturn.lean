import Absolute.AnReturns

/-!
# A body without a missing return

A statement that the visitors leave with the flag set does not end normally, whatever its
conditions yield and whatever is thrown in it. Loops always clear the flag; a switch sets it
when its labels leave no value of the selector out.
-/

namespace Absolute

namespace Returns

variable {d : Declarations}

/-! ## Paths and labels -/

@[simp] theorem terminated_flow (s : FlowState) (value : Bool) :
    (s.terminated value).flowTerminated = value := rfl

@[simp] theorem report_flow (s : FlowState) (message : List Char) (code : String) :
    (s.report message code).flowTerminated = s.flowTerminated := rfl

@[simp] theorem reportIf_flow (s : FlowState) (condition : Bool) (message code : String) :
    (s.reportIf condition message code).flowTerminated = s.flowTerminated := by
  unfold FlowState.reportIf
  split <;> rfl

/-- No path goes on only if none did and the body does not. -/
theorem visitPath_eq_zero {body : FlowState → FlowState} {paths : Nat × FlowState}
    (h : (visitPath body paths).1 = 0) :
    paths.1 = 0 ∧ (body (paths.2.terminated false)).flowTerminated = true := by
  unfold visitPath at h
  dsimp only at h
  split at h
  · rename_i hflow
    exact ⟨h, hflow⟩
  · exact absurd h (Nat.succ_ne_zero _)

/-- A key that the coverage has taken up. -/
def Coverage.Has (coverage : Coverage) : ConstantKey → Prop
  | .bool true => coverage.coversTrue = true
  | .bool false => coverage.coversFalse = true
  | .enum name => name ∈ coverage.enumCoverage
  | .integer _ => False

theorem has_insert {coverage : Coverage} {key key' : ConstantKey}
    (h : (coverage.insert key).Has key') : coverage.Has key' ∨ key = key' := by
  cases key with
  | bool b =>
    cases b <;> cases key' with
    | bool b' => cases b' <;> first | exact .inr rfl | exact .inl h
    | integer n => exact .inl h
    | enum name => exact .inl h
  | integer n => exact .inl h
  | enum name =>
    cases key' with
    | enum name' =>
      obtain rfl | h := List.mem_cons.mp h
      · exact .inr rfl
      · exact .inl h
    | bool b => cases b <;> exact .inl h
    | integer n => exact .inl h

theorem has_visitLabel {label : LabelExpression} {coverage : Coverage} {s : FlowState}
    {key : ConstantKey} (h : (visitLabel label coverage s).1.Has key) :
    coverage.Has key ∨ constantKey label = some key := by
  unfold visitLabel at h
  split at h
  · exact .inl h
  · rename_i key' hkey
    split at h
    · exact .inl h
    · obtain h | rfl := has_insert h
      · exact .inl h
      · exact .inr hkey

theorem visitLabel_flow (label : LabelExpression) (coverage : Coverage) (s : FlowState) :
    (visitLabel label coverage s).2.flowTerminated = s.flowTerminated := by
  unfold visitLabel
  split
  · rfl
  · split <;> rfl

theorem has_visitCases {cases : List (LabelExpression × Statement)} {coverage : Coverage}
    {paths : Nat × FlowState} {key : ConstantKey}
    (h : (visitCases d cases coverage paths).1.Has key) :
    coverage.Has key ∨ ∃ c ∈ cases, constantKey c.1 = some key := by
  induction cases generalizing coverage paths with
  | nil =>
    rw [visitCases] at h
    exact .inl h
  | cons c rest ih =>
    rw [visitCases] at h
    obtain h | ⟨c', hc', hkey⟩ := ih h
    · obtain h | hkey := has_visitLabel h
      · exact .inl h
      · exact .inr ⟨c, List.mem_cons_self, hkey⟩
    · exact .inr ⟨c', List.mem_cons_of_mem c hc', hkey⟩

/-- What a constant label is, its key says. -/
theorem labelValue_bool {label : LabelExpression} {b : Bool} {value : Int}
    (hkey : constantKey label = some (.bool b)) (h : LabelValue d label value) :
    value = if b then 1 else 0 := by
  cases label with
  | boolean b' =>
    obtain rfl : b' = b := by simpa [constantKey] using hkey
    exact h
  | number n => cases n <;> simp [constantKey] at hkey
  | character c => simp [constantKey] at hkey
  | prefixUnary op n =>
    cases n <;> simp [constantKey] at hkey
  | memberAccess name symbol =>
    cases symbol <;> simp [constantKey] at hkey
  | other => simp [constantKey] at hkey

theorem labelValue_enum {label : LabelExpression} {name : TypeName} {value : Int}
    (hkey : constantKey label = some (.enum name)) (h : LabelValue d label value) :
    value = d.memberValue name := by
  cases label with
  | boolean b => simp [constantKey] at hkey
  | number n => cases n <;> simp [constantKey] at hkey
  | character c => simp [constantKey] at hkey
  | prefixUnary op n => cases n <;> simp [constantKey] at hkey
  | memberAccess qualifiedName symbol =>
    cases symbol with
    | some symbol =>
      obtain rfl : symbol = name := by simpa [constantKey] using hkey
      exact h
    | none =>
      obtain ⟨-, rfl⟩ : qualifiedName ≠ [] ∧ qualifiedName = name := by
        simpa [constantKey] using hkey
      exact h
  | other => simp [constantKey] at hkey

/-- Where no body ends normally, the default does, after labels of other values. -/
theorem otherwise_of_executesCases {cases : List (LabelExpression × Statement)} {value : Int}
    {otherwise : Outcome → Prop} (hbodies : ∀ c ∈ cases, ¬executes d c.2 .normal)
    (h : executesCases d cases value otherwise .normal) :
    otherwise .normal ∧ ∀ c ∈ cases, ∃ x, LabelValue d c.1 x ∧ x ≠ value := by
  induction cases with
  | nil =>
    rw [executesCases] at h
    exact ⟨h, nofun⟩
  | cons c rest ih =>
    rw [List.forall_mem_cons] at hbodies ⊢
    rw [executesCases] at h
    obtain ⟨x, hx, ⟨-, hbody⟩ | ⟨hne, hrest⟩⟩ := h
    · exact absurd hbody hbodies.1
    · obtain ⟨hotherwise, hall⟩ := ih hbodies.2 hrest
      exact ⟨hotherwise, ⟨x, hx, hne⟩, hall⟩

/-- The labels of a switch that is exhausted without a default leave no value out. -/
theorem exhausts_sound {cases : List (LabelExpression × Statement)} {selectorType : TypeName}
    {paths : Nat × FlowState} {value : Int} (hvalue : SelectorValue d selectorType value)
    (h : exhausts d selectorType false
      (visitCases d cases ⟨[], [], false, false⟩ paths).1 = true) :
    ∃ c ∈ cases, ∀ x, LabelValue d c.1 x → x = value := by
  have hhas : ∀ {key}, (visitCases d cases ⟨[], [], false, false⟩ paths).1.Has key →
      ∃ c ∈ cases, constantKey c.1 = some key := by
    intro key hkey
    refine (has_visitCases hkey).resolve_left fun h => ?_
    cases key with
    | bool b => cases b <;> cases h
    | integer n => cases h
    | enum name => cases h
  unfold exhausts at h
  rw [Bool.false_or, Bool.or_eq_true, Bool.and_eq_true, Bool.and_eq_true,
    decide_eq_true_eq] at h
  obtain ⟨⟨hbool, htrue⟩, hfalse⟩ | henum := h
  · obtain rfl | rfl := hvalue.1 hbool
    · obtain ⟨c, hc, hkey⟩ := @hhas (.bool false) hfalse
      exact ⟨c, hc, fun x hx => labelValue_bool hkey hx⟩
    · obtain ⟨c, hc, hkey⟩ := @hhas (.bool true) htrue
      exact ⟨c, hc, fun x hx => labelValue_bool hkey hx⟩
  · cases hmembers : d.enumMembers selectorType with
    | none =>
      rw [hmembers] at henum
      cases henum
    | some members =>
      rw [hmembers] at henum
      obtain ⟨member, hmember, rfl⟩ := hvalue.2 members hmembers
      have hcovered := List.all_eq_true.mp henum member hmember
      rw [List.contains_iff_mem] at hcovered
      obtain ⟨c, hc, hkey⟩ := @hhas (.enum (memberName selectorType member)) hcovered
      exact ⟨c, hc, fun x hx => labelValue_enum hkey hx⟩

/-! ## Statements -/

theorem visitLoop_flow (body : FlowState → FlowState) (s : FlowState) :
    (visitLoop body s).flowTerminated = false := rfl

theorem leaveSwitch_flow (selectorType : TypeName) (hasDefault exhaustive : Bool)
    (coverage : Coverage) (paths : Nat × FlowState) :
    (leaveSwitch d selectorType hasDefault exhaustive coverage paths).flowTerminated =
      (exhausts d selectorType hasDefault coverage && paths.1 = 0) := by
  unfold leaveSwitch
  cases exhausts d selectorType hasDefault coverage <;> rfl

/-- A finally body that terminates, or one after what terminated. -/
theorem visitFinally_flow {finallyBody : FlowState → FlowState} {s : FlowState}
    (h : (visitFinally finallyBody s).flowTerminated = true) :
    (finallyBody { s with
        flowTerminated := false, finallyDepth := s.finallyDepth + 1 }).flowTerminated = true ∨
      s.flowTerminated = true := by
  unfold visitFinally at h
  dsimp only at h
  split at h
  · rename_i hflow
    exact .inl hflow
  · exact .inr h

theorem not_normal_of_finally {finallyBody before : Outcome → Prop}
    (h : ¬finallyBody .normal ∨ ¬before .normal) : ¬Finally finallyBody before .normal := by
  rintro ⟨o₁, hbefore, ⟨hfinally, rfl⟩ | ⟨-, hne⟩⟩
  · exact h.elim (fun h => h hfinally) fun h => h hbefore
  · exact hne rfl

/-- A guarded body and its clauses, none of which goes on. -/
theorem not_normal_of_handled {body : Statement} {catches : List (TypeName × Statement)}
    (hbody : ¬executes d body .normal)
    (hcatches : ∀ type, ¬executesCatches d catches type .normal) :
    ¬∃ o₁, executes d body o₁ ∧ match o₁ with
      | .threw type => executesCatches d catches type .normal
      | o₁ => .normal = o₁ := by
  rintro ⟨o₁, hrun, hafter⟩
  cases o₁ with
  | normal => exact hbody hrun
  | threw type => exact hcatches type hafter
  | broke | continued | returned => cases hafter

mutual

/-- What is left with the flag set does not end normally. -/
theorem not_normal_of_visit : ∀ (statement : Statement) (s : FlowState),
    s.flowTerminated = false → (visit d statement s).flowTerminated = true →
      ¬executes d statement .normal
  | .expression, s, hs, h => by
    rw [visit, hs] at h
    cases h
  | .compound statements, s, hs, h => by
    rw [visit] at h
    rw [executes]
    exact not_normal_of_visitStatements statements s hs h
  | .ifStmt branches none, s, hs, h => by
    rw [visit] at h
    dsimp only at h
    rw [terminated_flow, decide_eq_true_eq] at h
    exact absurd h (Nat.succ_ne_zero _)
  | .ifStmt branches (some branch), s, hs, h => by
    rw [visit] at h
    obtain ⟨hbranches, hflow⟩ := visitPath_eq_zero (of_decide_eq_true h)
    rw [executes]
    rintro (⟨type, hthrew⟩ | hany | helse)
    · cases hthrew
    · exact (not_normal_of_visitBranches branches _ hbranches).2 hany
    · exact not_normal_of_visit branch _ rfl hflow helse
  | .switchStmt selectorType cases none exhaustive, s, hs, h => by
    rw [visit] at h
    dsimp only at h
    rw [leaveSwitch_flow, Bool.and_eq_true, decide_eq_true_eq] at h
    obtain ⟨hcovered, hpaths⟩ := h
    have hbodies := (not_normal_of_visitCases cases _ _ hpaths).2
    rw [executes]
    rintro (⟨type, hthrew⟩ | ⟨value, hvalue, hcases⟩)
    · cases hthrew
    · obtain ⟨c, hc, hlabel⟩ := exhausts_sound hvalue hcovered
      obtain ⟨x, hx, hne⟩ := (otherwise_of_executesCases hbodies hcases).2 c hc
      exact hne (hlabel x hx)
  | .switchStmt selectorType cases (some body) exhaustive, s, hs, h => by
    rw [visit] at h
    dsimp only at h
    rw [leaveSwitch_flow, Bool.and_eq_true, decide_eq_true_eq] at h
    obtain ⟨hcases, hflow⟩ := visitPath_eq_zero h.2
    have hbodies := (not_normal_of_visitCases cases _ _ hcases).2
    rw [executes]
    rintro (⟨type, hthrew⟩ | ⟨value, hvalue, hrun⟩)
    · cases hthrew
    · exact not_normal_of_visit body _ rfl hflow (otherwise_of_executesCases hbodies hrun).1
  | .returnStmt, s, hs, h => by
    rw [executes]
    rintro (h | ⟨type, h⟩) <;> cases h
  | .throwStmt hasValue, s, hs, h => by
    rw [executes]
    rintro ⟨type, h⟩
    cases h
  | .breakStmt, s, hs, h => by
    rw [executes]
    nofun
  | .continueStmt, s, hs, h => by
    rw [executes]
    nofun
  | .whileStmt body, s, hs, h => by
    rw [visit, visitLoop_flow] at h
    cases h
  | .doWhileStmt body, s, hs, h => by
    rw [visit, visitLoop_flow] at h
    cases h
  | .forStmt hasCondition body, s, hs, h => by
    rw [visit, visitLoop_flow] at h
    cases h
  | .forEachStmt body, s, hs, h => by
    rw [visit, visitLoop_flow] at h
    cases h
  | .tryStmt body catches none, s, hs, h => by
    rw [visit] at h
    obtain ⟨hpaths, hcatches⟩ := not_normal_of_visitCatches catches _ (of_decide_eq_true h)
    obtain ⟨-, hflow⟩ := visitPath_eq_zero hpaths
    rw [executes]
    exact not_normal_of_handled (not_normal_of_visit body _ rfl hflow) hcatches
  | .tryStmt body catches (some finallyBody), s, hs, h => by
    rw [visit] at h
    rw [executes]
    refine not_normal_of_finally ?_
    obtain h | h := visitFinally_flow h
    · exact .inl (not_normal_of_visit finallyBody _ rfl h)
    · right
      obtain ⟨hpaths, hcatches⟩ := not_normal_of_visitCatches catches _ (of_decide_eq_true h)
      obtain ⟨-, hflow⟩ := visitPath_eq_zero hpaths
      exact not_normal_of_handled (not_normal_of_visit body _ rfl hflow) hcatches

theorem not_normal_of_visitStatements : ∀ (statements : List Statement) (s : FlowState),
    s.flowTerminated = false → (visitStatements d statements s).flowTerminated = true →
      ¬executesAll d statements .normal
  | [], s, hs, h => by
    rw [visitStatements, hs] at h
    cases h
  | statement :: rest, s, hs, h => by
    rw [visitStatements] at h
    rw [executesAll]
    rintro (⟨hfirst, hrest⟩ | ⟨-, hne⟩)
    · split at h
      · exact not_normal_of_visit statement s hs h hfirst
      · rename_i hflow
        exact not_normal_of_visitStatements rest _ (Bool.not_eq_true _ ▸ hflow) h hrest
    · exact hne rfl

theorem not_normal_of_visitBranches : ∀ (branches : List Statement) (paths : Nat × FlowState),
    (visitBranches d branches paths).1 = 0 → paths.1 = 0 ∧ ¬executesAny d branches .normal
  | [], paths, h => by
    rw [visitBranches] at h
    rw [executesAny]
    exact ⟨h, id⟩
  | branch :: rest, paths, h => by
    rw [visitBranches] at h
    obtain ⟨hpaths, hrest⟩ := not_normal_of_visitBranches rest _ h
    obtain ⟨hzero, hflow⟩ := visitPath_eq_zero hpaths
    rw [executesAny]
    refine ⟨hzero, ?_⟩
    rintro (hbranch | hany)
    · exact not_normal_of_visit branch _ rfl hflow hbranch
    · exact hrest hany

theorem not_normal_of_visitCases : ∀ (cases : List (LabelExpression × Statement))
    (coverage : Coverage) (paths : Nat × FlowState),
    (visitCases d cases coverage paths).2.1 = 0 →
      paths.1 = 0 ∧ ∀ c ∈ cases, ¬executes d c.2 .normal
  | [], coverage, paths, h => by
    rw [visitCases] at h
    exact ⟨h, nofun⟩
  | (label, body) :: rest, coverage, paths, h => by
    rw [visitCases] at h
    obtain ⟨hpaths, hrest⟩ := not_normal_of_visitCases rest _ _ h
    obtain ⟨hzero, hflow⟩ := visitPath_eq_zero hpaths
    refine ⟨hzero, List.forall_mem_cons.mpr ⟨?_, hrest⟩⟩
    exact not_normal_of_visit body _ rfl hflow

theorem not_normal_of_visitCatches : ∀ (catches : List (TypeName × Statement))
    (paths : Nat × FlowState), (visitCatches d catches paths).1 = 0 →
      paths.1 = 0 ∧ ∀ type, ¬executesCatches d catches type .normal
  | [], paths, h => by
    rw [visitCatches] at h
    refine ⟨h, fun type => ?_⟩
    rw [executesCatches]
    nofun
  | (catchType, body) :: rest, paths, h => by
    rw [visitCatches] at h
    obtain ⟨hpaths, hrest⟩ := not_normal_of_visitCatches rest _ h
    obtain ⟨hzero, hflow⟩ := visitPath_eq_zero hpaths
    refine ⟨hzero, fun type => ?_⟩
    rw [executesCatches]
    split
    · exact not_normal_of_visit body _ rfl hflow
    · exact hrest type

end

/-! ## Functions -/

/-- A function whose body has to return a value. -/
def FunctionDecl.needsReturn (f : FunctionDecl) : Bool :=
  !f.isExternal && f.returnType ≠ "void".toList && !f.autoPropertyAccessor

/-- A body that is left with the flag set does not end normally; and it is left so where no
missing return is reported. -/
theorem missing_return_sound (d : Declarations) (f : FunctionDecl) :
    ((resolveFunction d f).flowTerminated = true → ¬executes d f.body .normal) ∧
      (f.needsReturn = true →
        (∀ report ∈ (resolveFunction d f).reports, report.code ≠ "E_MISSING_RETURN") →
          (resolveFunction d f).flowTerminated = true) := by
  unfold resolveFunction
  dsimp only
  cases hexternal : f.isExternal with
  | true =>
    simp only [Bool.not_true, Bool.false_and, Bool.false_eq_true, if_false, if_true]
    refine ⟨nofun, fun hneeds => ?_⟩
    rw [FunctionDecl.needsReturn, hexternal] at hneeds
    cases hneeds
  | false =>
    simp only [Bool.not_false, Bool.true_and, Bool.false_eq_true, if_false]
    constructor
    · intro h
      refine not_normal_of_visit f.body ⟨false, 0, 0, 0, 0, []⟩ rfl ?_
      split at h <;> exact h
    · intro hneeds hreports
      rw [FunctionDecl.needsReturn, hexternal, Bool.not_false, Bool.true_and,
        Bool.and_eq_true] at hneeds
      cases hflow : (visit d f.body ⟨false, 0, 0, 0, 0, []⟩).flowTerminated with
      | true => split <;> exact hflow
      | false =>
        rw [hflow, hneeds.1, hneeds.2] at hreports
        exact absurd rfl (hreports _ (List.mem_append_right _ (List.mem_singleton_self _)))

def noDeclarations : Declarations := ⟨fun _ => none, fun _ => 0, fun _ _ => true, false⟩

/-- A return on one branch, an exception under a finally on the other. -/
def returnOrThrow : FunctionDecl where
  name := "f".toList
  returnType := "int32".toList
  body := .compound [.ifStmt [.returnStmt]
    (some (.tryStmt (.throwStmt true) [] (some (.compound [.expression]))))]
  isExternal := false
  autoPropertyAccessor := false

theorem return_or_throw_sound :
    (resolveFunction noDeclarations returnOrThrow).flowTerminated = true ∧
      ¬executes noDeclarations returnOrThrow.body .normal :=
  ⟨by decide, (missing_return_sound noDeclarations returnOrThrow).1 (by decide)⟩

end Returns

end Absolute
