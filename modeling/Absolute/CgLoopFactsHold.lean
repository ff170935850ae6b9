import Absolute.CgLoopFacts

/-!
# When the fact about a loop's variable holds

The statements the recognizer admits write the variable of the loop by a call or under
another name only (`execute_keeps`). A loop that compares and decrements the variable itself
then leaves it at -1 or above exactly when it is entered so: the recognizer does not ask for
the value on entry. It asks for the variable in the condition and in the decrement by the
name `IdentifierName` finds there, so that `v + 10 >= 0` passes for `v >= 0`.
-/

namespace Absolute

namespace Loops

open Paired

/-! ## Effects apart from a variable -/

def isName (name : TypeName) : Expression → Bool
  | .identifier other => other == name
  | _ => false

/-- The effects that write the storage of a variable by an assignment to its name only. -/
def apart (name : TypeName) (address : ℕ) : Effect → Bool
  | .call before after => after address = before address
  | .store target stored => isName name target || stored ≠ address

theorem isName_of_identifierName_ne {name : TypeName} {target : Expression}
    (h : identifierName target ≠ name) : isName name target = false := by
  cases target with
  | identifier other => simpa [isName, identifierName] using h
  | _ => rfl

section Keeps

variable {P : Program} {name : TypeName} {a : ℕ}

theorem ofEmit_keeps {α : Type} (x : Emit α) : Keeps (· a) (ofEmit x) := by
  cases x with
  | ok d => exact Keeps.pure d
  | error reason => exact Keeps.fail _

theorem load_keeps (address : ℕ) : Keeps (· a) (load address) := by
  intro m d m' h
  cases h
  rfl

theorem invoke_keeps (site : Site) (arguments : List Value) :
    Keeps (· a) (invoke P (apart name a) site arguments) := by
  intro m d m' h
  unfold invoke at h
  split at h
  next hcall =>
    split at h
    next hallowed =>
      cases h
      simpa [apart] using hallowed
    · cases h
  · cases h

theorem store_keeps {target : Expression} (hname : identifierName target ≠ name)
    (address : ℕ) (d : Value) : Keeps (· a) (store (apart name a) target address d) := by
  intro m u m' h
  unfold store at h
  split at h
  next hallowed =>
    cases h
    have hne : address ≠ a := by
      simpa [apart, isName_of_identifierName_ne hname] using hallowed
    exact Function.update_of_ne hne.symm ..
  · cases h

mutual

theorem evaluate_keeps : ∀ e, expressionMayWriteVariable name e = false →
    Keeps (· a) (evaluate P (apart name a) e)
  | .identifier x, _ => by
      unfold evaluate
      exact .ite (invoke_keeps _ _) (load_keeps _)
  | .numberLiteral text, _ => by
      unfold evaluate
      exact ofEmit_keeps _
  | .literal value, _ => by
      unfold evaluate
      exact Keeps.pure _
  | .binary op left right, h => by
      obtain ⟨hl, hr⟩ := Bool.or_eq_false_iff.mp h
      have hleft := evaluate_keeps left hl
      have hright := evaluate_keeps right hr
      unfold evaluate
      refine hleft.bind fun x => .ite (.ite (.pure _) ?_) ?_
      · exact hright.bind fun y => (invoke_keeps _ _).bind fun _ => .pure _
      · exact hright.bind fun y => .ite (invoke_keeps _ _) (ofEmit_keeps _)
  | .arrayAccess base indexes, h => by
      obtain ⟨hb, hi⟩ := Bool.or_eq_false_iff.mp h
      have hbase := evaluate_keeps base hb
      have hindexes := evaluateAll_keeps indexes hi
      unfold evaluate
      refine .ite ?_ ?_
      · exact hindexes.bind fun _ => hbase.bind fun _ => invoke_keeps _ _
      · exact hbase.bind fun _ => hindexes.bind fun _ => (ofEmit_keeps _).bind load_keeps
  | .assignment target op value, h => by
      obtain ⟨hname, h⟩ := Bool.or_eq_false_iff.mp h
      obtain ⟨ht, hv⟩ := Bool.or_eq_false_iff.mp h
      have hvalue := evaluate_keeps value hv
      have hreceiver := evaluateReceiver_keeps target ht
      unfold evaluate
      refine .ite ?_ ?_
      · refine (evaluateIndexes_keeps target ht).bind fun ds => hvalue.bind fun d => ?_
        refine Keeps.bind ?_ fun _ => hreceiver.bind fun _ => (invoke_keeps _ _).bind fun _ =>
          .pure _
        cases op with
        | assign => exact .pure _
        | compound op =>
          exact (hreceiver.bind fun _ => invoke_keeps _ _).bind fun _ => ofEmit_keeps _
      · refine (evaluateAddress_keeps target ht).bind fun address => hvalue.bind fun d => ?_
        refine (load_keeps _).bind fun _ => (ofEmit_keeps _).bind fun _ => ?_
        refine (invoke_keeps _ _).bind fun _ => (store_keeps ?_ _ _).bind fun _ => .pure _
        simpa using hname
  | .other _, h => by cases h

theorem evaluateAll_keeps : ∀ es, expressionsMayWriteVariable name es = false →
    Keeps (· a) (evaluateAll P (apart name a) es)
  | [], _ => by
      unfold evaluateAll
      exact Keeps.pure _
  | e :: rest, h => by
      obtain ⟨he, hrest⟩ := Bool.or_eq_false_iff.mp h
      unfold evaluateAll
      exact (evaluate_keeps e he).bind fun _ => (evaluateAll_keeps rest hrest).bind fun _ => .pure _

theorem evaluateAddress_keeps : ∀ e, expressionMayWriteVariable name e = false →
    Keeps (· a) (evaluateAddress P (apart name a) e)
  | .identifier x, _ => by
      unfold evaluateAddress
      exact Keeps.pure _
  | .arrayAccess base indexes, h => by
      obtain ⟨hb, hi⟩ := Bool.or_eq_false_iff.mp h
      unfold evaluateAddress
      exact (evaluate_keeps base hb).bind fun _ =>
        (evaluateAll_keeps indexes hi).bind fun _ => ofEmit_keeps _
  | .numberLiteral _, _ | .literal _, _ | .binary _ _ _, _ | .assignment _ _ _, _ => by
      unfold evaluateAddress
      exact ofEmit_keeps _
  | .other _, h => by cases h

theorem evaluateIndexes_keeps : ∀ e, expressionMayWriteVariable name e = false →
    Keeps (· a) (evaluateIndexes P (apart name a) e)
  | .arrayAccess base indexes, h => by
      unfold evaluateIndexes
      exact evaluateAll_keeps indexes (Bool.or_eq_false_iff.mp h).2
  | .identifier _, _ | .numberLiteral _, _ | .literal _, _ | .binary _ _ _, _
  | .assignment _ _ _, _ | .other _, _ => by
      unfold evaluateIndexes
      exact Keeps.pure _

theorem evaluateReceiver_keeps : ∀ e, expressionMayWriteVariable name e = false →
    Keeps (· a) (evaluateReceiver P (apart name a) e)
  | .arrayAccess base indexes, h => by
      unfold evaluateReceiver
      exact (evaluate_keeps base (Bool.or_eq_false_iff.mp h).1).bind fun _ => .pure _
  | .identifier _, _ | .numberLiteral _, _ | .literal _, _ | .binary _ _ _, _
  | .assignment _ _ _, _ | .other _, _ => by
      unfold evaluateReceiver
      exact Keeps.pure _

end

theorem complete_keeps {e : Expression} (h : Keeps (· a) (evaluate P (apart name a) e)) :
    Keeps (· a) (complete P (apart name a) e) :=
  h.bind fun _ => (invoke_keeps _ _).bind fun _ => .pure _

mutual

/-- What the recognizer admits writes the variable by no other way than a call or another
name. -/
theorem execute_keeps : ∀ s, statementMayWriteVariable name s = false →
    Keeps (· a) (execute P (apart name a) s)
  | .assignmentStmt target op value, h => by
      unfold execute
      exact (complete_keeps (evaluate_keeps _ h)).bind fun _ => .pure _
  | .singleStatement expr, h => by
      unfold execute
      exact (complete_keeps (evaluate_keeps expr h)).bind fun _ => .pure _
  | .compoundStmt statements, h => by
      unfold execute
      exact executeAll_keeps statements h
  | .ifStmt branches elseBranch, h => by
      obtain ⟨hb, he⟩ := Bool.or_eq_false_iff.mp h
      unfold execute
      exact executeBranches_keeps branches hb (executeElse_keeps elseBranch he)
  | .breakStmt, _ | .continueStmt, _ => by
      unfold execute
      exact Keeps.pure _
  | .other, h => by cases h

theorem executeAll_keeps : ∀ statements, statementsMayWriteVariable name statements = false →
    Keeps (· a) (executeAll P (apart name a) statements)
  | [], _ => by
      unfold executeAll
      exact Keeps.pure _
  | s :: rest, h => by
      obtain ⟨hs, hrest⟩ := Bool.or_eq_false_iff.mp h
      unfold executeAll
      exact (execute_keeps s hs).bind fun _ => .ite (executeAll_keeps rest hrest) (.pure _)

theorem executeBranches_keeps : ∀ branches, branchesMayWriteVariable name branches = false →
    ∀ {otherwise : Execution Outcome}, Keeps (· a) otherwise →
      Keeps (· a) (executeBranches P (apart name a) branches otherwise)
  | [], _, _, hother => by
      unfold executeBranches
      exact hother
  | (condition, body) :: rest, h, _, hother => by
      obtain ⟨hfirst, hrest⟩ := Bool.or_eq_false_iff.mp h
      obtain ⟨hc, hb⟩ := Bool.or_eq_false_iff.mp hfirst
      unfold executeBranches
      exact (complete_keeps (evaluate_keeps condition hc)).bind fun _ =>
        .ite (execute_keeps body hb) (executeBranches_keeps rest hrest hother)

theorem executeElse_keeps : ∀ elseBranch, elseMayWriteVariable name elseBranch = false →
    Keeps (· a) (executeElse P (apart name a) elseBranch)
  | none, _ => by
      unfold executeElse
      exact Keeps.pure _
  | some body, h => by
      unfold executeElse
      exact execute_keeps body h

end

end Keeps

theorem mayWrite_of_mem {name : TypeName} {statements : List Statement}
    (h : statementsMayWriteVariable name statements = false) {s : Statement}
    (hs : s ∈ statements) : statementMayWriteVariable name s = false := by
  induction statements with
  | nil => cases hs
  | cons s' rest ih =>
    obtain ⟨hfirst, hrest⟩ := Bool.or_eq_false_iff.mp h
    rcases List.mem_cons.mp hs with rfl | hs
    · exact hfirst
    · exact ih hrest hs

/-! ## The loops that are found -/

/-- The parts of a loop that counts down. -/
structure CountsDown (statement : WhileStmt) (name : TypeName) (left : Expression)
    (earlier : List Statement) (target : Expression) : Prop where
  condition : statement.condition = .binary greaterEqual left (.numberLiteral ['0'])
  body : ∃ last, statement.body = .compoundStmt (earlier ++ [last]) ∧
    assignmentOf last = some (target, minusAssign, .numberLiteral ['1'])
  leftName : identifierName left = name
  targetName : identifierName target = name
  earlier : statementsMayWriteVariable name earlier = false

theorem isUnitDecrement_iff {name : TypeName} {last : Statement} :
    isUnitDecrement name last = true ↔ ∃ target,
      assignmentOf last = some (target, minusAssign, .numberLiteral ['1']) ∧
        identifierName target = name := by
  unfold isUnitDecrement
  constructor
  · intro h
    split at h
    next target op amount hlast =>
      obtain ⟨rfl, hname, rfl⟩ := of_decide_eq_true h
      exact ⟨target, hlast, hname⟩
    · cases h
  · rintro ⟨target, hlast, hname⟩
    simp [hlast, hname]

theorem exists_countsDown {statement : WhileStmt} {name : TypeName}
    (h : unitDecrementLoopVariable statement = some name) :
    ∃ left earlier target, CountsDown statement name left earlier target := by
  unfold unitDecrementLoopVariable at h
  split at h
  next op left lowerBound statements hcondition hbody =>
    simp only at h
    split at h
    · cases h
    next hbound =>
      simp only [not_or, not_not] at hbound
      obtain ⟨rfl, -, rfl⟩ := hbound
      split at h
      · cases h
      next last hlast =>
        split at h
        · cases h
        next hwrites =>
          cases h
          simp only [not_or, Bool.not_eq_false, Bool.not_eq_true] at hwrites
          obtain ⟨target, hassign, hname⟩ := isUnitDecrement_iff.mp hwrites.1
          refine ⟨left, statements.dropLast, target, hcondition, ⟨last, ?_, hassign⟩, rfl, hname,
            hwrites.2⟩
          rw [hbody, List.dropLast_append_getLast? last hlast]
  · cases h

/-! ## The variable -/

/-- The name stands for an integer variable, in expressions as behind the loop. -/
structure Denotes (P : Program) (name : TypeName) (v : Variable) (t : IntegerType) : Prop where
  found : P.findVariable name = some v
  type : v.type = some t
  isCall : P.isCall (.identifier name) = false
  storage : P.storage name = v.address
  semanticType : P.typeOf (.identifier name) = some (.integer t)

/-- The memory has the word in the storage of the variable. -/
def HasWord (v : Variable) (t : IntegerType) (b : BitVec t.width) (m : Memory) : Prop :=
  m v.address = .integer ⟨t.width, b⟩

/-- What the assumption behind the loop says is so. -/
def FactHolds (P : Program) (statement : WhileStmt) (m : Memory) : Prop :=
  ∀ c, assumption P statement m = .ok (some c) → c = true

section Variable

variable {P : Program} {name : TypeName} {v : Variable} {t : IntegerType}
  {b : BitVec t.width} {m m' : Memory}

theorem width_pos (t : IntegerType) : 1 < t.width := by cases t <;> decide

theorem width_le_common (t : IntegerType) : t.width ≤ max (max t.width 32) 1 := by omega

theorem compareWords_neg_one {w : Nat} (hw : 1 < w) (b : BitVec w) :
    compareWords .signed .ge b (-1) = decide (-1 ≤ b.toInt) := by
  have hneg : (-1 : BitVec w).toInt = -1 := by
    change (-1#w).toInt = -1
    rw [BitVec.neg_one_eq_allOnes, BitVec.toInt_allOnes, if_pos (by omega)]
  rw [Bool.eq_iff_iff, decide_eq_true_iff, ← hneg]
  exact BitVec.sle_iff_toInt_le

theorem assumption_eq {statement : WhileStmt}
    (h : unitDecrementLoopVariable statement = some name) (hd : Denotes P name v t)
    (hm : HasWord v t b m) :
    assumption P statement m =
      if (ValueType.integer t).startsWithUint then .ok none
      else .ok (some (decide (-1 ≤ b.toInt))) := by
  have hm' : m v.address = .integer ⟨t.width, b⟩ := hm
  simp only [assumption, h, hd.found, hd.type, hm', compareWords_neg_one (width_pos t)]

theorem factHolds_of_le {statement : WhileStmt}
    (h : unitDecrementLoopVariable statement = some name) (hd : Denotes P name v t)
    (hm : HasWord v t b m) (hle : -1 ≤ b.toInt) : FactHolds P statement m := by
  intro c hc
  rw [assumption_eq h hd hm] at hc
  split at hc
  · cases hc
  · cases hc
    exact decide_eq_true hle

theorem semanticType_one : P.semanticType (.numberLiteral ['1']) = some (.integer .int32) := rfl

theorem semanticType_zero : P.semanticType (.numberLiteral ['0']) = some (.integer .int32) := rfl

/-- The difference at the common width, stored at the width of the variable. -/
theorem assigned_decrement (hd : Denotes P name v t) :
    assigned P (.identifier name) minusAssign (.numberLiteral ['1']) (.integer ⟨t.width, b⟩)
      (.integer ⟨32, 1⟩) = .ok (.integer ⟨t.width, b - 1⟩) := by
  have htype : P.semanticType (.identifier name) = some (.integer t) := hd.semanticType
  have hone : (Signedness.signed.cast (max (max t.width 32) 1) (1 : BitVec 32)).setWidth t.width =
      1 := by cases t <;> rfl
  have hword := Signedness.signed_cast_sub t.signedness (width_le_common t) b
    (Signedness.signed.cast (max (max t.width 32) 1) (1 : BitVec 32))
  rw [hone] at hword
  have happly : applyOperator P (.builtin (.arithmetic .sub)) (.identifier name)
      (.numberLiteral ['1']) (.integer ⟨t.width, b⟩) (.integer ⟨32, 1⟩) =
      .ok (.integer ⟨max (max t.width 32) 1, t.signedness.cast _ b -
        Signedness.signed.cast _ (1 : BitVec 32)⟩) := by
    simp only [applyOperator, htype, semanticType_one]
    cases h : unsignedOperation (.integer t) (.integer .int32) <;>
      simp only [applyBinary, h] <;> rfl
  simp only [assigned, minusAssign, happly]
  change Except.ok (coerce P (.identifier name) (.numberLiteral ['1']) _) = _
  simp only [coerce, htype, semanticType_one]
  exact congrArg (fun x => Except.ok (Value.integer ⟨t.width, x⟩)) hword

/-- `v >= 0` of a signed variable. -/
theorem applyOperator_test (hd : Denotes P name v t) (ht : t.signedness = .signed) :
    applyOperator P greaterEqual (.identifier name) (.numberLiteral ['0'])
      (.integer ⟨t.width, b⟩) (.integer ⟨32, 0⟩) = .ok (ofCondition (decide (0 ≤ b.toInt))) := by
  have htype : P.semanticType (.identifier name) = some (.integer t) := hd.semanticType
  have hsign : unsignedOperation (.integer t) (.integer .int32) = false := by
    cases t <;> first | rfl | cases ht
  have hread := Signedness.signed.read_cast (width_le_common t) b
  have hcompare : compareWords .signed .ge (Signedness.signed.cast (max (max t.width 32) 1) b)
      (Signedness.signed.cast (max (max t.width 32) 1) (0 : BitVec 32)) =
      decide (0 ≤ b.toInt) := by
    have hzero := Signedness.signed.read_cast (show 32 ≤ max (max t.width 32) 1 by omega)
      (0 : BitVec 32)
    rw [Signedness.read_signed, Signedness.read_signed] at hread hzero
    rw [Bool.eq_iff_iff, decide_eq_true_iff, ← hread, ← show (0 : BitVec 32).toInt = 0 from rfl,
      ← hzero]
    exact BitVec.sle_iff_toInt_le
  simp only [applyOperator, greaterEqual, htype, semanticType_zero, applyBinary, hsign,
    ValueType.extension, ht, ofCondition, ← hcompare]
  rfl

/-! ## One round -/

section Round

variable {statement : WhileStmt} {left : Expression} {earlier : List Statement} {o : Outcome}

theorem complete_eq_ok {allowed : Effect → Bool} {e : Expression} {d : Value} :
    complete P allowed e m = .ok (d, m') ↔ ∃ m₁ r, evaluate P allowed e m = .ok (d, m₁) ∧
      invoke P allowed (.temporaries e) [] m₁ = .ok (r, m') := by
  unfold complete
  rw [run_bind_eq_ok]
  constructor
  · rintro ⟨d', m₁, heval, h⟩
    obtain ⟨r, m₂, hinvoke, hpure⟩ := run_bind_eq_ok.mp h
    cases hpure
    exact ⟨m₁, r, heval, hinvoke⟩
  · rintro ⟨m₁, r, heval, hinvoke⟩
    exact ⟨d, m₁, heval, run_bind_eq_ok.mpr ⟨r, m', hinvoke, rfl⟩⟩

/-- `v -= 1`, where nothing else writes the variable. -/
theorem evaluate_decrement (hd : Denotes P name v t) (hm : HasWord v t b m) {d : Value}
    (h : evaluate P (apart name v.address)
      (.assignment (.identifier name) minusAssign (.numberLiteral ['1'])) m = .ok (d, m')) :
    HasWord v t (b - 1) m' := by
  unfold evaluate at h
  rw [if_neg (by simp [hd.isCall])] at h
  obtain ⟨address, m₁, haddress, h⟩ := run_bind_eq_ok.mp h
  obtain ⟨d₁, m₂, hvalue, h⟩ := run_bind_eq_ok.mp h
  obtain ⟨current, m₃, hload, h⟩ := run_bind_eq_ok.mp h
  obtain ⟨d₂, m₄, hassigned, h⟩ := run_bind_eq_ok.mp h
  obtain ⟨r, m₅, hcleanup, h⟩ := run_bind_eq_ok.mp h
  obtain ⟨u, m₆, hstore, h⟩ := run_bind_eq_ok.mp h
  cases h
  unfold evaluateAddress at haddress
  cases haddress
  unfold evaluate at hvalue
  have hnumber : numberValue P ['1'] = .ok (.integer ⟨32, 1⟩) := rfl
  rw [hnumber] at hvalue
  cases hvalue
  cases hload
  have hload : m (P.storage name) = .integer ⟨t.width, b⟩ := hd.storage ▸ hm
  rw [hload, assigned_decrement hd] at hassigned
  cases hassigned
  unfold store at hstore
  split at hstore
  · cases hstore
    change Function.update m₅ (P.storage name) _ v.address = _
    rw [hd.storage]
    exact Function.update_self ..
  · cases hstore

theorem execute_assignment {allowed : Effect → Bool} {last : Statement} {target value : Expression}
    {op : AssignmentOperator} (hlast : assignmentOf last = some (target, op, value)) :
    execute P allowed last = (do
      let _ ← complete P allowed (.assignment target op value)
      pure .normal) := by
  unfold assignmentOf at hlast
  split at hlast
  · cases hlast
    rw [execute]
  · cases hlast
    rw [execute]
  · cases hlast

theorem executeAll_append {allowed : Effect → Bool} {last : Statement}
    (h : executeAll P allowed (earlier ++ [last]) m = .ok (o, m')) :
    (o ≠ .normal ∧ executeAll P allowed earlier m = .ok (o, m')) ∨
      ∃ m₁, executeAll P allowed earlier m = .ok (.normal, m₁) ∧
        execute P allowed last m₁ = .ok (o, m') := by
  induction earlier generalizing m with
  | nil =>
    refine .inr ⟨m, rfl, ?_⟩
    obtain ⟨o₁, m₁, hlast, hrest⟩ := run_bind_eq_ok.mp h
    split at hrest
    next hnormal =>
      cases hrest
      rw [← hnormal, hlast]
    · cases hrest
      exact hlast
  | cons s earlier ih =>
    obtain ⟨o₁, m₁, hs, hrest⟩ := run_bind_eq_ok.mp h
    have hstart {r : Except Halt (Outcome × Memory)}
        (hr : (if o₁ = .normal then executeAll P allowed earlier else pure o₁) m₁ = r) :
        executeAll P allowed (s :: earlier) m = r :=
      (run_bind_of_ok (m := execute P allowed s) _ hs).trans hr
    split at hrest
    next hnormal =>
      rw [if_pos hnormal] at hstart
      rcases ih hrest with ⟨hne, hall⟩ | ⟨m₂, hall, hlast⟩
      · exact .inl ⟨hne, hstart hall⟩
      · exact .inr ⟨m₂, hstart hall, hlast⟩
    next hne =>
      rw [if_neg hne] at hstart
      cases hrest
      exact .inl ⟨hne, hstart rfl⟩

/-- A round keeps the variable, or ends with the decrement. -/
theorem execute_body (hshape : CountsDown statement name left earlier (.identifier name))
    (hd : Denotes P name v t) (hm : HasWord v t b m)
    (h : execute P (apart name v.address) statement.body m = .ok (o, m')) :
    HasWord v t b m' ∨ HasWord v t (b - 1) m' := by
  obtain ⟨last, hbody, hlast⟩ := hshape.body
  have hkeeps : Keeps (fun m : Memory => m v.address)
      (executeAll P (apart name v.address) earlier) := executeAll_keeps earlier hshape.earlier
  rw [hbody, execute] at h
  rcases executeAll_append h with ⟨-, hall⟩ | ⟨m₁, hall, hdecrement⟩
  · exact .inl ((hkeeps hall).trans hm)
  · rw [execute_assignment hlast] at hdecrement
    obtain ⟨d, m₂, hcomplete, hpure⟩ := run_bind_eq_ok.mp hdecrement
    cases hpure
    obtain ⟨m₃, r, heval, hinvoke⟩ := complete_eq_ok.mp hcomplete
    have hword := evaluate_decrement hd ((hkeeps hall).trans hm) heval
    exact .inr ((invoke_keeps (a := v.address) _ _ hinvoke).trans hword)

end Round

/-! ## Runs -/

/-- What the tests and the rounds keep holds where the loop is left. -/
theorem Exits.keeps {allowed : Effect → Bool} {tested : Memory → Bool → Memory → Prop}
    {statement : WhileStmt} {I J : Memory → Prop}
    (hfalse : ∀ {m m'}, I m → test P allowed statement m = .ok (false, m') →
      tested m false m' → I m')
    (htrue : ∀ {m m'}, I m → test P allowed statement m = .ok (true, m') →
      tested m true m' → J m')
    (hbody : ∀ {m o m'}, J m → execute P allowed statement.body m = .ok (o, m') → I m')
    (h : Exits P allowed tested statement m m') (hm : I m) : I m' := by
  induction h with
  | done htest hok => exact hfalse hm htest hok
  | breaks htest hok hround => exact hbody (htrue hm htest hok) hround
  | next htest hok hround _ _ ih => exact ih (hbody (htrue hm htest hok) hround)

/-- The variable is at least `n`. -/
def AtLeast (v : Variable) (t : IntegerType) (n : ℤ) (m : Memory) : Prop :=
  ∃ b, HasWord v t b m ∧ n ≤ b.toInt

/-- Evaluating the condition leaves the variable, and the body is entered where it is not
negative. -/
def steady (v : Variable) (t : IntegerType) (before : Memory) (taken : Bool) (after : Memory) :
    Prop :=
  after v.address = before v.address ∧ (taken = true → AtLeast v t 0 after)

section Run

variable {statement : WhileStmt} {left : Expression} {earlier : List Statement}

/-- A round from 0 up ends at -1 or above. -/
theorem execute_body_atLeast
    (hshape : CountsDown statement name left earlier (.identifier name))
    (hd : Denotes P name v t) (hm : AtLeast v t 0 m) {o : Outcome}
    (h : execute P (apart name v.address) statement.body m = .ok (o, m')) :
    AtLeast v t (-1) m' := by
  obtain ⟨b, hword, hb⟩ := hm
  rcases execute_body hshape hd hword h with hsame | hless
  · exact ⟨b, hsame, by omega⟩
  · refine ⟨b - 1, hless, ?_⟩
    rw [Signedness.toInt_sub_one (width_pos t) hb]
    omega

theorem steady_run (hshape : CountsDown statement name left earlier (.identifier name))
    (hd : Denotes P name v t)
    (h : Exits P (apart name v.address) (steady v t) statement m m')
    (hm : AtLeast v t (-1) m) : AtLeast v t (-1) m' := by
  refine h.keeps (J := AtLeast v t 0) ?_ ?_ ?_ hm
  · rintro m m' ⟨b, hword, hb⟩ - ⟨hkeep, -⟩
    exact ⟨b, hkeep.trans hword, hb⟩
  · exact fun _ _ hok => hok.2 rfl
  · exact fun hm hround => execute_body_atLeast hshape hd hm hround

/-- The condition compares the variable itself, by the comparison of the language, and
leaves no temporaries. -/
structure ComparesItself (P : Program) (statement : WhileStmt) (name : TypeName)
    (left : Expression) : Prop where
  left : left = .identifier name
  isCall : P.isCall statement.condition = false
  temporaries : ∀ m, ∃ r, P.call (.temporaries statement.condition) [] m = .ok (r, m)

theorem test_itself (hshape : CountsDown statement name left earlier (.identifier name))
    (hd : Denotes P name v t) (ht : t.signedness = .signed)
    (hc : ComparesItself P statement name left) (hm : HasWord v t b m) :
    test P (apart name v.address) statement m = .ok (decide (0 ≤ b.toInt), m) := by
  obtain rfl := hc.left
  obtain ⟨r, htemporaries⟩ := hc.temporaries m
  have hload : m (P.storage name) = .integer ⟨t.width, b⟩ := hd.storage ▸ hm
  have hidentifier : evaluate P (apart name v.address) (.identifier name) m =
      .ok (.integer ⟨t.width, b⟩, m) := by
    unfold evaluate
    rw [if_neg (by simp [hd.isCall]), ← hload]
    rfl
  have hzero : evaluate P (apart name v.address) (.numberLiteral ['0']) m =
      .ok (.integer ⟨32, 0⟩, m) := by
    unfold evaluate
    rfl
  have heval : evaluate P (apart name v.address)
      (.binary greaterEqual (.identifier name) (.numberLiteral ['0'])) m =
      .ok (ofCondition (decide (0 ≤ b.toInt)), m) := by
    have hcall := hc.isCall
    rw [hshape.condition] at hcall
    unfold evaluate
    rw [run_bind_of_ok _ hidentifier, if_neg (by simp [greaterEqual]), run_bind_of_ok _ hzero,
      if_neg (by simp [hcall]), applyOperator_test hd ht]
    rfl
  have hinvoke : invoke P (apart name v.address) (.temporaries statement.condition) [] m =
      .ok (r, m) := by
    unfold invoke
    rw [htemporaries]
    exact if_pos (by simp [apart])
  rw [hshape.condition] at hinvoke
  have hcomplete : complete P (apart name v.address) statement.condition m =
      .ok (ofCondition (decide (0 ≤ b.toInt)), m) := by
    rw [hshape.condition]
    exact complete_eq_ok.mpr ⟨m, r, heval, hinvoke⟩
  unfold test
  rw [run_bind_of_ok _ hcomplete]
  cases decide (0 ≤ b.toInt) <;> rfl

/-- Behind a loop that compares its signed variable itself the fact holds on every way out
where the variable is at least -1 on the way in. -/
theorem compared_iff (hfound : unitDecrementLoopVariable statement = some name)
    (hshape : CountsDown statement name left earlier (.identifier name))
    (hd : Denotes P name v t) (ht : t.signedness = .signed)
    (hc : ComparesItself P statement name left) (hm : HasWord v t b m) :
    (∀ m', Exits P (apart name v.address) (fun _ _ _ => True) statement m m' →
      FactHolds P statement m') ↔ -1 ≤ b.toInt := by
  constructor
  · intro hall
    by_contra hlow
    have htest := test_itself hshape hd ht hc hm
    rw [decide_eq_false (show ¬0 ≤ b.toInt by omega)] at htest
    have hfact := hall m (.done htest trivial) (decide (-1 ≤ b.toInt))
    rw [assumption_eq hfound hd hm] at hfact
    have hsigned : (ValueType.integer t).startsWithUint = false := by
      cases t <;> first | rfl | cases ht
    rw [hsigned] at hfact
    exact hlow (of_decide_eq_true (hfact rfl))
  · intro hlow m' hexits
    obtain ⟨b', hword, hb'⟩ : AtLeast v t (-1) m' := by
      refine hexits.keeps (J := AtLeast v t 0) (I := AtLeast v t (-1)) ?_ ?_ ?_ ⟨b, hm, hlow⟩
      · rintro m m' ⟨b, hword, hb⟩ htest -
        rw [test_itself hshape hd ht hc hword] at htest
        obtain ⟨-, hsame⟩ := Prod.mk.inj (Except.ok.inj htest)
        exact ⟨b, hsame ▸ hword, hb⟩
      · rintro m m' ⟨b, hword, hb⟩ htest -
        rw [test_itself hshape hd ht hc hword] at htest
        obtain ⟨hpositive, hsame⟩ := Prod.mk.inj (Except.ok.inj htest)
        exact ⟨b, hsame ▸ hword, of_decide_eq_true hpositive⟩
      · exact fun hm hround => execute_body_atLeast hshape hd hm hround
    exact factHolds_of_le hfound hd hword hb'

end Run

/-- Of a loop that is found: the statements before the last keep the variable, but for calls
and other names. Where the last statement takes one from the variable itself, the fact holds
on every way out of a run that is entered from -1 up, does not write the variable elsewhere
and enters the body from 0 up. A comparison of the signed variable itself sees to the last
two of its own, and then the loop has to be entered from -1 up. -/
theorem loop_fact {statement : WhileStmt}
    (hfound : unitDecrementLoopVariable statement = some name) (hd : Denotes P name v t) :
    ∃ left earlier target, CountsDown statement name left earlier target ∧
      (∀ s ∈ earlier, ∀ m o m', execute P (apart name v.address) s m = .ok (o, m') →
        m' v.address = m v.address) ∧
      (target = .identifier name → ∀ m m', AtLeast v t (-1) m →
        Exits P (apart name v.address) (steady v t) statement m m' → FactHolds P statement m') ∧
      (target = .identifier name → t.signedness = .signed →
        ComparesItself P statement name left → ∀ b m, HasWord v t b m →
          ((∀ m', Exits P (apart name v.address) (fun _ _ _ => True) statement m m' →
            FactHolds P statement m') ↔ -1 ≤ b.toInt)) := by
  obtain ⟨left, earlier, target, hshape⟩ := exists_countsDown hfound
  refine ⟨left, earlier, target, hshape, fun s hs m o m' hrun => ?_, ?_, ?_⟩
  · exact execute_keeps s (mayWrite_of_mem hshape.earlier hs) hrun
  · rintro rfl m m' hm hexits
    obtain ⟨b, hword, hb⟩ := steady_run hshape hd hexits hm
    exact factHolds_of_le hfound hd hword hb
  · rintro rfl ht hc b m hm
    exact compared_iff hfound hshape hd ht hc hm

end Variable

/-! ### Two loops -/

/-- A program with one variable. -/
def oneVariable (t : IntegerType) : Program where
  typeOf := fun _ => some (.integer t)
  findVariable := fun _ => some ⟨0, some t⟩
  storage := fun _ => 0
  isCall := fun _ => false
  call := fun _ _ m => .ok (.other 0, m)
  elementAddress := fun _ _ _ => .error (.fail "object is not an array")
  otherAddress := fun _ _ => .error (.fail "expression is not assignable")
  constant := fun _ => .other 0
  operation := fun _ _ _ => .error (.fail "binary operator requires numeric operands")
  conversion := fun _ _ d => d
  truth := fun _ => false

def position : TypeName := "position".toList

def decrement : Statement :=
  .assignmentStmt (.identifier position) minusAssign (.numberLiteral ['1'])

/-- `while (position >= 0) { position -= 1; }` -/
def countDown : WhileStmt where
  condition := .binary greaterEqual (.identifier position) (.numberLiteral ['0'])
  body := .compoundStmt [decrement]

theorem oneVariable_denotes (name : TypeName) (t : IntegerType) :
    Denotes (oneVariable t) name ⟨0, some t⟩ t := ⟨rfl, rfl, rfl, rfl, rfl⟩

theorem countDown_found : unitDecrementLoopVariable countDown = some position := rfl

theorem loop_fact_from_zero : ∃ m',
    Exits (oneVariable .int32) (apart position 0) (fun _ _ _ => True) countDown
      (fun _ => .integer ⟨32, 0⟩) m' ∧ FactHolds (oneVariable .int32) countDown m' := by
  obtain ⟨left, earlier, target, hshape, -, -, hiff⟩ :=
    loop_fact countDown_found (oneVariable_denotes position .int32)
  have hleft : left = .identifier position := by
    cases hshape.condition
    rfl
  have htarget : target = .identifier position := by
    obtain ⟨last, hbody, hlast⟩ := hshape.body
    obtain ⟨-, hsame⟩ := List.append_inj' (show [] ++ [decrement] = earlier ++ [last] from
      Statement.compoundStmt.inj hbody) rfl
    cases hsame
    cases hlast
    rfl
  have hc : ComparesItself (oneVariable .int32) countDown position left :=
    ⟨hleft, rfl, fun m => ⟨_, rfl⟩⟩
  have hfact := (hiff htarget rfl hc 0 (fun _ => .integer ⟨32, 0⟩) rfl).mpr (by decide)
  have hexits : Exits (oneVariable .int32) (apart position 0) (fun _ _ _ => True) countDown
      (fun _ => .integer ⟨32, 0⟩) _ :=
    .next rfl trivial rfl (by decide) (.done rfl trivial)
  exact ⟨_, hexits, hfact _ hexits⟩

/-- A loop that is entered below -1 is left at once. -/
theorem entered_below : ¬∀ (P : Program) (statement : WhileStmt) (name : TypeName)
    (v : Variable) (t : IntegerType) (b : BitVec t.width) (m m' : Memory),
    unitDecrementLoopVariable statement = some name → Denotes P name v t → HasWord v t b m →
      Exits P (fun _ => true) (fun _ _ _ => True) statement m m' → FactHolds P statement m' := by
  intro hall
  have hfact := hall (oneVariable .int32) countDown position ⟨0, some .int32⟩ .int32 (-5)
    (fun _ => .integer ⟨32, -5⟩) _ countDown_found (oneVariable_denotes position .int32) rfl
    (.done rfl trivial) false rfl
  cases hfact

end Loops

end Absolute
