import Absolute.CgPlaces

/-!
# An expression evaluated again

The accessors of a property are called on a receiver that is evaluated anew for each.
Two evaluations of one expression emit the same effects over values that differ in
what was brought or loaded in between (`visit_inPace`). The second gives the value of
the first exactly when that value is settled: it is the result of no call, and nothing
it was loaded from was written since (`Again.eq_iff`).
-/

namespace Absolute

namespace Places

open Paired

/-- No part of the value is the result of a call, and what it was loaded from
satisfies `P`. -/
def Value.Settled (P : Value → Prop) : Value → Prop
  | .constant _ | .given _ | .currentThis | .function _ => True
  | .result _ => False
  | .load address _ => P address ∧ address.Settled P
  | .field object _ => object.Settled P
  | .offset base index => base.Settled P ∧ index.Settled P
  | .pointee handle => handle.Settled P
  | .extract aggregate _ => aggregate.Settled P
  | .unary _ operand => operand.Settled P
  | .binary _ left right => left.Settled P ∧ right.Settled P

section

variable (C : Context) (t u : List Effect)

/-- The values one expression gives after `t` and after `u`. -/
inductive Again : Value → Value → Prop
  | constant (n : Int) : Again (.constant n) (.constant n)
  | given (n : Nat) : Again (.given n) (.given n)
  | currentThis : Again .currentThis .currentThis
  | function (name : TypeName) : Again (.function name) (.function name)
  | result {p q : Nat} (h : q ≠ p) : Again (.result p) (.result q)
  | load {a b : Value} {k l : Nat} (address : Again a b)
      (h : b = a → (l = k ↔ version C u a = version C t a)) : Again (.load a k) (.load b l)
  | field {a b : Value} (member : TypeName) (object : Again a b) :
      Again (.field a member) (.field b member)
  | offset {a b i j : Value} (base : Again a b) (index : Again i j) :
      Again (.offset a i) (.offset b j)
  | pointee {a b : Value} (handle : Again a b) : Again (.pointee a) (.pointee b)
  | extract {a b : Value} (n : Nat) (aggregate : Again a b) :
      Again (.extract a n) (.extract b n)
  | unary {a b : Value} (op : String) (operand : Again a b) : Again (.unary op a) (.unary op b)
  | binary {a b i j : Value} (op : String) (left : Again a b) (right : Again i j) :
      Again (.binary op a i) (.binary op b j)

/-- The effects one expression has after `t` and after `u`. -/
inductive EffectAgain : Effect → Effect → Prop
  | check {a b i j : Value} (index : Again C t u a b) (dimension : Again C t u i j) :
      EffectAgain (.check a i) (.check b j)
  | managedGet {a b : Value} (handle : Again C t u a b) :
      EffectAgain (.managedGet a) (.managedGet b)
  | spill {a b : Value} (value : Again C t u a b) : EffectAgain (.spill a) (.spill b)
  | call (number : Nat) : EffectAgain (.call number) (.call number)
  | get {a b : Value} {is js : List Value} (accessor : Accessor) (object : Again C t u a b)
      (arguments : List.Forall₂ (Again C t u) is js) :
      EffectAgain (.get accessor a is) (.get accessor b js)

/-- What was emitted since `t` and since `u` is one expression's doing. -/
def Since (s v : List Effect) : Prop :=
  ∃ xs ys, s = t ++ xs ∧ v = u ++ ys ∧ List.Forall₂ (EffectAgain C t u) xs ys

end

variable {C : Context} {t u : List Effect}

/-- The second evaluation gives the value of the first exactly when that is settled. -/
theorem Again.eq_iff {v w : Value} (h : Again C t u v w) :
    w = v ↔ v.Settled fun a => version C u a = version C t a := by
  induction h with
  | constant | given | currentThis | function => simp [Value.Settled]
  | result h => simp [Value.Settled, h]
  | load _ hversion ih =>
      rw [Value.load.injEq, Value.Settled, ← ih]
      constructor
      · rintro ⟨rfl, hk⟩
        exact ⟨(hversion rfl).mp hk, rfl⟩
      · rintro ⟨hk, rfl⟩
        exact ⟨rfl, (hversion rfl).mpr hk⟩
  | field _ _ ih => simp [Value.Settled, ← ih]
  | offset _ _ ihb ihi => simp [Value.Settled, ← ihb, ← ihi]
  | pointee _ ih => simp [Value.Settled, ← ih]
  | extract _ _ ih => simp [Value.Settled, ← ih]
  | unary _ _ ih => simp [Value.Settled, ← ih]
  | binary _ _ _ ihl ihr => simp [Value.Settled, ← ihl, ← ihr]

theorem EffectAgain.writes_eq {x y : Effect} (h : EffectAgain C t u x y) (a : Value) :
    y.writes C a = x.writes C a := by
  cases h <;> rfl

theorem countP_writes_eq {xs ys : List Effect} (h : List.Forall₂ (EffectAgain C t u) xs ys)
    (a : Value) : ys.countP (Effect.writes C a) = xs.countP (Effect.writes C a) := by
  induction h with
  | nil => rfl
  | cons hxy _ ih => rw [List.countP_cons, List.countP_cons, hxy.writes_eq, ih]

/-! ## The steps of an emission -/

theorem Since.start : Since C t u t u := ⟨[], [], by simp, by simp, .nil⟩

theorem Since.snoc {s v : List Effect} {x y : Effect} (h : Since C t u s v)
    (hxy : EffectAgain C t u x y) : Since C t u (s ++ [x]) (v ++ [y]) := by
  obtain ⟨xs, ys, rfl, rfl, hall⟩ := h
  refine ⟨xs ++ [x], ys ++ [y], List.append_assoc .., List.append_assoc .., ?_⟩
  exact List.rel_append hall (.cons hxy .nil)

theorem Since.version_eq {s v : List Effect} (h : Since C t u s v) (a : Value) :
    version C v a = version C s a ↔ version C u a = version C t a := by
  obtain ⟨xs, ys, rfl, rfl, hall⟩ := h
  simp only [version, List.countP_append, countP_writes_eq hall, Nat.add_right_cancel_iff]

theorem emit_inPace {x y : Effect} (h : EffectAgain C t u x y) :
    InPace (Since C t u) Eq (emit x) (emit y) :=
  fun _ _ hs => .ended rfl (hs.snoc h)

theorem produce_inPace (hlt : t.length < u.length) {x y : Effect} (h : EffectAgain C t u x y) :
    InPace (Since C t u) (Again C t u) (produce x) (produce y) := by
  intro s v hs
  refine .ended (.result ?_) (hs.snoc h)
  obtain ⟨xs, ys, rfl, rfl, hall⟩ := hs
  rw [List.length_append, List.length_append, hall.length_eq]
  omega

theorem load_inPace {a b : Value} (h : Again C t u a b) :
    InPace (Since C t u) (Again C t u) (load C a) (load C b) := by
  intro s v hs
  refine .ended (.load h ?_) hs
  rintro rfl
  exact hs.version_eq b

theorem fail_inPace {α β : Type} {R : α → β → Prop} (message : String) :
    InPace (Since C t u) R (fail message) (fail message) :=
  InPace.fail message

/-! ## The visitors -/

/-- Two emissions of one expression. -/
abbrev Repeats (C : Context) (t u : List Effect) (m n : Emission Value) : Prop :=
  InPace (Since C t u) (Again C t u) m n

theorem place_repeats {mode : Bool} {a b : Value} (h : Again C t u a b) :
    Repeats C t u (place C mode a) (place C mode b) := by
  unfold place
  split
  · exact .pure h
  · exact load_inPace h

theorem managedPointee_repeats {e : Operand} {a b : Value} (h : Again C t u a b) :
    Repeats C t u (managedPointee C e a) (managedPointee C e b) := by
  unfold managedPointee
  split
  · exact load_inPace (.given _)
  · exact (emit_inPace (.managedGet h)).bind fun _ _ _ => .pure (.pointee h)

theorem objectPointer_repeats (hlt : t.length < u.length) {mode : Bool} {e : Operand}
    {value address : Emission Value} (hvalue : Repeats C t u value value)
    (haddress : Repeats C t u address address) :
    Repeats C t u (objectPointer C mode e value address)
      (objectPointer C mode e value address) := by
  unfold objectPointer
  split
  · refine hvalue.bind fun a b hab => ?_
    split
    · exact managedPointee_repeats hab
    · exact .pure hab
  · split
    · exact hvalue.bind fun a b hab => produce_inPace hlt (.spill hab)
    · exact haddress

theorem implicitReceiver_repeats :
    Repeats C t u (implicitReceiver C) (implicitReceiver C) := by
  unfold implicitReceiver
  split
  · exact .pure .currentThis
  · exact fail_inPace _

theorem emitGetter_repeats (hlt : t.length < u.length) {accessor : Accessor}
    {object : Emission Value} (hobject : Repeats C t u object object) {is js : List Value}
    (h : List.Forall₂ (Again C t u) is js) :
    Repeats C t u (emitGetter accessor object is) (emitGetter accessor object js) :=
  hobject.bind fun _ _ hab => produce_inPace hlt (.get accessor hab h)

/-- Two views of one array. -/
def ViewAgain (C : Context) (t u : List Effect) (v w : View) : Prop :=
  Again C t u v.address w.address ∧ List.Forall₂ (Again C t u) v.dimensions w.dimensions

theorem Dimension.again (d : Dimension) : Again C t u d.value d.value := by
  cases d with
  | constant n => exact .constant n
  | measured n => exact .given n

theorem Variable.viewAgain (v : Variable) : ViewAgain C t u v.view v.view := by
  refine ⟨.given _, ?_⟩
  rw [Variable.view, List.forall₂_map_left_iff, List.forall₂_map_right_iff, List.forall₂_same]
  exact fun d _ => d.again

theorem viewOfArray_inPace {e : Operand} {value : Emission Value}
    (hvalue : Repeats C t u value value) :
    InPace (Since C t u) (ViewAgain C t u) (viewOfArray C e value) (viewOfArray C e value) := by
  unfold viewOfArray
  split
  · split
    · exact .pure (Variable.viewAgain _)
    · exact fail_inPace _
  · refine hvalue.bind fun a b hab => ?_
    unfold arrayViewFromValue
    split
    · exact fail_inPace _
    · refine .pure ⟨.extract 0 hab, ?_⟩
      rw [List.forall₂_map_left_iff, List.forall₂_map_right_iff, List.forall₂_same]
      exact fun n _ => .extract _ hab

theorem foldl_mul_again {a b : Value} (h : Again C t u a b) {ds es : List Value}
    (hds : List.Forall₂ (Again C t u) ds es) :
    Again C t u (ds.foldl (.binary "*") a) (es.foldl (.binary "*") b) := by
  induction hds generalizing a b with
  | nil => exact h
  | cons hd _ ih => exact ih (.binary "*" h hd)

theorem linearOffsetFrom_again {a b : Value} (h : Again C t u a b) {is js ds es : List Value}
    (his : List.Forall₂ (Again C t u) is js) (hds : List.Forall₂ (Again C t u) ds es) :
    Again C t u (linearOffsetFrom a is ds) (linearOffsetFrom b js es) := by
  induction his generalizing a b ds es with
  | nil => exact foldl_mul_again h hds
  | cons hi _ ih =>
      cases hds with
      | nil => exact h
      | cons hd hds => exact ih (.binary "+" (.binary "*" h hd) hi) hds

theorem linearOffset_again {is js ds es : List Value} (his : List.Forall₂ (Again C t u) is js)
    (hds : List.Forall₂ (Again C t u) ds es) :
    Again C t u (linearOffset is ds) (linearOffset js es) := by
  cases his with
  | nil => exact foldl_mul_again (.constant 0) hds
  | cons hi his =>
      cases hds with
      | nil => exact .constant 0
      | cons _ hds => exact linearOffsetFrom_again hi his hds

theorem checkIndex_inPace {a b : Value} (h : Again C t u a b) {d e : Option Value}
    (hd : Option.Rel (Again C t u) d e) :
    InPace (Since C t u) Eq (checkIndex a d) (checkIndex b e) := by
  cases hd with
  | none => exact .pure rfl
  | some hd => exact emit_inPace (.check h hd)

theorem visitStorage_repeats {mode : Bool} {name : TypeName} :
    Repeats C t u (visitStorage C mode name) (visitStorage C mode name) := by
  simp only [visitStorage]
  split
  · split
    · exact place_repeats (.given _)
    · exact fail_inPace _
  · split
    · split
      · exact .pure (.unary _ (.given _))
      · exact place_repeats (.given _)
    · split
      · exact place_repeats (.field _ .currentThis)
      · exact fail_inPace _

theorem visitIdentifier_repeats (hlt : t.length < u.length) {mode : Bool} {name : TypeName} :
    Repeats C t u (visitIdentifier C mode name) (visitIdentifier C mode name) := by
  unfold visitIdentifier
  split
  · split
    · exact fail_inPace _
    · exact .pure (.function name)
  · split
    · exact fail_inPace _
    · exact emitGetter_repeats hlt implicitReceiver_repeats .nil
  · exact visitStorage_repeats

section

variable {mode : Bool} {base : Operand} {member : TypeName} {value address : Emission Value}

theorem visitTupleMember_repeats {elements : List TypeName}
    (hvalue : Repeats C t u value value) (haddress : Repeats C t u address address) :
    Repeats C t u (visitTupleMember mode elements member value address)
      (visitTupleMember mode elements member value address) := by
  unfold visitTupleMember
  split
  · split
    · exact fail_inPace _
    · exact .pure (.constant _)
  · split
    · exact fail_inPace _
    · split
      · exact fail_inPace _
      · split
        · exact haddress.bind fun _ _ h => .pure (.field _ h)
        · exact hvalue.bind fun _ _ h => .pure (.extract _ h)

theorem visitField_repeats (hlt : t.length < u.length)
    (hvalue : Repeats C t u value value) (haddress : Repeats C t u address address) :
    Repeats C t u (visitField C mode base member value address)
      (visitField C mode base member value address) := by
  unfold visitField
  split
  · exact fail_inPace _
  · split
    · exact (objectPointer_repeats hlt hvalue haddress).bind fun _ _ h =>
        place_repeats (.field _ h)
    · exact fail_inPace _

theorem visitMember_repeats (hlt : t.length < u.length)
    (hvalue : Repeats C t u value value) (haddress : Repeats C t u address address) :
    Repeats C t u (visitMember C mode base member value address)
      (visitMember C mode base member value address) := by
  simp only [visitMember]
  split
  · split
    · exact fail_inPace _
    · exact emitGetter_repeats hlt (objectPointer_repeats hlt hvalue haddress) .nil
  split
  · split
    · exact place_repeats (.given _)
    · exact fail_inPace _
  split
  · split
    · exact fail_inPace _
    · exact .pure (.constant _)
  split
  · unfold visitCount
    split
    · exact fail_inPace _
    · exact hvalue.bind fun _ _ h => .pure (.unary _ (.extract _ h))
  split
  · exact visitTupleMember_repeats hvalue haddress
  · exact visitField_repeats hlt hvalue haddress

theorem visitPointerElement_repeats {count : Nat} {indexes : Emission (List Value)}
    (hvalue : Repeats C t u value value)
    (hindexes : InPace (Since C t u) (List.Forall₂ (Again C t u)) indexes indexes) :
    Repeats C t u (visitPointerElement C mode count value indexes)
      (visitPointerElement C mode count value indexes) := by
  unfold visitPointerElement
  split
  · exact fail_inPace _
  · refine hvalue.bind fun _ _ h => hindexes.bind fun is js his => ?_
    refine place_repeats (.offset h ?_)
    cases his with
    | nil => exact .constant 0
    | cons hi _ => exact hi

theorem visitElement_repeats {count : Nat} {v w : View} (h : ViewAgain C t u v w)
    {is js : Emission (List Value)}
    (hindexes : InPace (Since C t u) (List.Forall₂ (Again C t u)) is js) :
    Repeats C t u (visitElement C mode count v is) (visitElement C mode count w js) := by
  unfold visitElement
  rw [h.2.length_eq]
  split
  · exact fail_inPace _
  · split
    · split
      · exact fail_inPace _
      · exact hindexes.bind fun _ _ his =>
          .pure (.unary _ (.offset h.1 (linearOffset_again his h.2)))
    · exact hindexes.bind fun _ _ his =>
        place_repeats (.offset h.1 (linearOffset_again his h.2))

end

mutual

/-- Visited again, an expression emits the same effects over values that differ in
what was brought or loaded in between. -/
theorem visit_repeats (hlt : t.length < u.length) (mode : Bool) :
    ∀ e : Operand, Repeats C t u (visit C mode e) (visit C mode e)
  | .identifier name => by
      rw [visit]
      exact visitIdentifier_repeats hlt
  | .numberLiteral n => by
      rw [visit]
      split
      · exact fail_inPace _
      · exact .pure (.constant n)
  | .memberAccess base member => by
      rw [visit]
      exact visitMember_repeats hlt (visit_repeats hlt false base) (visit_repeats hlt true base)
  | .arrayAccess base indexes => by
      have hbase := visit_repeats hlt false base
      simp only [visit]
      split
      · split
        · exact fail_inPace _
        · exact (visitIndexes_inPace hlt .nil indexes).bind fun _ _ h =>
            emitGetter_repeats hlt
              (objectPointer_repeats hlt hbase (visit_repeats hlt true base)) h
      · split
        · exact visitPointerElement_repeats hbase (visitIndexes_inPace hlt .nil indexes)
        · exact (viewOfArray_inPace hbase).bind fun _ _ h =>
            visitElement_repeats h (visitIndexes_inPace hlt h.2 indexes)
  | .dereference operand => by
      rw [visit]
      refine (visit_repeats hlt false operand).bind fun _ _ h => ?_
      split
      · exact (managedPointee_repeats h).bind fun _ _ h => place_repeats h
      · exact (InPace.pure h).bind fun _ _ h => place_repeats h
  | .addressOf operand => by
      rw [visit]
      split
      · exact fail_inPace _
      · exact visit_repeats hlt true operand
  | .unary op operand => by
      rw [visit]
      split
      · exact fail_inPace _
      · exact (visit_repeats hlt false operand).bind fun _ _ h => .pure (.unary op h)
  | .binary op left right => by
      rw [visit]
      split
      · exact fail_inPace _
      · exact (visit_repeats hlt false left).bind fun _ _ hl =>
          (visit_repeats hlt false right).bind fun _ _ hr => .pure (.binary op hl hr)
  | .call callee number => by
      rw [visit]
      split
      · exact fail_inPace _
      · exact produce_inPace hlt (.call number)

theorem visitIndexes_inPace (hlt : t.length < u.length) {ds es : List Value}
    (hds : List.Forall₂ (Again C t u) ds es) :
    ∀ indexes : List Operand,
      InPace (Since C t u) (List.Forall₂ (Again C t u)) (visitIndexes C ds indexes)
        (visitIndexes C es indexes)
  | [] => by
      simp only [visitIndexes]
      exact .pure .nil
  | e :: indexes => by
      simp only [visitIndexes]
      refine (visit_repeats hlt false e).bind fun _ _ hi => ?_
      refine (checkIndex_inPace hi ?_).bind fun _ _ _ => ?_
      · cases hds with
        | nil => exact .none
        | cons hd _ => exact .some hd
      · refine (visitIndexes_inPace hlt ?_ indexes).bind fun _ _ h => .pure (.cons hi h)
        cases hds with
        | nil => exact .nil
        | cons _ hds => exact hds

end

end Places

end Absolute
