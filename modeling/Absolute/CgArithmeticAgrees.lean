import Absolute.CgArithmetic

/-!
# Does the emitted arithmetic agree with the static types?

The ladder of types is written twice, and the two differ in three places: two
different types below 32 bits meet at `int32` for the analyzer and at the
wider of the two for the backend; a small unsigned operand beside an `int32`
makes the emitted operation unsigned; and two chars are divided, shifted and
ordered as signed. A fourth is the literal of 2^31 under a minus. Away from
these every value and every width agrees, at any depth
(`arithmetic_agrees_iff`).
-/

namespace Absolute

/-! ## One operator under two signs -/

section Operators

variable {w : Nat} {s : Signedness} {a b : BitVec w}

/-- Comparison of integers. -/
def ComparisonOp.Holds (op : ComparisonOp) (x y : Int) : Prop :=
  match op with
  | .eq => x = y
  | .ne => x ≠ y
  | .lt => x < y
  | .le => x ≤ y
  | .gt => y < x
  | .ge => y ≤ x

/-- The `icmp` instructions compare the values as they are read. -/
theorem compareWords_iff {op : ComparisonOp} :
    compareWords s op a b = true ↔ op.Holds (s.read a) (s.read b) := by
  cases op with
  | eq => rw [compareWords, beq_iff_eq, ComparisonOp.Holds, Signedness.read_inj]
  | ne => rw [compareWords, bne_iff_ne, ComparisonOp.Holds, ne_eq, ne_eq, Signedness.read_inj]
  | lt => cases s <;> simp [compareWords, ComparisonOp.Holds, BitVec.slt, BitVec.ult]
  | le => cases s <;> simp [compareWords, ComparisonOp.Holds, BitVec.sle, BitVec.ule]
  | gt => cases s <;> simp [compareWords, ComparisonOp.Holds, BitVec.slt, BitVec.ult]
  | ge => cases s <;> simp [compareWords, ComparisonOp.Holds, BitVec.sle, BitVec.ule]

/-- The operator gives the same on these words whichever way they are read. -/
def SignFree (op : BinaryOp) (a b : BitVec w) : Prop :=
  match op with
  | .comparison .eq | .comparison .ne => True
  | .comparison _ => 2 * a.toNat < 2 ^ w ↔ 2 * b.toNat < 2 ^ w
  | .arithmetic .div => a.toInt.tdiv b.toInt % 2 ^ w = a.toNat / b.toNat
  | .arithmetic .rem => a.toInt.tmod b.toInt % 2 ^ w = a.toNat % b.toNat
  | .arithmetic .shr => 2 * a.toNat < 2 ^ w ∨ b.toNat = 0
  | .arithmetic _ => True

theorem signed_eq_unsigned_iff {r : BitVec w} {z : Int} {n : Nat} (hr : r.toInt = z.bmod (2 ^ w))
    (hn : n < 2 ^ w) {u : BitVec w} (hu : u.toNat = n) : r = u ↔ z % 2 ^ w = n := by
  have hrz : r = BitVec.ofInt w z := BitVec.eq_of_toInt_eq (by rw [hr, BitVec.toInt_ofInt])
  have hun : u = BitVec.ofInt w (n : Int) := by
    rw [BitVec.ofInt_natCast, ← hu, BitVec.ofNat_toNat, BitVec.setWidth_eq]
  have hmod : (n : Int) % 2 ^ w = n := by
    rw [Int.emod_eq_of_lt (Int.natCast_nonneg n)]
    exact_mod_cast hn
  rw [hrz, hun, Signedness.ofInt_eq_ofInt, hmod]

theorem compute_sign_iff {op : ArithmeticOp} (hshift : op = .shr → b.toNat < w) :
    compute .signed op a b = compute .unsigned op a b ↔ SignFree (.arithmetic op) a b := by
  cases op with
  | div =>
      exact signed_eq_unsigned_iff (BitVec.toInt_sdiv a b)
        (Nat.lt_of_le_of_lt (Nat.div_le_self _ _) a.isLt) BitVec.toNat_udiv
  | rem =>
      have hbmod : (a.srem b).toInt = (a.toInt.tmod b.toInt).bmod (2 ^ w) := by
        rw [← BitVec.toInt_srem, BitVec.toInt_bmod_cancel]
      exact signed_eq_unsigned_iff hbmod (Nat.lt_of_le_of_lt (Nat.mod_le _ _) a.isLt)
        BitVec.toNat_umod
  | shr => exact Signedness.sshiftRight_eq_iff (hshift rfl)
  | _ => exact ⟨fun _ => trivial, fun _ => rfl⟩

theorem compareWords_sign_iff (op : ComparisonOp) :
    compareWords .signed op a b = compareWords .unsigned op a b ↔
      SignFree (.comparison op) a b := by
  have hlt := Signedness.signed_lt_iff_unsigned_lt (a := a) (b := b)
  have hgt := Signedness.signed_lt_iff_unsigned_lt (a := b) (b := a)
  rw [Bool.eq_iff_iff, compareWords_iff, compareWords_iff]
  cases op with
  | eq => simp only [ComparisonOp.Holds, SignFree, Signedness.read_inj]
  | ne => simp only [ComparisonOp.Holds, SignFree, ne_eq, Signedness.read_inj]
  | lt => exact hlt
  | le =>
      simp only [ComparisonOp.Holds, SignFree]
      rw [← Int.not_lt, ← Int.not_lt, not_iff_not, hgt]
      exact iff_comm
  | gt =>
      simp only [ComparisonOp.Holds, SignFree]
      rw [hgt]
      exact iff_comm
  | ge =>
      simp only [ComparisonOp.Holds, SignFree]
      rw [← Int.not_lt, ← Int.not_lt, not_iff_not]
      exact hlt

theorem operate_comparison (op : ComparisonOp) (constant : Bool) :
    operate s (.comparison op) constant a b =
      .ok ⟨1, BitVec.ofBool (compareWords s op a b)⟩ := rfl

theorem operate_arithmetic_eq_ok {op : ArithmeticOp} {constant : Bool} {word : Word} :
    operate s (.arithmetic op) constant a b = .ok word ↔
      checkOperation s op constant a b = .ok () ∧ word = ⟨w, compute s op a b⟩ := by
  constructor
  · intro h
    obtain ⟨_, hcheck, h⟩ := bind_eq_ok.mp h
    cases h
    exact ⟨hcheck, rfl⟩
  · intro ⟨hcheck, hword⟩
    exact bind_eq_ok.mpr ⟨(), hcheck, by rw [hword]; rfl⟩

theorem word_inj {x y : BitVec w} : (⟨w, x⟩ : Word) = ⟨w, y⟩ ↔ x = y := by simp

/-- A division that passed its checks: the divisor is not zero, and a signed
one does not overflow. -/
theorem checkDivision_eq_ok {op : ArithmeticOp} :
    checkDivision s op false a b = .ok () ↔
      b ≠ 0 ∧ (s = .signed → ¬ (a = BitVec.intMin w ∧ b = -1)) := by
  unfold checkDivision
  rw [if_neg (by simp), bind_eq_ok]
  constructor
  · intro ⟨_, hzero, hrest⟩
    refine ⟨bne_iff_ne.mp (emitOrExit_eq_ok.mp hzero), ?_⟩
    intro hs
    subst hs
    have := emitOrExit_eq_ok.mp hrest
    simpa [imp_iff_not_or] using this
  · intro ⟨hzero, hover⟩
    refine ⟨(), emitOrExit_eq_ok.mpr (bne_iff_ne.mpr hzero), ?_⟩
    cases s with
    | signed => exact emitOrExit_eq_ok.mpr (by simpa [imp_iff_not_or] using hover rfl)
    | unsigned => rfl

/-- What folded to a constant makes a difference only where it is refused. -/
theorem checkOperation_constant {op : ArithmeticOp} {constant : Bool}
    (h : checkOperation s op constant a b = .ok ()) : checkOperation s op false a b = .ok () := by
  cases constant with
  | false => exact h
  | true =>
      cases op with
      | div | rem =>
          simp only [checkOperation, checkDivision] at h ⊢
          split at h
          · cases h
          · exact h
      | shl | shr =>
          simp only [checkOperation, checkShift] at h ⊢
          split at h
          · cases h
          · exact h
      | _ => exact h

theorem lt_of_checkShift {constant : Bool} (h : checkShift constant b = .ok ()) :
    b.toNat < w := by
  unfold checkShift at h
  split at h
  · cases h
  · have hlt := emitOrExit_eq_ok.mp h
    rw [BitVec.ult, decide_eq_true_iff, BitVec.toNat_ofNat] at hlt
    exact Nat.lt_of_lt_of_le hlt (Nat.mod_le _ _)

/-- The one quotient that overflows is not the same under both signs. -/
theorem not_signFree_overflow {op : ArithmeticOp} (hop : op = .div ∨ op = .rem) (hw : 1 < w) :
    ¬ SignFree (.arithmetic op) (BitVec.intMin w) (-1) := by
  have hmin : (BitVec.intMin w).toNat = 2 ^ (w - 1) := by
    rw [BitVec.toNat_intMin, Nat.two_pow_pred_mod_two_pow (by omega)]
  have hone : (-1 : BitVec w).toNat = 2 ^ w - 1 := by
    change (-1#w).toNat = _
    rw [BitVec.neg_one_eq_allOnes, BitVec.toNat_allOnes]
  have hhalf : 2 ^ w = 2 * 2 ^ (w - 1) := by
    rw [← Nat.pow_succ', Nat.succ_eq_add_one, Nat.sub_add_cancel (by omega)]
  have htwo : 2 ≤ 2 ^ (w - 1) := by
    calc 2 = 2 ^ 1 := rfl
      _ ≤ 2 ^ (w - 1) := Nat.pow_le_pow_right (by decide) (by omega)
  have hlt : 2 ^ (w - 1) < 2 ^ w - 1 := by omega
  rw [← compute_sign_iff (by rintro rfl; simp at hop)]
  intro h
  have h := congrArg BitVec.toNat h
  rcases hop with rfl | rfl
  · rw [compute, compute, BitVec.toNat_udiv, hmin, hone, Nat.div_eq_of_lt hlt] at h
    have : (BitVec.intMin w).sdiv (-1) = BitVec.intMin w := BitVec.intMin_sdiv_neg_one
    rw [this, hmin] at h
    omega
  · rw [compute, compute, BitVec.toNat_umod, hmin, hone, Nat.mod_eq_of_lt hlt] at h
    have hrem : ((BitVec.intMin w).srem (-1)).toInt = 0 := by
      change ((BitVec.intMin w).srem (-1#w)).toInt = 0
      rw [BitVec.toInt_srem, BitVec.neg_one_eq_allOnes, BitVec.toInt_allOnes, if_pos (by omega),
        Int.tmod_neg, Int.tmod_one]
    have : (BitVec.intMin w).srem (-1) = 0 := BitVec.eq_of_toInt_eq (by rw [hrem]; simp)
    rw [this] at h
    simp at h
    omega

/-- An operator that went through under one sign does so with the same result
under the other exactly when it is free of the sign. -/
theorem operate_sign_iff {s' : Signedness} (hne : s ≠ s') (hw : 1 < w) {op : BinaryOp}
    {constant : Bool} {word : Word} (h : operate s op constant a b = .ok word) :
    operate s' op false a b = .ok word ↔ SignFree op a b := by
  cases op with
  | comparison op =>
      rw [operate_comparison] at h ⊢
      cases h
      rw [Except.ok.injEq, word_inj, BitVec.ofBool_eq_iff_eq, ← compareWords_sign_iff]
      cases s <;> cases s'
      · exact absurd rfl hne
      · exact eq_comm
      · exact Iff.rfl
      · exact absurd rfl hne
  | arithmetic op =>
      obtain ⟨hcheck, rfl⟩ := operate_arithmetic_eq_ok.mp h
      have hcheck := checkOperation_constant hcheck
      have hcompute : compute s op a b = compute s' op a b ↔ SignFree (.arithmetic op) a b := by
        rw [← compute_sign_iff]
        · cases s <;> cases s'
          · exact absurd rfl hne
          · exact Iff.rfl
          · exact eq_comm
          · exact absurd rfl hne
        · rintro rfl
          exact lt_of_checkShift hcheck
      rw [operate_arithmetic_eq_ok, word_inj, hcompute]
      constructor
      · intro hboth
        exact hboth.2
      · intro hfree
        refine ⟨?_, hfree⟩
        cases op with
        | div | rem =>
            simp only [checkOperation] at hcheck ⊢
            rw [checkDivision_eq_ok] at hcheck ⊢
            refine ⟨hcheck.1, fun _ hover => ?_⟩
            rw [hover.1, hover.2] at hfree
            exact not_signFree_overflow (by simp) hw hfree
        | shl | shr => exact hcheck
        | _ => rfl

end Operators

/-! ## Where the two ladders meet -/

/-- The width the backend computes two integer types at. -/
def emittedWidth (l r : IntegerType) : Nat := max (max l.width r.width) 1

/-- The sign the backend computes two integer types with. -/
def emittedSign (l r : IntegerType) : Signedness :=
  if unsignedOperation (.integer l) (.integer r) then .unsigned else .signed

/-- A small unsigned operand beside an `int32`. -/
def MixedSigns (l r : IntegerType) : Prop :=
  ((l = .uint8 ∨ l = .uint16) ∧ r = .int32) ∨ (l = .int32 ∧ (r = .uint8 ∨ r = .uint16))

instance (l r : IntegerType) : Decidable (MixedSigns l r) := inferInstanceAs (Decidable (_ ∨ _))

/-- Both types are narrower than `int32`. -/
def BothNarrow (l r : IntegerType) : Prop := l.width < 32 ∧ r.width < 32

instance (l r : IntegerType) : Decidable (BothNarrow l r) := inferInstanceAs (Decidable (_ ∧ _))

theorem meet_self (t : IntegerType) :
    emittedWidth t t = t.width ∧ (t ≠ .char → emittedSign t t = t.signedness) := by
  cases t <;> decide

theorem meet_narrow {l r : IntegerType} (hne : l ≠ r) (h : BothNarrow l r) :
    commonType l r = .int32 ∧ emittedWidth l r < 32 := by
  revert hne h
  cases l <;> cases r <;> decide

theorem meet_wide {l r : IntegerType} (hne : l ≠ r) (h : ¬ BothNarrow l r) :
    emittedWidth l r = (commonType l r).width ∧
      (emittedSign l r = (commonType l r).signedness ↔ ¬ MixedSigns l r) ∧
        (MixedSigns l r → (commonType l r).width = 32) := by
  revert hne h
  cases l <;> cases r <;> decide

theorem width_le_emittedWidth (l r : IntegerType) :
    l.width ≤ emittedWidth l r ∧ r.width ≤ emittedWidth l r := by
  unfold emittedWidth
  omega

theorem width_le_commonType (l r : IntegerType) :
    l.width ≤ (commonType l r).width ∧ r.width ≤ (commonType l r).width := by
  cases l <;> cases r <;> decide

/-- Two different narrow types: a result other than a comparison has the wrong
width; a comparison is right if the operands, wrapped to the wider of the two
widths, compare as they do themselves. -/
def NarrowAgrees (op : BinaryOp) (l r : IntegerType) (x y : Int) : Prop :=
  match op with
  | .arithmetic _ => False
  | .comparison op =>
      op.Holds ((emittedSign l r).read (BitVec.ofInt (emittedWidth l r) x))
        ((emittedSign l r).read (BitVec.ofInt (emittedWidth l r) y)) ↔ op.Holds x y

/-- One operator over operands of two integer types with these values is
computed as the types say. -/
def OperatorAgrees (op : BinaryOp) (l r : IntegerType) (x y : Int) : Prop :=
  if l = r then l = .char → SignFree op (BitVec.ofInt 8 x) (BitVec.ofInt 8 y)
  else if BothNarrow l r then NarrowAgrees op l r x y
  else MixedSigns l r → SignFree op (BitVec.ofInt 32 x) (BitVec.ofInt 32 y)

/-- Types at which every operator agrees on all values. -/
theorem operatorAgrees_of_types {op : BinaryOp} {l r : IntegerType} (x y : Int)
    (h : l = r ∧ l ≠ .char ∨ l ≠ r ∧ ¬ BothNarrow l r ∧ ¬ MixedSigns l r) :
    OperatorAgrees op l r x y := by
  rw [OperatorAgrees]
  rcases h with ⟨heq, hchar⟩ | ⟨hne, hwide, hsigns⟩
  · rw [if_pos heq]
    exact fun h => absurd h hchar
  · rw [if_neg hne, if_neg hwide]
    exact fun h => absurd h hsigns

section Meeting

variable {op : BinaryOp} {l r : IntegerType} {x y : Int} {constant : Bool} {word : Word}

/-- The same width and sign: what passed the checks is the result. -/
theorem operate_of_constant {w : Nat} {s : Signedness} {a b : BitVec w}
    (h : operate s op constant a b = .ok word) : operate s op false a b = .ok word := by
  cases op with
  | comparison op => exact h
  | arithmetic op =>
      obtain ⟨hcheck, hword⟩ := operate_arithmetic_eq_ok.mp h
      exact operate_arithmetic_eq_ok.mpr ⟨checkOperation_constant hcheck, hword⟩

theorem operate_self_iff {t : IntegerType}
    (h : operate (emittedSign t t) op constant (BitVec.ofInt t.width x) (BitVec.ofInt t.width y) =
      .ok word) :
    operate t.signedness op false (BitVec.ofInt t.width x) (BitVec.ofInt t.width y) = .ok word ↔
      OperatorAgrees op t t x y := by
  rw [OperatorAgrees, if_pos rfl]
  by_cases hchar : t = .char
  · subst hchar
    rw [operate_sign_iff (by decide) (by decide) h]
    exact ⟨fun hfree _ => hfree, fun hfree => hfree rfl⟩
  · rw [(meet_self t).2 hchar] at h
    exact ⟨fun _ heq => absurd heq hchar, fun _ => operate_of_constant h⟩

theorem operate_wide_iff (hne : l ≠ r) (hwide : ¬ BothNarrow l r)
    (h : operate (emittedSign l r) op constant (BitVec.ofInt (emittedWidth l r) x)
      (BitVec.ofInt (emittedWidth l r) y) = .ok word) :
    operate (commonType l r).signedness op false (BitVec.ofInt (commonType l r).width x)
        (BitVec.ofInt (commonType l r).width y) = .ok word ↔ OperatorAgrees op l r x y := by
  obtain ⟨hwidth, hsign, hmixed⟩ := meet_wide hne hwide
  rw [OperatorAgrees, if_neg hne, if_neg hwide]
  rw [hwidth] at h
  by_cases hm : MixedSigns l r
  · have hdiff : emittedSign l r ≠ (commonType l r).signedness := fun heq => hsign.mp heq hm
    rw [hmixed hm] at h ⊢
    rw [operate_sign_iff hdiff (by decide) h]
    exact ⟨fun hfree _ => hfree, fun hfree => hfree hm⟩
  · rw [hsign.mpr hm] at h
    exact ⟨fun _ hyes => absurd hyes hm, fun _ => operate_of_constant h⟩

theorem operate_narrow_iff (hne : l ≠ r) (hnarrow : BothNarrow l r)
    (hx : -2 ^ 31 ≤ x ∧ x < 2 ^ 31) (hy : -2 ^ 31 ≤ y ∧ y < 2 ^ 31)
    (h : operate (emittedSign l r) op constant (BitVec.ofInt (emittedWidth l r) x)
      (BitVec.ofInt (emittedWidth l r) y) = .ok word) :
    operate (commonType l r).signedness op false (BitVec.ofInt (commonType l r).width x)
        (BitVec.ofInt (commonType l r).width y) = .ok word ↔ OperatorAgrees op l r x y := by
  obtain ⟨hcommon, hlt⟩ := meet_narrow hne hnarrow
  rw [OperatorAgrees, if_neg hne, if_pos hnarrow, hcommon]
  cases op with
  | arithmetic op =>
      obtain ⟨_, hword⟩ := operate_arithmetic_eq_ok.mp h
      refine ⟨fun hcommon => ?_, fun hfalse => hfalse.elim⟩
      obtain ⟨_, hword'⟩ := operate_arithmetic_eq_ok.mp hcommon
      have := congrArg Word.width (hword.symm.trans hword')
      exact absurd this hlt.ne
  | comparison op =>
      rw [operate_comparison] at h ⊢
      cases h
      have hreadx : Signedness.signed.read (BitVec.ofInt 32 x) = x :=
        BitVec.toInt_ofInt_eq_self (by decide) hx.1 hx.2
      have hready : Signedness.signed.read (BitVec.ofInt 32 y) = y :=
        BitVec.toInt_ofInt_eq_self (by decide) hy.1 hy.2
      rw [Except.ok.injEq, word_inj, BitVec.ofBool_eq_iff_eq, Bool.eq_iff_iff, compareWords_iff,
        compareWords_iff]
      change (op.Holds (Signedness.signed.read (BitVec.ofInt 32 x))
        (Signedness.signed.read (BitVec.ofInt 32 y)) ↔ _) ↔ _
      rw [hreadx, hready]
      exact iff_comm

end Meeting

/-! ## Expressions -/

section Expressions

variable {V : Type*} (typing : V → IntegerType) (env : (x : V) → BitVec (typing x).width)

/-- A property of an expression and of every expression in it; the flag says
whether it is the operand of a minus. -/
def Throughout (P : Bool → IntegerExpr V → Prop) : Bool → IntegerExpr V → Prop
  | negated, .unary op operand =>
      P negated (.unary op operand) ∧ Throughout P (op == .minus) operand
  | negated, .binary op left right =>
      P negated (.binary op left right) ∧ Throughout P false left ∧ Throughout P false right
  | negated, e => P negated e

/-- What the emitted code computes, if it does not stop, is the value the
static types define, at the width of the static type. -/
def Agrees (negated : Bool) (e : IntegerExpr V) : Prop :=
  ∀ value, emit typing env e = .ok value →
    staticValue typing env negated e = .ok value.word ∧
      ∀ t, typeOf typing negated e = some t → value.word.width = t.width

/-- What has to hold at one expression: a literal under a minus is not 2^31,
and an operator agrees on its types and the values of its operands. -/
def NodeAgrees (negated : Bool) : IntegerExpr V → Prop
  | .number value => ¬ (negated = true ∧ value = 2 ^ 31)
  | .binary op left right =>
      ∀ l r a b, typeOf typing false left = some (.integer l) →
        typeOf typing false right = some (.integer r) →
          staticValue typing env false left = .ok ⟨l.width, a⟩ →
            staticValue typing env false right = .ok ⟨r.width, b⟩ →
              OperatorAgrees op l r (l.signedness.read a) (r.signedness.read b)
  | _ => True

variable {typing env}

theorem Throughout.head {P : Bool → IntegerExpr V → Prop} {negated : Bool} {e : IntegerExpr V}
    (h : Throughout P negated e) : P negated e := by
  cases e with
  | unary op operand => exact h.1
  | binary op left right => exact h.1
  | number value => exact h
  | character value => exact h
  | identifier x => exact h

theorem agrees_iff_of_emit {negated : Bool} {e : IntegerExpr V} {value : EmittedValue}
    {t : ValueType} (htype : typeOf typing negated e = some t)
    (hrun : emit typing env e = .ok value) :
    Agrees typing env negated e ↔
      staticValue typing env negated e = .ok value.word ∧ value.word.width = t.width := by
  constructor
  · intro h
    exact ⟨(h value hrun).1, (h value hrun).2 t htype⟩
  · intro ⟨hstatic, hwidth⟩ value' hrun'
    rw [hrun] at hrun'
    cases hrun'
    refine ⟨hstatic, fun t' ht' => ?_⟩
    rw [htype] at ht'
    cases ht'
    exact hwidth

/-- A literal has the width of its type but for 2^31 under a minus, which the
analyzer counts as an `int32` and the backend emits at 64 bits. -/
theorem number_agrees_iff {negated : Bool} {n : Nat} {value : EmittedValue}
    (hrun : emit typing env (.number n) = .ok value) :
    Agrees typing env negated (.number n) ↔ NodeAgrees typing env negated (.number n) := by
  rw [agrees_iff_of_emit rfl hrun, NodeAgrees, staticValue, Except.ok.injEq]
  rw [emit] at hrun
  split at hrun
  · cases hrun
  · rename_i hfits
    split at hrun
    · rename_i hsmall
      cases hrun
      have htype : integerLiteralType n negated = .int32 := by
        unfold integerLiteralType
        rw [if_neg hfits, if_pos]
        split <;> omega
      rw [htype]
      exact ⟨fun _ h => by omega, fun _ => ⟨rfl, rfl⟩⟩
    · rename_i hlarge
      cases hrun
      by_cases hbad : negated = true ∧ n = 2 ^ 31
      · have htype : integerLiteralType n negated = .int32 := by
          rw [hbad.1, hbad.2]
          rfl
        rw [htype]
        exact ⟨fun h => absurd (show 64 = 32 from h.2) (by decide), fun h => absurd hbad h⟩
      · have htype : (integerLiteralType n negated).width = 64 := by
          have hnarrow : ¬ n ≤ (if negated = true then 2 ^ 31 else 2 ^ 31 - 1) := by
            split
            · rename_i hneg
              have : n ≠ 2 ^ 31 := fun h => hbad ⟨hneg, h⟩
              omega
            · omega
          unfold integerLiteralType
          rw [if_neg hfits, if_neg hnarrow]
          split <;> split <;> rfl
        change (⟨(integerLiteralType n negated).width, _⟩ : Word) = ⟨64, _⟩ ∧
          64 = (integerLiteralType n negated).width ↔ _
        rw [htype]
        exact ⟨fun _ => hbad, fun _ => ⟨rfl, rfl⟩⟩

theorem width_applyUnary (op : UnaryOp) (word : Word) :
    (applyUnary op word).width = word.width := by
  cases op <;> rfl

theorem typeOf_operand {negated : Bool} {op : UnaryOp} {operand : IntegerExpr V} {t : ValueType}
    (h : typeOf typing negated (.unary op operand) = some t) :
    typeOf typing (op == .minus) operand = some t := by
  rw [typeOf] at h
  split at h
  · rename_i t' ht'
    cases h
    exact ht'
  · cases h

theorem unary_agrees {negated : Bool} {op : UnaryOp} {operand : IntegerExpr V}
    {value : EmittedValue} {t : ValueType}
    (htype : typeOf typing negated (.unary op operand) = some t)
    (hrun : emit typing env (.unary op operand) = .ok value)
    (h : Agrees typing env (op == .minus) operand) :
    Agrees typing env negated (.unary op operand) := by
  rw [agrees_iff_of_emit htype hrun]
  rw [emit] at hrun
  obtain ⟨inner, hinner, hrun⟩ := bind_eq_ok.mp hrun
  cases hrun
  obtain ⟨hstatic, hwidth⟩ := h inner hinner
  refine ⟨?_, ?_⟩
  · rw [staticValue, hstatic]
    rfl
  · exact (width_applyUnary op inner.word).trans (hwidth t (typeOf_operand htype))

/-- Values of a narrow type are values of `int32`. -/
theorem read_of_narrow {t : IntegerType} (h : t.width < 32) (b : BitVec t.width) :
    -2 ^ 31 ≤ t.signedness.read b ∧ t.signedness.read b < 2 ^ 31 := by
  obtain ⟨hlo, hhi⟩ := t.signedness.read_mem b
  have hpow : (2 : Int) ^ t.width ≤ 2 ^ 31 := by
    exact_mod_cast Nat.pow_le_pow_right (by decide) (Nat.le_of_lt_succ h)
  omega

/-- One operator over two integer operands, emitted and static. -/
theorem operate_iff {op : BinaryOp} {l r : IntegerType} {a : BitVec l.width}
    {b : BitVec r.width} {constant : Bool} {word : Word}
    (h : operate (emittedSign l r) op constant (l.signedness.cast (emittedWidth l r) a)
      (r.signedness.cast (emittedWidth l r) b) = .ok word) :
    staticOperation op ⟨l.width, a⟩ ⟨r.width, b⟩ (.integer l) (.integer r) = .ok word ↔
      OperatorAgrees op l r (l.signedness.read a) (r.signedness.read b) := by
  obtain ⟨hlw, hrw⟩ := width_le_emittedWidth l r
  obtain ⟨hlc, hrc⟩ := width_le_commonType l r
  rw [Signedness.cast_eq_ofInt _ hlw, Signedness.cast_eq_ofInt _ hrw] at h
  change operate (commonType l r).signedness op false
    (l.signedness.cast (commonType l r).width a) (r.signedness.cast (commonType l r).width b) =
      .ok word ↔ _
  rw [Signedness.cast_eq_ofInt _ hlc, Signedness.cast_eq_ofInt _ hrc]
  by_cases heq : l = r
  · subst heq
    have hself : commonType l l = l := if_pos rfl
    rw [hself]
    rw [(meet_self l).1] at h
    exact operate_self_iff h
  · by_cases hnarrow : BothNarrow l r
    · exact operate_narrow_iff heq hnarrow (read_of_narrow hnarrow.1 a)
        (read_of_narrow hnarrow.2 b) h
    · exact operate_wide_iff heq hnarrow h

/-- The type of a result over operands of a common type. -/
def BinaryOp.resultType (op : BinaryOp) (common : ValueType) : ValueType :=
  match op with
  | .arithmetic _ => common
  | .comparison _ => .bool

theorem width_staticOperation {op : BinaryOp} {left right word : Word} {l r : ValueType}
    (h : staticOperation op left right l r = .ok word) :
    word.width = (op.resultType (operationType l r)).width := by
  cases op with
  | comparison op => cases h; rfl
  | arithmetic op => rw [(operate_arithmetic_eq_ok.mp h).2]; rfl

/-- The types an accepted operator has: both operands integers, or two
booleans tested for equality. -/
theorem typeOf_binary {negated : Bool} {op : BinaryOp} {left right : IntegerExpr V}
    {t : ValueType} (h : typeOf typing negated (.binary op left right) = some t) :
    (∃ l r, typeOf typing false left = some (.integer l) ∧
      typeOf typing false right = some (.integer r) ∧
        t = op.resultType (.integer (commonType l r))) ∨
    (typeOf typing false left = some .bool ∧ typeOf typing false right = some .bool ∧
      t = .bool ∧ (op = .comparison .eq ∨ op = .comparison .ne)) := by
  cases op with
  | arithmetic op =>
      rw [typeOf] at h
      split at h
      · rename_i l r hl hr
        split at h
        · cases h
        · cases h
          exact .inl ⟨l, r, hl, hr, rfl⟩
      · cases h
  | comparison op =>
      rw [typeOf] at h
      split at h
      · rename_i l r hl hr
        cases h
        exact .inl ⟨l, r, hl, hr, rfl⟩
      · rename_i hl hr
        split at h
        · rename_i hop
          cases h
          exact .inr ⟨hl, hr, rfl, by simpa using hop⟩
        · cases h
      · cases h

theorem binary_agrees_iff {negated : Bool} {op : BinaryOp} {left right : IntegerExpr V}
    {value : EmittedValue} {t : ValueType}
    (htype : typeOf typing negated (.binary op left right) = some t)
    (hrun : emit typing env (.binary op left right) = .ok value)
    (hleft : Agrees typing env false left) (hright : Agrees typing env false right) :
    Agrees typing env negated (.binary op left right) ↔
      NodeAgrees typing env negated (.binary op left right) := by
  rw [agrees_iff_of_emit htype hrun]
  rw [emit] at hrun
  obtain ⟨⟨⟨wa, a⟩, ca⟩, ha, hrun⟩ := bind_eq_ok.mp hrun
  obtain ⟨⟨⟨wb, b⟩, cb⟩, hb, hrun⟩ := bind_eq_ok.mp hrun
  obtain ⟨hsa, hwa⟩ := hleft _ ha
  obtain ⟨hsb, hwb⟩ := hright _ hb
  rcases typeOf_binary htype with ⟨l, r, hl, hr, rfl⟩ | ⟨hl, hr, rfl, hop⟩
  · have hwl : wa = l.width := hwa _ hl
    have hwr : wb = r.width := hwb _ hr
    subst hwl hwr
    simp only [hl, hr] at hrun
    obtain ⟨word, hword, hrun⟩ := bind_eq_ok.mp hrun
    cases hrun
    have hstatic : staticValue typing env negated (.binary op left right) =
        staticOperation op ⟨l.width, a⟩ ⟨r.width, b⟩ (.integer l) (.integer r) := by
      rw [staticValue, hsa, hsb, ok_bind, ok_bind, hl, hr]
    rw [hstatic]
    have hiff := operate_iff hword
    constructor
    · intro ⟨hok, _⟩ l' r' a' b' hl' hr' ha' hb'
      rw [hl] at hl'
      rw [hr] at hr'
      cases hl'
      cases hr'
      rw [hsa] at ha'
      rw [hsb] at hb'
      cases ha'
      cases hb'
      exact hiff.mp hok
    · intro hnode
      have hok := hiff.mpr (hnode l r a b hl hr hsa hsb)
      exact ⟨hok, width_staticOperation hok⟩
  · have hwl : wa = 1 := hwa _ hl
    have hwr : wb = 1 := hwb _ hr
    subst hwl hwr
    simp only [hl, hr] at hrun
    obtain ⟨word, hword, hrun⟩ := bind_eq_ok.mp hrun
    cases hrun
    refine ⟨fun _ l' _ _ _ hl' => ?_, fun _ => ?_⟩
    · rw [hl] at hl'
      cases hl'
    · have hstatic : staticValue typing env negated (.binary op left right) =
          staticOperation op ⟨1, a⟩ ⟨1, b⟩ .bool .bool := by
        rw [staticValue, hsa, hsb, ok_bind, ok_bind, hl, hr]
      rw [hstatic]
      rcases hop with rfl | rfl
      · cases hword
        exact ⟨rfl, rfl⟩
      · cases hword
        exact ⟨rfl, rfl⟩

/-- Everything in an accepted expression agrees, in a run that does not stop,
exactly when each literal and each operator in it does. -/
theorem arithmetic_agrees_iff {negated : Bool} {e : IntegerExpr V} {value : EmittedValue}
    {t : ValueType} (htype : typeOf typing negated e = some t)
    (hrun : emit typing env e = .ok value) :
    Throughout (Agrees typing env) negated e ↔ Throughout (NodeAgrees typing env) negated e := by
  induction e generalizing negated value t with
  | number n => exact number_agrees_iff hrun
  | character c =>
      refine ⟨fun _ => trivial, fun _ => (agrees_iff_of_emit htype hrun).mpr ?_⟩
      cases hrun
      cases htype
      exact ⟨rfl, rfl⟩
  | identifier x =>
      refine ⟨fun _ => trivial, fun _ => (agrees_iff_of_emit htype hrun).mpr ?_⟩
      cases hrun
      cases htype
      exact ⟨rfl, rfl⟩
  | unary op operand ih =>
      obtain ⟨inner, hinner, _⟩ := bind_eq_ok.mp (by rw [emit] at hrun; exact hrun)
      have hoperand : typeOf typing (op == .minus) operand = some t := typeOf_operand htype
      have hiff := ih hoperand hinner
      constructor
      · intro ⟨_, hbelow⟩
        exact ⟨trivial, hiff.mp hbelow⟩
      · intro ⟨_, hbelow⟩
        have hbelow := hiff.mpr hbelow
        exact ⟨unary_agrees htype hrun hbelow.head, hbelow⟩
  | binary op left right ihl ihr =>
      have hrun' := hrun
      rw [emit] at hrun'
      obtain ⟨a, ha, hrun'⟩ := bind_eq_ok.mp hrun'
      obtain ⟨b, hb, _⟩ := bind_eq_ok.mp hrun'
      have hchildren : ∃ l r, typeOf typing false left = some l ∧
          typeOf typing false right = some r := by
        rcases typeOf_binary htype with ⟨l, r, hl, hr, _⟩ | ⟨hl, hr, _, _⟩
        · exact ⟨_, _, hl, hr⟩
        · exact ⟨_, _, hl, hr⟩
      obtain ⟨l, r, hl, hr⟩ := hchildren
      have hleft := ihl hl ha
      have hright := ihr hr hb
      constructor
      · intro ⟨hnode, hbelow, hbelow'⟩
        exact ⟨(binary_agrees_iff htype hrun hbelow.head hbelow'.head).mp hnode,
          hleft.mp hbelow, hright.mp hbelow'⟩
      · intro ⟨hnode, hbelow, hbelow'⟩
        have hbelow := hleft.mpr hbelow
        have hbelow' := hright.mpr hbelow'
        exact ⟨(binary_agrees_iff htype hrun hbelow.head hbelow'.head).mpr hnode,
          hbelow, hbelow'⟩

end Expressions

/-- Two chars, 200 and 100. -/
def charTyping (_ : Bool) : IntegerType := .char

def charEnv (x : Bool) : BitVec (charTyping x).width := if x then 200#8 else 100#8

/-- `first < second` over them. -/
def charLess : IntegerExpr Bool := .binary (.comparison .lt) (.identifier true) (.identifier false)

/-- 200 is not less than 100, but its byte is negative as an `i8`. -/
theorem charLess_disagrees :
    emit charTyping charEnv charLess = .ok ⟨⟨1, 1#1⟩, false⟩ ∧
      staticValue charTyping charEnv false charLess = .ok ⟨1, 0#1⟩ ∧
        ¬ ∀ (typing : Bool → IntegerType) (env : (x : Bool) → BitVec (typing x).width)
          (e : IntegerExpr Bool) (t : ValueType), typeOf typing false e = some t →
            Agrees typing env false e := by
  have hemit : emit charTyping charEnv charLess = .ok ⟨⟨1, 1#1⟩, false⟩ := by decide
  have hstatic : staticValue charTyping charEnv false charLess = .ok ⟨1, 0#1⟩ := by decide
  refine ⟨hemit, hstatic, fun h => ?_⟩
  have hagrees := (h charTyping charEnv charLess .bool (by decide) _ hemit).1
  rw [hstatic] at hagrees
  exact absurd hagrees (by decide)

/-- A `uint8` against an `int32` literal, `200 > 100`: accepted, and run to the
end. -/
theorem arithmetic_agrees_uint8 :
    let e : IntegerExpr Bool := .binary (.comparison .gt) (.identifier true) (.number 100)
    Throughout (Agrees (fun _ => .uint8) fun _ => 200#8) false e ↔
      Throughout (NodeAgrees (fun _ => .uint8) fun _ => 200#8) false e :=
  arithmetic_agrees_iff (t := .bool) rfl rfl

end Absolute
