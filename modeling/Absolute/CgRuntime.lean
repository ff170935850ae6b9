import Absolute.AnIntegerTypes

/-!
# What the backend emits: integer values, checks and addresses

The conversions of integers, the checks put before an operation that could go
wrong (`EmitOrExit`) and the address arithmetic of `CreateInBoundsGEP`, read
as what the emitted code does when it runs.
-/

namespace Absolute

/-- An integer expression: its static type, and the bits it evaluates to in
the LLVM type the backend gave it. -/
structure IntegerValue where
  type : IntegerType
  width : Nat
  bits : BitVec width
  width_le : width ≤ 64

namespace IntegerValue

/-- The value, read with its own signedness. -/
def value (i : IntegerValue) : Int := i.type.signedness.read i.bits

/-- The value at 64 bits: `CreateIntCast`, as `Coerce` and `array.index.wide`
do it. -/
def wide (i : IntegerValue) : BitVec 64 := i.type.signedness.cast 64 i.bits

theorem toNat_wide {i : IntegerValue} (h : 0 ≤ i.value) : i.wide.toNat = i.value.toNat := by
  have hread := i.type.signedness.read_cast i.width_le i.bits
  have hval := Signedness.toNat_of_read_nonneg (s := i.type.signedness) (b := i.wide)
    (by rw [wide, hread]; exact h)
  rw [wide, hread] at hval
  exact Int.ofNat_inj.mp (by rw [Int.toNat_of_nonneg h]; exact hval)

end IntegerValue

/-- A 64-bit word under signed comparison against a value it stands for: they
agree, or the value is too large and the word reads negative. -/
def Reads (word : BitVec 64) (value : Int) : Prop :=
  value < 2 ^ 63 ∧ word.toInt = value ∨ 2 ^ 63 ≤ value ∧ word.toInt < 0

theorem IntegerValue.reads_wide (i : IntegerValue) : Reads i.wide i.value := by
  have hread := i.type.signedness.read_cast i.width_le i.bits
  change Signedness.read _ i.wide = i.value at hread
  unfold Reads
  cases hs : i.type.signedness with
  | signed =>
      rw [hs, Signedness.read_signed] at hread
      have hlt : i.wide.toInt < 2 ^ 63 := BitVec.toInt_lt
      omega
  | unsigned =>
      rw [hs, Signedness.read_unsigned] at hread
      rw [BitVec.toInt_eq_toNat_cond]
      have := i.wide.isLt
      split <;> omega

theorem reads_ofNat {n : Nat} (h : n < 2 ^ 63) : Reads (BitVec.ofNat 64 n) n := by
  have hnat : (BitVec.ofNat 64 n).toNat = n := by
    rw [BitVec.toNat_ofNat, Nat.mod_eq_of_lt (by omega)]
  refine .inl ⟨by omega, ?_⟩
  rw [BitVec.toInt_eq_toNat_of_lt (by omega), hnat]

theorem toNat_of_toInt_nonneg {word : BitVec 64} (h : 0 ≤ word.toInt) :
    (word.toNat : Int) = word.toInt :=
  Signedness.toNat_of_read_nonneg (s := .signed) h

theorem Reads.succ {word : BitVec 64} {value : Int} (h : Reads word value) (h0 : 0 ≤ value)
    (h1 : value < 2 ^ 63 - 1) : Reads (word + 1) (value + 1) := by
  have hint : word.toInt = value := by
    unfold Reads at h
    omega
  have hnat := toNat_of_toInt_nonneg (hint ▸ h0)
  have hnext : (word + 1).toNat = word.toNat + 1 := by
    rw [BitVec.toNat_add]
    exact Nat.mod_eq_of_lt (by
      change word.toNat + 1 < 2 ^ 64
      omega)
  refine .inl ⟨by omega, ?_⟩
  rw [BitVec.toInt_eq_toNat_of_lt (by omega), hnext]
  omega

/-- A word that passes a signed check from zero up is the value. -/
theorem Reads.toNat_eq {word : BitVec 64} {value : Int} (h : Reads word value)
    (hnonneg : 0 ≤ word.toInt) : (word.toNat : Int) = value := by
  have := toNat_of_toInt_nonneg hnonneg
  unfold Reads at h
  omega

/-- Why there is no result: the backend gives up on the program, or the
program it emitted prints a message and exits. -/
inductive Stop where
  | fail (message : String)
  | exit (message : String)
deriving DecidableEq, Repr

/-- The outcome of emitted code, if the backend emits any. -/
abbrev Emit := Except Stop

theorem ok_bind {α β : Type} (a : α) (f : α → Emit β) : ((.ok a : Emit α) >>= f) = f a := rfl

theorem error_bind {α β : Type} (s : Stop) (f : α → Emit β) :
    ((.error s : Emit α) >>= f) = .error s := rfl

/-- A computation in steps ends well when each step does. -/
theorem bind_eq_ok {α β : Type} {x : Emit α} {f : α → Emit β} {b : β} :
    x >>= f = .ok b ↔ ∃ a, x = .ok a ∧ f a = .ok b := by
  cases x with
  | error s => simp [error_bind]
  | ok a => simp [ok_bind]

/-- The checks the backend knows by name. -/
inductive Check where
  | arraySize
  | arrayBounds
  | divisionByZero
  | divisionOverflow
  | shiftAmount
deriving DecidableEq, Repr

def Check.message : Check → String
  | arraySize => "Array size must be greater than zero"
  | arrayBounds => "Array index out of bounds"
  | divisionByZero => "Division by zero"
  | divisionOverflow => "Division overflows: the most negative value divided by -1"
  | shiftAmount =>
      "Shift amount is out of range: it must be less than the width of the shifted value"

/-- `EmitOrExit`. A condition that folded to true emits no branch, which is
the same here. -/
def emitOrExit (condition : Bool) (name : Check) : Emit Unit :=
  if condition then .ok () else .error (.exit name.message)

@[simp] theorem emitOrExit_true (name : Check) : emitOrExit true name = .ok () := rfl

@[simp] theorem emitOrExit_false (name : Check) :
    emitOrExit false name = .error (.exit name.message) := rfl

theorem emitOrExit_eq_ok {condition : Bool} {name : Check} {u : Unit} :
    emitOrExit condition name = .ok u ↔ condition = true := by
  cases condition <;> simp

/-- `CreateInBoundsGEP` over elements of a size: the index is extended to 64
bits by its sign whatever type it came from. -/
def inBoundsGEP (elementSize : Nat) (base : BitVec 64) {w : Nat} (index : BitVec w) : BitVec 64 :=
  base + index.signExtend 64 * BitVec.ofNat 64 elementSize

/-- At an offset that stays in memory nothing wraps. -/
theorem toNat_inBoundsGEP {elementSize n : Nat} {base : BitVec 64}
    (h : base.toNat + n * elementSize < 2 ^ 64) :
    (inBoundsGEP elementSize base (BitVec.ofNat 64 n)).toNat = base.toNat + n * elementSize := by
  rw [inBoundsGEP, BitVec.signExtend_eq, ← BitVec.ofNat_mul, BitVec.toNat_add,
    BitVec.toNat_ofNat, Nat.add_mod_mod, Nat.mod_eq_of_lt h]

end Absolute
