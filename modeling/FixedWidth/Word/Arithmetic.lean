import FixedWidth.Fault
import FixedWidth.Word

/-!
# Arithmetic inside one unsigned kind

Sums, differences and products are computed on the two's complement reading of the bits and wrapped
to the width; their low bits do not depend on how the operands are read. A quotient does depend on
the reading, and so does a shift to the right: these two leave the two's complement reading for
plain binary. Shift counts are taken modulo the width.
-/

namespace FixedWidth.Word

variable {w : Width}

/-! ## Sums, differences and products -/

def wrapAdd (x y : Unsigned w) : Unsigned w := ofInt _ (x.toInt + y.toInt)

def wrapSub (x y : Unsigned w) : Unsigned w := ofInt _ (x.toInt - y.toInt)

def wrapMul (x y : Unsigned w) : Unsigned w := ofInt _ (x.toInt * y.toInt)

theorem bits_wrapAdd (x y : Unsigned w) : (x.wrapAdd y).bits = x.bits + y.bits := by
  simp [wrapAdd, ofInt, toInt, BitVec.ofInt_add]

theorem bits_wrapMul (x y : Unsigned w) : (x.wrapMul y).bits = x.bits * y.bits := by
  simp [wrapMul, ofInt, toInt, BitVec.ofInt_mul]

theorem bits_wrapSub (x y : Unsigned w) : (x.wrapSub y).bits = x.bits - y.bits := by
  apply BitVec.eq_of_toInt_eq
  simp [wrapSub, ofInt, toInt, BitVec.toInt_sub]

theorem toNat_wrapAdd (x y : Unsigned w) :
    (x.wrapAdd y).toNat = (x.toNat + y.toNat) % w.modulus := by
  rw [Width.modulus, Nat.shiftLeft_eq, Nat.one_mul]
  exact (congrArg BitVec.toNat (bits_wrapAdd x y)).trans (BitVec.toNat_add ..)

theorem toNat_wrapMul (x y : Unsigned w) :
    (x.wrapMul y).toNat = (x.toNat * y.toNat) % w.modulus := by
  rw [Width.modulus, Nat.shiftLeft_eq, Nat.one_mul]
  exact (congrArg BitVec.toNat (bits_wrapMul x y)).trans (BitVec.toNat_mul ..)

/-! ## Quotients and remainders -/

/-- The quotient of the plain binary readings. -/
def quotient? (x y : Unsigned w) : Except ArithmeticError (Unsigned w) :=
  if y = zero w then .error .divisionByZero else .ok (ofNat _ (x.toNat / y.toNat))

/-- The remainder of the plain binary readings. -/
def remainder? (x y : Unsigned w) : Except ArithmeticError (Unsigned w) :=
  if y = zero w then .error .divisionByZero else .ok (ofNat _ (x.toNat % y.toNat))

theorem quotient?_eq_error_iff {x y : Unsigned w} {e : ArithmeticError} :
    x.quotient? y = .error e ↔ y = zero w := by
  cases e
  by_cases h : y = zero w <;> simp [quotient?, h]

theorem remainder?_eq_error_iff {x y : Unsigned w} {e : ArithmeticError} :
    x.remainder? y = .error e ↔ y = zero w := by
  cases e
  by_cases h : y = zero w <;> simp [remainder?, h]

/-! ## Bitwise operations -/

def bitAnd (x y : Unsigned w) : Unsigned w := ⟨x.bits &&& y.bits⟩

def bitOr (x y : Unsigned w) : Unsigned w := ⟨x.bits ||| y.bits⟩

def bitXor (x y : Unsigned w) : Unsigned w := ⟨x.bits ^^^ y.bits⟩

def complement (x : Unsigned w) : Unsigned w := ⟨~~~x.bits⟩

/-! ## Shifts -/

/-- The bits moved up by `count` modulo the width, zeros moving in. -/
def shiftLeft (x : Unsigned w) (count : Unsigned .w32) : Unsigned w :=
  ⟨x.bits <<< (count.toNat % w.bits)⟩

/-- The bits moved down by `count` modulo the width, zeros moving in. -/
def shiftRight (x : Unsigned w) (count : Unsigned .w32) : Unsigned w :=
  ofNat _ (x.toNat >>> (count.toNat % w.bits))

end FixedWidth.Word
