import FixedWidth.Proofs.Residue
import FixedWidth.Scalar.Arithmetic

/-!
# The low bits of results

The low bits of a sum, a difference or a product depend on the low bits of the operands alone, since
carries move upwards, and each bit of a bitwise operation depends on the bits at its own place.
These are the modular operators: they commute with resizing to a smaller width
(`ModularOperator.resize_inside`). Quotients and right shifts do not.
-/

namespace FixedWidth

/-! ### Resizing -/

namespace Word

variable {k : Kind} {t v w : Width}

theorem ext_bits {x y : Word k} (h : x.bits = y.bits) : x = y := by
  cases x
  cases y
  exact congrArg mk h

theorem bits_resize (w : Width) (x : Unsigned v) : (x.resize w).bits = x.bits.setWidth w.bits := by
  have hv := v.bits_le
  have h : ¬ (64 < v.bits ∧ 64 < w.bits) := by omega
  exact BitVec.setWidth_setWidth h

theorem resize_resize_of_le (h : t.bits ≤ w.bits) (x : Unsigned v) :
    (x.resize w).resize t = x.resize t := by
  refine ext_bits ?_
  rw [bits_resize, bits_resize, bits_resize, BitVec.setWidth_setWidth_of_le _ h]

/-- A complement sets the bits above its operand, so a larger width would show. -/
theorem resize_complement (h : t.bits ≤ w.bits) (x : Unsigned w) :
    x.complement.resize t = (x.resize t).complement := by
  refine ext_bits ?_
  rw [complement, complement, bits_resize, bits_resize]
  exact BitVec.setWidth_not h

end Word

/-! ### Modular operators -/

/-- The operators whose low bits depend on the low bits of their operands alone. -/
inductive ModularOperator where
  | add
  | sub
  | mul
  | and
  | or
  | xor
deriving DecidableEq

namespace ModularOperator

variable {n : Nat} {t v w : Width}

def toOperator : ModularOperator → Operator
  | add => .add
  | sub => .sub
  | mul => .mul
  | and => .and
  | or => .or
  | xor => .xor

def inside : ModularOperator → Unsigned w → Unsigned w → Unsigned w
  | add => Word.wrapAdd
  | sub => Word.wrapSub
  | mul => Word.wrapMul
  | and => Word.bitAnd
  | or => Word.bitOr
  | xor => Word.bitXor

def onBits : ModularOperator → BitVec n → BitVec n → BitVec n
  | add => (· + ·)
  | sub => (· - ·)
  | mul => (· * ·)
  | and => (· &&& ·)
  | or => (· ||| ·)
  | xor => (· ^^^ ·)

/-- The operation on integers, for the operators that are arithmetic. -/
def onIntegers? : ModularOperator → Int → Int → Option Int
  | add, i, j => some (i + j)
  | sub, i, j => some (i - j)
  | mul, i, j => some (i * j)
  | _, _, _ => none

/-- **Computing on the two's complement reading is computing on the bits.** -/
theorem bits_inside (op : ModularOperator) (x y : Unsigned w) :
    (op.inside x y).bits = op.onBits x.bits y.bits := by
  cases op with
  | add => exact Word.bits_wrapAdd x y
  | sub => exact Word.bits_wrapSub x y
  | mul => exact Word.bits_wrapMul x y
  | and => rfl
  | or => rfl
  | xor => rfl

theorem setWidth_onBits (op : ModularOperator) {m : Nat} (h : m ≤ n) (b c : BitVec n) :
    (op.onBits b c).setWidth m = op.onBits (b.setWidth m) (c.setWidth m) := by
  cases op with
  | add => exact BitVec.setWidth_add b c h
  | sub =>
    show (b - c).setWidth m = b.setWidth m - c.setWidth m
    rw [BitVec.sub_eq_add_neg, BitVec.sub_eq_add_neg, ← BitVec.setWidth_neg_of_le h]
    exact BitVec.setWidth_add b (-c) h
  | mul => exact BitVec.setWidth_mul b c h
  | and => exact BitVec.setWidth_and
  | or => exact BitVec.setWidth_or
  | xor => exact BitVec.setWidth_xor

theorem onBits_assoc {op : ModularOperator} (h : op ≠ sub) (b c d : BitVec n) :
    op.onBits (op.onBits b c) d = op.onBits b (op.onBits c d) := by
  cases op with
  | add => exact BitVec.add_assoc b c d
  | sub => exact absurd rfl h
  | mul => exact BitVec.mul_assoc b c d
  | and => exact BitVec.and_assoc b c d
  | or => exact BitVec.or_assoc b c d
  | xor => exact BitVec.xor_assoc b c d

theorem onBits_comm {op : ModularOperator} (h : op ≠ sub) (b c : BitVec n) :
    op.onBits b c = op.onBits c b := by
  cases op with
  | add => exact BitVec.add_comm b c
  | sub => exact absurd rfl h
  | mul => exact BitVec.mul_comm b c
  | and => exact BitVec.and_comm b c
  | or => exact BitVec.or_comm b c
  | xor => exact BitVec.xor_comm b c

/-- **Resizing a result to a smaller width is resizing the operands.** -/
theorem resize_inside (op : ModularOperator) (h : t.bits ≤ w.bits) (x y : Unsigned w) :
    (op.inside x y).resize t = op.inside (x.resize t) (y.resize t) := by
  refine Word.ext_bits ?_
  rw [Word.bits_resize, bits_inside, bits_inside, Word.bits_resize, Word.bits_resize,
    setWidth_onBits op h]

theorem inside_assoc {op : ModularOperator} (h : op ≠ sub) (x y z : Unsigned w) :
    op.inside (op.inside x y) z = op.inside x (op.inside y z) := by
  refine Word.ext_bits ?_
  rw [bits_inside, bits_inside, bits_inside, bits_inside, onBits_assoc h]

theorem inside_comm {op : ModularOperator} (h : op ≠ sub) (x y : Unsigned w) :
    op.inside x y = op.inside y x := by
  refine Word.ext_bits ?_
  rw [bits_inside, bits_inside, onBits_comm h]

/-- Arithmetic inside a width is that of the integers, up to the width. -/
theorem inside_ofInt {op : ModularOperator} {i j n : Int} (h : op.onIntegers? i j = some n) :
    op.inside (Word.ofInt ⟨.unsigned, w⟩ i) (Word.ofInt _ j) = Word.ofInt _ n := by
  refine Word.ext_bits ((bits_inside op _ _).trans ?_)
  cases op with
  | add =>
    obtain rfl : i + j = n := Option.some.inj h
    exact (BitVec.ofInt_add i j).symm
  | sub =>
    obtain rfl : i - j = n := Option.some.inj h
    show BitVec.ofInt w.bits i - BitVec.ofInt w.bits j = BitVec.ofInt w.bits (i - j)
    rw [Int.sub_eq_add_neg, BitVec.ofInt_add, BitVec.ofInt_neg, BitVec.sub_eq_add_neg]
  | mul =>
    obtain rfl : i * j = n := Option.some.inj h
    exact (BitVec.ofInt_mul i j).symm
  | and => exact absurd h (Option.some_ne_none n).symm
  | or => exact absurd h (Option.some_ne_none n).symm
  | xor => exact absurd h (Option.some_ne_none n).symm

theorem binary_toOperator (op : ModularOperator) (x : Unsigned v) (y : Unsigned w) :
    Scalar.binary op.toOperator (.ofUnsigned x) (.ofUnsigned y) =
      .ok (.ofUnsigned (Word.promoted x y op.inside)) := by
  cases op <;> rfl

end ModularOperator

end FixedWidth
