import FixedWidth.Kind.Conversion
import FixedWidth.Word.Arithmetic
import FixedWidth.Word.Conversion

/-!
# Operators across unsigned kinds

An operator on two unsigned words first brings both to the common width of their kinds and then does
its work there. A shift brings only its left operand up: its width is the common width of the left
operand's kind with itself, and the count is reduced to 32 bits before it is reduced modulo that
width.
-/

namespace FixedWidth

namespace Word

variable {v w : Width}

/-- Applies an operation of one width to two words brought to their common width. -/
def promoted {α : Type} (x : Unsigned v) (y : Unsigned w)
    (f : Unsigned (v.common w) → Unsigned (v.common w) → α) : α :=
  f (x.resize (v.common w)) (y.resize (v.common w))

def add (x : Unsigned v) (y : Unsigned w) : Unsigned (v.common w) := promoted x y wrapAdd

def sub (x : Unsigned v) (y : Unsigned w) : Unsigned (v.common w) := promoted x y wrapSub

def mul (x : Unsigned v) (y : Unsigned w) : Unsigned (v.common w) := promoted x y wrapMul

def div? (x : Unsigned v) (y : Unsigned w) : Except ArithmeticError (Unsigned (v.common w)) :=
  promoted x y quotient?

def rem? (x : Unsigned v) (y : Unsigned w) : Except ArithmeticError (Unsigned (v.common w)) :=
  promoted x y remainder?

def and (x : Unsigned v) (y : Unsigned w) : Unsigned (v.common w) := promoted x y bitAnd

def or (x : Unsigned v) (y : Unsigned w) : Unsigned (v.common w) := promoted x y bitOr

def xor (x : Unsigned v) (y : Unsigned w) : Unsigned (v.common w) := promoted x y bitXor

/-- The 32-bit shift count that a word stands for. -/
def shiftCount (y : Unsigned w) : Unsigned .w32 := ofNat _ y.toNat

/-- The left shift of a word at the common width of its kind with itself. -/
def shl (x : Unsigned v) (y : Unsigned w) : Unsigned (v.common v) :=
  (x.resize (v.common v)).shiftLeft y.shiftCount

/-- The right shift of a word at the common width of its kind with itself. -/
def shr (x : Unsigned v) (y : Unsigned w) : Unsigned (v.common v) :=
  (x.resize (v.common v)).shiftRight y.shiftCount

end Word

/-- The operators on unsigned words. -/
inductive Operator where
  | add
  | sub
  | mul
  | div
  | rem
  | and
  | or
  | xor
  | shl
  | shr
deriving DecidableEq

namespace Operator

/-- The width of an operator's result. -/
def width : Operator → Width → Width → Width
  | .shl, v, _ => v.common v
  | .shr, v, _ => v.common v
  | _, v, w => v.common w

/-- The result of an operator. -/
def apply {v w : Width} :
    (op : Operator) → Unsigned v → Unsigned w → Except ArithmeticError (Unsigned (op.width v w))
  | .add, x, y => .ok (x.add y)
  | .sub, x, y => .ok (x.sub y)
  | .mul, x, y => .ok (x.mul y)
  | .div, x, y => x.div? y
  | .rem, x, y => x.rem? y
  | .and, x, y => .ok (x.and y)
  | .or, x, y => .ok (x.or y)
  | .xor, x, y => .ok (x.xor y)
  | .shl, x, y => .ok (x.shl y)
  | .shr, x, y => .ok (x.shr y)

end Operator

end FixedWidth
