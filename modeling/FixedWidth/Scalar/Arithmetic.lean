import FixedWidth.Scalar
import FixedWidth.Word.Closed
import FixedWidth.Word.Order
import FixedWidth.Word.Promotion

/-!
# Arithmetic on scalars

Whether an operation exists is decided by the kinds of its operands before any value is looked at:
an operator needs two unsigned operands, an assignment also needs a left operand that is already as
wide as the result, and an operation inside one kind needs two operands of that kind. Only then can
a zero divisor be met, on which an operator traps and an operation inside one kind reports the
failure.
-/

namespace FixedWidth

/-- The operations on two words of one unsigned kind that stay inside the kind. -/
inductive InnerOperator where
  | wrapAdd
  | wrapSub
  | wrapMul
  | quotient
  | remainder
  | min
  | max
deriving DecidableEq

/-- The result of an operation inside one kind. -/
def InnerOperator.apply {w : Width} (op : InnerOperator) (x y : Unsigned w) :
    Except ArithmeticError (Unsigned w) :=
  match op with
  | .wrapAdd => .ok (x.wrapAdd y)
  | .wrapSub => .ok (x.wrapSub y)
  | .wrapMul => .ok (x.wrapMul y)
  | .quotient => x.quotient? y
  | .remainder => x.remainder? y
  | .min => .ok (Min.min x y)
  | .max => .ok (Max.max x y)

inductive Direction where
  | left
  | right
deriving DecidableEq

/-- The shift of a word that stays inside its kind. -/
def Direction.shift {w : Width} : Direction → Unsigned w → Unsigned .w32 → Unsigned w
  | .left, x, count => x.shiftLeft count
  | .right, x, count => x.shiftRight count

namespace Scalar

/-- The result of an operator; a zero divisor traps. -/
def binary (op : Operator) (a b : Scalar) : Except Fault Scalar :=
  match a, b with
  | ⟨⟨.unsigned, _⟩, x⟩, ⟨⟨.unsigned, _⟩, y⟩ =>
    match op.apply x y with
    | .ok z => .ok (ofUnsigned z)
    | .error e => .error (.trap e)
  | _, _ => .error .undefined

/-- Whether an operator on these kinds can store its result in its left operand. -/
def assignable : Kind → Kind → Bool
  | ⟨.unsigned, v⟩, ⟨.unsigned, w⟩ => v.common w == v
  | _, _ => false

/-- The new left operand of a compound assignment. -/
def assign (op : Operator) (a b : Scalar) : Except Fault Scalar :=
  if assignable a.kind b.kind then binary op a b else .error .undefined

/-- The result of an operation inside one unsigned kind; a zero divisor is reported. -/
def inner (op : InnerOperator) (a b : Scalar) : Except Fault Scalar :=
  match a with
  | ⟨⟨.unsigned, w⟩, x⟩ =>
    match b.word? ⟨.unsigned, w⟩ with
    | some y =>
      match op.apply x y with
      | .ok z => .ok (ofUnsigned z)
      | .error e => .error (.arithmetic e)
    | none => .error .undefined
  | ⟨⟨.signed, _⟩, _⟩ => .error .undefined

/-- The shift of an unsigned scalar inside its kind. -/
def shift (direction : Direction) (a : Scalar) (count : Unsigned .w32) : Except Fault Scalar :=
  match a with
  | ⟨⟨.unsigned, _⟩, x⟩ => .ok (ofUnsigned (direction.shift x count))
  | ⟨⟨.signed, _⟩, _⟩ => .error .undefined

/-- The complement of an unsigned scalar inside its kind. -/
def complement : Scalar → Except Fault Scalar
  | ⟨⟨.unsigned, _⟩, x⟩ => .ok (ofUnsigned x.complement)
  | ⟨⟨.signed, _⟩, _⟩ => .error .undefined

/-- The words of two scalars of one closed kind. -/
def closedOperands (a b : Scalar) : Except Fault ((w : Width) × Unsigned w × Unsigned w) :=
  match a with
  | ⟨⟨.unsigned, w⟩, x⟩ =>
    match b.word? ⟨.unsigned, w⟩ with
    | some y => if w.isClosed then .ok ⟨w, x, y⟩ else .error .undefined
    | none => .error .undefined
  | ⟨⟨.signed, _⟩, _⟩ => .error .undefined

theorem assign_eq_binary {op : Operator} {a b : Scalar} (h : assignable a.kind b.kind) :
    assign op a b = binary op a b := if_pos h

end Scalar

end FixedWidth
