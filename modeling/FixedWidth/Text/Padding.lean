import FixedWidth.Text.DigitBuffer
import FixedWidth.Text.Document
import FixedWidth.Text.Spec

/-!
# Layout of numbers

A number has a front, which is its sign and the mark of its radix, and digits. In a field that is
wider it is filled up before the front and behind the digits as the alignment says, to the right if
nothing else is asked; centred text has the smaller half before it. The zero flag overrides this and
puts zeros between the front and the digits. Digits that never carry a sign, even where a sign is
asked for, are laid out on their own.
-/

namespace FixedWidth

namespace Spec

def sign (spec : Spec) (negative : Bool) : String :=
  if negative then "-" else if spec.plus then "+" else ""

/-- How much of the padding stands before a number. -/
def paddingBefore (spec : Spec) (padding : Nat) : Nat :=
  match spec.alignment with
  | some .left => 0
  | some .centre => padding / 2
  | some .right => padding
  | none => padding

/-- The layout of a number with a sign and the mark of its radix. -/
def number (spec : Spec) (negative : Bool) (mark digits : String) : Document :=
  let front := spec.sign negative ++ (if spec.alternate then mark else "")
  let written := front.length + digits.length
  let width := spec.width.getD 0
  if width ≤ written then
    .text front ++ .text digits
  else if spec.zero then
    .text front ++ .fill (width - written) '0' ++ .text digits
  else
    let before := spec.paddingBefore (width - written)
    .fill before spec.fill ++ .text front ++ .text digits ++
      .fill (width - written - before) spec.fill

/-- The padding before and behind digits that stand alone. -/
def paddingAround (spec : Spec) (padding : Nat) : Nat × Nat :=
  match spec.alignment with
  | some .left => (0, padding)
  | some .centre => (padding / 2, (padding + 1) / 2)
  | some .right => (padding, 0)
  | none => (padding, 0)

/-- The layout of digits without a sign. -/
def bareDigits (spec : Spec) (digits : String) : Document :=
  let width := spec.width.getD 0
  if width ≤ digits.length then .text digits
  else if spec.zero then
    .fill (width - digits.length) '0' ++ .text digits
  else
    let (before, after) := spec.paddingAround (width - digits.length)
    .fill before spec.fill ++ .text digits ++ .fill after spec.fill

end Spec

/-- The layout of an unsigned decimal number, which never shows a sign. -/
def DigitEngine.decimal (engine : DigitEngine) (spec : Spec) (value : Nat) : Document :=
  match engine.digits? value with
  | none => .refused
  | some digits => if spec.plus then spec.bareDigits digits else spec.number false "" digits

end FixedWidth
