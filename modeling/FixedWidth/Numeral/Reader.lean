import FixedWidth.Fault
import FixedWidth.Numeral
import FixedWidth.Word

/-!
# Reading numerals

A numeral is read from left to right into an unsigned word: after an optional plus sign every
character must be a digit of the radix, and the number read so far must fit the word. The first
character that fails decides the error, and of two faults at one character the wrong digit wins. A
sign with nothing behind it is a wrong digit, and so is a minus sign anywhere.
-/

namespace FixedWidth

/-- Why a text is no numeral of an unsigned kind: there is none, a character is no digit of the
radix, or the number does not fit. -/
inductive NumeralError where
  | empty
  | invalidDigit
  | overflow
deriving DecidableEq

namespace NumeralError

def name : NumeralError → String
  | .empty => "Empty"
  | .invalidDigit => "InvalidDigit"
  | .overflow => "PosOverflow"

def message : NumeralError → String
  | .empty => "cannot parse integer from empty string"
  | .invalidDigit => "invalid digit found in string"
  | .overflow => "number too large to fit in target type"

end NumeralError

/-- A number, if it fits an unsigned kind. -/
def Width.fit? (w : Width) (n : Nat) : Option Nat :=
  if n < w.modulus then some n else none

namespace Radix

/-- The number `n` with one more digit behind it. The digit is looked at before the scaled number.
-/
def extend (r : Radix) (w : Width) (n : Nat) (c : Char) : Except NumeralError Nat :=
  let scaled := w.fit? (n * r.base)
  match r.digitOf? c with
  | none => .error .invalidDigit
  | some d =>
    match scaled.bind fun m => w.fit? (m + d) with
    | none => .error .overflow
    | some m => .ok m

def readDigits (r : Radix) (w : Width) (cs : List Char) : Except NumeralError Nat :=
  cs.foldlM (r.extend w) 0

/-- The word of a numeral. -/
def read (r : Radix) (w : Width) (s : String) : Except NumeralError (Unsigned w) :=
  match s.toList with
  | [] => .error .empty
  | ['+'] => .error .invalidDigit
  | ['-'] => .error .invalidDigit
  | '+' :: cs => (r.readDigits w cs).map (Word.ofNat _)
  | cs => (r.readDigits w cs).map (Word.ofNat _)

end Radix

end FixedWidth
