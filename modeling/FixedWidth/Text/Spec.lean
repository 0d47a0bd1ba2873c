import FixedWidth.Numeral

/-!
# How a value is to be written

A spec says how a text is laid out: at least `width` characters wide, filled up before, behind or on
both sides, or with zeros right before the digits. Three of its flags reach the number itself:
`plus` asks for a sign on numbers that are not negative, `alternate` for the mark of the radix, or
for a debugging text spread over lines, and `precision` for nothing, since no integer has places
behind a point.
-/

namespace FixedWidth

/-- Where the text stands in a field that is wider. -/
inductive Alignment where
  | left
  | centre
  | right
deriving DecidableEq

/-- The layout of a text. -/
structure Spec where
  fill : Char := ' '
  alignment : Option Alignment := none
  plus : Bool := false
  alternate : Bool := false
  zero : Bool := false
  width : Option Nat := none
  precision : Option Nat := none
deriving DecidableEq

/-- Which text of a value is wanted; debugging shows signed numbers in hexadecimal where a case is
given. -/
inductive Form where
  | display
  | debug (hex : Option LetterCase)
  | hexadecimal (letters : LetterCase)
  | octal
  | binary
deriving DecidableEq

end FixedWidth
