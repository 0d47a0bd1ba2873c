/-!
# Binary floating point formats

A binary format writes a number as a sign, a field for the exponent and a field for the fraction.
The significand is the number scaled so that its highest bit comes to stand right above the fraction
field, rounded to nearest with ties to even. The pattern is the sum of the exponent field and the
significand: its highest bit adds one to the exponent field, and a significand that rounds up to the
next power of two adds one more, which is just what the pattern of that power needs.

Only integers below the largest finite number of a format are written.
-/

namespace FixedWidth

/-- The number `n / 2 ^ s` rounded to nearest, ties to even. -/
def roundHalfEven (n s : Nat) : Nat :=
  let quotient := n >>> s
  let rest := n - quotient <<< s
  if 2 * rest < 1 <<< s then quotient
  else if 1 <<< s < 2 * rest then quotient + 1
  else quotient + quotient % 2

/-- A binary format by the widths of its fields. -/
structure BinaryFormat where
  exponentBits : Nat
  fractionBits : Nat

namespace BinaryFormat

def binary64 : BinaryFormat := ⟨11, 52⟩

def binary32 : BinaryFormat := ⟨8, 23⟩

/-- The exponent field of the number one. -/
def bias (f : BinaryFormat) : Nat := 1 <<< (f.exponentBits - 1) - 1

/-- The number scaled to the significand of the format. -/
def significand (f : BinaryFormat) (n : Nat) : Nat :=
  if n.log2 ≤ f.fractionBits then n <<< (f.fractionBits - n.log2)
  else roundHalfEven n (n.log2 - f.fractionBits)

/-- The pattern of a number. -/
def encode (f : BinaryFormat) (n : Nat) : Nat :=
  if n = 0 then 0
  else (f.bias + n.log2 - 1) <<< f.fractionBits + f.significand n

/-- The pattern of an integer, with the sign above the exponent field. -/
def encodeInt (f : BinaryFormat) (i : Int) : Nat :=
  if i < 0 then 1 <<< (f.exponentBits + f.fractionBits) + f.encode i.natAbs
  else f.encode i.natAbs

/-- The number of a pattern without sign that stands for a natural number. -/
def decode (f : BinaryFormat) (pattern : Nat) : Nat :=
  if pattern = 0 then 0
  else
    let exponent := pattern >>> f.fractionBits - f.bias
    let significand := 1 <<< f.fractionBits + pattern % 1 <<< f.fractionBits
    if f.fractionBits ≤ exponent then significand <<< (exponent - f.fractionBits)
    else significand >>> (f.fractionBits - exponent)

end BinaryFormat

end FixedWidth
