import FixedWidth.Primitive.BinaryFormat
import FixedWidth.Word

/-!
# Words as primitive numbers

An integer type takes a word only where its range holds it. Types of 64 and of 128 bits take the
word directly; every smaller type, and the types of pointer size, take what the 64-bit type of their
domain was given. A floating point number of 64 bits is made from the signed 64-bit integer where
there is one, and from the unsigned one otherwise; one of 32 bits is made from that of 64 bits, and
so is rounded twice.
-/

namespace FixedWidth

/-- The sizes of primitive integers; a pointer has 64 bits. -/
inductive PrimitiveSize where
  | b8
  | b16
  | b32
  | b64
  | b128
  | pointer
deriving DecidableEq

def PrimitiveSize.bits : PrimitiveSize → Nat
  | .b8 => 8
  | .b16 => 16
  | .b32 => 32
  | .b64 => 64
  | .b128 => 128
  | .pointer => 64

/-- The primitive integer types. -/
structure PrimitiveInteger where
  domain : Domain
  size : PrimitiveSize
deriving DecidableEq

namespace PrimitiveInteger

/-- Whether the range of a type holds an integer. -/
def holds (p : PrimitiveInteger) (i : Int) : Bool :=
  match p.domain with
  | .signed =>
    decide (-(1 <<< (p.size.bits - 1) : Nat) ≤ i) && decide (i < (1 <<< (p.size.bits - 1) : Nat))
  | .unsigned => decide (0 ≤ i) && decide (i < (1 <<< p.size.bits : Nat))

end PrimitiveInteger

namespace Word

variable {w : Width}

def toInt64? (x : Unsigned w) : Option Int :=
  if PrimitiveInteger.holds ⟨.signed, .b64⟩ x.toNat then some x.toNat else none

def toNat64 (x : Unsigned w) : Int := x.toNat

/-- The word as a primitive integer, if the type's range holds it. -/
def toPrimitive? (p : PrimitiveInteger) (x : Unsigned w) : Option Int :=
  match p with
  | ⟨.signed, .b64⟩ => x.toInt64?
  | ⟨.unsigned, .b64⟩ => some x.toNat64
  | ⟨_, .b128⟩ => some x.toNat
  | ⟨.signed, size⟩ => x.toInt64?.filter (PrimitiveInteger.holds ⟨.signed, size⟩)
  | ⟨.unsigned, size⟩ => (some x.toNat64).filter (PrimitiveInteger.holds ⟨.unsigned, size⟩)

/-- The pattern of the word as a floating point number of 64 bits. -/
def toBinary64 (x : Unsigned w) : Nat :=
  x.toInt64?.elim (BinaryFormat.binary64.encode x.toNat) BinaryFormat.binary64.encodeInt

/-- The pattern of the word as a floating point number of 32 bits, made from that of 64 bits. -/
def toBinary32 (x : Unsigned w) : Nat :=
  BinaryFormat.binary32.encode (BinaryFormat.binary64.decode x.toBinary64)

end Word

end FixedWidth
