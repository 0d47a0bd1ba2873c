import FixedWidth.Scalar

/-!
# Hash codes

The hash code of a word depends on its mathematical value alone. A value of 32 signed bits is its
own code. A value of 64 signed bits is folded: its two halves are joined by exclusive or. Any other
value has the complement of the fold of its low 64 bits, which sets it apart from the negative value
of the same bits, as long as this is folded too.
-/

namespace FixedWidth

/-- Whether the signed kind of a width holds an integer. -/
def Width.holdsSigned (w : Width) (i : Int) : Bool :=
  decide (Kind.least ⟨.signed, w⟩ ≤ i) && decide (i ≤ Kind.greatest ⟨.signed, w⟩)

/-- The two halves of a carrier joined by exclusive or. -/
def foldHalves (c : BitVec 64) : BitVec 32 := (c ^^^ c >>> 32).setWidth 32

/-- The hash code of an integer. -/
def hashCode (i : Int) : Signed .w32 :=
  if Width.w32.holdsSigned i then Word.ofInt _ i
  else if Width.w64.holdsSigned i then ⟨foldHalves (BitVec.ofInt 64 i)⟩
  else ⟨~~~foldHalves (BitVec.ofInt 64 i)⟩

/-- One thing handed to a hasher: a signed number of 32 bits. -/
inductive HashWrite where
  | int32 (code : Signed .w32)
deriving DecidableEq

namespace HashWrite

/-- The type under which a hasher receives a write. -/
def typeName : HashWrite → String
  | .int32 _ => Kind.name ⟨.signed, .w32⟩

def number : HashWrite → Int
  | .int32 code => code.value

end HashWrite

def Word.hashCode {k : Kind} (x : Word k) : Signed .w32 := FixedWidth.hashCode x.value

/-- What an unsigned word hands to a hasher. Signed words are hashed elsewhere. -/
def Word.hashWrites? {k : Kind} (x : Word k) : Option (List HashWrite) :=
  match k.domain with
  | .unsigned => some [.int32 x.hashCode]
  | .signed => none

namespace Scalar

def hashCode (a : Scalar) : Signed .w32 := FixedWidth.hashCode a.value

/-- What a scalar hands to a hasher. -/
def hashWrites (a : Scalar) : List HashWrite := [.int32 a.hashCode]

theorem hashCode_eq_of_beq {a b : Scalar} (h : a == b) : a.hashCode = b.hashCode :=
  congrArg FixedWidth.hashCode (beq_iff_value_eq.mp h)

end Scalar

end FixedWidth
