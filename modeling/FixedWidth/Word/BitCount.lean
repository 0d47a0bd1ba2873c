import FixedWidth.Word

/-!
# Counting bits

A word is also a list of bits, lowest first. The number of trailing zeros is the length of the run
of zeros at the start of this list, the number of leading zeros that of the run at its end, and
the number of ones is how often a set bit occurs. A word without set bits is one run of zeros, so
both runs then have the full width.
-/

namespace FixedWidth.Word

variable {k : Kind}

/-- The bits of a word, lowest first. -/
def toList (x : Word k) : List Bool :=
  (List.range k.bits).map x.bits.getLsbD

/-- The number of zero bits below the lowest set bit. -/
def trailingZeros (x : Word k) : Nat :=
  (x.toList.takeWhile (!·)).length

/-- The number of zero bits above the highest set bit. -/
def leadingZeros (x : Word k) : Nat :=
  (x.toList.reverse.takeWhile (!·)).length

def ones (x : Word k) : Nat :=
  x.toList.count true

@[simp]
theorem length_toList (x : Word k) : x.toList.length = k.bits := by
  simp [toList]

theorem getElem_toList (x : Word k) {i : Nat} (h : i < x.toList.length) :
    x.toList[i] = x.bits.getLsbD i := by
  simp [toList]

end FixedWidth.Word
