import FixedWidth.Word

/-!
# Order of unsigned words

Words of one unsigned kind are ordered by their plain binary reading, never by the sign that their
top bit has under two's complement. Words of different unsigned kinds are compared after both have
been brought to 64 bits, which changes no reading.
-/

namespace FixedWidth.Word

variable {v w : Width}

/-- The order of two words of one kind. -/
def cmp (x y : Unsigned w) : Ordering := compare x.toNat y.toNat

/-- The order of two words of any kinds, compared at 64 bits. -/
def crossCmp (x : Unsigned v) (y : Unsigned w) : Ordering :=
  compare (x.bits.setWidth 64).toNat (y.bits.setWidth 64).toNat

instance : Ord (Unsigned w) := ⟨cmp⟩

instance : Min (Unsigned w) := ⟨fun x y => if (x.cmp y).isLE then x else y⟩

instance : Max (Unsigned w) := ⟨fun x y => if (x.cmp y).isLE then y else x⟩

/-- The words of a list in ascending order. -/
def sort (xs : List (Unsigned w)) : List (Unsigned w) :=
  xs.mergeSort fun x y => (x.cmp y).isLE

/-- Reading at 64 bits changes nothing, so the order across kinds is that of the readings. -/
theorem crossCmp_eq (x : Unsigned v) (y : Unsigned w) :
    x.crossCmp y = compare x.toNat y.toNat := by
  have widened (u : Width) (z : Unsigned u) : (z.bits.setWidth 64).toNat = z.toNat :=
    BitVec.toNat_setWidth_of_le u.bits_le
  rw [crossCmp, widened, widened]

end FixedWidth.Word
