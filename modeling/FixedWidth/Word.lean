import FixedWidth.Kind

/-!
# Words

A word of a kind is a pattern of as many bits as the kind has. The pattern has two readings, plain
binary (`Word.toNat`) and two's complement (`Word.toInt`), and the kind's domain chooses which of
the two is the word's mathematical value (`Word.value`).
-/

namespace FixedWidth

/-- A word of a kind: as many bits as the kind has. -/
structure Word (k : Kind) where
  bits : BitVec k.bits
deriving DecidableEq

abbrev Unsigned (w : Width) := Word ⟨.unsigned, w⟩

abbrev Signed (w : Width) := Word ⟨.signed, w⟩

namespace Word

variable {k : Kind} {w : Width}

/-- The bits read as plain binary. -/
def toNat (x : Word k) : Nat := x.bits.toNat

/-- The bits read in two's complement. -/
def toInt (x : Word k) : Int := x.bits.toInt

/-- The integer that a word stands for. -/
def value (x : Word k) : Int :=
  match k.domain with
  | .signed => x.toInt
  | .unsigned => x.toNat

/-- The word whose plain binary reading is `n`, up to the width. -/
def ofNat (k : Kind) (n : Nat) : Word k := ⟨BitVec.ofNat k.bits n⟩

/-- The word whose two's complement reading is `i`, up to the width. -/
def ofInt (k : Kind) (i : Int) : Word k := ⟨BitVec.ofInt k.bits i⟩

/-- The same bits as a word of the dual kind. -/
def dual (x : Word k) : Word k.dual := ⟨x.bits⟩

def toSigned (x : Unsigned w) : Signed w := ⟨x.bits⟩

def ofSigned (x : Signed w) : Unsigned w := ⟨x.bits⟩

/-! ## Constants -/

def zero (w : Width) : Unsigned w := ofNat _ 0

def one (w : Width) : Unsigned w := ofNat _ 1

def least (w : Width) : Unsigned w := zero w

/-- The largest unsigned word, made of the two's complement number minus one. -/
def greatest (w : Width) : Unsigned w := ofInt _ (-1)

instance : Inhabited (Unsigned w) := ⟨zero w⟩

/-! ## Readings -/

@[simp]
theorem value_unsigned (x : Unsigned w) : x.value = x.toNat := rfl

@[simp]
theorem value_signed (x : Signed w) : x.value = x.toInt := rfl

theorem toNat_lt (x : Word k) : x.toNat < k.width.modulus := by
  have h := x.bits.isLt
  rw [Width.modulus, Nat.shiftLeft_eq, Nat.one_mul]
  exact h

theorem ext_toNat {x y : Word k} (h : x.toNat = y.toNat) : x = y := by
  cases x
  cases y
  exact congrArg Word.mk (BitVec.eq_of_toNat_eq h)

theorem ofSigned_toSigned (x : Unsigned w) : ofSigned x.toSigned = x := rfl

theorem toSigned_ofSigned (x : Signed w) : (ofSigned x).toSigned = x := rfl

end Word

end FixedWidth
