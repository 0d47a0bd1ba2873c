import FixedWidth.Fault
import FixedWidth.Word

/-!
# Scalars

A scalar is a word together with its kind, for places where the kind is known only when the program
runs. Two scalars are *equal*, `==`, when they stand for the same integer, whatever their kinds; the
finer relation `=` also tells kinds apart.
-/

namespace FixedWidth

/-- A word of any kind. -/
structure Scalar where
  kind : Kind
  word : Word kind
deriving DecidableEq

namespace Scalar

def ofUnsigned {w : Width} (x : Unsigned w) : Scalar := ⟨_, x⟩

def ofWord {k : Kind} (x : Word k) : Scalar := ⟨k, x⟩

/-- The integer that a scalar stands for. -/
def value (a : Scalar) : Int := a.word.value

/-- Scalars are equal when they stand for the same integer. -/
instance : BEq Scalar := ⟨fun a b => a.value == b.value⟩

/-- The scalar of kind `k` that stands for `i`, if the kind's range holds it. -/
def ofInt? (k : Kind) (i : Int) : Option Scalar :=
  if k.least ≤ i ∧ i ≤ k.greatest then some ⟨k, Word.ofInt k i⟩ else none

/-- The word of a scalar, if its kind is `k`. -/
def word? (k : Kind) (a : Scalar) : Option (Word k) :=
  if h : a.kind = k then some (h ▸ a.word) else none

theorem beq_iff_value_eq {a b : Scalar} : (a == b) = true ↔ a.value = b.value :=
  beq_iff_eq (α := Int)

@[simp]
theorem word?_kind (a : Scalar) : a.word? a.kind = some a.word := by
  simp [word?]

end Scalar

/-! ## Operands of unsigned operations -/

/-- The width of an unsigned kind. -/
def Kind.unsigned? : Kind → Except Fault Width
  | ⟨.unsigned, w⟩ => .ok w
  | ⟨.signed, _⟩ => .error .undefined

/-- The width and the word of an unsigned scalar. -/
def Scalar.unsigned? : Scalar → Except Fault ((w : Width) × Unsigned w)
  | ⟨⟨.unsigned, w⟩, x⟩ => .ok ⟨w, x⟩
  | ⟨⟨.signed, _⟩, _⟩ => .error .undefined

end FixedWidth
