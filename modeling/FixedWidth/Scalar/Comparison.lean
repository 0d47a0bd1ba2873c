import FixedWidth.Scalar
import FixedWidth.Word.Order

/-!
# Comparison of words and scalars

Inside one unsigned kind it is enough to look at the bits; across kinds the mathematical values are
compared, and two signed words are left to their own kinds. Order exists between unsigned words of
any kinds. Scalars are ordered by value inside a domain, and report their kinds where one is signed
and the other is not.
-/

namespace FixedWidth

/-- Whether two words of any kinds stand for the same integer. -/
def Word.sameValue {j k : Kind} (x : Word j) (y : Word k) : Bool := x.value == y.value

namespace Scalar

def sameValue (a b : Scalar) : Bool := a.word.sameValue b.word

/-- The equality of two words by their kinds: of bits inside one unsigned kind, of values across
kinds, and none between two signed words. -/
def typedEq? (a b : Scalar) : Option Bool :=
  match a.kind.domain, b.kind.domain with
  | .signed, .signed => none
  | _, _ =>
    match b.word? a.kind with
    | some y => some (a.word == y)
    | none => some (a.word.sameValue b.word)

/-- The order of two scalars of one unsigned kind. -/
def innerOrder? (a b : Scalar) : Option Ordering :=
  match a with
  | ⟨⟨.unsigned, w⟩, x⟩ => (b.word? ⟨.unsigned, w⟩).map x.cmp
  | ⟨⟨.signed, _⟩, _⟩ => none

/-- The order of two unsigned scalars, whether or not they are of one kind. -/
def typedOrder (a b : Scalar) : Except Fault Ordering :=
  match a, b with
  | ⟨⟨.unsigned, _⟩, x⟩, ⟨⟨.unsigned, _⟩, y⟩ => .ok ((a.innerOrder? b).getD (x.crossCmp y))
  | _, _ => .error .undefined

/-- The order of two scalars of one domain, or the two kinds that do not fit. -/
def order? (a b : Scalar) : Except KindError Ordering :=
  if a.kind.domain = b.kind.domain then .ok (compare a.value b.value)
  else .error (.mixedDomains a.kind b.kind)

/-- Only a signed and an unsigned scalar have no order. -/
theorem order?_eq_error_iff {a b : Scalar} {e : KindError} :
    a.order? b = .error e ↔
      a.kind.domain ≠ b.kind.domain ∧ e = .mixedDomains a.kind b.kind := by
  by_cases h : a.kind.domain = b.kind.domain <;> simp [order?, h, eq_comm]

end Scalar

end FixedWidth
