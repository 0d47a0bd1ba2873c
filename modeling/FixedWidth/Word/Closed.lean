import FixedWidth.Word.Promotion

/-!
# Closed widths

At 32 and at 64 bits the operators stay inside the kind: the common width of the kind with itself is
the kind's own width. These two kinds have a zero, a one, a sum and a product, so lists of their
words can be folded and their words raised to powers by algorithms that know nothing else of them.
-/

namespace FixedWidth

/-- Whether operators on a width stay inside it. -/
def Width.isClosed (w : Width) : Bool := w.common w == w

/-- The widths that operators stay inside. -/
class Width.Closed (w : Width) : Prop where
  isClosed : w.isClosed = true

theorem Width.common_self (w : Width) [w.Closed] : w.common w = w := beq_iff_eq.mp Closed.isClosed

/-- The width of a closed unsigned kind. -/
def Kind.closed? : Kind → Except Fault Width
  | ⟨.unsigned, w⟩ => if w.isClosed then .ok w else .error .undefined
  | ⟨.signed, _⟩ => .error .undefined

/-! ## Algorithms over any type -/

section Generic

variable {α : Type}

/-- The sum of a list, from zero. -/
def foldAdd [Zero α] [Add α] (xs : List α) : α := xs.foldl (fun a x => a + x) Zero.zero

/-- The product of a list, from one. -/
def foldMul [One α] [Mul α] (xs : List α) : α := xs.foldl (fun a x => a * x) One.one

variable [Mul α]

/-- Squares the base for every bit of `n` above the lowest, and multiplies the squares of set bits
onto `acc`. -/
def powerOnto (acc base : α) (n : Nat) : α :=
  if n ≤ 1 then acc
  else
    let square := base * base
    powerOnto (if n / 2 % 2 = 1 then acc * square else acc) square (n / 2)
termination_by n
decreasing_by omega

/-- The power with a positive exponent, whose trailing zero bits are squared away first. -/
def powerPos (base : α) (n : Nat) : α :=
  if 0 < n ∧ n % 2 = 0 then powerPos (base * base) (n / 2)
  else powerOnto base base n
termination_by n
decreasing_by omega

/-- The power of `base` with exponent `n`, by repeated squaring. -/
def power [One α] (base : α) (n : Nat) : α :=
  if n = 0 then One.one else powerPos base n

end Generic

/-! ## The closed kinds -/

namespace Word

variable {w : Width}

instance : Zero (Unsigned w) := ⟨zero w⟩

instance : One (Unsigned w) := ⟨one w⟩

instance [w.Closed] : Add (Unsigned w) := ⟨fun x y => w.common_self ▸ x.add y⟩

instance [w.Closed] : Mul (Unsigned w) := ⟨fun x y => w.common_self ▸ x.mul y⟩

/-- Whether all bits are zero. -/
def isZero (x : Unsigned w) : Bool := x.toInt == 0

def isOne (x : Unsigned w) : Bool := x == one w

/-- The wrapped sum of a list. -/
def sum (xs : List (Unsigned w)) : Unsigned w := xs.foldl wrapAdd (zero w)

/-- The wrapped product of a list. -/
def product (xs : List (Unsigned w)) : Unsigned w := xs.foldl wrapMul (one w)

end Word

/-- The ways to fold a list of words of a closed kind: by the wrapping operations or by the
operators. -/
inductive Fold where
  | sum
  | product
  | foldAdd
  | foldMul
deriving DecidableEq

namespace Fold

variable {w : Width}

def fold [w.Closed] (f : Fold) (xs : List (Unsigned w)) : Unsigned w :=
  match f with
  | .sum => Word.sum xs
  | .product => Word.product xs
  | .foldAdd => FixedWidth.foldAdd xs
  | .foldMul => FixedWidth.foldMul xs

/-- Folds a list of words, where the kind is closed. -/
def run (f : Fold) (w : Width) (xs : List (Unsigned w)) : Except Fault (Unsigned w) :=
  if h : w.isClosed then
    haveI : w.Closed := ⟨h⟩
    .ok (f.fold xs)
  else .error .undefined

end Fold

/-- The power of a word of a closed kind. -/
def Word.power? (n : Nat) {w : Width} (x : Unsigned w) : Except Fault (Unsigned w) :=
  if h : w.isClosed then
    haveI : w.Closed := ⟨h⟩
    .ok (power x n)
  else .error .undefined

end FixedWidth
