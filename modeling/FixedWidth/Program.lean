import FixedWidth.HashCode
import FixedWidth.Scalar.Arithmetic
import FixedWidth.Scalar.Comparison
import FixedWidth.Scalar.Conversion
import FixedWidth.Text.Rendering

/-!
# Register programs

A program is a list of steps over a fixed number of registers, each of which holds a scalar of any
kind. A computing step stores its value in one register; a query stores nothing. A step that fails
leaves all registers as they are, and the program goes on.
-/

namespace FixedWidth

abbrev Registers (n : Nat) := Vector Scalar n

/-- A step over `n` registers. A computing step names the register that it stores to first; an
assignment stores to its left operand, and the last four steps only ask. -/
inductive Step (n : Nat) where
  | binary (dst : Fin n) (op : Operator) (a b : Fin n)
  | assign (dst : Fin n) (op : Operator) (b : Fin n)
  | inner (dst : Fin n) (op : InnerOperator) (a b : Fin n)
  | shift (dst : Fin n) (direction : Direction) (a : Fin n) (count : Unsigned .w32)
  | complement (dst a : Fin n)
  | dual (dst a : Fin n)
  | cast (dst : Fin n) (target : Kind) (a : Fin n)
  | widen (dst : Fin n) (target : Kind) (a : Fin n)
  | convert (dst : Fin n) (target : Kind) (a : Fin n)
  | order (a b : Fin n)
  | equality (a b : Fin n)
  | hash (a : Fin n)
  | text (a : Fin n)

/-- What a step answers: the value that it stored, what it was asked for, or its fault. The
equalities are those of the words by their kinds, of the values and of the scalars. -/
inductive Answer where
  | value (a : Scalar)
  | order (o : Ordering)
  | equality (typed : Option Bool) (same equal : Bool)
  | code (c : Signed .w32)
  | text (s : String)
  | fault (f : Fault)
deriving DecidableEq

/-- What a step does: it stores a value, or only answers. -/
inductive Effect (n : Nat) where
  | store (dst : Fin n) (a : Scalar)
  | tell (answer : Answer)

namespace Step

variable {n : Nat}

/-- What a step computes from the registers. -/
def effect (regs : Registers n) : Step n → Except Fault (Effect n)
  | .binary dst op a b => (Scalar.binary op (regs.get a) (regs.get b)).map (.store dst)
  | .assign dst op b => (Scalar.assign op (regs.get dst) (regs.get b)).map (.store dst)
  | .inner dst op a b => (Scalar.inner op (regs.get a) (regs.get b)).map (.store dst)
  | .shift dst direction a count => (Scalar.shift direction (regs.get a) count).map (.store dst)
  | .complement dst a => (regs.get a).complement.map (.store dst)
  | .dual dst a => .ok (.store dst (regs.get a).dual)
  | .cast dst target a => ((regs.get a).cast target).map (.store dst)
  | .widen dst target a => ((regs.get a).widen target).map (.store dst)
  | .convert dst target a => (((regs.get a).convert target).mapError .kinds).map (.store dst)
  | .order a b => (((regs.get a).order? (regs.get b)).mapError .kinds).map fun o => .tell (.order o)
  | .equality a b =>
    let x := regs.get a
    let y := regs.get b
    .ok (.tell (.equality (x.typedEq? y) (x.sameValue y) (x == y)))
  | .hash a => .ok (.tell (.code (regs.get a).hashCode))
  | .text a => .ok (.tell (.text (regs.get a).toText))

/-- The answer of a step, and the registers after it. A step that fails leaves them alone. -/
def run (regs : Registers n) (step : Step n) : Answer × Registers n :=
  match step.effect regs with
  | .ok (.store dst a) => (.value a, regs.set dst a dst.isLt)
  | .ok (.tell answer) => (answer, regs)
  | .error f => (.fault f, regs)

theorem run_of_error {regs : Registers n} {step : Step n} {f : Fault}
    (h : step.effect regs = .error f) : step.run regs = (.fault f, regs) := by
  simp [run, h]

end Step

namespace Program

variable {n : Nat}

/-- The answers of the steps of a program, and the registers at its end. -/
def run (regs : Registers n) : List (Step n) → List Answer × Registers n
  | [] => ([], regs)
  | step :: steps =>
    let (answer, regs) := step.run regs
    let (answers, regs) := run regs steps
    (answer :: answers, regs)

end Program

end FixedWidth
