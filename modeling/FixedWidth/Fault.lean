import FixedWidth.Kind

/-!
# What can go wrong

An operation fails for one of four reasons. The kinds of its operands may not admit it at all;
that is decided before any value is looked at, and it is the only reason for most operations. A
division may meet a zero divisor, which the checked divisions report and the division operators
trap on. And an operation on scalars, whose kinds are known only when it runs, reports kinds that
do not fit.
-/

namespace FixedWidth

/-- Failure of an arithmetic operation: a quotient or remainder by zero. -/
inductive ArithmeticError where
  | divisionByZero
deriving DecidableEq

def ArithmeticError.message : ArithmeticError → String
  | .divisionByZero => "division by zero"

def ArithmeticError.name : ArithmeticError → String
  | .divisionByZero => "DivisionByZero"

/-- Kinds that do not fit an operation: a signed source of a wider unsigned kind, or two domains
where an order is asked for. -/
inductive KindError where
  | signedWidening (source target : Kind)
  | mixedDomains (lhs rhs : Kind)
deriving DecidableEq

namespace KindError

def message : KindError → String
  | .signedWidening source target =>
    "no conversion from " ++ source.name ++ " to " ++ target.name ++
      ": signed values cannot widen into unsigned kinds"
  | .mixedDomains lhs rhs =>
    "cannot order " ++ lhs.name ++ " against " ++ rhs.name ++
      ": operands mix signed and unsigned kinds"

def name : KindError → String
  | .signedWidening .. => "SignedToUnsignedWidening"
  | .mixedDomains .. => "MixedDomain"

/-- The two kinds that do not fit, each under the name of its part in the operation. -/
def fields : KindError → List (String × Kind)
  | .signedWidening source target => [("from", source), ("to", target)]
  | .mixedDomains lhs rhs => [("lhs", lhs), ("rhs", rhs)]

end KindError

/-- Why an operation has no value: it does not exist for these kinds, it reports an arithmetic
failure or traps on one, or it reports kinds that do not fit. -/
inductive Fault where
  | undefined
  | arithmetic (error : ArithmeticError)
  | trap (error : ArithmeticError)
  | kinds (error : KindError)
deriving DecidableEq

end FixedWidth
