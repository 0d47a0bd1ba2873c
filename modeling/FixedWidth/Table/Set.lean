import FixedWidth.Table

/-!
# Sets of scalars

A set remembers, for each integer in it, one scalar of that value. Inserting keeps a scalar that
is there already, replacing stores the new one; taking and getting answer the stored scalar, which
may be of another kind than the probe.
-/

namespace FixedWidth

abbrev ScalarSet := Table Unit

/-- A step on a set. An insertion keeps a scalar of the same value that is there; a replacement does
not. -/
inductive SetStep where
  | insert (a : Scalar)
  | replace (a : Scalar)
  | remove (a : Scalar)
  | take (a : Scalar)
  | contains (a : Scalar)
  | get (a : Scalar)
  | clear

/-- What a step on a set answers: whether it found or changed something, or a stored scalar. -/
inductive SetAnswer where
  | flag (b : Bool)
  | element (a : Option Scalar)
  | none
deriving DecidableEq

namespace ScalarSet

def empty : ScalarSet := {}

/-- The stored scalar that a probe takes. -/
def get? (s : ScalarSet) (probe : Scalar) : Option Scalar := (s.find? probe).map (·.1)

/-- The stored scalars in ascending order. -/
def elements (s : ScalarSet) : List Scalar := s.listing.map (·.1)

end ScalarSet

namespace SetStep

/-- The answer of a step, and the set after it. -/
def run (s : ScalarSet) : SetStep → SetAnswer × ScalarSet
  | .insert a => if s.contains a then (.flag false, s) else (.flag true, s.store a ())
  | .replace a => (.element (s.get? a), s.store a ())
  | .remove a => (.flag (s.contains a), s.erase a)
  | .take a => (.element (s.get? a), s.erase a)
  | .contains a => (.flag (s.contains a), s)
  | .get a => (.element (s.get? a), s)
  | .clear => (.none, .empty)

/-- The answers of a sequence of steps, each with the set after it. -/
def runAll (s : ScalarSet) : List SetStep → List (SetAnswer × ScalarSet)
  | [] => []
  | step :: steps => step.run s :: runAll (step.run s).2 steps

end SetStep

end FixedWidth
