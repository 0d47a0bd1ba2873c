import FixedWidth.Table

/-!
# Maps from scalars to text

A map holds a text under each integer that is a key, and remembers the scalar under which the key
was first stored. Inserting and appending to a key that is there keep this scalar, whatever the
kind of the probe.
-/

namespace FixedWidth

abbrev ScalarMap := Table String

/-- A step on a map. An append adds to the empty text where the key is absent. -/
inductive MapStep where
  | insert (key : Scalar) (text : String)
  | append (key : Scalar) (text : String)
  | remove (key : Scalar)
  | get (key : Scalar)

/-- What a step on a map answers: a text, or a stored key with its text, if there was one. -/
inductive MapAnswer where
  | text (s : Option String)
  | entry (e : Option (Scalar × String))
deriving DecidableEq

def ScalarMap.empty : ScalarMap := {}

namespace MapStep

/-- The answer of a step, and the map after it. -/
def run (m : ScalarMap) : MapStep → MapAnswer × ScalarMap
  | .insert key text =>
    match m.find? key with
    | none => (.text none, m.store key text)
    | some (stored, old) => (.text (some old), m.store stored text)
  | .append key text =>
    match m.find? key with
    | none => (.text (some text), m.store key text)
    | some (stored, old) => (.text (some (old ++ text)), m.store stored (old ++ text))
  | .remove key => (.entry (m.find? key), m.erase key)
  | .get key => (.entry (m.find? key), m)

/-- The answers of a sequence of steps, each with the map after it. -/
def runAll (m : ScalarMap) : List MapStep → List (MapAnswer × ScalarMap)
  | [] => []
  | step :: steps => step.run m :: runAll (step.run m).2 steps

end MapStep

end FixedWidth
