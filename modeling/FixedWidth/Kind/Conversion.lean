import FixedWidth.Kind

/-!
# Classes of conversion, and common widths

A conversion between two kinds falls into one of five classes, decided by the kinds alone. A wider
target needs a rule for the new high bits: an unsigned source fills them with zeros and a signed
source repeats its sign, but from signed into a wider unsigned kind neither is the obvious one, and
there is no conversion (`Kind.conversion?_eq_none_iff`).

Operators work at a common width of their operands: 64 bits if either side has 64, and 32 bits
otherwise.
-/

namespace FixedWidth

/-- The class of a conversion between two kinds: to the kind itself, to its dual, to a smaller kind,
or to a larger one by zeros or by repeating the sign. -/
inductive Conversion where
  | identity
  | reinterpret
  | narrow
  | zeroExtend
  | signExtend
deriving DecidableEq

def Conversion.name : Conversion → String
  | .identity => "Identity"
  | .reinterpret => "Reinterpret"
  | .narrow => "Narrow"
  | .zeroExtend => "ZeroExtend"
  | .signExtend => "SignExtend"

namespace Kind

/-- The class of the conversion from `source` to `target`, if there is one. -/
def conversion? (source target : Kind) : Option Conversion :=
  if target.bits < source.bits then
    some .narrow
  else if source.bits = target.bits then
    if source.domain = target.domain then some .identity else some .reinterpret
  else
    match source.domain, target.domain with
    | .unsigned, _ => some .zeroExtend
    | .signed, .signed => some .signExtend
    | .signed, .unsigned => none

/-- **The only missing conversions** lead from a signed kind into a wider unsigned one. -/
theorem conversion?_eq_none_iff {source target : Kind} :
    source.conversion? target = none ↔
      source.domain = .signed ∧ target.domain = .unsigned ∧ source.bits < target.bits := by
  rcases source with ⟨_ | _, _ | _ | _ | _⟩ <;>
    rcases target with ⟨_ | _, _ | _ | _ | _⟩ <;> decide

end Kind

/-- The width at which an operator works on operands of widths `v` and `w`. -/
def Width.common : Width → Width → Width
  | .w64, _ => .w64
  | _, .w64 => .w64
  | _, _ => .w32

namespace Width

theorem common_comm (v w : Width) : v.common w = w.common v := by
  cases v <;> cases w <;> rfl

theorem common_assoc (u v w : Width) : (u.common v).common w = u.common (v.common w) := by
  cases u <;> cases v <;> cases w <;> rfl

theorem bits_le_common_left (v w : Width) : v.bits ≤ (v.common w).bits := by
  cases v <;> cases w <;> decide

theorem bits_le_common_right (v w : Width) : w.bits ≤ (v.common w).bits := by
  cases v <;> cases w <;> decide

end Width

/-- The kind in which an operator on two unsigned kinds works; signed kinds have none. -/
def Kind.common? : Kind → Kind → Option Kind
  | ⟨.unsigned, v⟩, ⟨.unsigned, w⟩ => some ⟨.unsigned, v.common w⟩
  | _, _ => none

end FixedWidth
