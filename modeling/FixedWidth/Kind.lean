/-!
# Integer kinds

A kind says how a fixed number of bits is read. It has two independent parts: a *domain*, signed
(two's complement) or unsigned (plain binary), and a *width* of 8, 16, 32 or 64 bits, so there are
eight kinds. Everything else here is read off these two parts.
-/

namespace FixedWidth

/-- How a bit pattern is read: in two's complement, or as plain binary. -/
inductive Domain where
  | signed
  | unsigned
deriving DecidableEq

def Domain.other : Domain → Domain
  | .signed => .unsigned
  | .unsigned => .signed

def Domain.name : Domain → String
  | .signed => "Signed"
  | .unsigned => "Unsigned"

/-- How many bits there are, always a whole number of bytes. -/
inductive Width where
  | w8
  | w16
  | w32
  | w64
deriving DecidableEq

namespace Width

def bits : Width → Nat
  | .w8 => 8
  | .w16 => 16
  | .w32 => 32
  | .w64 => 64

def bytes : Width → Nat
  | .w8 => 1
  | .w16 => 2
  | .w32 => 4
  | .w64 => 8

def all : List Width := [.w8, .w16, .w32, .w64]

/-- The number of bit patterns, where arithmetic of this width wraps. -/
def modulus (w : Width) : Nat := 1 <<< w.bits

/-- Half of the bit patterns: those that are negative in two's complement. -/
def halfModulus (w : Width) : Nat := 1 <<< (w.bits - 1)

theorem bits_eq_mul_bytes (w : Width) : w.bits = 8 * w.bytes := by
  cases w <;> rfl

theorem bits_pos (w : Width) : 0 < w.bits := by
  cases w <;> decide

theorem bits_le (w : Width) : w.bits ≤ 64 := by
  cases w <;> decide

theorem bits_inj {v w : Width} : v.bits = w.bits ↔ v = w := by
  cases v <;> cases w <;> decide

theorem modulus_eq_two_mul (w : Width) : w.modulus = 2 * w.halfModulus := by
  cases w <;> decide

end Width

/-- One of the eight fixed-width integer kinds. -/
structure Kind where
  domain : Domain
  width : Width
deriving DecidableEq

namespace Kind

abbrev bits (k : Kind) : Nat := k.width.bits

/-- The eight kinds: signed first, each domain in order of width. -/
def all : List Kind :=
  [Domain.signed, Domain.unsigned].flatMap fun domain => Width.all.map fun width => ⟨domain, width⟩

/-- The kind with the same bits in the other domain. -/
def dual (k : Kind) : Kind := { k with domain := k.domain.other }

def isSigned (k : Kind) : Bool := k.domain == .signed

def least : Kind → Int
  | ⟨.signed, w⟩ => -(w.halfModulus : Int)
  | ⟨.unsigned, _⟩ => 0

def greatest : Kind → Int
  | ⟨.signed, w⟩ => (w.halfModulus : Int) - 1
  | ⟨.unsigned, w⟩ => (w.modulus : Int) - 1

/-- The name of a kind in running text. -/
def name : Kind → String
  | ⟨.signed, .w8⟩ => "i8"
  | ⟨.signed, .w16⟩ => "i16"
  | ⟨.signed, .w32⟩ => "i32"
  | ⟨.signed, .w64⟩ => "i64"
  | ⟨.unsigned, .w8⟩ => "UInt8"
  | ⟨.unsigned, .w16⟩ => "UInt16"
  | ⟨.unsigned, .w32⟩ => "UInt32"
  | ⟨.unsigned, .w64⟩ => "UInt64"

/-- The short tag of a kind, for texts that have to tell kinds apart. -/
def tag : Kind → String
  | ⟨.signed, .w8⟩ => "I8"
  | ⟨.signed, .w16⟩ => "I16"
  | ⟨.signed, .w32⟩ => "I32"
  | ⟨.signed, .w64⟩ => "I64"
  | ⟨.unsigned, .w8⟩ => "U8"
  | ⟨.unsigned, .w16⟩ => "U16"
  | ⟨.unsigned, .w32⟩ => "U32"
  | ⟨.unsigned, .w64⟩ => "U64"

theorem mem_all (k : Kind) : k ∈ all := by
  rcases k with ⟨_ | _, _ | _ | _ | _⟩ <;> decide

theorem dual_dual (k : Kind) : k.dual.dual = k := by
  rcases k with ⟨_ | _, w⟩ <;> rfl

theorem bits_dual (k : Kind) : k.dual.bits = k.bits := rfl

end Kind

end FixedWidth
