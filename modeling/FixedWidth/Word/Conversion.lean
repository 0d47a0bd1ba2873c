import FixedWidth.Word

/-!
# Conversion of words

Every cast passes through a carrier of 64 bits. The source spreads its bits over the carrier,
filling the high part in the way of its domain, and the target keeps the low bits that it has room
for. Which casts exist is given target by target, as the list of source kinds. Widening, which is
meant for values that cannot be damaged, has its own list and works on the plain binary reading.
-/

namespace FixedWidth

namespace Word

variable {k : Kind} {v w : Width}

/-- The bits of a word spread over 64, by its sign or by zeros. -/
def carrier (x : Word k) : BitVec 64 :=
  match k.domain with
  | .signed => x.bits.signExtend 64
  | .unsigned => x.bits.setWidth 64

/-- The word of kind `k` that keeps the low bits of a carrier. -/
def ofCarrier (k : Kind) (c : BitVec 64) : Word k := ⟨c.setWidth k.bits⟩

theorem getLsbD_carrier (x : Word k) {i : Nat} (h : i < k.bits) :
    x.carrier.getLsbD i = x.bits.getLsbD i := by
  have h64 : i < 64 := Nat.lt_of_lt_of_le h k.width.bits_le
  rcases k with ⟨_ | _, w⟩
  · simp only [Kind.bits] at h
    simp [carrier, BitVec.getElem_signExtend, h, h64]
  · simp [carrier, h64]

theorem ofCarrier_carrier (x : Word k) : ofCarrier k x.carrier = x := by
  rcases x with ⟨b⟩
  refine congrArg mk (BitVec.eq_of_getLsbD_eq fun i hi => ?_)
  rw [BitVec.getLsbD_setWidth, getLsbD_carrier _ hi]
  simp [hi]

/-- An unsigned word at another unsigned width: more high zeros, or fewer high bits. -/
def resize (w : Width) (x : Unsigned v) : Unsigned w := ofCarrier _ x.carrier

end Word

/-! ## Casts -/

/-- The signed widths that can be cast into the unsigned kind of a width: none that is smaller. -/
def Width.signedSources : Width → List Width
  | .w8 => [.w8, .w16, .w32, .w64]
  | .w16 => [.w16, .w32, .w64]
  | .w32 => [.w32, .w64]
  | .w64 => [.w64]

def Kind.castSources : Kind → List Kind
  | ⟨.signed, _⟩ => all
  | ⟨.unsigned, w⟩ => w.signedSources.map (⟨.signed, ·⟩) ++ Width.all.map (⟨.unsigned, ·⟩)

/-- The word of kind `target` with the low bits of `x`, if `x` can be cast there. -/
def Word.cast? {k : Kind} (target : Kind) (x : Word k) : Option (Word target) :=
  if k ∈ target.castSources then some (ofCarrier target x.carrier) else none

theorem Word.cast?_isSome_iff {k target : Kind} {x : Word k} :
    (x.cast? target).isSome ↔ k ∈ target.castSources := by
  by_cases h : k ∈ target.castSources <;> simp [cast?, h]

/-! ## Widening -/

/-- The widths into which an unsigned word widens. -/
def Width.wider : Width → List Width
  | .w8 => [.w16, .w32, .w64]
  | .w16 => [.w32, .w64]
  | .w32 => [.w64]
  | .w64 => []

/-- The word of a strictly wider kind, of either domain, with the value of `x`. -/
def Word.widen? {w : Width} (target : Kind) (x : Unsigned w) : Option (Word target) :=
  if target.width ∈ w.wider then some (ofNat target x.toNat) else none

end FixedWidth
