import FixedWidth.Kind.Conversion
import FixedWidth.Scalar
import FixedWidth.Word.Conversion

/-!
# Conversion of scalars

A scalar is converted by what its kind and the target say. `Scalar.convert` asks for the class of
the conversion and reports the two kinds where there is none. The other three follow the
conversions of words: `Scalar.cast` and `Scalar.widen` are undefined where no cast or widening is
listed, and `Scalar.dual` always exists.
-/

namespace FixedWidth

namespace Scalar

/-- The scalar of kind `target` with the low bits of `a`, or the two kinds that do not convert. -/
def convert (target : Kind) (a : Scalar) : Except KindError Scalar :=
  match a.kind.conversion? target with
  | none => .error (.signedWidening a.kind target)
  | some _ => .ok ⟨target, Word.ofCarrier target a.word.carrier⟩

def cast (target : Kind) (a : Scalar) : Except Fault Scalar :=
  match a.word.cast? target with
  | some x => .ok ⟨target, x⟩
  | none => .error .undefined

def widen (target : Kind) : Scalar → Except Fault Scalar
  | ⟨⟨.unsigned, _⟩, x⟩ =>
    match x.widen? target with
    | some y => .ok ⟨target, y⟩
    | none => .error .undefined
  | ⟨⟨.signed, _⟩, _⟩ => .error .undefined

/-- The same bits in the other domain. -/
def dual (a : Scalar) : Scalar := ⟨a.kind.dual, a.word.dual⟩

/-- The unsigned scalar with the bits of a signed one. -/
def ofSigned : Scalar → Except Fault Scalar
  | ⟨⟨.signed, _⟩, x⟩ => .ok (ofUnsigned (Word.ofSigned x))
  | ⟨⟨.unsigned, _⟩, _⟩ => .error .undefined

@[simp]
theorem kind_dual (a : Scalar) : a.dual.kind = a.kind.dual := rfl

theorem kind_of_convert {target : Kind} {a b : Scalar} (h : a.convert target = .ok b) :
    b.kind = target := by
  unfold convert at h
  split at h <;> simp at h
  rw [← h]

end Scalar

end FixedWidth
