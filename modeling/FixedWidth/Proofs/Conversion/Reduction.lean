import FixedWidth.Proofs.Residue
import FixedWidth.Scalar.Conversion

/-!
# Conversion is reduction into a range

The carrier of a word is congruent to the word's value modulo `2 ^ 64`, and keeping the low bits of
a carrier keeps its residue modulo the smaller power of two. So one rule describes all conversions
there are: the result is the integer of the target's range that is congruent to the value
(`Word.isResidue_ofCarrier`). A conversion keeps a value exactly when the target's range holds it,
and the classes that keep all values are those where the target's range contains the source's
(`Kind.conversion?_mem_iff`).
-/

namespace FixedWidth

/-! ### Through the carrier -/

namespace Word

variable {k : Kind}

/-- Either filling of the high bits adds a multiple of `2 ^ 64`. -/
theorem carrier_modEq_value (x : Word k) : (x.carrier.toNat : Int) ≡ x.value [ZMOD 2 ^ 64] := by
  obtain ⟨_ | _, w⟩ := k
  · have hi : (x.bits.signExtend 64).toInt = x.toInt := BitVec.toInt_signExtend_of_le w.bits_le
    have hb : x.toInt = ((x.bits.signExtend 64).toNat : Int).bmod (2 ^ 64) := by
      rw [← hi]
      exact BitVec.toInt_eq_toNat_bmod _
    show ((x.bits.signExtend 64).toNat : Int) ≡ x.toInt [ZMOD 2 ^ 64]
    rw [hb]
    exact Int.bmod_emod.symm
  · have hn : (x.bits.setWidth 64).toNat = x.toNat := BitVec.toNat_setWidth_of_le w.bits_le
    show ((x.bits.setWidth 64).toNat : Int) ≡ x.toNat [ZMOD 2 ^ 64]
    rw [hn]

theorem isResidue_ofCarrier_toNat (t : Kind) (c : BitVec 64) :
    t.IsResidue (ofCarrier t c).value c.toNat :=
  isResidue_of_toNat_eq (BitVec.toNat_setWidth t.bits c)

/-- **The low bits of a word's carrier** are the residue of its value in the target's range. -/
theorem isResidue_ofCarrier (t : Kind) (x : Word k) :
    t.IsResidue (ofCarrier t x.carrier).value x.value :=
  (isResidue_ofCarrier_toNat t x.carrier).congr
    (Kind.modEq_of_bits_le t.width.bits_le x.carrier_modEq_value)

end Word

/-! ### What the classes promise -/

namespace Kind

variable {s t : Kind}

/-- Some conversion leads from `s` to `t`. -/
def Converts (s t : Kind) : Prop := (s.conversion? t).isSome

instance : DecidableRel Converts := fun s t => inferInstanceAs (Decidable (s.conversion? t).isSome)

theorem not_converts_iff :
    ¬ s.Converts t ↔ s.domain = .signed ∧ t.domain = .unsigned ∧ s.bits < t.bits := by
  rw [Converts, Option.not_isSome_iff_eq_none]
  exact conversion?_eq_none_iff

theorem converts_of_unsigned (h : s.domain = .unsigned) : s.Converts t := by
  by_contra hc
  have hs := (not_converts_iff.mp hc).1
  exact absurd (h.symm.trans hs) (by decide)

theorem converts_dual (k : Kind) : k.Converts k.dual := by
  obtain ⟨_ | _, _ | _ | _ | _⟩ := k <;> decide

/-- **The classes that promise to keep every value** lead into a range that contains the source's.
-/
theorem conversion?_mem_iff :
    s.conversion? t ∈ [some .identity, some .zeroExtend, some .signExtend] ↔
      s.range ⊆ t.range := by
  rw [range_subset_range_iff]
  obtain ⟨_ | _, _ | _ | _ | _⟩ := s <;> obtain ⟨_ | _, _ | _ | _ | _⟩ := t <;> decide

theorem converts_of_mem
    (h : s.conversion? t ∈ [some .identity, some .zeroExtend, some .signExtend]) :
    s.Converts t := by
  simp only [List.mem_cons, List.not_mem_nil, or_false] at h
  rcases h with h | h | h <;> rw [Converts, h] <;> rfl

end Kind

/-! ### Conversion of scalars -/

namespace Scalar

variable {a b : Scalar} {t : Kind}

theorem value_mem_range (a : Scalar) : a.value ∈ a.kind.range := a.word.value_mem_range

theorem convert_eq_ok_iff :
    a.convert t = .ok b ↔ a.kind.Converts t ∧ b = ⟨t, Word.ofCarrier t a.word.carrier⟩ := by
  rw [convert, Kind.Converts]
  cases a.kind.conversion? t with
  | none => simp
  | some c => simp [eq_comm]

theorem convert_eq_error_iff {e : KindError} :
    a.convert t = .error e ↔ ¬ a.kind.Converts t ∧ e = .signedWidening a.kind t := by
  rw [convert, Kind.Converts]
  cases a.kind.conversion? t with
  | none => simp [eq_comm]
  | some c => simp

theorem exists_convert_eq (h : a.kind.Converts t) :
    ∃ b, a.convert t = .ok b ∧ b.kind = t ∧ t.IsResidue b.value a.value :=
  ⟨_, convert_eq_ok_iff.mpr ⟨h, rfl⟩, rfl, Word.isResidue_ofCarrier t a.word⟩

theorem forall_convert_value_iff {s : Kind} :
    (∀ x : Word s, ∃ b, (ofWord x).convert t = .ok b ∧ b.value = x.value) ↔
      s.range ⊆ t.range := by
  constructor
  · intro h i hi
    obtain ⟨b, hb, hv⟩ := h (Word.ofInt s i)
    obtain ⟨-, rfl⟩ := convert_eq_ok_iff.mp hb
    rw [Word.value_ofInt hi] at hv
    exact hv ▸ Word.value_mem_range _
  · intro h x
    have hc : s.Converts t := Kind.converts_of_mem (Kind.conversion?_mem_iff.mpr h)
    obtain ⟨b, hb, -, hr⟩ := exists_convert_eq (a := ofWord x) hc
    exact ⟨b, hb, hr.eq_iff_mem_range.mpr (h x.value_mem_range)⟩

/-- **Conversion is reduction into the target's range.** It fails only from a signed kind into a
wider unsigned one. -/
theorem convert_isResidue (a : Scalar) (t : Kind) :
    (∀ e, a.convert t = .error e ↔
      (a.kind.domain = .signed ∧ t.domain = .unsigned ∧ a.kind.bits < t.bits) ∧
        e = .signedWidening a.kind t) ∧
    (¬ (a.kind.domain = .signed ∧ t.domain = .unsigned ∧ a.kind.bits < t.bits) →
      ∃ b, a.convert t = .ok b ∧ b.kind = t ∧
        (b.value ∈ t.range ∧ b.value ≡ a.value [ZMOD 2 ^ t.bits]) ∧
        (∀ i ∈ t.range, i ≡ a.value [ZMOD 2 ^ t.bits] → i = b.value) ∧
        ((b == a) = true ↔ a.value ∈ t.range)) ∧
    (∀ s : Kind, s.conversion? t ∈ [some .identity, some .zeroExtend, some .signExtend] ↔
      ∀ x : Word s, ∃ b, (ofWord x).convert t = .ok b ∧ b.value = x.value) := by
  refine ⟨fun e => ?_, fun h => ?_, fun s => ?_⟩
  · rw [convert_eq_error_iff, Kind.not_converts_iff]
  · have hc : a.kind.Converts t := not_not.mp (mt Kind.not_converts_iff.mp h)
    obtain ⟨b, hb, hk, hr⟩ := exists_convert_eq hc
    refine ⟨b, hb, hk, ⟨hr.mem_range, hr.modEq⟩, ?_, ?_⟩
    · intro i hi hm
      exact Kind.IsResidue.unique ⟨hi, hm⟩ hr
    · rw [beq_iff_value_eq]
      exact hr.eq_iff_mem_range
  · rw [Kind.conversion?_mem_iff, forall_convert_value_iff]

/-- Minus two at 16 bits becomes the unsigned 254 at 8 bits, which is another integer. -/
theorem convert_isResidue_minus_two :
    let a := ofWord (Word.ofInt ⟨.signed, .w16⟩ (-2))
    ¬ (a.kind.domain = .signed ∧ Domain.unsigned = .unsigned ∧ a.kind.bits < Width.w8.bits) ∧
      ∃ b, a.convert ⟨.unsigned, .w8⟩ = .ok b ∧ b.value = 254 ∧ (b == a) = false := by
  intro a
  have h : ¬ (a.kind.domain = .signed ∧ Domain.unsigned = .unsigned ∧
      a.kind.bits < Width.w8.bits) := by decide
  obtain ⟨b, hb, -, -, hu, he⟩ := (convert_isResidue a ⟨.unsigned, .w8⟩).2.1 h
  refine ⟨h, b, hb, (hu 254 (by decide) (by decide)).symm, ?_⟩
  exact Bool.eq_false_iff.mpr (mt he.mp (by decide))

end Scalar

end FixedWidth
