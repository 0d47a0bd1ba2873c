import FixedWidth.Word
import Mathlib.Data.Int.ModEq
import Mathlib.Data.Set.Defs

/-!
# Values and their residues

A kind of `n` bits holds `2 ^ n` consecutive integers, so every integer has the residue modulo `2 ^
n` of exactly one of them. A word's two readings differ by a multiple of `2 ^ n`. Hence a word is
known by the residue of its value (`Word.eq_of_value_modEq`), and a fact about the bits of a result
is the same as a congruence between values.
-/

namespace FixedWidth

namespace Width

theorem modulus_eq_two_pow (w : Width) : w.modulus = 2 ^ w.bits := by
  rw [modulus, Nat.shiftLeft_eq, Nat.one_mul]

theorem halfModulus_eq_two_pow (w : Width) : w.halfModulus = 2 ^ (w.bits - 1) := by
  rw [halfModulus, Nat.shiftLeft_eq, Nat.one_mul]

end Width

/-! ### The integers of a kind -/

namespace Kind

variable {k : Kind} {i j : Int}

def range (k : Kind) : Set Int := {i | k.least ≤ i ∧ i ≤ k.greatest}

instance (k : Kind) (i : Int) : Decidable (i ∈ k.range) :=
  inferInstanceAs (Decidable (k.least ≤ i ∧ i ≤ k.greatest))

theorem mem_range : i ∈ k.range ↔ k.least ≤ i ∧ i ≤ k.greatest := Iff.rfl

theorem least_le_greatest (k : Kind) : k.least ≤ k.greatest := by
  obtain ⟨_ | _, _ | _ | _ | _⟩ := k <;> decide

theorem range_subset_range_iff {s t : Kind} :
    s.range ⊆ t.range ↔ t.least ≤ s.least ∧ s.greatest ≤ t.greatest := by
  constructor
  · intro h
    have hl : s.least ∈ t.range := h ⟨le_refl _, s.least_le_greatest⟩
    have hg : s.greatest ∈ t.range := h ⟨s.least_le_greatest, le_refl _⟩
    exact ⟨hl.1, hg.2⟩
  · rintro ⟨hl, hg⟩ i ⟨hi₁, hi₂⟩
    exact ⟨hl.trans hi₁, hi₂.trans hg⟩

theorem greatest_sub_least (k : Kind) : k.greatest - k.least = 2 ^ k.bits - 1 := by
  obtain ⟨_ | _, w⟩ := k
  · have h := w.modulus_eq_two_mul
    rw [w.modulus_eq_two_pow] at h
    have hc : (2 : Int) ^ w.bits = 2 * w.halfModulus := by exact_mod_cast h
    show (w.halfModulus : Int) - 1 - -(w.halfModulus : Int) = 2 ^ w.bits - 1
    rw [hc]
    omega
  · show (w.modulus : Int) - 1 - 0 = 2 ^ w.bits - 1
    rw [w.modulus_eq_two_pow, Nat.cast_pow, Nat.cast_ofNat, Int.sub_zero]

/-- **A range holds no residue twice.** -/
theorem eq_of_modEq (hi : i ∈ k.range) (hj : j ∈ k.range) (h : i ≡ j [ZMOD 2 ^ k.bits]) :
    i = j := by
  have hd : (2 : Int) ^ k.bits ∣ i - j := h.symm.dvd
  have hs := k.greatest_sub_least
  obtain ⟨hi₁, hi₂⟩ := mem_range.mp hi
  obtain ⟨hj₁, hj₂⟩ := mem_range.mp hj
  have hlt : |i - j| < 2 ^ k.bits := by
    rw [abs_lt]
    constructor <;> omega
  exact Int.eq_of_sub_eq_zero (Int.eq_zero_of_abs_lt_dvd hd hlt)

/-- `j` lies in the range of `k` and is congruent to `i` modulo `2 ^ k.bits`. -/
structure IsResidue (k : Kind) (j i : Int) : Prop where
  mem_range : j ∈ k.range
  modEq : j ≡ i [ZMOD 2 ^ k.bits]

namespace IsResidue

variable {l : Int}

theorem unique (hi : k.IsResidue i l) (hj : k.IsResidue j l) : i = j :=
  eq_of_modEq hi.mem_range hj.mem_range (hi.modEq.trans hj.modEq.symm)

theorem self (h : i ∈ k.range) : k.IsResidue i i := ⟨h, Int.ModEq.refl i⟩

theorem congr (h : k.IsResidue j i) (hl : i ≡ l [ZMOD 2 ^ k.bits]) : k.IsResidue j l :=
  ⟨h.mem_range, h.modEq.trans hl⟩

theorem eq_iff_mem_range (h : k.IsResidue j i) : j = i ↔ i ∈ k.range := by
  constructor
  · intro he
    exact he ▸ h.mem_range
  · intro hi
    exact h.unique (self hi)

end IsResidue

theorem modEq_of_bits_le {m n : Nat} (h : m ≤ n) (hij : i ≡ j [ZMOD 2 ^ n]) :
    i ≡ j [ZMOD 2 ^ m] :=
  hij.of_dvd (pow_dvd_pow 2 h)

end Kind

/-! ### The values of words -/

namespace Word

variable {k : Kind} {w : Width}

theorem value_mem_range (x : Word k) : x.value ∈ k.range := by
  obtain ⟨_ | _, w⟩ := k
  · have hc : (w.halfModulus : Int) = 2 ^ (w.bits - 1) := by
      rw [w.halfModulus_eq_two_pow, Nat.cast_pow, Nat.cast_ofNat]
    refine Kind.mem_range.mpr ⟨?_, ?_⟩
    · show -(w.halfModulus : Int) ≤ x.bits.toInt
      rw [hc]
      exact x.bits.le_toInt
    · show x.bits.toInt ≤ (w.halfModulus : Int) - 1
      rw [hc]
      exact Int.le_sub_one_of_lt x.bits.toInt_lt
  · have h : x.toNat < w.modulus := x.toNat_lt
    refine Kind.mem_range.mpr ⟨Int.natCast_nonneg _, ?_⟩
    show (x.toNat : Int) ≤ (w.modulus : Int) - 1
    omega

theorem toInt_modEq_toNat (x : Word k) : x.toInt ≡ x.toNat [ZMOD 2 ^ k.bits] := by
  have h : x.toInt = (x.toNat : Int).bmod (2 ^ k.bits) := x.bits.toInt_eq_toNat_bmod
  rw [h, Int.ModEq, ← Nat.cast_ofNat, ← Nat.cast_pow]
  exact Int.bmod_emod

theorem value_modEq_toNat (x : Word k) : x.value ≡ x.toNat [ZMOD 2 ^ k.bits] := by
  obtain ⟨_ | _, w⟩ := k
  · exact x.toInt_modEq_toNat
  · exact Int.ModEq.refl _

/-- **A word's value is the residue of its plain binary reading** in the range of its kind. -/
theorem isResidue_toNat (x : Word k) : k.IsResidue x.value x.toNat :=
  ⟨x.value_mem_range, x.value_modEq_toNat⟩

theorem isResidue_of_toNat_eq {x : Word k} {n : Nat} (h : x.toNat = n % 2 ^ k.bits) :
    k.IsResidue x.value n := by
  refine x.isResidue_toNat.congr ?_
  rw [h, Int.natCast_emod, Nat.cast_pow, Nat.cast_ofNat]
  exact Int.mod_modEq _ _

theorem isResidue_ofNat (k : Kind) (n : Nat) : k.IsResidue (ofNat k n).value n :=
  isResidue_of_toNat_eq (BitVec.toNat_ofNat n k.bits)

theorem toNat_ofNat_of_lt {n : Nat} (h : n < k.width.modulus) : (ofNat k n).toNat = n := by
  rw [Width.modulus_eq_two_pow] at h
  exact (BitVec.toNat_ofNat n k.bits).trans (Nat.mod_eq_of_lt h)

theorem eq_of_value_modEq {x y : Word k} (h : x.value ≡ y.value [ZMOD 2 ^ k.bits]) : x = y := by
  have hn : (x.toNat : Int) ≡ y.toNat [ZMOD (2 ^ k.bits : Nat)] := by
    rw [Nat.cast_pow, Nat.cast_ofNat]
    exact x.value_modEq_toNat.symm.trans (h.trans y.value_modEq_toNat)
  exact ext_toNat (Nat.ModEq.eq_of_lt_of_lt (Int.natCast_modEq_iff.mp hn) x.bits.isLt y.bits.isLt)

theorem value_injective : Function.Injective (value : Word k → Int) := by
  intro x y h
  exact eq_of_value_modEq (h ▸ Int.ModEq.refl _)

theorem toNat_ofInt (k : Kind) (i : Int) : ((ofInt k i).toNat : Int) = i % 2 ^ k.bits := by
  have h : (ofInt k i).toNat = (i % (2 ^ k.bits : Nat)).toNat := BitVec.toNat_ofInt i
  have hne : ((2 ^ k.bits : Nat) : Int) ≠ 0 := Int.natCast_ne_zero.mpr (Nat.two_pow_pos _).ne'
  rw [h, Int.toNat_of_nonneg (Int.emod_nonneg i hne), Nat.cast_pow, Nat.cast_ofNat]

theorem isResidue_ofInt (k : Kind) (i : Int) : k.IsResidue (ofInt k i).value i := by
  refine (isResidue_toNat _).congr ?_
  rw [toNat_ofInt]
  exact Int.mod_modEq i _

theorem value_ofInt {i : Int} (h : i ∈ k.range) : (ofInt k i).value = i :=
  (isResidue_ofInt k i).eq_iff_mem_range.mpr h

theorem ofInt_value (x : Word k) : ofInt k x.value = x :=
  value_injective (value_ofInt x.value_mem_range)

end Word

end FixedWidth
