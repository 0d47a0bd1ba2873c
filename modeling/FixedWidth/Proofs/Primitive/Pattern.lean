import FixedWidth.Proofs.Primitive.Rounding
import Mathlib.Algebra.Field.Rat
import Mathlib.Algebra.Order.Ring.Rat
import Mathlib.Tactic.Positivity
import Mathlib.Tactic.Ring

/-!
# Patterns of floating point numbers

A pattern is read by its fields, which are the sign, the exponent and the fraction
(`BinaryFormat.number?`). It is written as one sum: the significand is added as it is, so that its
highest bit is a one in the exponent field, and where rounding carries there is one more. Either way
the sum has an exponent field and a fraction that belong to the rounded number (`exists_fields`).
-/

namespace FixedWidth

namespace BinaryFormat

variable (f : BinaryFormat) {n : Nat}

/-! ### The number of a pattern -/

/-- The field of the fraction. -/
def fractionField (pattern : Nat) : Nat := pattern % 2 ^ f.fractionBits

/-- The field of the exponent, above the fraction. -/
def exponentField (pattern : Nat) : Nat := pattern / 2 ^ f.fractionBits % 2 ^ f.exponentBits

/-- The sign, above the exponent. -/
def signField (pattern : Nat) : Nat := pattern / 2 ^ (f.exponentBits + f.fractionBits)

/-- The number that a pattern stands for. The highest exponent is left to the infinities, and the
lowest one counts as the next one, without a bit above the fraction. -/
def number? (pattern : Nat) : Option ℚ :=
  let exponent := f.exponentField pattern
  let highest := if exponent = 0 then 0 else 2 ^ f.fractionBits
  if exponent = 2 ^ f.exponentBits - 1 then none
  else
    some ((-1) ^ f.signField pattern * ((highest + f.fractionField pattern : Nat) : ℚ) *
      2 ^ ((max exponent 1 : Nat) - f.bias - f.fractionBits : ℤ))

/-! ### The pattern of a number -/

theorem significand_mul (n : Nat) :
    f.significand n * 2 ^ n.log2 = rounded (f.fractionBits + 1) n * 2 ^ f.fractionBits := by
  rw [significand]
  split
  next h =>
    rw [rounded_of_lt (Nat.lt_succ_of_le h), Nat.shiftLeft_eq, Nat.mul_assoc, ← pow_add,
      Nat.sub_add_cancel h]
  next h =>
    rw [rounded, Nat.add_sub_add_right, Nat.mul_assoc, ← pow_add,
      Nat.sub_add_cancel (Nat.le_of_not_le h)]

/-- The highest bit comes to stand right above the fraction, and rounding up may carry. -/
theorem significand_mem (hn : n ≠ 0) :
    2 ^ f.fractionBits ≤ f.significand n ∧ f.significand n ≤ 2 ^ (f.fractionBits + 1) := by
  have hlow := Nat.log2_self_le hn
  have hupp := Nat.lt_log2_self (n := n)
  rw [significand]
  split
  next h =>
    have hlow' := Nat.mul_le_mul_right (2 ^ (f.fractionBits - n.log2)) hlow
    have hupp' := Nat.mul_le_mul_right (2 ^ (f.fractionBits - n.log2)) hupp.le
    rw [← pow_add] at hlow' hupp'
    rw [Nat.shiftLeft_eq]
    rw [Nat.add_sub_of_le h] at hlow'
    rw [Nat.add_right_comm, Nat.add_sub_of_le h] at hupp'
    exact ⟨hlow', hupp'⟩
  next h =>
    have hs : f.fractionBits + (n.log2 - f.fractionBits) = n.log2 :=
      Nat.add_sub_of_le (Nat.le_of_not_le h)
    refine mem_of_quotient ?_ ?_ (roundHalfEven_mem n _)
    · rw [← pow_add, hs]
      exact hlow
    · rw [← pow_add, Nat.add_right_comm, hs]
      exact hupp

theorem encodeInt_natCast (n : Nat) : f.encodeInt n = f.encode n := by
  rw [encodeInt, if_neg (Int.natCast_nonneg n).not_gt, Int.natAbs_natCast]

/-- **The fields of a pattern.** A carry leaves the fraction empty and adds one to the exponent. -/
theorem exists_fields (hb : 0 < f.bias) (hn : n ≠ 0) :
    ∃ e F, f.encode n = (f.bias + e) * 2 ^ f.fractionBits + F ∧ F < 2 ^ f.fractionBits ∧
      e ≤ n.log2 + 1 ∧
      (2 ^ f.fractionBits + F) * 2 ^ e = rounded (f.fractionBits + 1) n * 2 ^ f.fractionBits := by
  have hmul := f.significand_mul n
  obtain ⟨hlow, hupp⟩ := f.significand_mem hn
  -- the sum leaves one out of the exponent field, which the significand brings along
  obtain ⟨b, hbias⟩ : ∃ b, f.bias + n.log2 = b + 1 := ⟨_, (Nat.sub_add_cancel (by omega)).symm⟩
  have hencode : f.encode n = b * 2 ^ f.fractionBits + f.significand n := by
    rw [encode, if_neg hn, Nat.shiftLeft_eq, hbias, Nat.add_sub_cancel]
  rcases Nat.lt_or_eq_of_le hupp with hlt | heq
  · refine ⟨n.log2, f.significand n - 2 ^ f.fractionBits, ?_, ?_, Nat.le_succ _, ?_⟩
    · rw [hencode, hbias, Nat.succ_mul]
      omega
    · rw [pow_succ] at hlt
      omega
    · rw [Nat.add_sub_of_le hlow, hmul]
  · -- rounding carried: the significand is the next power of two and brings along two
    refine ⟨n.log2 + 1, 0, ?_, Nat.two_pow_pos _, le_refl _, ?_⟩
    · rw [hencode, heq, ← Nat.add_assoc, hbias]
      ring
    · rw [← hmul, heq]
      ring

section Fields

variable {f} {e F d : Nat} (hF : F < 2 ^ f.fractionBits)
  (hd : (2 ^ f.fractionBits + F) * 2 ^ e = d * 2 ^ f.fractionBits)

include hF

theorem fields_mod : ((f.bias + e) * 2 ^ f.fractionBits + F) % 2 ^ f.fractionBits = F := by
  rw [Nat.mul_add_mod_self_right, Nat.mod_eq_of_lt hF]

theorem fields_div :
    ((f.bias + e) * 2 ^ f.fractionBits + F) / 2 ^ f.fractionBits = f.bias + e := by
  rw [Nat.mul_comm, Nat.mul_add_div (Nat.two_pow_pos _), Nat.div_eq_of_lt hF, Nat.add_zero]

theorem fields_lt (he : f.bias + e < 2 ^ f.exponentBits) :
    (f.bias + e) * 2 ^ f.fractionBits + F < 2 ^ (f.exponentBits + f.fractionBits) := by
  have hmul := Nat.mul_le_mul_right (2 ^ f.fractionBits) (Nat.succ_le_of_lt he)
  rw [Nat.succ_mul] at hmul
  rw [pow_add]
  omega

include hd

theorem number?_fields (hb : 0 < f.bias) (he : f.bias + e < 2 ^ f.exponentBits - 1) :
    f.number? ((f.bias + e) * 2 ^ f.fractionBits + F) = some (d : ℚ) := by
  have hsign : f.signField ((f.bias + e) * 2 ^ f.fractionBits + F) = 0 :=
    Nat.div_eq_of_lt (fields_lt hF (by omega))
  have hexp : f.exponentField ((f.bias + e) * 2 ^ f.fractionBits + F) = f.bias + e := by
    rw [exponentField, fields_div hF, Nat.mod_eq_of_lt (by omega)]
  have hscale : ((2 ^ f.fractionBits + F : Nat) : ℚ) * 2 ^ e = d * 2 ^ f.fractionBits := by
    exact_mod_cast hd
  have hpow : (2 : ℚ) ^ (((f.bias + e : Nat) : ℤ) - f.bias - f.fractionBits) =
      2 ^ e / 2 ^ f.fractionBits := by
    rw [Nat.cast_add, add_sub_cancel_left, zpow_sub₀ two_ne_zero, zpow_natCast, zpow_natCast]
  simp only [number?, hsign, hexp, fractionField, fields_mod hF]
  rw [if_neg (by omega), if_neg (by omega), max_eq_left (by omega), hpow, pow_zero, one_mul,
    ← mul_div_assoc, hscale, mul_div_cancel_right₀ _ (by positivity)]

theorem decode_fields (hb : 0 < f.bias) :
    f.decode ((f.bias + e) * 2 ^ f.fractionBits + F) = d := by
  have hne : (f.bias + e) * 2 ^ f.fractionBits + F ≠ 0 := by
    have hpos : 0 < (f.bias + e) * 2 ^ f.fractionBits :=
      Nat.mul_pos (by omega) (Nat.two_pow_pos _)
    omega
  simp only [decode, if_neg hne, Nat.shiftRight_eq_div_pow, Nat.shiftLeft_eq, Nat.one_mul,
    fields_div hF, fields_mod hF, Nat.add_sub_cancel_left]
  split
  next h =>
    refine Nat.eq_of_mul_eq_mul_right (Nat.two_pow_pos f.fractionBits) ?_
    rw [Nat.mul_assoc, ← pow_add, Nat.sub_add_cancel h, hd]
  next h =>
    have hs : f.fractionBits = f.fractionBits - e + e := (Nat.sub_add_cancel (by omega)).symm
    refine Nat.div_eq_of_eq_mul_left (Nat.two_pow_pos _) ?_
    refine Nat.eq_of_mul_eq_mul_right (Nat.two_pow_pos e) ?_
    rw [hd, Nat.mul_assoc, ← pow_add, ← hs]

end Fields

section Encode

variable (hb : 0 < f.bias) (h : f.bias + n.log2 + 1 < 2 ^ f.exponentBits - 1)

include hb

theorem decode_encode : f.decode (f.encode n) = rounded (f.fractionBits + 1) n := by
  rcases eq_or_ne n 0 with rfl | hn
  · exact (rounded_zero (Nat.succ_pos _)).symm
  · obtain ⟨e, F, hpat, hF, -, hd⟩ := f.exists_fields hb hn
    rw [hpat, decode_fields hF hd hb]

include h

theorem encode_lt : f.encode n < 2 ^ (f.exponentBits + f.fractionBits) := by
  rcases eq_or_ne n 0 with rfl | hn
  · exact Nat.two_pow_pos _
  · obtain ⟨e, F, hpat, hF, he, -⟩ := f.exists_fields hb hn
    rw [hpat]
    exact fields_lt hF (by omega)

/-- **The pattern of a number stands for the rounded number.** -/
theorem number?_encode :
    f.number? (f.encode n) = some (rounded (f.fractionBits + 1) n : ℚ) := by
  rcases eq_or_ne n 0 with rfl | hn
  · have hz : rounded (f.fractionBits + 1) 0 = 0 := rounded_zero (Nat.succ_pos _)
    have hne : 0 ≠ 2 ^ f.exponentBits - 1 := by omega
    simp [number?, encode, exponentField, fractionField, hz, hne]
  · obtain ⟨e, F, hpat, hF, he, hd⟩ := f.exists_fields hb hn
    rw [hpat]
    exact number?_fields hF hd hb (by omega)

end Encode

end BinaryFormat

end FixedWidth
