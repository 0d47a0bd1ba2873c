import FixedWidth.HashCode
import FixedWidth.Proofs.Residue

/-!
# Integers that share a hash code

Cut the integers into blocks of `2 ^ 32` consecutive ones. The high half of the carrier is then the
number of the block, so inside a block the code of an integer is its low half with the bits of a
mask flipped, and the mask depends on the block alone (`hashCode_of_block`). So codes are not shared
inside a block, and every code occurs.

Block `-1` is the exception (`hashCode_of_block_neg_one`). Its upper half has 32 signed bits and is
left alone, and in its lower half the fold flips every bit. So each integer of the one half shares
its code with an integer of the other.

A large unsigned word of 64 bits and the signed word of the same bits have masks that are
complements of each other. Again this fails in the upper half of block `-1`, where the complement
flips back what the fold has flipped.
-/

namespace FixedWidth

variable {i j q : Int}

/-! ### Halves of the carrier -/

/-- Folding joins the low half of an integer with the number of its block. -/
theorem foldHalves_ofInt (i : Int) :
    foldHalves (BitVec.ofInt 64 i) = BitVec.ofInt 32 i ^^^ BitVec.ofInt 32 (i / 2 ^ 32) := by
  have hlow : (BitVec.ofInt 64 i).setWidth 32 = BitVec.ofInt 32 i := by
    apply BitVec.eq_of_toNat_eq
    simp only [BitVec.toNat_setWidth, BitVec.toNat_ofInt]
    omega
  have hhigh : (BitVec.ofInt 64 i >>> 32).setWidth 32 = BitVec.ofInt 32 (i / 2 ^ 32) := by
    apply BitVec.eq_of_toNat_eq
    simp only [BitVec.toNat_setWidth, BitVec.toNat_ushiftRight, BitVec.toNat_ofInt,
      Nat.shiftRight_eq_div_pow]
    omega
  rw [foldHalves, BitVec.setWidth_xor, hlow, hhigh]

theorem ofInt_eq_iff : BitVec.ofInt 32 i = BitVec.ofInt 32 j ↔ i % 2 ^ 32 = j % 2 ^ 32 := by
  rw [← BitVec.toNat_inj]
  simp only [BitVec.toNat_ofInt]
  omega

theorem ofInt_inj_of_block (h : i / 2 ^ 32 = j / 2 ^ 32) :
    BitVec.ofInt 32 i = BitVec.ofInt 32 j ↔ i = j := by
  rw [ofInt_eq_iff]
  omega

theorem ofInt_eq_not_iff (hi : i / 2 ^ 32 = -1) (hj : j / 2 ^ 32 = -1) :
    BitVec.ofInt 32 i = ~~~BitVec.ofInt 32 j ↔ i + j = -2 ^ 32 - 1 := by
  rw [← BitVec.toNat_inj]
  simp only [BitVec.toNat_not, BitVec.toNat_ofInt]
  omega

/-! ### Codes inside a block -/

theorem holdsSigned_w32_iff : Width.w32.holdsSigned i = true ↔ -2 ^ 31 ≤ i ∧ i < 2 ^ 31 := by
  rw [Width.holdsSigned, Bool.and_eq_true, decide_eq_true_iff, decide_eq_true_iff]
  show -2147483648 ≤ i ∧ i ≤ 2147483647 ↔ _
  omega

theorem holdsSigned_w64_iff :
    Width.w64.holdsSigned i = true ↔ -2 ^ 31 ≤ i / 2 ^ 32 ∧ i / 2 ^ 32 < 2 ^ 31 := by
  rw [Width.holdsSigned, Bool.and_eq_true, decide_eq_true_iff, decide_eq_true_iff]
  show -9223372036854775808 ≤ i ∧ i ≤ 9223372036854775807 ↔ _
  omega

/-- The bits that are flipped in the codes of a block. -/
def blockMask (q : Int) : BitVec 32 :=
  if -2 ^ 31 ≤ q ∧ q < 2 ^ 31 then BitVec.ofInt 32 q else ~~~BitVec.ofInt 32 q

/-- The low half of an integer, with its bits in a mask flipped. -/
def lowHalf (i : Int) (mask : BitVec 32) : Signed .w32 := ⟨BitVec.ofInt 32 i ^^^ mask⟩

theorem lowHalf_inj {m n : BitVec 32} :
    lowHalf i m = lowHalf j n ↔ BitVec.ofInt 32 i ^^^ m = BitVec.ofInt 32 j ^^^ n :=
  ⟨fun h => congrArg Word.bits h, fun h => congrArg Word.mk h⟩

/-- **In every block but one the code is the low half under the mask of the block.** -/
theorem hashCode_of_block (h : i / 2 ^ 32 ≠ -1) :
    hashCode i = lowHalf i (blockMask (i / 2 ^ 32)) := by
  rw [hashCode]
  by_cases h32 : Width.w32.holdsSigned i
  · -- What has 32 signed bits lies in block 0 here, where the mask flips nothing.
    rw [if_pos h32]
    rw [holdsSigned_w32_iff] at h32
    have hq : i / 2 ^ 32 = 0 := by omega
    rw [hq]
    exact congrArg Word.mk BitVec.xor_zero.symm
  · rw [if_neg h32, foldHalves_ofInt, blockMask]
    by_cases h64 : Width.w64.holdsSigned i
    · rw [if_pos h64, if_pos (holdsSigned_w64_iff.mp h64)]
      rfl
    · rw [if_neg h64, if_neg (mt holdsSigned_w64_iff.mpr h64)]
      exact congrArg Word.mk BitVec.not_xor_right

/-- In block `-1` the lower half is folded and the upper half is left alone. -/
theorem hashCode_of_block_neg_one (h : i / 2 ^ 32 = -1) :
    hashCode i = lowHalf i (if -2 ^ 31 ≤ i then 0#32 else BitVec.allOnes 32) := by
  rw [hashCode]
  by_cases h32 : -2 ^ 31 ≤ i
  · rw [if_pos h32, if_pos (holdsSigned_w32_iff.mpr (by omega))]
    exact congrArg Word.mk BitVec.xor_zero.symm
  · have h64 : Width.w64.holdsSigned i := holdsSigned_w64_iff.mpr (by omega)
    rw [if_neg h32, if_neg fun hi => h32 (holdsSigned_w32_iff.mp hi).1, if_pos h64,
      foldHalves_ofInt, h]
    rfl

/-! ### Collisions inside a block -/

theorem hashCode_inj_of_block (hij : i / 2 ^ 32 = j / 2 ^ 32) (h : i / 2 ^ 32 ≠ -1) :
    hashCode i = hashCode j ↔ i = j := by
  rw [hashCode_of_block h, hashCode_of_block (hij ▸ h), hij, lowHalf_inj, BitVec.xor_left_inj,
    ofInt_inj_of_block hij]

theorem hashCode_eq_iff_of_block_neg_one (hi : i / 2 ^ 32 = -1) (hj : j / 2 ^ 32 = -1)
    (hne : i ≠ j) : hashCode i = hashCode j ↔ i + j = -2 ^ 32 - 1 := by
  have hinj := mt (ofInt_inj_of_block (hi.trans hj.symm)).mp hne
  rw [hashCode_of_block_neg_one hi, hashCode_of_block_neg_one hj, lowHalf_inj]
  -- Two integers of one half of the block have one mask, two of different halves complements.
  by_cases h : -2 ^ 31 ≤ i
  · by_cases h' : -2 ^ 31 ≤ j
    · rw [if_pos h, if_pos h', BitVec.xor_left_inj]
      exact iff_of_false hinj (by omega)
    · rw [if_pos h, if_neg h', BitVec.xor_zero, BitVec.xor_allOnes, ofInt_eq_not_iff hi hj]
  · by_cases h' : -2 ^ 31 ≤ j
    · rw [if_neg h, if_pos h', BitVec.xor_zero, BitVec.xor_allOnes, eq_comm,
        ofInt_eq_not_iff hj hi, Int.add_comm]
    · rw [if_neg h, if_neg h', BitVec.xor_left_inj]
      exact iff_of_false hinj (by omega)

theorem exists_ofInt_eq (q : Int) (b : BitVec 32) :
    ∃ i, i / 2 ^ 32 = q ∧ BitVec.ofInt 32 i = b := by
  have hlt := b.isLt
  refine ⟨q * 2 ^ 32 + b.toNat, by omega, ?_⟩
  apply BitVec.eq_of_toNat_eq
  rw [BitVec.toNat_ofInt]
  omega

theorem exists_hashCode_eq (h : q ≠ -1) (code : Signed .w32) :
    ∃ i, i / 2 ^ 32 = q ∧ hashCode i = code := by
  obtain ⟨i, rfl, hlow⟩ := exists_ofInt_eq q ((show BitVec 32 from code.bits) ^^^ blockMask q)
  refine ⟨i, rfl, ?_⟩
  rw [hashCode_of_block h, lowHalf, hlow, BitVec.xor_assoc, BitVec.xor_self, BitVec.xor_zero]

/-- **Collisions of hash codes.** Inside a block of `2 ^ 32` integers they occur in block `-1` only,
between integers that are mirrored at its middle. -/
theorem hashCode_collisions :
    (∀ i j : Int, i / 2 ^ 32 = j / 2 ^ 32 → i ≠ j →
      (hashCode i = hashCode j ↔ i / 2 ^ 32 = -1 ∧ i + j = -2 ^ 32 - 1)) ∧
    ∀ q : Int, q ≠ -1 → ∀ code : Signed .w32, ∃! i, i / 2 ^ 32 = q ∧ hashCode i = code := by
  constructor
  · intro i j hij hne
    by_cases hi : i / 2 ^ 32 = -1
    · rw [hashCode_eq_iff_of_block_neg_one hi (hij ▸ hi) hne, and_iff_right hi]
    · rw [hashCode_inj_of_block hij hi]
      exact iff_of_false hne fun h => hi h.1
  · intro q hq code
    obtain ⟨i, hi, hcode⟩ := exists_hashCode_eq hq code
    refine ⟨i, ⟨hi, hcode⟩, ?_⟩
    rintro j ⟨hj, hcode'⟩
    exact (hashCode_inj_of_block (hj.trans hi.symm) (hj ▸ hq)).mp (hcode'.trans hcode.symm)

theorem hashCode_collisions_negative :
    hashCode (-1) = hashCode (-4294967296) ∧ hashCode (-4294967297) ≠ hashCode (-8589934592) ∧
      ∃! i, i / 2 ^ 32 = -2 ∧ hashCode i = hashCode (-4294967297) := by
  obtain ⟨hblock, hunique⟩ := hashCode_collisions
  refine ⟨(hblock (-1) (-4294967296) (by decide) (by decide)).mpr ⟨by decide, by decide⟩, ?_,
    hunique (-2) (by decide) _⟩
  intro h
  have hblock' := (hblock (-4294967297) (-8589934592) (by decide) (by decide)).mp h
  exact absurd hblock'.1 (by decide)

/-! ### Words and the signed words of their bits -/

theorem lowHalf_sub_two_pow (i : Int) (m : BitVec 32) : lowHalf (i - 2 ^ 64) m = lowHalf i m := by
  have h : BitVec.ofInt 32 (i - 2 ^ 64) = BitVec.ofInt 32 i := by
    rw [ofInt_eq_iff]
    omega
  rw [lowHalf, lowHalf, h]

theorem hashCode_of_large (h : 2 ^ 63 ≤ i) (hlt : i < 2 ^ 64) :
    hashCode i = lowHalf i (~~~BitVec.ofInt 32 (i / 2 ^ 32)) := by
  rw [hashCode_of_block (by omega), blockMask, if_neg (by omega)]

/-- The negative integer of the same 64 bits has the complement of the mask, or is left alone. -/
theorem hashCode_sub_two_pow (h : 2 ^ 63 ≤ i) (hlt : i < 2 ^ 64) :
    hashCode (i - 2 ^ 64) = lowHalf i (if 2 ^ 64 - 2 ^ 31 ≤ i then ~~~BitVec.ofInt 32 (i / 2 ^ 32)
      else BitVec.ofInt 32 (i / 2 ^ 32)) := by
  have hblock : (i - 2 ^ 64) / 2 ^ 32 = i / 2 ^ 32 - 2 ^ 32 := by omega
  by_cases hq : i / 2 ^ 32 = 2 ^ 32 - 1
  · have hmask : BitVec.ofInt 32 (2 ^ 32 - 1) = BitVec.allOnes 32 := by decide
    rw [hashCode_of_block_neg_one (by omega), lowHalf_sub_two_pow, hq, hmask, BitVec.not_allOnes]
    by_cases hi : 2 ^ 64 - 2 ^ 31 ≤ i
    · rw [if_pos hi, if_pos (by omega)]
    · rw [if_neg hi, if_neg (by omega)]
  · have hmask : BitVec.ofInt 32 (i / 2 ^ 32 - 2 ^ 32) = BitVec.ofInt 32 (i / 2 ^ 32) := by
      rw [ofInt_eq_iff]
      omega
    rw [hashCode_of_block (by omega), lowHalf_sub_two_pow, hblock, blockMask, if_pos (by omega),
      if_neg (by omega), hmask]

namespace Word

theorem value_toSigned {x : Unsigned .w64} (h : 2 ^ 63 ≤ x.value) :
    x.toSigned.value = x.value - 2 ^ 64 := by
  have hx : x.toSigned.value = x.bits.toInt := rfl
  have hv : x.value = x.bits.toNat := rfl
  rw [hv] at h
  rw [hx, hv, BitVec.toInt_eq_toNat_cond, if_neg]
  · rfl
  · show ¬ 2 * x.bits.toNat < 2 ^ 64
    omega

/-- **A large word and the signed word of its bits** have codes that are complements of each other,
unless the signed word's value has 32 signed bits: then they are the same. -/
theorem hashCode_toSigned (x : Unsigned .w64) (h : 2 ^ 63 ≤ x.value) :
    x.toSigned.value = x.value - 2 ^ 64 ∧
    (x.hashCode = x.toSigned.hashCode ↔ x.toSigned.value ∈ Kind.range ⟨.signed, .w32⟩) ∧
    (x.toSigned.value ∉ Kind.range ⟨.signed, .w32⟩ →
      x.hashCode.bits = ~~~x.toSigned.hashCode.bits) := by
  have hvalue := value_toSigned h
  have hlt : x.value < 2 ^ 64 := Int.ofNat_lt.mpr x.bits.isLt
  have hmem : x.toSigned.value ∈ Kind.range ⟨.signed, .w32⟩ ↔ 2 ^ 64 - 2 ^ 31 ≤ x.value := by
    rw [hvalue, Kind.mem_range]
    show -2147483648 ≤ x.value - 2 ^ 64 ∧ x.value - 2 ^ 64 ≤ 2147483647 ↔ _
    omega
  have hcode : x.hashCode = lowHalf x.value (~~~BitVec.ofInt 32 (x.value / 2 ^ 32)) :=
    hashCode_of_large h hlt
  have hcode' := hashCode_sub_two_pow h hlt
  rw [← hvalue] at hcode'
  refine ⟨hvalue, ?_, ?_⟩
  · rw [hmem, hcode, hashCode, hcode', lowHalf_inj, BitVec.xor_right_inj]
    by_cases hx : 2 ^ 64 - 2 ^ 31 ≤ x.value
    · rw [if_pos hx]
      exact iff_of_true rfl hx
    · rw [if_neg hx, ← BitVec.toNat_inj, BitVec.toNat_not]
      omega
  · intro hx
    rw [hmem] at hx
    rw [hcode, hashCode, hcode', if_neg hx]
    exact BitVec.not_xor_right.symm

theorem hashCode_toSigned_least :
    let x : Unsigned .w64 := ofNat _ 9223372036854775808
    2 ^ 63 ≤ x.value ∧ x.toSigned.value ∉ Kind.range ⟨.signed, .w32⟩ ∧
      x.hashCode ≠ x.toSigned.hashCode ∧ x.hashCode.bits = ~~~x.toSigned.hashCode.bits := by
  intro x
  have h : 2 ^ 63 ≤ x.value := by decide
  have hmem : x.toSigned.value ∉ Kind.range ⟨.signed, .w32⟩ := by decide
  obtain ⟨-, hiff, hcomplement⟩ := hashCode_toSigned x h
  exact ⟨h, hmem, mt hiff.mp hmem, hcomplement hmem⟩

/-- The greatest word has the code of minus one, which has the same bits. -/
theorem hashCode_greatest :
    2 ^ 63 ≤ (greatest .w64).value ∧ (greatest .w64).toSigned.value = -1 ∧
      (greatest .w64).hashCode = (greatest .w64).toSigned.hashCode ∧
      ¬ ∀ x : Unsigned .w64, 2 ^ 63 ≤ x.value → x.hashCode ≠ x.toSigned.hashCode := by
  have h : 2 ^ 63 ≤ (greatest .w64).value := by decide
  have hcode : (greatest .w64).hashCode = (greatest .w64).toSigned.hashCode := by decide
  exact ⟨h, by decide, hcode, fun hall => hall _ h hcode⟩

end Word

end FixedWidth
