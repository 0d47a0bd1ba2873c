import FixedWidth.Proofs.Arithmetic.Shift
import FixedWidth.Proofs.Conversion.Interfaces
import FixedWidth.Word.BitCount
import Mathlib.Data.Bool.Count
import Mathlib.Data.List.Count
import Mathlib.Data.Nat.Bitwise

/-!
# Bit counts and values

The value of a word is below `2 ^ n` when all places from the `n`-th on belong to the run of zeros
at the top (`Word.toNat_lt_two_pow_iff`), and it is divisible by `2 ^ n` when the first `n` places
belong to the run at the bottom (`Word.le_trailingZeros_iff`). With these two equivalences nobody
has to look at the bits again: a zero extension keeps the value, and a shift to the right brings it
below a power of two that is as many places lower.
-/

namespace FixedWidth

variable {k t : Kind} {w : Width} {n : Nat}

/-! ### Runs and places -/

theorem le_length_takeWhile_iff {α : Type} {p : α → Bool} {l : List α} :
    n ≤ (l.takeWhile p).length ↔
      n ≤ l.length ∧ ∀ i (h : i < l.length), i < n → p l[i] = true := by
  have hlen : (l.takeWhile p).length = l.findIdx fun a => !p a := by
    rw [List.takeWhile_eq_take_findIdx_not, List.length_take, min_eq_left List.findIdx_le_length]
  rw [hlen]
  constructor
  · intro hn
    refine ⟨hn.trans List.findIdx_le_length, fun i _ hi => ?_⟩
    have hp := List.not_of_lt_findIdx (hi.trans_le hn)
    rwa [Bool.not_eq_false'] at hp
  · rintro ⟨hn, hall⟩
    -- the first element that ends the run would be one of those that do not
    by_contra hlt
    have hend := (Nat.lt_of_not_le hlt).trans_le hn
    have hp := List.findIdx_getElem (w := hend)
    rw [hall _ hend (Nat.lt_of_not_le hlt)] at hp
    exact Bool.false_ne_true hp

theorem lt_two_pow_iff_testBit {a : Nat} : a < 2 ^ n ↔ ∀ i, n ≤ i → a.testBit i = false := by
  constructor
  · intro h i hi
    exact Nat.testBit_lt_two_pow (h.trans_le (Nat.pow_le_pow_right (by decide) hi))
  · exact Nat.lt_pow_two_of_testBit a

theorem two_pow_dvd_iff_testBit {a : Nat} : 2 ^ n ∣ a ↔ ∀ i, i < n → a.testBit i = false := by
  rw [Nat.dvd_iff_mod_eq_zero]
  constructor
  · intro h i hi
    have hbit := Nat.testBit_mod_two_pow a n i
    rwa [h, Nat.zero_testBit, decide_eq_true hi, Bool.true_and, eq_comm] at hbit
  · intro h
    refine Nat.zero_of_testBit_eq_false fun i => ?_
    rw [Nat.testBit_mod_two_pow]
    by_cases hi : i < n
    · rw [h i hi, Bool.and_false]
    · rw [decide_eq_false hi, Bool.false_and]

namespace Word

/-! ### Leading zeros -/

/-- **The run at the top** is as long as the value is small. -/
theorem toNat_lt_two_pow_iff {x : Word k} :
    x.toNat < 2 ^ n ↔ k.bits ≤ x.leadingZeros + n := by
  rw [lt_two_pow_iff_testBit, ← Nat.sub_le_iff_le_add, leadingZeros, le_length_takeWhile_iff]
  simp only [List.length_reverse, List.getElem_reverse, length_toList, getElem_toList,
    Bool.not_eq_true', toNat, BitVec.testBit_toNat]
  rw [and_iff_right (Nat.sub_le _ _)]
  constructor
  · intro h i _ hi
    exact h _ (by omega)
  · intro h i hi
    rcases Nat.lt_or_ge i k.bits with hlt | hge
    · have hbit := h (k.bits - 1 - i) (by omega) (by omega)
      rwa [Nat.sub_sub_self (by omega)] at hbit
    · exact BitVec.getLsbD_of_ge _ _ hge

theorem leadingZeros_le (x : Word k) : x.leadingZeros ≤ k.bits := by
  have h := (List.takeWhile_sublist (l := x.toList.reverse) (!·)).length_le
  rwa [List.length_reverse, length_toList] at h

theorem leadingZeros_eq_bits_iff {x : Word k} : x.leadingZeros = k.bits ↔ x.toNat = 0 := by
  have h := toNat_lt_two_pow_iff (x := x) (n := 0)
  rw [pow_zero, Nat.lt_one_iff] at h
  rw [h, Nat.add_zero, x.leadingZeros_le.ge_iff_eq]

theorem toNat_lt_two_pow_sub (x : Word k) : x.toNat < 2 ^ (k.bits - x.leadingZeros) :=
  toNat_lt_two_pow_iff.mpr (Nat.add_sub_of_le x.leadingZeros_le).ge

theorem two_pow_le_toNat {x : Word k} (hx : x.toNat ≠ 0) :
    2 ^ (k.bits - 1 - x.leadingZeros) ≤ x.toNat := by
  have hle := x.leadingZeros_le
  have hne := mt leadingZeros_eq_bits_iff.mp hx
  refine Nat.le_of_not_lt fun hlt => ?_
  have hmore := toNat_lt_two_pow_iff.mp hlt
  omega

/-! ### Trailing zeros -/

/-- **The run at the bottom** is as long as powers of two divide the value. -/
theorem le_trailingZeros_iff {x : Word k} :
    n ≤ x.trailingZeros ↔ n ≤ k.bits ∧ 2 ^ n ∣ x.toNat := by
  rw [trailingZeros, le_length_takeWhile_iff, two_pow_dvd_iff_testBit]
  simp only [length_toList, getElem_toList, Bool.not_eq_true', toNat, BitVec.testBit_toNat]
  refine and_congr_right fun hn => forall_congr' fun i => ?_
  exact ⟨fun h hi => h (hi.trans_le hn) hi, fun h _ hi => h hi⟩

theorem le_trailingZeros_iff_of_ne {x : Word k} (hx : x.toNat ≠ 0) :
    n ≤ x.trailingZeros ↔ 2 ^ n ∣ x.toNat := by
  refine le_trailingZeros_iff.trans (and_iff_right_of_imp fun h => ?_)
  have hlt := (Nat.le_of_dvd (Nat.pos_of_ne_zero hx) h).trans_lt x.bits.isLt
  exact ((Nat.pow_lt_pow_iff_right (by decide)).mp hlt).le

theorem trailingZeros_le (x : Word k) : x.trailingZeros ≤ k.bits :=
  (le_trailingZeros_iff.mp (le_refl _)).1

theorem two_pow_dvd_toNat (x : Word k) : 2 ^ x.trailingZeros ∣ x.toNat :=
  (le_trailingZeros_iff.mp (le_refl _)).2

theorem trailingZeros_eq_bits_iff {x : Word k} : x.trailingZeros = k.bits ↔ x.toNat = 0 := by
  rw [← x.trailingZeros_le.ge_iff_eq, le_trailingZeros_iff, and_iff_right (le_refl _)]
  exact ⟨fun h => Nat.eq_zero_of_dvd_of_lt h x.bits.isLt, fun h => h ▸ dvd_zero _⟩

/-! ### Set bits -/

theorem toList_complement (x : Unsigned w) : x.complement.toList = x.toList.map (!·) := by
  rw [toList, toList, List.map_map]
  refine List.map_congr_left fun i hi => ?_
  rw [complement, BitVec.getLsbD_not, decide_eq_true (List.mem_range.mp hi), Bool.true_and]
  rfl

theorem ones_add_ones_complement (x : Unsigned w) : x.ones + x.complement.ones = w.bits := by
  have hcount : x.complement.ones = x.toList.count false := by
    rw [ones, toList_complement]
    exact List.count_map_of_injective x.toList (!·) (fun _ _ => Bool.not_inj) false
  rw [hcount, ones, List.count_true_add_count_false, length_toList]

/-! ### Words of one plain binary reading -/

section Extension

variable {x : Word k} {y : Word t} (h : y.toNat = x.toNat)

include h

theorem trailingZeros_of_toNat_eq (hx : x.toNat ≠ 0) : y.trailingZeros = x.trailingZeros := by
  refine eq_of_forall_le_iff fun n => ?_
  rw [le_trailingZeros_iff_of_ne hx, le_trailingZeros_iff_of_ne (h.trans_ne hx), h]

variable (ht : k.bits ≤ t.bits)

include ht

theorem leadingZeros_of_toNat_eq : y.leadingZeros = x.leadingZeros + (t.bits - k.bits) := by
  have hx := x.leadingZeros_le
  have hy := y.leadingZeros_le
  have hlt : ∀ n, t.bits ≤ y.leadingZeros + n ↔ k.bits ≤ x.leadingZeros + n := fun n => by
    rw [← toNat_lt_two_pow_iff, ← toNat_lt_two_pow_iff, h]
  have hsub := hlt (k.bits - x.leadingZeros)
  have hsub' := hlt (t.bits - y.leadingZeros)
  omega

theorem toList_of_toNat_eq : y.toList = x.toList ++ List.replicate (t.bits - k.bits) false := by
  have hbit : ∀ i, y.bits.getLsbD i = x.bits.getLsbD i := fun i => congrArg (Nat.testBit · i) h
  have hrange : List.range t.bits =
      List.range k.bits ++ (List.range (t.bits - k.bits)).map (k.bits + ·) := by
    rw [← List.range_add, Nat.add_sub_of_le ht]
  rw [toList, hrange, List.map_append, List.map_congr_left fun i _ => hbit i]
  refine congrArg (x.toList ++ ·) (List.eq_replicate_iff.mpr ⟨by simp, ?_⟩)
  simp [hbit]

theorem ones_of_toNat_eq : y.ones = x.ones := by
  rw [ones, toList_of_toNat_eq h ht, List.count_append, List.count_replicate, ones]
  rfl

end Extension

theorem leadingZeros_shiftRight (x : Unsigned w) (count : Unsigned .w32) :
    (x.shiftRight count).leadingZeros =
      min w.bits (x.leadingZeros + count.toNat % w.bits) := by
  have hx := x.leadingZeros_le
  have hy := (x.shiftRight count).leadingZeros_le
  have hlt : ∀ n, w.bits ≤ (x.shiftRight count).leadingZeros + n ↔
      w.bits ≤ x.leadingZeros + (n + count.toNat % w.bits) := fun n => by
    refine (toNat_lt_two_pow_iff (x := x.shiftRight count)).symm.trans
      (Iff.trans ?_ (toNat_lt_two_pow_iff (x := x)))
    rw [toNat_shiftRight, Nat.div_lt_iff_lt_mul (Nat.two_pow_pos _), pow_add]
  have hsub := hlt (w.bits - x.leadingZeros - count.toNat % w.bits)
  have hsub' := hlt (w.bits - (x.shiftRight count).leadingZeros)
  simp only [Kind.bits] at hx hy
  omega

/-! ### All counts together -/

/-- All ways into a wider kind lead to one word, with the plain binary reading of the first. -/
theorem exists_extension (x : Unsigned w) (ht : w.bits < t.bits) :
    ∃ y : Word t, (Scalar.ofUnsigned x).widen t = .ok (.ofWord y) ∧
      (Scalar.ofUnsigned x).cast t = .ok (.ofWord y) ∧
      (Scalar.ofUnsigned x).convert t = .ok (.ofWord y) ∧
      y.value = x.value ∧ y.toNat = x.toNat := by
  have hwiden : (Scalar.ofUnsigned x).widen t = .ok (.ofWord (ofCarrier t x.carrier)) :=
    Scalar.widen_eq_ok_iff.mpr ⟨⟨rfl, ht⟩, rfl⟩
  obtain ⟨hcast, hvalue⟩ := Scalar.cast_of_widen hwiden
  refine ⟨_, hwiden, hcast, Scalar.cast_eq_ok_iff_convert.mp hcast, hvalue, ?_⟩
  have hpow : 2 ^ w.bits ≤ 2 ^ t.bits := Nat.pow_le_pow_right (by decide) ht.le
  have hlt : x.toNat < t.width.modulus := t.width.modulus_eq_two_pow ▸ x.bits.isLt.trans_le hpow
  rw [← ofNat_toNat_eq_ofCarrier, toNat_ofNat_of_lt hlt]

/-- **Bit counts and the value of a word**: bounds, divisibility, the counts of zero, and what
becomes of them under complements, widenings and shifts. -/
theorem counts_by_value (x : Unsigned w) :
    (x.leadingZeros ≤ w.bits ∧ x.toNat < 2 ^ (w.bits - x.leadingZeros) ∧
      (x.toNat ≠ 0 → 2 ^ (w.bits - 1 - x.leadingZeros) ≤ x.toNat)) ∧
    (x.trailingZeros ≤ w.bits ∧ 2 ^ x.trailingZeros ∣ x.toNat ∧
      (x.toNat ≠ 0 → ∀ e, 2 ^ e ∣ x.toNat → e ≤ x.trailingZeros)) ∧
    (x.leadingZeros = w.bits ↔ x.toNat = 0) ∧
    (x.trailingZeros = w.bits ↔ x.toNat = 0) ∧
    x.ones + x.complement.ones = w.bits ∧
    (∀ t : Kind, w.bits < t.bits → ∃ y : Word t,
      (Scalar.ofUnsigned x).widen t = .ok (.ofWord y) ∧
      (Scalar.ofUnsigned x).cast t = .ok (.ofWord y) ∧
      (Scalar.ofUnsigned x).convert t = .ok (.ofWord y) ∧
      y.value = x.value ∧
      y.leadingZeros = x.leadingZeros + (t.bits - w.bits) ∧
      (x.toNat ≠ 0 → y.trailingZeros = x.trailingZeros) ∧
      y.ones = x.ones) ∧
    (∀ count : Unsigned .w32, count.toNat < w.bits →
      (x.shiftRight count).leadingZeros = min w.bits (x.leadingZeros + count.toNat) ∧
      ∀ i, w.bits - count.toNat ≤ i → (x.shiftRight count).bits.getLsbD i = false) := by
  refine ⟨⟨x.leadingZeros_le, x.toNat_lt_two_pow_sub, two_pow_le_toNat⟩,
    ⟨x.trailingZeros_le, x.two_pow_dvd_toNat, fun hx e => (le_trailingZeros_iff_of_ne hx).mpr⟩,
    leadingZeros_eq_bits_iff, trailingZeros_eq_bits_iff, x.ones_add_ones_complement, ?_, ?_⟩
  · intro t ht
    obtain ⟨y, hwiden, hcast, hconvert, hvalue, hy⟩ := x.exists_extension ht
    exact ⟨y, hwiden, hcast, hconvert, hvalue, leadingZeros_of_toNat_eq hy ht.le,
      trailingZeros_of_toNat_eq hy, ones_of_toNat_eq hy ht.le⟩
  · intro count hcount
    have hzeros := x.leadingZeros_shiftRight count
    rw [Nat.mod_eq_of_lt hcount] at hzeros
    refine ⟨hzeros, fun i hi => ?_⟩
    rw [getLsbD_shiftRight, Nat.mod_eq_of_lt hcount]
    exact BitVec.getLsbD_of_ge _ _ (Nat.sub_le_iff_le_add'.mp hi)

/-- The word 96 has one zero above its two set bits and five below. -/
theorem counts_by_value_ninety_six :
    let x : Unsigned .w8 := ofNat _ 96
    let t : Kind := ⟨.unsigned, .w64⟩
    let seven : Unsigned .w32 := ofNat _ 7
    (x.toNat ≠ 0 ∧ 2 ^ 6 ≤ x.toNat ∧ ∀ e, 2 ^ e ∣ x.toNat → e ≤ 5) ∧
    (Width.bits .w8 < t.bits ∧ ∃ y : Word t,
      (Scalar.ofUnsigned x).convert t = .ok (.ofWord y) ∧
        y.leadingZeros = 57 ∧ y.trailingZeros = 5 ∧ y.ones = 2) ∧
    (seven.toNat < Width.bits .w8 ∧ (x.shiftRight seven).leadingZeros = 8) := by
  intro x t seven
  have hx : x.toNat ≠ 0 := by decide
  have ht : Width.bits .w8 < t.bits := by decide
  have hseven : seven.toNat < Width.bits .w8 := by decide
  have hleading : x.leadingZeros = 1 := by decide
  have htrailing : x.trailingZeros = 5 := by decide
  have hones : x.ones = 2 := by decide
  obtain ⟨⟨-, -, hlow⟩, ⟨-, -, hdvd⟩, -, -, -, hextend, hshift⟩ := counts_by_value x
  obtain ⟨y, -, -, hconvert, -, hyl, hyt, hyo⟩ := hextend t ht
  have hright := (hshift seven hseven).1
  rw [hleading] at hlow hyl hright
  rw [htrailing] at hdvd hyt
  exact ⟨⟨hx, hlow hx, hdvd hx⟩, ⟨ht, y, hconvert, hyl, hyt hx, hyo.trans hones⟩,
    hseven, hright⟩

end Word

end FixedWidth
