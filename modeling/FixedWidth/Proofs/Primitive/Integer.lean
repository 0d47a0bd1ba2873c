import FixedWidth.Primitive
import FixedWidth.Proofs.Residue
import Mathlib.Algebra.Order.Ring.Int

/-!
# Words as primitive integers

The types of 64 and of 128 bits are asked for the word itself, all others after the 64-bit type of
their domain, which refuses what it cannot hold. No word gets lost on the way: the range of a
smaller type lies in that of the larger one, which refuses only what the smaller one refuses as well
(`PrimitiveInteger.filter_guard_holds`). The types of pointer size have the range of the type they
are asked after.
-/

namespace FixedWidth

namespace PrimitiveInteger

variable {p q : PrimitiveInteger} {d : Domain} {r s : PrimitiveSize} {i j : Int}

/-- The integers of a type. -/
def range (p : PrimitiveInteger) : Set Int :=
  match p.domain with
  | .signed => {i | -2 ^ (p.size.bits - 1) ≤ i ∧ i < 2 ^ (p.size.bits - 1)}
  | .unsigned => {i | 0 ≤ i ∧ i < 2 ^ p.size.bits}

theorem holds_iff : p.holds i = true ↔ i ∈ p.range := by
  obtain ⟨_ | _, s⟩ := p
  · simp [holds, range, Nat.shiftLeft_eq]
  · simp [holds, range, Nat.shiftLeft_eq]

theorem range_subset_range (h : r.bits ≤ s.bits) : range ⟨d, r⟩ ⊆ range ⟨d, s⟩ := by
  intro i hi
  cases d with
  | signed =>
    obtain ⟨hl, hu⟩ : _ ∧ _ := hi
    have hpow : (2 : Int) ^ (r.bits - 1) ≤ 2 ^ (s.bits - 1) :=
      pow_le_pow_right₀ (by decide) (Nat.sub_le_sub_right h 1)
    exact ⟨(neg_le_neg hpow).trans hl, hu.trans_le hpow⟩
  | unsigned =>
    obtain ⟨hl, hu⟩ : _ ∧ _ := hi
    have hpow : (2 : Int) ^ r.bits ≤ 2 ^ s.bits := pow_le_pow_right₀ (by decide) h
    exact ⟨hl, hu.trans_le hpow⟩

theorem guard_holds_eq_some_iff : Option.guard p.holds i = some j ↔ i ∈ p.range ∧ j = i := by
  rw [Option.guard_eq_some_iff, holds_iff, and_comm, eq_comm (a := i)]

theorem guard_holds_eq_none_iff : Option.guard p.holds i = none ↔ i ∉ p.range := by
  rw [Option.guard_eq_none_iff, ← holds_iff, Bool.not_eq_true]

/-- **A larger type in between does not matter.** -/
theorem filter_guard_holds (h : q.range ⊆ p.range) :
    (Option.guard p.holds i).filter q.holds = Option.guard q.holds i := by
  by_cases hp : i ∈ p.range
  · rw [guard_holds_eq_some_iff.mpr ⟨hp, rfl⟩]
    rfl
  · rw [guard_holds_eq_none_iff.mpr hp, guard_holds_eq_none_iff.mpr (mt (@h i) hp),
      Option.filter_none]

end PrimitiveInteger

namespace Word

open PrimitiveInteger

variable {w : Width}

theorem value_mem_range_unsigned {s : PrimitiveSize} (h : 64 ≤ s.bits) (x : Unsigned w) :
    x.value ∈ range ⟨.unsigned, s⟩ := by
  have hpow : 2 ^ w.bits ≤ 2 ^ s.bits := Nat.pow_le_pow_right (by decide) (w.bits_le.trans h)
  have hlt : (x.toNat : Int) < 2 ^ s.bits := by exact_mod_cast x.bits.isLt.trans_le hpow
  exact ⟨Int.natCast_nonneg _, hlt⟩

theorem value_mem_range_signed (x : Unsigned w) : x.value ∈ range ⟨.signed, .b128⟩ := by
  have hpow : 2 ^ w.bits ≤ 2 ^ 127 := Nat.pow_le_pow_right (by decide) (w.bits_le.trans (by decide))
  have hlt : (x.toNat : Int) < 2 ^ 127 := by exact_mod_cast x.bits.isLt.trans_le hpow
  exact ⟨le_trans (by decide) (Int.natCast_nonneg _), hlt⟩

theorem toInt64?_eq (x : Unsigned w) : x.toInt64? = Option.guard (holds ⟨.signed, .b64⟩) x.value :=
  rfl

theorem some_toNat64 (x : Unsigned w) :
    some x.toNat64 = Option.guard (holds ⟨.unsigned, .b64⟩) x.value :=
  (guard_holds_eq_some_iff.mpr ⟨x.value_mem_range_unsigned (le_refl 64), rfl⟩).symm

/-- **Every route leads to what the target's range says.** -/
theorem toPrimitive?_eq (p : PrimitiveInteger) (x : Unsigned w) :
    x.toPrimitive? p = Option.guard p.holds x.value := by
  obtain ⟨d, s⟩ := p
  -- The smaller types are asked after the 64-bit type of their domain.
  have hroute (s : PrimitiveSize) (hs : s.bits ≤ 64) :
      (Option.guard (holds ⟨d, .b64⟩) x.value).filter (holds ⟨d, s⟩) =
        Option.guard (holds ⟨d, s⟩) x.value :=
    filter_guard_holds (range_subset_range hs)
  cases d with
  | signed =>
    rw [← toInt64?_eq] at hroute
    cases s with
    | b64 => exact x.toInt64?_eq
    | b128 => exact (guard_holds_eq_some_iff.mpr ⟨x.value_mem_range_signed, rfl⟩).symm
    | b8 | b16 | b32 | pointer =>
      unfold toPrimitive?
      exact hroute _ (by decide)
  | unsigned =>
    rw [← some_toNat64] at hroute
    cases s with
    | b64 => exact x.some_toNat64
    | b128 =>
      have hmem : x.value ∈ range ⟨.unsigned, .b128⟩ := x.value_mem_range_unsigned (by decide)
      exact (guard_holds_eq_some_iff.mpr ⟨hmem, rfl⟩).symm
    | b8 | b16 | b32 | pointer =>
      unfold toPrimitive?
      exact hroute _ (by decide)

/-- **Words as primitive integers**: the value of the word, if the type's range holds it. -/
theorem toPrimitive?_by_range (p : PrimitiveInteger) (x : Unsigned w) :
    (∀ i, x.toPrimitive? p = some i ↔ x.value ∈ p.range ∧ i = x.value) ∧
    (x.toPrimitive? p = none ↔ x.value ∉ p.range) := by
  rw [toPrimitive?_eq]
  exact ⟨fun i => guard_holds_eq_some_iff, guard_holds_eq_none_iff⟩

/-- The greatest word is a number of the unsigned type of pointer size, not of the signed one. -/
example :
    let x : Unsigned .w64 := greatest .w64
    x.toPrimitive? ⟨.unsigned, .pointer⟩ = some 18446744073709551615 ∧
      x.toPrimitive? ⟨.signed, .pointer⟩ = none := by
  decide

end Word

end FixedWidth
