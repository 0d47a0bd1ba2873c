import FixedWidth.Proofs.Arithmetic.Division

/-!
# Subtraction by adding a complement

Unsigned words have no negation. What stands in for it is the complement of a word with one added to
it, but the complement works at the word's own width, the sum with one at no less than 32 bits, and
the sum with another word at the common width of the two. The complement of `y` and one more are `2
^ w.bits`. If `y` has the common width, this is where the last sum wraps. If `y` is narrower, the
sum exceeds the difference by it, unless the inner sum has wrapped before, and the zero of 32 bits
is the only narrower word for which it has (`Scalar.yields_negation`).
-/

namespace FixedWidth

theorem Width.common_common_w32 (v w : Width) : v.common (w.common .w32) = v.common w := by
  cases v <;> cases w <;> rfl

theorem add_two_pow_emod_ne (i : Int) {m n : Nat} (h : m < n) : (i + 2 ^ m) % 2 ^ n ≠ i := by
  intro he
  have hdvd : (2 : Int) ^ n ∣ i + 2 ^ m - i := Int.dvd_self_sub_of_emod_eq he
  have hcancel : i + 2 ^ m - i = ((2 ^ m : Nat) : Int) := by
    push_cast
    omega
  rw [hcancel] at hdvd
  have hnat : 2 ^ n ∣ 2 ^ m := by exact_mod_cast hdvd
  exact absurd (Nat.pow_dvd_pow_iff_le_right'.mp hnat) (Nat.not_le.mpr h)

namespace Scalar

variable {v w : Width}

/-- What stands in for the negation of an unsigned scalar: its complement and a one of 32 bits. -/
def negation (b : Scalar) : Except Fault Scalar :=
  b.complement >>= fun c => binary .add c (ofUnsigned (Word.one .w32))

def addNegation (a b : Scalar) : Except Fault Scalar := b.negation >>= binary .add a

/-- The number of the negation: the distance to the next power of two, unless that wraps. -/
def negationValue (y : Unsigned w) : Int :=
  if w.isClosed ∧ y.value = 0 then 0 else 2 ^ w.bits - y.value

theorem add_one_complement_emod (y : Unsigned w) :
    (y.complement.value + 1) % 2 ^ (w.common .w32).bits = negationValue y := by
  have hnonneg := y.value_nonneg
  have hlt := y.value_lt
  rw [y.value_complement, negationValue]
  cases w with
  | w8 | w16 =>
    rw [if_neg fun h => Bool.false_ne_true h.1]
    simp only [Width.bits, Width.common] at hlt ⊢
    omega
  | w32 | w64 =>
    by_cases hy : y.value = 0
    · rw [if_pos ⟨rfl, hy⟩, hy]
      rfl
    · rw [if_neg fun h => hy h.2]
      simp only [Width.bits, Width.common] at hlt ⊢
      omega

theorem yields_negation (y : Unsigned w) :
    Yields (ofUnsigned y).negation ⟨.unsigned, w.common .w32⟩ (negationValue y) := by
  have hone : ((Word.one .w32).toNat : Int) = 1 := rfl
  have h := yields_binary .add y.complement (Word.one .w32)
  rw [ModularOperator.onValues, hone, ← Word.value_unsigned, add_one_complement_emod] at h
  exact h

theorem yields_addNegation (x : Unsigned v) (y : Unsigned w) :
    Yields (addNegation (ofUnsigned x) (ofUnsigned y)) ⟨.unsigned, v.common w⟩
      ((x.value + negationValue y) % 2 ^ (v.common w).bits) := by
  obtain ⟨z, hz, hvalue⟩ := (yields_negation y).exists_word
  have h := yields_binary_of_common (Width.common_common_w32 v w) .add x z
  rw [addNegation, hz, ← hvalue]
  exact h

theorem yields_sub (x : Unsigned v) (y : Unsigned w) :
    Yields (binary .sub (ofUnsigned x) (ofUnsigned y)) ⟨.unsigned, v.common w⟩
      ((x.value - y.value) % 2 ^ (v.common w).bits) :=
  yields_binary .sub x y

theorem add_negationValue (x : Unsigned v) {y : Unsigned w} (h : ¬ (w.isClosed ∧ y.value = 0)) :
    x.value + negationValue y = x.value - y.value + 2 ^ w.bits := by
  rw [negationValue, if_neg h]
  omega

/-- **At the common width the negation subtracts.** -/
theorem addNegation_eq_sub_of_bits_eq (x : Unsigned v) (y : Unsigned w)
    (h : w.bits = (v.common w).bits) :
    addNegation (ofUnsigned x) (ofUnsigned y) = binary .sub (ofUnsigned x) (ofUnsigned y) := by
  have hvalue : (x.value + negationValue y) % 2 ^ (v.common w).bits =
      (x.value - y.value) % 2 ^ (v.common w).bits := by
    by_cases hy : w.isClosed ∧ y.value = 0
    · rw [negationValue, if_pos hy, hy.2, Int.add_zero, Int.sub_zero]
    · rw [add_negationValue x hy, h, Int.add_emod_right]
  have hsum := yields_addNegation x y
  rw [hvalue] at hsum
  exact hsum.eq (yields_sub x y)

theorem addNegation_eq_sub_of_zero (x : Unsigned v) {y : Unsigned w} (hw : w.isClosed)
    (hy : y.value = 0) :
    addNegation (ofUnsigned x) (ofUnsigned y) = binary .sub (ofUnsigned x) (ofUnsigned y) := by
  have hsum := yields_addNegation x y
  have hsub := yields_sub x y
  rw [negationValue, if_pos ⟨hw, hy⟩, Int.add_zero] at hsum
  rw [hy, Int.sub_zero] at hsub
  exact hsum.eq hsub

/-- Where the inner sum does not wrap, the negation is too large by a power of two. -/
theorem yields_addNegation_of_ne (x : Unsigned v) {y : Unsigned w}
    (h : ¬ (w.isClosed ∧ y.value = 0)) :
    Yields (addNegation (ofUnsigned x) (ofUnsigned y)) ⟨.unsigned, v.common w⟩
      (((x.value - y.value) % 2 ^ (v.common w).bits + 2 ^ w.bits) % 2 ^ (v.common w).bits) := by
  have hsum := yields_addNegation x y
  rw [add_negationValue x h] at hsum
  rw [Int.emod_add_emod]
  exact hsum

/-- **Subtraction by negation** is exact at the common width. A narrower word leaves `2 ^ w.bits`
too much, unless it is the zero of 32 bits. -/
theorem subtraction_by_negation (x : Unsigned v) (y : Unsigned w) :
    let a := ofUnsigned x
    let b := ofUnsigned y
    let k : Kind := ⟨.unsigned, v.common w⟩
    Kind.common? a.kind b.kind = some k ∧
    (∃ s d, addNegation a b = .ok s ∧ binary .sub a b = .ok d ∧ s.kind = k ∧ d.kind = k ∧
      (w.bits = k.bits → s = d) ∧
      (w.bits < k.bits → ¬ (w = .w32 ∧ y.value = 0) →
        s.value = (d.value + 2 ^ w.bits) % 2 ^ k.bits ∧ s ≠ d) ∧
      (w.bits < k.bits → w = .w32 ∧ y.value = 0 → s = d)) ∧
    (w.isClosed → Yields (addNegation b b) b.kind 0) := by
  intro a b k
  obtain ⟨s, hs, hsk, -⟩ := yields_addNegation x y
  obtain ⟨d, hd, hdk, hdvalue⟩ := yields_sub x y
  refine ⟨rfl, ⟨s, d, hs, hd, hsk, hdk, fun h => ?_, fun h hy => ?_, fun _ hy => ?_⟩, fun hw => ?_⟩
  · have heq := addNegation_eq_sub_of_bits_eq x y h
    rw [hs, hd] at heq
    exact Except.ok.inj heq
  · have hwrap : ¬ (w.isClosed ∧ y.value = 0) := by
      rintro ⟨hw, hzero⟩
      cases w with
      | w8 | w16 => exact Bool.false_ne_true hw
      | w32 => exact hy ⟨rfl, hzero⟩
      | w64 => exact absurd h (Nat.not_lt.mpr (Width.bits_le _))
    obtain ⟨s', hs', -, hsvalue⟩ := yields_addNegation_of_ne x hwrap
    rw [hs] at hs'
    obtain rfl := Except.ok.inj hs'
    rw [← hdvalue] at hsvalue
    refine ⟨hsvalue, fun heq => ?_⟩
    rw [heq] at hsvalue
    exact add_two_pow_emod_ne d.value h hsvalue.symm
  · have heq := addNegation_eq_sub_of_zero x (hy.1 ▸ rfl) hy.2
    rw [hs, hd] at heq
    exact Except.ok.inj heq
  · have hself : w.common w = w := beq_iff_eq.mp hw
    have hsub := yields_sub y y
    rw [hself, Int.sub_self] at hsub
    rw [addNegation_eq_sub_of_bits_eq y y (congrArg Width.bits hself.symm)]
    exact hsub

theorem subtraction_by_negation_narrow :
    let a := ofUnsigned (Word.ofNat ⟨.unsigned, .w8⟩ 5)
    let b := ofUnsigned (Word.ofNat ⟨.unsigned, .w16⟩ 7)
    let c := ofUnsigned (Word.ofNat ⟨.unsigned, .w32⟩ 7)
    let z := ofUnsigned (Word.zero .w32)
    let x := ofUnsigned (Word.ofNat ⟨.unsigned, .w64⟩ 5)
    (∃ s d, addNegation a b = .ok s ∧ binary .sub a b = .ok d ∧ d.value = 4294967294 ∧
      s.value = 65534 ∧ s ≠ d) ∧
    (∃ s, addNegation a c = .ok s ∧ binary .sub a c = .ok s) ∧
    (∃ s, addNegation x z = .ok s ∧ binary .sub x z = .ok s) ∧
    Yields (addNegation c c) ⟨.unsigned, .w32⟩ 0 := by
  intro a b c z x
  obtain ⟨-, ⟨s, d, hs, hd, -, -, -, hne, -⟩, -⟩ :=
    subtraction_by_negation (Word.ofNat ⟨.unsigned, .w8⟩ 5) (Word.ofNat ⟨.unsigned, .w16⟩ 7)
  obtain ⟨-, ⟨s', d', hs', hd', -, -, heq, -, -⟩, hself⟩ :=
    subtraction_by_negation (Word.ofNat ⟨.unsigned, .w8⟩ 5) (Word.ofNat ⟨.unsigned, .w32⟩ 7)
  obtain ⟨-, ⟨s'', d'', hs'', hd'', -, -, -, -, hzero⟩, -⟩ :=
    subtraction_by_negation (Word.ofNat ⟨.unsigned, .w64⟩ 5) (Word.zero .w32)
  have hdvalue : d.value = 4294967294 := by
    obtain rfl := Except.ok.inj hd
    decide
  obtain ⟨hvalue, hsd⟩ := hne (by decide) (by decide)
  rw [hdvalue] at hvalue
  refine ⟨⟨s, d, hs, hd, hdvalue, hvalue, hsd⟩, ⟨s', hs', ?_⟩, ⟨s'', hs'', ?_⟩, hself rfl⟩
  · rw [heq rfl]
    exact hd'
  · rw [hzero (by decide) (by decide)]
    exact hd''

end Scalar

end FixedWidth
