import FixedWidth.Proofs.Primitive.Binary64
import FixedWidth.Proofs.Primitive.DoubleRounding

/-!
# Words as floating point numbers of 32 bits

The value of a word is rounded to 53 bits first and then to 24 (`Word.number?_toBinary32`). Words of
at most 32 bits are kept by the first rounding, which then cannot mislead. A word of 64 bits can
have more than 53 significant bits, and next to the midpoint of two numbers of 24 bits it is taken
to the midpoint.
-/

namespace FixedWidth

namespace Word

open BinaryFormat

variable {w : Width}

theorem toBinary32_eq (x : Unsigned w) :
    x.toBinary32 = binary32.encode (rounded 53 x.toNat) := by
  rw [toBinary32, toBinary64_eq, decode_encode binary64 (by decide)]
  rfl

theorem rounded_toNat_le (x : Unsigned w) : rounded 53 x.toNat ≤ 2 ^ 64 := by
  have hle : x.toNat ≤ 2 ^ 64 :=
    x.bits.isLt.le.trans (Nat.pow_le_pow_right (by decide) w.bits_le)
  have hmax : FitsBits 53 (2 ^ 64) := ⟨1, 64, by decide, (Nat.one_mul _).symm⟩
  exact (isNearestEven_rounded (by decide) x.toNat).mono (by decide) (.self hmax) hle

theorem bias_add_lt {e : Nat} (he : e ≤ 64) :
    binary32.bias + e + 1 < 2 ^ binary32.exponentBits - 1 := by
  have hbias : binary32.bias = 127 := rfl
  have hmax : 2 ^ binary32.exponentBits - 1 = 255 := rfl
  omega

theorem log2_rounded_le (x : Unsigned w) : (rounded 53 x.toNat).log2 ≤ 64 :=
  Nat.le_of_lt_succ (log2_lt_of_lt (by decide) (x.rounded_toNat_le.trans_lt (by decide)))

/-- The pattern of a word stands for the value rounded to 53 bits and then to 24. -/
theorem number?_toBinary32 (x : Unsigned w) :
    binary32.number? x.toBinary32 = some (rounded 24 (rounded 53 x.toNat) : ℚ) := by
  rw [toBinary32_eq]
  exact number?_encode _ (by decide) (bias_add_lt x.log2_rounded_le)

theorem number?_encode_toNat (x : Unsigned w) :
    binary32.number? (binary32.encode x.toNat) = some (rounded 24 x.toNat : ℚ) :=
  number?_encode _ (by decide) (bias_add_lt x.log2_toNat_lt.le)

theorem eq_rounded_of_number? {x : Unsigned w} {d : Nat}
    (h : binary64.number? x.toBinary64 = some (d : ℚ)) : d = rounded 53 x.toNat :=
  Nat.cast_injective (Option.some.inj (h.symm.trans x.number?_toBinary64))

/-- Words of at most 53 bits are kept by the first rounding. -/
theorem rounded_toNat_of_ne (hw : w ≠ .w64) (x : Unsigned w) : rounded 53 x.toNat = x.toNat := by
  have hbits : w.bits < 53 := by
    cases w with
    | w8 | w16 | w32 => decide
    | w64 => exact absurd rfl hw
  have hle : x.toNat ≤ 2 ^ 53 := x.bits.isLt.le.trans (Nat.pow_le_pow_right (by decide) hbits.le)
  exact (isNearestEven_rounded (by decide) x.toNat).eq_of_fits (.of_le (by decide) hle)

/-- The word after the midpoint of `2 ^ 60` and the next number of 24 bits. -/
def pastMidpoint : Unsigned .w64 := ofNat _ (2 ^ 60 + 2 ^ 36 + 1)

theorem rounded_pastMidpoint : rounded 53 pastMidpoint.toNat = 2 ^ 60 + 2 ^ 36 := by
  decide

theorem misleads_pastMidpoint :
    Misleads 24 (2 ^ 60 + 2 ^ 36) pastMidpoint.toNat (2 ^ 60) (2 ^ 60 + 2 ^ 37) where
  neighbours := neighbours_mul (m := 2 ^ 23) (by decide) (by decide) (by decide) 37
  half := by decide
  even := ⟨2 ^ 23, ⟨by decide, by decide, 37, by decide⟩, by decide⟩
  side := by decide

/-- **Words as floating point numbers of 32 bits** are rounded twice, which differs from rounding
once exactly where the first result is a midpoint that misleads the second step. -/
theorem toBinary32_rounded_twice :
    (∀ {w : Width} (x : Unsigned w), ∃ d f r : Nat,
      binary64.number? x.toBinary64 = some (d : ℚ) ∧
      x.toBinary32 < 2 ^ 31 ∧
      binary32.number? x.toBinary32 = some (f : ℚ) ∧
      IsNearestEven 24 x.toNat r ∧
      (∀ c, IsNearestEven 24 x.toNat c → c = r) ∧
      binary32.number? (binary32.encode x.toNat) = some (r : ℚ) ∧
      (f ≠ r ↔ ∃ a b, Misleads 24 d x.toNat a b) ∧
      ∀ a b, Misleads 24 d x.toNat a b → f = a ∧ r = b) ∧
    ∀ w : Width, w = .w64 ↔ ∃ (x : Unsigned w) (d : Nat),
      binary64.number? x.toBinary64 = some (d : ℚ) ∧ ∃ a b, Misleads 24 d x.toNat a b := by
  refine ⟨fun {w} x => ?_, fun w => ⟨?_, ?_⟩⟩
  · have hd := isNearestEven_rounded (p := 53) (by decide) x.toNat
    have hf := isNearestEven_rounded (p := 24) (by decide) (rounded 53 x.toNat)
    have hr := isNearestEven_rounded (p := 24) (by decide) x.toNat
    have hmisled : ∀ a b, Misleads 24 (rounded 53 x.toNat) x.toNat a b →
        rounded 24 (rounded 53 x.toNat) = a ∧ rounded 24 x.toNat = b :=
      fun a b => Misleads.eq_of_nearest (by decide) hd hf hr (by decide)
    refine ⟨_, _, _, x.number?_toBinary64, ?_, x.number?_toBinary32, hr,
      fun c hc => hc.unique (by decide) hr, x.number?_encode_toNat, ⟨fun hne => ?_, ?_⟩, hmisled⟩
    · rw [toBinary32_eq]
      exact encode_lt _ (by decide) (bias_add_lt x.log2_rounded_le)
    · exact ⟨_, _, misleads_of_ne (by decide) hd hf hr (by decide) hne⟩
    · rintro ⟨a, b, hab⟩
      obtain ⟨hfa, hrb⟩ := hmisled a b hab
      rw [hfa, hrb]
      exact hab.neighbours.ne
  · rintro rfl
    exact ⟨pastMidpoint, _, rounded_pastMidpoint ▸ pastMidpoint.number?_toBinary64, _, _,
      misleads_pastMidpoint⟩
  · rintro ⟨x, d, hd, a, b, hab⟩
    by_contra hw
    -- the first rounding keeps the value, so that the value is on neither side of it
    have hkeep : d = x.toNat := (eq_rounded_of_number? hd).trans (x.rounded_toNat_of_ne hw)
    have hside := hab.side
    omega

/-- One past the midpoint, a word belongs to the neighbour above and is taken to the one below. -/
theorem toBinary32_rounded_twice_past_midpoint :
    Misleads 24 (2 ^ 60 + 2 ^ 36) pastMidpoint.toNat (2 ^ 60) (2 ^ 60 + 2 ^ 37) ∧
      binary64.number? pastMidpoint.toBinary64 = some ((2 ^ 60 + 2 ^ 36 : Nat) : ℚ) ∧
      binary32.number? pastMidpoint.toBinary32 = some ((2 ^ 60 : Nat) : ℚ) ∧
      IsNearestEven 24 pastMidpoint.toNat (2 ^ 60 + 2 ^ 37) := by
  obtain ⟨d, f, r, hd, -, hf, hr, -, -, -, hmisled⟩ := toBinary32_rounded_twice.1 pastMidpoint
  obtain rfl : d = 2 ^ 60 + 2 ^ 36 := (eq_rounded_of_number? hd).trans rounded_pastMidpoint
  obtain ⟨rfl, rfl⟩ := hmisled _ _ misleads_pastMidpoint
  exact ⟨misleads_pastMidpoint, hd, hf, hr⟩

end Word

end FixedWidth
