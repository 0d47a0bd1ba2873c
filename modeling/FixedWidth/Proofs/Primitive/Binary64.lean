import FixedWidth.Proofs.Primitive.Integer
import FixedWidth.Proofs.Primitive.Pattern

/-!
# Words as floating point numbers of 64 bits

A word that is a signed integer of 64 bits becomes a floating point number from there, and every
other word from the unsigned integer. A word has no sign, so the two routes write the same pattern
and meet without a step (`toBinary64_eq`). All exponents are far from that of the infinities
(`bias_add_log2_lt`). What is left is rounding to 53 bits, which keeps the order of values; so the
numbers of words are ordered as the words are, whatever the widths.
-/

namespace FixedWidth

theorem log2_lt_of_lt {n s : Nat} (hs : 0 < s) (h : n < 2 ^ s) : n.log2 < s := by
  rcases eq_or_ne n 0 with rfl | hn
  · rw [Nat.log2_zero]
    exact hs
  · exact (Nat.log2_lt hn).mpr h

namespace Word

open BinaryFormat

variable {v w : Width}

/-- **Both routes join**: the pattern is that of the value, from wherever it is made. -/
theorem toBinary64_eq (x : Unsigned w) : x.toBinary64 = binary64.encode x.toNat := by
  rw [toBinary64]
  cases h : x.toInt64? with
  | none => rfl
  | some i =>
    rw [toInt64?_eq] at h
    obtain ⟨-, rfl⟩ := PrimitiveInteger.guard_holds_eq_some_iff.mp h
    exact encodeInt_natCast binary64 x.toNat

theorem log2_toNat_lt (x : Unsigned w) : x.toNat.log2 < 64 :=
  log2_lt_of_lt (by decide) (x.bits.isLt.trans_le (Nat.pow_le_pow_right (by decide) w.bits_le))

/-- The exponents of words stay below that of the infinities, also after a carry. -/
theorem bias_add_log2_lt (x : Unsigned w) :
    binary64.bias + x.toNat.log2 + 1 < 2 ^ binary64.exponentBits - 1 := by
  have hbias : binary64.bias = 1023 := rfl
  have hmax : 2 ^ binary64.exponentBits - 1 = 2047 := rfl
  have hlog := x.log2_toNat_lt
  omega

theorem number?_toBinary64 (x : Unsigned w) :
    binary64.number? x.toBinary64 = some (rounded 53 x.toNat : ℚ) := by
  rw [toBinary64_eq]
  exact number?_encode _ (by decide) x.bias_add_log2_lt

/-- **Words as floating point numbers of 64 bits** are the nearest ones, with ties to even, and keep
their order. -/
theorem toBinary64_nearest (x : Unsigned v) :
    ∃ d : Nat,
      x.toBinary64 < 2 ^ 63 ∧
      binary64.number? x.toBinary64 = some (d : ℚ) ∧
      binary64.decode x.toBinary64 = d ∧
      IsNearestEven 53 x.toNat d ∧
      (∀ c, IsNearestEven 53 x.toNat c → c = d) ∧
      (x.toNat ≤ 2 ^ 53 → d = x.toNat) ∧
      ∀ {w : Width} (y : Unsigned w) (q : ℚ),
        binary64.number? y.toBinary64 = some q → x.toNat ≤ y.toNat → (d : ℚ) ≤ q := by
  have hnear := isNearestEven_rounded (p := 53) (by decide) x.toNat
  refine ⟨rounded 53 x.toNat, ?_, x.number?_toBinary64, ?_, hnear, ?_, ?_, ?_⟩
  · rw [toBinary64_eq]
    exact encode_lt _ (by decide) x.bias_add_log2_lt
  · rw [toBinary64_eq]
    exact decode_encode _ (by decide)
  · exact fun c hc => hc.unique (by decide) hnear
  · exact fun h => hnear.eq_of_fits (.of_le (by decide) h)
  · intro w y q hq hle
    have hy := isNearestEven_rounded (p := 53) (by decide) y.toNat
    obtain rfl := Option.some.inj (y.number?_toBinary64.symm.trans hq)
    exact_mod_cast hnear.mono (by decide) hy hle

theorem toBinary64_nearest_across_routes :
    let x : Unsigned .w64 := ofNat _ (2 ^ 63 - 1)
    let y : Unsigned .w64 := ofNat _ (2 ^ 63 + 1024)
    let z : Unsigned .w64 := ofNat _ (2 ^ 53)
    (binary64.number? x.toBinary64 = some ((2 ^ 63 : Nat) : ℚ) ∧ x.toNat ≤ y.toNat ∧
      ∃ q, binary64.number? y.toBinary64 = some q ∧ ((2 ^ 63 : Nat) : ℚ) ≤ q) ∧
    (binary64.number? y.toBinary64 = some ((2 ^ 63 : Nat) : ℚ) ∧
      Nat.dist y.toNat (2 ^ 63 + 2048) = Nat.dist y.toNat (2 ^ 63) ∧
      (∃ m, IsSignificand 53 m (2 ^ 63) ∧ Even m) ∧
      ∃ m, IsSignificand 53 m (2 ^ 63 + 2048) ∧ Odd m) ∧
    (z.toNat ≤ 2 ^ 53 ∧ binary64.number? z.toBinary64 = some (z.toNat : ℚ)) := by
  intro x y z
  obtain ⟨d, -, hx, hd, -, -, -, hmono⟩ := toBinary64_nearest x
  obtain ⟨e, -, hy, he, hnear, -, -, -⟩ := toBinary64_nearest y
  obtain ⟨k, -, hz, -, -, -, hexact, -⟩ := toBinary64_nearest z
  obtain rfl : d = 2 ^ 63 := hd.symm.trans (by decide)
  obtain rfl : e = 2 ^ 63 := he.symm.trans (by decide)
  have hle : x.toNat ≤ y.toNat := by decide
  have hsmall : z.toNat ≤ 2 ^ 53 := by decide
  obtain rfl : k = z.toNat := hexact hsmall
  have hfits : FitsBits 53 (2 ^ 63 + 2048) := ⟨2 ^ 52 + 1, 11, by decide, by decide⟩
  have htie : Nat.dist y.toNat (2 ^ 63 + 2048) = Nat.dist y.toNat (2 ^ 63) := by decide
  exact ⟨⟨hx, hle, _, hy, hmono y _ hy hle⟩,
    ⟨hy, htie, hnear.even_of_tie _ hfits (by decide) htie⟩, hsmall, hz⟩

end Word

end FixedWidth
