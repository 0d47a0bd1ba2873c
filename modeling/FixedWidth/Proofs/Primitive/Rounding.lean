import FixedWidth.Primitive.BinaryFormat
import Mathlib.Algebra.Group.Nat.Even
import Mathlib.Algebra.Order.Ring.Nat
import Mathlib.Data.Nat.Dist
import Mathlib.Tactic.Ring

/-!
# Rounding to a number of significant bits

The numbers of `p` significant bits are those below `2 ^ p`, scaled by powers of two. Around a
number `n` that has `s` bits too many they are the multiples of `2 ^ s`; smaller steps occur only
below the highest bit of `n` (`FitsBits.exists_mul_or_lt`). So rounding `n / 2 ^ s` to an integer
finds the nearest of them.

Of two numbers that are equally near one is an even multiple and the other an odd one, and so are
their significands, also where the even one is `2 ^ p` times the power. So there is only one nearest
number with ties to even (`IsNearestEven.unique`), and the order of numbers is kept
(`IsNearestEven.mono`).
-/

namespace FixedWidth

/-! ### Division with rounding -/

section Division

variable (n s : Nat)

theorem roundHalfEven_eq :
    roundHalfEven n s =
      if 2 * (n % 2 ^ s) < 2 ^ s then n / 2 ^ s
      else if 2 ^ s < 2 * (n % 2 ^ s) then n / 2 ^ s + 1
      else n / 2 ^ s + n / 2 ^ s % 2 := by
  have hrest : n - n / 2 ^ s * 2 ^ s = n % 2 ^ s := by
    rw [Nat.mul_comm]
    exact (Nat.mod_eq_sub_mul_div).symm
  simp only [roundHalfEven, Nat.shiftRight_eq_div_pow, Nat.shiftLeft_eq, Nat.one_mul, hrest]

theorem roundHalfEven_cases :
    (2 * (n % 2 ^ s) < 2 ^ s ∧ roundHalfEven n s = n / 2 ^ s) ∨
    (2 ^ s < 2 * (n % 2 ^ s) ∧ roundHalfEven n s = n / 2 ^ s + 1) ∨
    (2 * (n % 2 ^ s) = 2 ^ s ∧ Even (roundHalfEven n s) ∧
      (roundHalfEven n s = n / 2 ^ s ∨ roundHalfEven n s = n / 2 ^ s + 1)) := by
  rw [roundHalfEven_eq, Nat.even_iff]
  split
  next h => exact .inl ⟨h, rfl⟩
  next h =>
    split
    next h' => exact .inr (.inl ⟨h', rfl⟩)
    next h' => exact .inr (.inr ⟨by omega, by omega, by omega⟩)

theorem roundHalfEven_mem :
    n / 2 ^ s ≤ roundHalfEven n s ∧ roundHalfEven n s ≤ n / 2 ^ s + 1 := by
  rcases roundHalfEven_cases n s with ⟨-, h⟩ | ⟨-, h⟩ | ⟨-, -, h | h⟩ <;> omega

theorem mem_of_quotient {n s a b c : Nat} (hl : a * 2 ^ s ≤ n) (hu : n < b * 2 ^ s)
    (hc : n / 2 ^ s ≤ c ∧ c ≤ n / 2 ^ s + 1) : a ≤ c ∧ c ≤ b := by
  have hq : a ≤ n / 2 ^ s := (Nat.le_div_iff_mul_le (Nat.two_pow_pos s)).mpr hl
  have hq' : n / 2 ^ s < b := (Nat.div_lt_iff_lt_mul (Nat.two_pow_pos s)).mpr hu
  omega

theorem dist_quotient : Nat.dist n (n / 2 ^ s * 2 ^ s) = n % 2 ^ s := by
  have hn := Nat.div_add_mod' n (2 ^ s)
  rw [Nat.dist]
  omega

theorem dist_quotient_succ : Nat.dist n ((n / 2 ^ s + 1) * 2 ^ s) = 2 ^ s - n % 2 ^ s := by
  have hn := Nat.div_add_mod' n (2 ^ s)
  have hr := Nat.mod_lt n (Nat.two_pow_pos s)
  rw [Nat.succ_mul, Nat.dist]
  omega

theorem dist_roundHalfEven :
    Nat.dist n (roundHalfEven n s * 2 ^ s) = min (n % 2 ^ s) (2 ^ s - n % 2 ^ s) := by
  have hq := dist_quotient n s
  have hq' := dist_quotient_succ n s
  rcases roundHalfEven_cases n s with ⟨h, hR⟩ | ⟨h, hR⟩ | ⟨h, -, hR | hR⟩ <;> rw [hR] <;> omega

theorem two_pow_le_dist {n s c : Nat} (h : c ≠ n / 2 ^ s) (h' : c ≠ n / 2 ^ s + 1) :
    2 ^ s ≤ Nat.dist n (c * 2 ^ s) := by
  have hn := Nat.div_add_mod' n (2 ^ s)
  have hr := Nat.mod_lt n (Nat.two_pow_pos s)
  rcases Nat.lt_or_ge c (n / 2 ^ s) with hc | hc
  · have hmul := Nat.mul_le_mul_right (2 ^ s) (Nat.succ_le_of_lt hc)
    rw [Nat.succ_mul] at hmul
    rw [Nat.dist]
    omega
  · have hc' : n / 2 ^ s + 1 + 1 ≤ c := by omega
    have hmul := Nat.mul_le_mul_right (2 ^ s) hc'
    rw [Nat.succ_mul, Nat.succ_mul] at hmul
    rw [Nat.dist]
    omega

end Division

theorem cases_multiple (n s c : Nat) :
    c = n / 2 ^ s ∧ Nat.dist n (c * 2 ^ s) = n % 2 ^ s ∨
    c = n / 2 ^ s + 1 ∧ Nat.dist n (c * 2 ^ s) = 2 ^ s - n % 2 ^ s ∨
    2 ^ s ≤ Nat.dist n (c * 2 ^ s) := by
  by_cases h : c = n / 2 ^ s
  · exact .inl ⟨h, h ▸ dist_quotient n s⟩
  · by_cases h' : c = n / 2 ^ s + 1
    · exact .inr (.inl ⟨h', h' ▸ dist_quotient_succ n s⟩)
    · exact .inr (.inr (two_pow_le_dist h h'))

/-- **The rounded quotient is the nearest multiple.** -/
theorem dist_roundHalfEven_le (n s c : Nat) :
    Nat.dist n (roundHalfEven n s * 2 ^ s) ≤ Nat.dist n (c * 2 ^ s) := by
  have hR := dist_roundHalfEven n s
  rcases cases_multiple n s c with ⟨-, hc⟩ | ⟨-, hc⟩ | hc <;> omega

/-- **Ties to even.** -/
theorem even_roundHalfEven_of_dist_eq {n s c : Nat} (hne : c ≠ roundHalfEven n s)
    (h : Nat.dist n (c * 2 ^ s) = Nat.dist n (roundHalfEven n s * 2 ^ s)) :
    Even (roundHalfEven n s) ∧ Odd c ∧ (n / 2 ^ s ≤ c ∧ c ≤ n / 2 ^ s + 1) := by
  have hr := Nat.mod_lt n (Nat.two_pow_pos s)
  have hR := dist_roundHalfEven n s
  have hc := cases_multiple n s c
  rw [Nat.odd_iff]
  rcases roundHalfEven_cases n s with ⟨hlt, hq⟩ | ⟨hlt, hq⟩ | ⟨hhalf, heven, hq⟩
  · omega
  · omega
  · have hmod := Nat.even_iff.mp heven
    exact ⟨heven, by omega, by omega, by omega⟩

/-! ### Numbers of so many significant bits -/

/-- A number of at most `p` significant bits. -/
def FitsBits (p n : Nat) : Prop := ∃ m e, m < 2 ^ p ∧ n = m * 2 ^ e

/-- The normalised significand of a number, which has exactly `p` bits. -/
structure IsSignificand (p m n : Nat) : Prop where
  le : 2 ^ (p - 1) ≤ m
  lt : m < 2 ^ p
  exists_eq : ∃ e, n = m * 2 ^ e

/-- `d` is a nearest number to `n` among those of `p` significant bits, with an even significand
where another one is as near. -/
structure IsNearestEven (p n d : Nat) : Prop where
  fits : FitsBits p d
  dist_le : ∀ c, FitsBits p c → Nat.dist n d ≤ Nat.dist n c
  even_of_tie : ∀ c, FitsBits p c → c ≠ d → Nat.dist n c = Nat.dist n d →
    (∃ m, IsSignificand p m d ∧ Even m) ∧ ∃ m, IsSignificand p m c ∧ Odd m

theorem FitsBits.of_le {p n : Nat} (hp : 0 < p) (h : n ≤ 2 ^ p) : FitsBits p n := by
  rcases Nat.lt_or_eq_of_le h with hlt | heq
  · exact ⟨n, 0, hlt, (Nat.mul_one n).symm⟩
  · exact ⟨1, p, Nat.one_lt_two_pow hp.ne', by rw [heq, Nat.one_mul]⟩

/-- Numbers that need smaller steps than `2 ^ s` lie below `2 ^ (p - 1)` of these steps. -/
theorem FitsBits.exists_mul_or_lt {p c : Nat} (h : FitsBits p c) (s : Nat) (hp : 0 < p) :
    (∃ b, c = b * 2 ^ s) ∨ c < 2 ^ (p - 1) * 2 ^ s := by
  obtain ⟨m, e, hm, rfl⟩ := h
  rcases Nat.lt_or_ge e s with he | he
  · right
    have hpow : 2 ^ p * 2 ^ e ≤ 2 ^ (p - 1) * 2 ^ s := by
      rw [← pow_add, ← pow_add]
      exact Nat.pow_le_pow_right (by decide) (by omega)
    exact (Nat.mul_lt_mul_of_pos_right hm (Nat.two_pow_pos e)).trans_le hpow
  · left
    exact ⟨m * 2 ^ (e - s), by rw [Nat.mul_assoc, ← pow_add, Nat.sub_add_cancel he]⟩

theorem IsSignificand.fits {p m n : Nat} (h : IsSignificand p m n) : FitsBits p n := by
  obtain ⟨e, he⟩ := h.exists_eq
  exact ⟨m, e, h.lt, he⟩

theorem IsSignificand.unique {p m m' n : Nat} (hp : 0 < p) (h : IsSignificand p m n)
    (h' : IsSignificand p m' n) : m = m' := by
  -- significands of one length do not make up for a greater exponent
  have key {m m' e e' : Nat} (hm : m < 2 ^ p) (hm' : 2 ^ (p - 1) ≤ m')
      (heq : m * 2 ^ e = m' * 2 ^ e') : e' ≤ e := by
    by_contra hlt
    have hpow : 2 ^ p * 2 ^ e ≤ 2 ^ (p - 1) * 2 ^ e' := by
      rw [← pow_add, ← pow_add]
      exact Nat.pow_le_pow_right (by decide) (by omega)
    have hlt' : m * 2 ^ e < 2 ^ p * 2 ^ e := Nat.mul_lt_mul_of_pos_right hm (Nat.two_pow_pos e)
    have hle : 2 ^ (p - 1) * 2 ^ e' ≤ m' * 2 ^ e' := Nat.mul_le_mul_right _ hm'
    omega
  obtain ⟨e, he⟩ := h.exists_eq
  obtain ⟨e', he'⟩ := h'.exists_eq
  have heq : m * 2 ^ e = m' * 2 ^ e' := he ▸ he'
  obtain rfl : e = e' := Nat.le_antisymm (key h'.lt h.le heq.symm) (key h.lt h'.le heq)
  exact Nat.eq_of_mul_eq_mul_right (Nat.two_pow_pos e) heq

namespace IsNearestEven

variable {p n n' d d' : Nat}

theorem self (h : FitsBits p n) : IsNearestEven p n n where
  fits := h
  dist_le c _ := by
    rw [Nat.dist_self]
    exact Nat.zero_le _
  even_of_tie c _ hne h := by
    rw [Nat.dist_self] at h
    exact absurd (Nat.eq_of_dist_eq_zero h).symm hne

/-- **There is only one nearest number**: of two, one would be even and odd at once. -/
theorem unique (hp : 0 < p) (h : IsNearestEven p n d) (h' : IsNearestEven p n d') : d = d' := by
  by_contra hne
  have hdist : Nat.dist n d = Nat.dist n d' :=
    Nat.le_antisymm (h.dist_le d' h'.fits) (h'.dist_le d h.fits)
  obtain ⟨⟨m, hm, heven⟩, -⟩ := h.even_of_tie d' h'.fits (Ne.symm hne) hdist.symm
  obtain ⟨-, ⟨m', hm', hodd⟩⟩ := h'.even_of_tie d h.fits hne hdist
  rw [hm.unique hp hm'] at heven
  exact Nat.not_even_iff_odd.mpr hodd heven

theorem eq_of_fits (h : IsNearestEven p n d) (hn : FitsBits p n) : d = n := by
  have hdist := h.dist_le n hn
  rw [Nat.dist_self] at hdist
  exact (Nat.eq_of_dist_eq_zero (Nat.le_zero.mp hdist)).symm

/-- **Rounding keeps the order.** Where it did not, both numbers would lie halfway. -/
theorem mono (hp : 0 < p) (h : IsNearestEven p n d) (h' : IsNearestEven p n' d') (hn : n ≤ n') :
    d ≤ d' := by
  by_contra hlt
  have hd := h.dist_le d' h'.fits
  have hd' := h'.dist_le d h.fits
  rw [Nat.dist, Nat.dist] at hd hd'
  obtain rfl : n = n' := by omega
  exact hlt (h.unique hp h').le

end IsNearestEven

/-! ### Rounding to so many bits -/

/-- A number rounded to `p` significant bits. -/
def rounded (p n : Nat) : Nat :=
  roundHalfEven n (n.log2 + 1 - p) * 2 ^ (n.log2 + 1 - p)

theorem rounded_of_lt {p n : Nat} (h : n.log2 < p) : rounded p n = n := by
  have hs : n.log2 + 1 - p = 0 := by omega
  have hz : roundHalfEven n 0 = n := by simp [roundHalfEven]
  rw [rounded, hs, hz, pow_zero, Nat.mul_one]

theorem rounded_zero {p : Nat} (hp : 0 < p) : rounded p 0 = 0 :=
  rounded_of_lt (Nat.log2_zero.trans_lt hp)

/-- The multiples of `2 ^ s` around a number with `s` bits too many are numbers of `p` bits. -/
theorem isSignificand_of_mem {p b : Nat} (s : Nat) (hp : 1 < p) (hl : 2 ^ (p - 1) ≤ b)
    (hu : b ≤ 2 ^ p) :
    ∃ m, IsSignificand p m (b * 2 ^ s) ∧ (Even b → Even m) ∧ (Odd b → Odd m) := by
  rcases Nat.lt_or_eq_of_le hu with hlt | rfl
  · exact ⟨b, ⟨hl, hlt, s, rfl⟩, id, id⟩
  · have hpow : 2 ^ p = 2 ^ (p - 1) * 2 := by rw [← pow_succ, Nat.sub_add_cancel hp.le]
    have heven : Even (2 ^ (p - 1)) := Nat.even_pow.mpr ⟨even_two, by omega⟩
    have heven' : Even (2 ^ p) := Nat.even_pow.mpr ⟨even_two, by omega⟩
    refine ⟨2 ^ (p - 1), ⟨le_refl _, Nat.pow_lt_pow_right (by decide) (by omega), s + 1, ?_⟩,
      fun _ => heven, fun hodd => absurd heven' (Nat.not_even_iff_odd.mpr hodd)⟩
    rw [hpow, Nat.mul_assoc, pow_succ']

/-- **Around a number of `p + s` bits** nothing is nearer than the multiples of `2 ^ s`. -/
theorem isNearestEven_mul {p s n : Nat} (hp : 1 < p) (hl : 2 ^ (p - 1) * 2 ^ s ≤ n)
    (hu : n < 2 ^ p * 2 ^ s) : IsNearestEven p n (roundHalfEven n s * 2 ^ s) := by
  have hR := mem_of_quotient hl hu (roundHalfEven_mem n s)
  obtain ⟨m, hm, heven, -⟩ := isSignificand_of_mem s hp hR.1 hR.2
  -- what needs smaller steps lies behind the lowest number of the range, which is a multiple
  have hfar {c : Nat} (hc : c < 2 ^ (p - 1) * 2 ^ s) :
      Nat.dist n (roundHalfEven n s * 2 ^ s) < Nat.dist n c := by
    have hle := dist_roundHalfEven_le n s (2 ^ (p - 1))
    rw [Nat.dist_eq_sub_of_le_right hl] at hle
    rw [Nat.dist_eq_sub_of_le_right (hc.le.trans hl)]
    omega
  refine ⟨hm.fits, fun c hc => ?_, fun c hc hne h => ?_⟩
  · rcases hc.exists_mul_or_lt s (by omega) with ⟨b, rfl⟩ | hlt
    · exact dist_roundHalfEven_le n s b
    · exact (hfar hlt).le
  · rcases hc.exists_mul_or_lt s (by omega) with ⟨b, rfl⟩ | hlt
    · obtain ⟨hRe, hbo, hb⟩ :=
        even_roundHalfEven_of_dist_eq (fun hb => hne (congrArg (· * 2 ^ s) hb)) h
      have hmem := mem_of_quotient hl hu hb
      obtain ⟨m', hm', -, hodd⟩ := isSignificand_of_mem s hp hmem.1 hmem.2
      exact ⟨⟨m, hm, heven hRe⟩, m', hm', hodd hbo⟩
    · exact absurd h (hfar hlt).ne'

/-- **Rounding the quotient is rounding to nearest.** -/
theorem isNearestEven_rounded {p : Nat} (hp : 1 < p) (n : Nat) :
    IsNearestEven p n (rounded p n) := by
  rcases Nat.lt_or_ge n.log2 p with hlog | hlog
  · have hlt : n < 2 ^ p := Nat.lt_log2_self.trans_le (Nat.pow_le_pow_right (by decide) hlog)
    rw [rounded_of_lt hlog]
    exact .self (.of_le (by omega) hlt.le)
  · have hn : n ≠ 0 := by
      rintro rfl
      rw [Nat.log2_zero] at hlog
      omega
    have hlow : 2 ^ (p - 1 + (n.log2 + 1 - p)) ≤ 2 ^ n.log2 :=
      Nat.pow_le_pow_right (by decide) (by omega)
    have hupp : 2 ^ (n.log2 + 1) ≤ 2 ^ (p + (n.log2 + 1 - p)) :=
      Nat.pow_le_pow_right (by decide) (by omega)
    rw [pow_add] at hlow
    rw [pow_add 2 p] at hupp
    exact isNearestEven_mul hp (hlow.trans (Nat.log2_self_le hn))
      (Nat.lt_log2_self.trans_le hupp)

end FixedWidth
