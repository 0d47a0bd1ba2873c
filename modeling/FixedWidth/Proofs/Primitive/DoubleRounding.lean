import FixedWidth.Proofs.Primitive.Rounding

/-!
# Rounding twice

Let `n` be rounded to `d` of `q` significant bits, and `d` to `f` of fewer bits, `p`. Rounding `n`
to `p` bits at once can lead to another number `r`. Then no number of `p` bits lies between `f` and
`r`: it would be one of `q` bits as well, and the first rounding would not have gone past it. The
midpoint of the two has just one bit more, so the first rounding does not go past the midpoint
either, and it has to end there. From there ties to even decide, and they decide for `f`, although
`n` lies on the side of `r`.
-/

namespace FixedWidth

variable {p q n d f r a b m s : Nat}

theorem dist_le_dist_iff :
    Nat.dist n a ≤ Nat.dist n b ↔ (a < b → 2 * n ≤ a + b) ∧ (b < a → a + b ≤ 2 * n) := by
  simp only [Nat.dist]
  omega

theorem dist_eq_dist_of_half (h : a + b = 2 * n) : Nat.dist n a = Nat.dist n b := by
  simp only [Nat.dist]
  omega

/-! ### Neighbours -/

theorem FitsBits.mono (h : FitsBits p n) (hpq : p ≤ q) : FitsBits q n := by
  obtain ⟨m, e, hm, rfl⟩ := h
  exact ⟨m, e, hm.trans_le (Nat.pow_le_pow_right (by decide) hpq), rfl⟩

theorem FitsBits.mul_two_pow (h : FitsBits p n) (s : Nat) : FitsBits p (n * 2 ^ s) := by
  obtain ⟨m, e, hm, rfl⟩ := h
  exact ⟨m, e + s, hm, by rw [Nat.mul_assoc, ← pow_add]⟩

/-- Two numbers of `p` significant bits without a third one between them. -/
structure Neighbours (p a b : Nat) : Prop where
  left : FitsBits p a
  right : FitsBits p b
  ne : a ≠ b
  none_between : ∀ c, FitsBits p c → c ≤ min a b ∨ max a b ≤ c

theorem Neighbours.symm (h : Neighbours p a b) : Neighbours p b a where
  left := h.right
  right := h.left
  ne := h.ne.symm
  none_between c hc := by
    rw [min_comm, max_comm]
    exact h.none_between c hc

theorem neighbours_mul (hl : 2 ^ (p - 1) ≤ m) (hu : m < 2 ^ p) (hp : 0 < p) (s : Nat) :
    Neighbours p (m * 2 ^ s) ((m + 1) * 2 ^ s) := by
  have hlt : m * 2 ^ s < (m + 1) * 2 ^ s :=
    Nat.mul_lt_mul_of_pos_right (Nat.lt_succ_self m) (Nat.two_pow_pos s)
  refine ⟨⟨m, s, hu, rfl⟩, (FitsBits.of_le hp hu).mul_two_pow s, hlt.ne, fun c hc => ?_⟩
  rw [min_eq_left hlt.le, max_eq_right hlt.le]
  rcases hc.exists_mul_or_lt s hp with ⟨k, rfl⟩ | hc
  · rcases Nat.lt_or_ge m k with hk | hk
    · exact .inr (Nat.mul_le_mul_right _ hk)
    · exact .inl (Nat.mul_le_mul_right _ hk)
  · exact .inl (hc.le.trans (Nat.mul_le_mul_right _ hl))

theorem FitsBits.exists_normal (h : FitsBits p n) (hp : 0 < p) (hn : 2 ^ p ≤ n) :
    ∃ m s, 2 ^ (p - 1) ≤ m ∧ m < 2 ^ p ∧ n = m * 2 ^ (s + 1) := by
  have hne : n ≠ 0 := ((Nat.two_pow_pos p).trans_le hn).ne'
  obtain ⟨s, hs⟩ := Nat.exists_eq_add_of_le ((Nat.le_log2 hne).mpr hn)
  have hlow : 2 ^ (p - 1) * 2 ^ (s + 1) ≤ n := by
    rw [← pow_add, ← Nat.add_assoc, Nat.add_right_comm, Nat.sub_add_cancel hp, ← hs]
    exact Nat.log2_self_le hne
  have hupp : n < 2 ^ p * 2 ^ (s + 1) := by
    rw [← pow_add, ← Nat.add_assoc, ← hs]
    exact Nat.lt_log2_self
  rcases h.exists_mul_or_lt (s + 1) hp with ⟨m, rfl⟩ | hlt
  · exact ⟨m, s, Nat.le_of_mul_le_mul_right hlow (Nat.two_pow_pos _),
      Nat.lt_of_mul_lt_mul_right hupp, rfl⟩
  · exact absurd hlow hlt.not_ge

/-- **The midpoint of neighbours** needs one bit more. -/
theorem Neighbours.half (h : Neighbours p a b) (hp : 0 < p) :
    max a b = min a b + 1 ∨ ∃ c, FitsBits (p + 1) c ∧ a + b = 2 * c := by
  wlog hab : a < b generalizing a b with hsymm
  · have hba := hsymm h.symm (h.ne.symm.lt_of_le (Nat.le_of_not_lt hab))
    rwa [max_comm, min_comm, Nat.add_comm b a] at hba
  rcases Nat.lt_or_ge a (2 ^ p) with ha | ha
  · have hnext := h.none_between (a + 1) (.of_le hp ha)
    omega
  · obtain ⟨m, s, hl, hu, rfl⟩ := h.left.exists_normal hp ha
    -- the number with the next significand is a neighbour as well, and there is only one above
    have hm := neighbours_mul hl hu hp (s + 1)
    have hb := hm.none_between b h.right
    have hm' := h.none_between _ hm.right
    have hlt : m * 2 ^ (s + 1) < (m + 1) * 2 ^ (s + 1) :=
      Nat.mul_lt_mul_of_pos_right (Nat.lt_succ_self m) (Nat.two_pow_pos _)
    obtain rfl : b = (m + 1) * 2 ^ (s + 1) := by omega
    refine .inr ⟨(2 * m + 1) * 2 ^ s, ⟨2 * m + 1, s, ?_, rfl⟩, by ring⟩
    rw [pow_succ]
    omega

/-! ### Where the two ways part -/

/-- The number `d` lies halfway between `a` and a neighbour `b`, the significand of `a` is even, and
`n` lies on the side of `b`. -/
structure Misleads (p d n a b : Nat) : Prop where
  neighbours : Neighbours p a b
  half : a + b = 2 * d
  even : ∃ m, IsSignificand p m a ∧ Even m
  side : a < d ∧ d < n ∨ n < d ∧ d < a

section Twice

variable (hpq : p < q) (hd : IsNearestEven q n d) (hf : IsNearestEven p d f)
  (hr : IsNearestEven p n r)

include hpq hd hf hr

theorem neighbours_of_ne (hne : f ≠ r) : Neighbours p f r := by
  refine ⟨hf.fits, hr.fits, hne, fun c hc => ?_⟩
  have hdc := hd.dist_le c (hc.mono hpq.le)
  have hfc := hf.dist_le c hc
  have hrc := hr.dist_le c hc
  -- a number between `f` and `r` would lie between `d` and `n` as well, and so nearer to `n`
  rw [dist_le_dist_iff] at hdc hfc hrc
  omega

variable (hp : 0 < p)

include hp

theorem half_of_ne (hne : f ≠ r) : f + r = 2 * d := by
  have hfr := hf.dist_le r hr.fits
  have hrf := hr.dist_le f hf.fits
  -- `d` lies on the side of `f` and `n` on that of `r`, or in the middle
  rcases (neighbours_of_ne hpq hd hf hr hne).half hp with hnext | ⟨c, hc, hsum⟩
  · have hdr := hd.dist_le r (hr.fits.mono hpq.le)
    rw [dist_le_dist_iff] at hfr hrf hdr
    omega
  · have hdc := hd.dist_le c (hc.mono hpq)
    rw [dist_le_dist_iff] at hfr hrf hdc
    omega

/-- **Where the two ways part**, the first rounding misleads. -/
theorem misleads_of_ne (hne : f ≠ r) : Misleads p d n f r := by
  have hhalf := half_of_ne hpq hd hf hr hp hne
  have htie : Nat.dist d r = Nat.dist d f := (dist_eq_dist_of_half hhalf).symm
  refine ⟨neighbours_of_ne hpq hd hf hr hne, hhalf, (hf.even_of_tie r hr.fits hne.symm htie).1, ?_⟩
  have hnd : n ≠ d := by
    rintro rfl
    exact hne (hf.unique hp hr)
  have hrf := hr.dist_le f hf.fits
  rw [dist_le_dist_iff] at hrf
  omega

/-- **Where the first rounding misleads**, the two ways part, into the two neighbours. -/
theorem Misleads.eq_of_nearest (h : Misleads p d n a b) : f = a ∧ r = b := by
  have hne := h.neighbours.ne
  have hhalf := h.half
  have hfb : f ≠ b := by
    rintro rfl
    -- both neighbours are as near to the midpoint, so the significand of the other would be odd
    have htie : Nat.dist d a = Nat.dist d f := dist_eq_dist_of_half h.half
    obtain ⟨-, m, hm, hodd⟩ := hf.even_of_tie a h.neighbours.left hne htie
    obtain ⟨m', hm', heven⟩ := h.even
    rw [hm'.unique hp hm] at heven
    exact Nat.not_even_iff_odd.mpr hodd heven
  constructor
  · have hgap := h.neighbours.none_between f hf.fits
    have hfa := hf.dist_le a h.neighbours.left
    rw [dist_le_dist_iff] at hfa
    omega
  · have hgap := h.neighbours.none_between r hr.fits
    have hrb := hr.dist_le b h.neighbours.right
    -- the first rounding does not go past `b`, so neither is `n` beyond it
    have hdb := hd.dist_le b (h.neighbours.right.mono hpq.le)
    rw [dist_le_dist_iff] at hrb hdb
    rcases h.side with ⟨had, hdn⟩ | ⟨hnd, hda⟩ <;> omega

end Twice

end FixedWidth
