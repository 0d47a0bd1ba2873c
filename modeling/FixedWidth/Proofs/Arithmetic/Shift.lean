import FixedWidth.Proofs.Arithmetic.Division

/-!
# Shifts are products and quotients by powers of two

Right shifts leave the two's complement reading for plain binary, so nothing of the top bit is
repeated. The count is taken modulo the width at which the shift works. Across kinds it passes
through 32 bits first, which does not show, since every width divides `2 ^ 32`
(`Word.toNat_shiftCount_mod`).
-/

namespace FixedWidth

namespace Width

theorem bits_dvd (w : Width) : w.bits ∣ 2 ^ 32 := by
  cases w <;> decide

theorem common_self_common (v : Width) : v.common (v.common v) = v.common v := by
  cases v <;> rfl

theorem bits_common_self (v : Width) : (v.common v).bits = if v = .w64 then 64 else 32 := by
  cases v <;> rfl

end Width

namespace Word

variable {v w : Width}

/-! ### Inside one width -/

theorem toNat_shiftLeft (x : Unsigned w) (count : Unsigned .w32) :
    (x.shiftLeft count).toNat = x.toNat * 2 ^ (count.toNat % w.bits) % 2 ^ w.bits := by
  rw [← Nat.shiftLeft_eq]
  exact BitVec.toNat_shiftLeft

theorem toNat_shiftRight (x : Unsigned w) (count : Unsigned .w32) :
    (x.shiftRight count).toNat = x.toNat / 2 ^ (count.toNat % w.bits) := by
  rw [shiftRight, Nat.shiftRight_eq_div_pow]
  exact toNat_ofNat_of_lt (Nat.lt_of_le_of_lt (Nat.div_le_self _ _) x.toNat_lt)

theorem getLsbD_shiftRight (x : Unsigned w) (count : Unsigned .w32) (i : Nat) :
    (x.shiftRight count).bits.getLsbD i = x.bits.getLsbD (count.toNat % w.bits + i) := by
  have h : (x.shiftRight count).bits = x.bits >>> (count.toNat % w.bits) := by
    refine BitVec.eq_of_toNat_eq ((toNat_shiftRight x count).trans ?_)
    rw [BitVec.toNat_ushiftRight, Nat.shiftRight_eq_div_pow]
    rfl
  rw [h, BitVec.getLsbD_ushiftRight]

theorem toInt_shiftRight_nonneg (x : Unsigned w) {count : Unsigned .w32}
    (h : 0 < count.toNat % w.bits) : 0 ≤ (x.shiftRight count).toInt := by
  have hhalf : (x.shiftRight count).toNat ≤ x.toNat / 2 := by
    rw [toNat_shiftRight]
    exact Nat.div_le_div_left (Nat.le_self_pow h.ne' 2) (by decide)
  have hx : x.toNat < 2 ^ w.bits := x.bits.isLt
  have hint : (x.shiftRight count).toInt = (x.shiftRight count).toNat :=
    BitVec.toInt_eq_toNat_of_lt (show 2 * (x.shiftRight count).toNat < 2 ^ w.bits by omega)
  rw [hint]
  exact Int.natCast_nonneg _

/-! ### Across kinds -/

theorem toNat_resize (x : Unsigned v) : (x.resize w).toNat = x.toNat % 2 ^ w.bits :=
  (congrArg BitVec.toNat (bits_resize w x)).trans (BitVec.toNat_setWidth ..)

/-- A count modulo a width does not notice that it is cut to 32 bits. -/
theorem toNat_shiftCount_mod (y : Unsigned w) (v : Width) :
    y.shiftCount.toNat % v.bits = y.toNat % v.bits := by
  have h : y.shiftCount.toNat = y.toNat % 2 ^ 32 := BitVec.toNat_ofNat y.toNat 32
  rw [h, Nat.mod_mod_of_dvd _ v.bits_dvd]

theorem toNat_shl (x : Unsigned v) (y : Unsigned w) :
    (x.shl y).toNat =
      x.toNat * 2 ^ (y.toNat % (v.common v).bits) % 2 ^ (v.common v).bits := by
  rw [shl, toNat_shiftLeft, toNat_resize_of_le (Width.bits_le_common_left v v),
    toNat_shiftCount_mod]

theorem toNat_shr (x : Unsigned v) (y : Unsigned w) :
    (x.shr y).toNat = x.toNat / 2 ^ (y.toNat % (v.common v).bits) := by
  rw [shr, toNat_shiftRight, toNat_resize_of_le (Width.bits_le_common_left v v),
    toNat_shiftCount_mod]

theorem toNat_one_shl (h : v.common v = v) (y : Unsigned w) :
    ((one v).shl y).toNat = 2 ^ (y.toNat % v.bits) := by
  have hone : (one v).toNat = 1 := by
    cases v <;> rfl
  have hlt : 2 ^ (y.toNat % v.bits) < 2 ^ v.bits :=
    Nat.pow_lt_pow_right (by decide) (Nat.mod_lt _ v.bits_pos)
  rw [toNat_shl, h, hone, Nat.one_mul, Nat.mod_eq_of_lt hlt]

/-- A count below the width shifts in the same way at any larger width, as far as the bits go. -/
theorem resize_shl (x : Unsigned v) {y : Unsigned w} {count : Unsigned .w32}
    (hcount : count.toNat < v.bits) (hy : y.toNat = count.toNat) :
    (x.shl y).resize v = x.shiftLeft count := by
  have hle := Width.bits_le_common_left v v
  refine ext_toNat ?_
  rw [toNat_resize, toNat_shl, toNat_shiftLeft, hy, Nat.mod_eq_of_lt hcount,
    Nat.mod_eq_of_lt (Nat.lt_of_lt_of_le hcount hle), Nat.mod_mod_of_dvd _ (Nat.pow_dvd_pow 2 hle)]

end Word

namespace Scalar

variable {v w : Width}

/-- The powers of two by which shifts multiply and divide are the shifts of one. -/
theorem exists_power (x : Unsigned v) (y : Unsigned w) :
    ∃ power, binary .shl (ofUnsigned (Word.one (v.common v))) (ofUnsigned y) = .ok power ∧
      power.value ≠ 0 ∧
      binary .shl (ofUnsigned x) (ofUnsigned y) = binary .mul (ofUnsigned x) power ∧
      binary .shr (ofUnsigned x) (ofUnsigned y) = binary .div (ofUnsigned x) power := by
  have hself : (v.common v).common (v.common v) = v.common v := by
    rw [Width.common_assoc, Width.common_self_common, Width.common_self_common]
  have hwidth : v.common ((v.common v).common (v.common v)) = v.common v := by
    rw [hself, Width.common_self_common]
  have hpower := Word.toNat_one_shl hself y
  have hne : ((Word.one (v.common v)).shl y).toNat ≠ 0 := by
    rw [hpower]
    exact (Nat.two_pow_pos _).ne'
  refine ⟨_, rfl, Int.natCast_ne_zero.mpr hne, ?_, ?_⟩
  · have hshl : Yields (binary .shl (ofUnsigned x) (ofUnsigned y)) ⟨.unsigned, v.common v⟩ _ :=
      yields_ofUnsigned_toNat (x.toNat_shl y)
    have hmul := yields_binary .mul x ((Word.one (v.common v)).shl y)
    rw [hpower, hwidth, ModularOperator.onValues] at hmul
    push_cast at hshl hmul
    exact hshl.eq hmul
  · have hshr : Yields (binary .shr (ofUnsigned x) (ofUnsigned y)) ⟨.unsigned, v.common v⟩ _ :=
      yields_ofUnsigned_toNat (x.toNat_shr y)
    have hdiv := yields_div x (y := (Word.one (v.common v)).shl y) (Int.natCast_ne_zero.mpr hne)
    rw [Word.value_unsigned, Word.value_unsigned, hpower, hwidth] at hdiv
    push_cast at hshr hdiv
    exact hshr.eq hdiv

/-- **Shifts** multiply and divide by powers of two: across kinds at the common width of the left
operand with itself, inside a kind at its own. No sign comes in from above. -/
theorem yields_shift (x : Unsigned v) (y : Unsigned w) (count : Unsigned .w32) :
    let a := ofUnsigned x
    let b := ofUnsigned y
    let k : Kind := ⟨.unsigned, v.common v⟩
    let m := count.toNat % v.bits
    (Kind.common? a.kind a.kind = some k ∧ k.bits = (if v = .w64 then 64 else 32) ∧
      Yields (binary .shl a b) k (x.value * 2 ^ (y.toNat % k.bits) % 2 ^ k.bits) ∧
      Yields (binary .shr a b) k (x.value / 2 ^ (y.toNat % k.bits)) ∧
      ∃ power, binary .shl (ofUnsigned (Word.one k.width)) b = .ok power ∧ power.value ≠ 0 ∧
        binary .shl a b = binary .mul a power ∧ binary .shr a b = binary .div a power) ∧
    Yields (shift .left a count) a.kind (x.value * 2 ^ m % 2 ^ v.bits) ∧
    Yields (shift .right a count) a.kind (x.value / 2 ^ m) ∧
    (∀ c, shift .right a count = .ok c → (0 < m → 0 ≤ c.word.toInt) ∧
      ∀ i, c.word.bits.getLsbD i = (decide (m + i < v.bits) && x.bits.getLsbD (m + i))) ∧
    (count.toNat < v.bits → y.toNat = count.toNat →
      binary .shl a b >>= cast a.kind = shift .left a count) := by
  intro a b k m
  refine ⟨⟨rfl, v.bits_common_self, ?_, ?_, exists_power x y⟩, ?_, ?_, ?_, ?_⟩
  · have hshl := yields_ofUnsigned_toNat (x.toNat_shl y)
    push_cast at hshl
    exact hshl
  · have hshr := yields_ofUnsigned_toNat (x.toNat_shr y)
    push_cast at hshr
    exact hshr
  · have hleft := yields_ofUnsigned_toNat (x.toNat_shiftLeft count)
    push_cast at hleft
    exact hleft
  · have hright := yields_ofUnsigned_toNat (x.toNat_shiftRight count)
    push_cast at hright
    exact hright
  · intro c hc
    obtain rfl := Except.ok.inj hc
    refine ⟨fun hm => x.toInt_shiftRight_nonneg hm,
      fun i => (x.getLsbD_shiftRight count i).trans ?_⟩
    by_cases hi : m + i < v.bits
    · rw [decide_eq_true hi, Bool.true_and]
    · rw [decide_eq_false hi, Bool.false_and]
      exact BitVec.getLsbD_of_ge _ _ (Nat.not_lt.mp hi)
  · intro hcount hy
    have hcast : cast a.kind (ofUnsigned (x.shl y)) = .ok (ofUnsigned (x.shiftLeft count)) := by
      rw [cast_eq_ok_iff, ← x.resize_shl hcount hy]
      exact ⟨Kind.converts_of_unsigned rfl, rfl⟩
    exact hcast

/-- The word 200 has its top bit set, and a shift to the right lets in no sign. -/
theorem yields_shift_top_bit :
    let x : Unsigned .w8 := Word.ofNat _ 200
    let three : Unsigned .w32 := Word.ofNat _ 3
    three.toNat < Width.w8.bits ∧
      (binary .shl (ofUnsigned x) (ofUnsigned three) >>= cast ⟨.unsigned, .w8⟩) =
        shift .left (ofUnsigned x) three ∧
      (∀ c, shift .right (ofUnsigned x) three = .ok c → 0 ≤ c.word.toInt) ∧
      Yields (binary .shl (ofUnsigned x) (ofUnsigned (Word.ofNat ⟨.unsigned, .w64⟩ 4294967297)))
        ⟨.unsigned, .w32⟩ 400 := by
  intro x three
  have hlt : three.toNat < Width.w8.bits := by decide
  obtain ⟨-, -, -, hright, hleft⟩ := yields_shift x three three
  obtain ⟨⟨-, -, hshl, -⟩, -⟩ := yields_shift x (Word.ofNat ⟨.unsigned, .w64⟩ 4294967297) three
  exact ⟨hlt, hleft hlt rfl, fun c hc => (hright c hc).1 (by decide), hshl⟩

end Scalar

end FixedWidth
