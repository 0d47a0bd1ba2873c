import FixedWidth.Proofs.Order
import FixedWidth.Proofs.Typing

/-!
# Division with remainder

Quotients and remainders leave the two's complement reading for plain binary, so they are those of
the values. Neither is larger than the dividend, so nothing wraps when the quotient is multiplied by
the divisor again and the remainder is added (`Scalar.exists_dividend`). All forms of division
differ in what they report for a zero divisor and in nothing else.
-/

namespace FixedWidth

/-! ### Words -/

namespace Word

variable {v w : Width}

theorem value_nonneg (x : Unsigned w) : 0 ≤ x.value := Int.natCast_nonneg _

theorem value_lt (x : Unsigned w) : x.value < 2 ^ w.bits := by
  rw [value_unsigned]
  exact_mod_cast x.bits.isLt

theorem divided_eq_ok_iff {n : Nat} {x y z : Unsigned w} (h : n ≤ x.toNat) :
    (if y = zero w then Except.error ArithmeticError.divisionByZero else .ok (ofNat _ n)) = .ok z ↔
      y.value ≠ 0 ∧ z.value = n := by
  have hn : (ofNat ⟨.unsigned, w⟩ n).value = n :=
    congrArg Int.ofNat (toNat_ofNat_of_lt (Nat.lt_of_le_of_lt h x.toNat_lt))
  by_cases hy : y = zero w
  · rw [if_pos hy]
    exact ⟨nofun, fun hz => absurd (eq_zero_iff.mp hy) hz.1⟩
  · rw [if_neg hy, Except.ok.injEq, ← value_injective.eq_iff, hn, eq_comm]
    exact (and_iff_right (mt eq_zero_iff.mpr hy)).symm

theorem quotient?_eq_ok_iff {x y z : Unsigned w} :
    x.quotient? y = .ok z ↔ y.value ≠ 0 ∧ z.value = x.value / y.value :=
  divided_eq_ok_iff (Nat.div_le_self x.toNat y.toNat)

theorem remainder?_eq_ok_iff {x y z : Unsigned w} :
    x.remainder? y = .ok z ↔ y.value ≠ 0 ∧ z.value = x.value % y.value :=
  divided_eq_ok_iff (Nat.mod_le x.toNat y.toNat)

theorem div?_eq_ok_iff {x : Unsigned v} {y : Unsigned w} {z : Unsigned (v.common w)} :
    x.div? y = .ok z ↔ y.value ≠ 0 ∧ z.value = x.value / y.value := by
  rw [div?, promoted, quotient?_eq_ok_iff, value_resize_of_le (Width.bits_le_common_left v w),
    value_resize_of_le (Width.bits_le_common_right v w)]

theorem rem?_eq_ok_iff {x : Unsigned v} {y : Unsigned w} {z : Unsigned (v.common w)} :
    x.rem? y = .ok z ↔ y.value ≠ 0 ∧ z.value = x.value % y.value := by
  rw [rem?, promoted, remainder?_eq_ok_iff, value_resize_of_le (Width.bits_le_common_left v w),
    value_resize_of_le (Width.bits_le_common_right v w)]

end Word

namespace Width

theorem common_common_right (v w : Width) : (v.common w).common w = v.common w := by
  cases v <;> cases w <;> rfl

theorem common_common_common (v w : Width) : (v.common w).common (v.common w) = v.common w := by
  cases v <;> cases w <;> rfl

end Width

/-! ### The only failure -/

theorem exists_ok_of_forall_ne {ε α : Type} {o : Except ε α} (h : ∀ e, o ≠ .error e) :
    ∃ z, o = .ok z := by
  cases o with
  | error e => exact absurd rfl (h e)
  | ok z => exact ⟨z, rfl⟩

theorem Operator.exists_apply {v w : Width} {op : Operator} {x : Unsigned v} {y : Unsigned w}
    (h : y.value ≠ 0) : ∃ z, op.apply x y = .ok z :=
  exists_ok_of_forall_ne fun _ he => h (apply_eq_error_iff.mp he).2

theorem InnerOperator.exists_apply {w : Width} {op : InnerOperator} {x y : Unsigned w}
    (h : y.value ≠ 0) : ∃ z, op.apply x y = .ok z :=
  exists_ok_of_forall_ne fun _ he => h (apply_eq_error_iff.mp he).2

/-! ### Scalars -/

namespace Scalar

variable {v w : Width} {f : Fault} {o : Except ArithmeticError (Unsigned w)}
  {g : ArithmeticError → Fault}

theorem mapError_eq_error_iff {P : Prop} (h : ∀ e, o = .error e ↔ P) :
    (o.map ofUnsigned).mapError g = .error f ↔ P ∧ f = g .divisionByZero := by
  cases ho : o with
  | error e =>
    cases e
    have hp : P := (h .divisionByZero).mp ho
    rw [and_iff_right hp]
    exact ⟨fun hf => (Except.error.inj hf).symm, fun hf => hf ▸ rfl⟩
  | ok z =>
    refine ⟨nofun, fun hf => ?_⟩
    have he : o = .error .divisionByZero := (h .divisionByZero).mpr hf.1
    rw [ho] at he
    cases he

theorem binary_eq_error_iff {op : Operator} {x : Unsigned v} {y : Unsigned w} :
    binary op (ofUnsigned x) (ofUnsigned y) = .error f ↔
      (op.divides = true ∧ y.value = 0) ∧ f = .trap .divisionByZero := by
  rw [binary_ofUnsigned]
  exact mapError_eq_error_iff fun e => Operator.apply_eq_error_iff

theorem inner_eq_error_iff {op : InnerOperator} {x y : Unsigned w} :
    inner op (ofUnsigned x) (ofUnsigned y) = .error f ↔
      (op.divides = true ∧ y.value = 0) ∧ f = .arithmetic .divisionByZero := by
  rw [inner_ofUnsigned]
  exact mapError_eq_error_iff fun e => InnerOperator.apply_eq_error_iff

theorem toOption_eq_none_iff {P : Prop} (h : ∀ e, o = .error e ↔ P) : o.toOption = none ↔ P := by
  cases ho : o with
  | error e => exact iff_of_true rfl ((h e).mp ho)
  | ok z =>
    refine iff_of_false nofun fun hp => ?_
    have he : o = .error .divisionByZero := (h .divisionByZero).mpr hp
    rw [ho] at he
    cases he

theorem exists_division (x : Unsigned v) {y : Unsigned w} (h : y.value ≠ 0) :
    ∃ q r : Unsigned (v.common w),
      binary .div (ofUnsigned x) (ofUnsigned y) = .ok (ofUnsigned q) ∧
      binary .rem (ofUnsigned x) (ofUnsigned y) = .ok (ofUnsigned r) ∧
      q.value = x.value / y.value ∧ r.value = x.value % y.value := by
  obtain ⟨q, hq⟩ : ∃ q, Operator.div.apply x y = .ok q := Operator.exists_apply h
  obtain ⟨r, hr⟩ : ∃ r, Operator.rem.apply x y = .ok r := Operator.exists_apply h
  exact ⟨q, r, binary_eq_ok hq, binary_eq_ok hr, (Word.div?_eq_ok_iff.mp hq).2,
    (Word.rem?_eq_ok_iff.mp hr).2⟩

theorem yields_div (x : Unsigned v) {y : Unsigned w} (h : y.value ≠ 0) :
    Yields (binary .div (ofUnsigned x) (ofUnsigned y)) ⟨.unsigned, v.common w⟩
      (x.value / y.value) := by
  obtain ⟨q, -, hq, -, hqv, -⟩ := exists_division x h
  exact ⟨_, hq, rfl, hqv⟩

theorem Yields.exists_word {outcome : Except Fault Scalar} {i : Int}
    (h : Yields outcome ⟨.unsigned, w⟩ i) :
    ∃ z : Unsigned w, outcome = .ok (ofUnsigned z) ∧ z.value = i := by
  obtain ⟨⟨k, z⟩, rfl, hk, hz⟩ := h
  subst hk
  exact ⟨z, rfl, hz⟩

theorem yields_binary_of_common {t : Width} (h : v.common w = t) (op : ModularOperator)
    (x : Unsigned v) (y : Unsigned w) :
    Yields (binary op.toOperator (ofUnsigned x) (ofUnsigned y)) ⟨.unsigned, t⟩
      (op.onValues t.bits x.toNat y.toNat) :=
  h ▸ yields_binary op x y

/-- **The dividend comes back**: neither the product nor its sum with the remainder is larger than
it. -/
theorem exists_dividend {x : Unsigned v} {y : Unsigned w} {q r : Unsigned (v.common w)}
    (h : q.value * y.value + r.value = x.value) :
    ∃ p s : Unsigned (v.common w),
      binary .mul (ofUnsigned q) (ofUnsigned y) = .ok (ofUnsigned p) ∧
      binary .add (ofUnsigned p) (ofUnsigned r) = .ok (ofUnsigned s) ∧
      p.value = q.value * y.value ∧ s.value = x.value := by
  have hp0 : 0 ≤ q.value * y.value := Int.mul_nonneg q.value_nonneg y.value_nonneg
  have hr0 := r.value_nonneg
  have hx : x.value < 2 ^ (v.common w).bits := by
    rw [← Word.value_resize_of_le (Width.bits_le_common_left v w) x]
    exact Word.value_lt _
  have hmul : Yields (binary .mul (ofUnsigned q) (ofUnsigned y)) ⟨.unsigned, v.common w⟩
      (q.value * y.value % 2 ^ (v.common w).bits) :=
    yields_binary_of_common (Width.common_common_right v w) .mul q y
  rw [Int.emod_eq_of_lt hp0 (by omega)] at hmul
  obtain ⟨p, hp, hpv⟩ := hmul.exists_word
  have hsum : p.value + r.value = x.value := by rw [hpv, h]
  have hadd : Yields (binary .add (ofUnsigned p) (ofUnsigned r)) ⟨.unsigned, v.common w⟩
      ((p.value + r.value) % 2 ^ (v.common w).bits) :=
    yields_binary_of_common (Width.common_common_common v w) .add p r
  rw [hsum, Int.emod_eq_of_lt x.value_nonneg hx] at hadd
  obtain ⟨s, hs, hsv⟩ := hadd.exists_word
  exact ⟨p, s, hp, hs, hpv, hsv⟩

theorem division_unique {x : Unsigned v} {y : Unsigned w} {q r : Unsigned (v.common w)}
    (h : y.value ≠ 0) (hq : q.value = x.value / y.value) (hr : r.value = x.value % y.value)
    (c d : Unsigned (v.common w)) :
    c.value * y.value + d.value = x.value ∧ d.value < y.value ↔
      ofUnsigned c = ofUnsigned q ∧ ofUnsigned d = ofUnsigned r := by
  have hinj {z z' : Unsigned (v.common w)} : ofUnsigned z = ofUnsigned z' ↔ z'.value = z.value := by
    simp [ofUnsigned, ← Word.value_injective.eq_iff, eq_comm]
  have hy : 0 < y.value := lt_of_le_of_ne y.value_nonneg h.symm
  rw [hinj, hinj, hq, hr, Int.ediv_emod_unique hy, mul_comm, add_comm]
  exact and_congr_right fun _ => (and_iff_right d.value_nonneg).symm

theorem exists_inner_division (x : Unsigned w) {y : Unsigned w} (h : y.value ≠ 0) :
    ∃ q r : Unsigned w, x.quotient? y = .ok q ∧ x.remainder? y = .ok r ∧
      inner .quotient (ofUnsigned x) (ofUnsigned y) = .ok (ofUnsigned q) ∧
      inner .remainder (ofUnsigned x) (ofUnsigned y) = .ok (ofUnsigned r) ∧
      q.value = x.value / y.value ∧ r.value = x.value % y.value := by
  obtain ⟨q, hq⟩ : ∃ q, InnerOperator.quotient.apply x y = .ok q := InnerOperator.exists_apply h
  obtain ⟨r, hr⟩ : ∃ r, InnerOperator.remainder.apply x y = .ok r := InnerOperator.exists_apply h
  exact ⟨q, r, hq, hr, inner_eq_ok hq, inner_eq_ok hr, (Word.quotient?_eq_ok_iff.mp hq).2,
    (Word.remainder?_eq_ok_iff.mp hr).2⟩

/-- At a closed width the operators give what the operations inside the kind give. -/
theorem binary_eq_of_closed {op : Operator} {x y z : Unsigned w} (hw : w.isClosed)
    {i : Int} (hi : Yields (binary op (ofUnsigned x) (ofUnsigned y)) ⟨.unsigned, w.common w⟩ i)
    (hz : z.value = i) : binary op (ofUnsigned x) (ofUnsigned y) = .ok (ofUnsigned z) := by
  have : w.Closed := ⟨hw⟩
  rw [w.common_self] at hi
  exact hi.eq (yields_ofUnsigned hz)

/-- **Division with remainder.** The operators trap exactly on a zero divisor, and else find the
only two numbers that give the dividend back; all forms of division agree. -/
theorem division_with_remainder (x x' : Unsigned v) (y : Unsigned w) :
    let a := ofUnsigned x
    let a' := ofUnsigned x'
    let b := ofUnsigned y
    let k : Kind := ⟨.unsigned, v.common w⟩
    (∀ op ∈ [Operator.div, .rem], ∀ f,
      binary op a b = .error f ↔ b.value = 0 ∧ f = .trap .divisionByZero) ∧
    (b.value ≠ 0 → ∃ q r p s, binary .div a b = .ok q ∧ binary .rem a b = .ok r ∧
      binary .mul q b = .ok p ∧ binary .add p r = .ok s ∧
      Kind.common? a.kind b.kind = some k ∧ (∀ c ∈ [q, r, p, s], c.kind = k) ∧
      p.value = q.value * b.value ∧ s.value = p.value + r.value ∧
      s.typedEq? a = some true ∧ r.typedOrder b = .ok .lt ∧
      ∀ c d : Unsigned (v.common w), c.value * b.value + d.value = a.value ∧ d.value < b.value ↔
        ofUnsigned c = q ∧ ofUnsigned d = r) ∧
    (∀ op ∈ [InnerOperator.quotient, .remainder], ∀ f,
      inner op a a' = .error f ↔ a'.value = 0 ∧ f = .arithmetic .divisionByZero) ∧
    (a'.value ≠ 0 → ∃ q r q' r', inner .quotient a a' = .ok q ∧ inner .remainder a a' = .ok r ∧
      binary .div a a' = .ok q' ∧ binary .rem a a' = .ok r' ∧
      q.kind = a.kind ∧ r.kind = a.kind ∧ q.value = q'.value ∧ r.value = r'.value) ∧
    (v.isClosed = true → a.closedOperands a' = .ok ⟨v, x, x'⟩ ∧
      ((x.quotient? x').toOption = none ↔ a'.value = 0) ∧
      ((x.remainder? x').toOption = none ↔ a'.value = 0) ∧
      (a'.value ≠ 0 → ∃ q r, (x.quotient? x').toOption = some q ∧
        (x.remainder? x').toOption = some r ∧
        binary .div a a' = .ok (ofUnsigned q) ∧ binary .rem a a' = .ok (ofUnsigned r))) := by
  intro a a' b k
  refine ⟨?_, fun (hy : y.value ≠ 0) => ?_, ?_, fun (hx' : x'.value ≠ 0) => ?_,
    fun hv => ⟨?_, ?_, ?_, fun (hx' : x'.value ≠ 0) => ?_⟩⟩
  · intro op hop f
    have hdivides : ∀ op ∈ [Operator.div, .rem], op.divides = true := by decide
    rw [binary_eq_error_iff, and_iff_right (hdivides op hop)]
    rfl
  · obtain ⟨q, r, hq, hr, hqv, hrv⟩ := exists_division x hy
    have hdividend : q.value * y.value + r.value = x.value := by
      rw [hqv, hrv, Int.ediv_mul_add_emod]
    have hlt : r.value < y.value :=
      hrv ▸ Int.emod_lt_of_pos _ (lt_of_le_of_ne y.value_nonneg hy.symm)
    obtain ⟨p, s, hp, hs, hpv, hsv⟩ := exists_dividend hdividend
    have hsum : s.value = p.value + r.value := by rw [hsv, hpv, hdividend]
    have hsx : (ofUnsigned s).typedEq? a = some true :=
      typedEq?_eq_some_iff.mpr ⟨fun h => Domain.noConfusion h.1, (decide_eq_true hsv).symm⟩
    exact ⟨_, _, _, _, hq, hr, hp, hs, rfl, by simp [ofUnsigned, k], hpv, hsum, hsx,
      typedOrder_eq_ok_iff.mpr hlt, division_unique hy hqv hrv⟩
  · intro op hop f
    have hdivides : ∀ op ∈ [InnerOperator.quotient, .remainder], op.divides = true := by decide
    rw [inner_eq_error_iff, and_iff_right (hdivides op hop)]
    rfl
  · obtain ⟨q, r, -, -, hq, hr, hqv, hrv⟩ := exists_inner_division x hx'
    obtain ⟨q', r', hq', hr', hqv', hrv'⟩ := exists_division x hx'
    exact ⟨_, _, _, _, hq, hr, hq', hr', rfl, rfl, hqv.trans hqv'.symm, hrv.trans hrv'.symm⟩
  · have hword : (ofUnsigned x').word? ⟨.unsigned, v⟩ = some x' := word?_kind (ofUnsigned x')
    simp only [ofUnsigned] at hword
    simp only [closedOperands, a, a', ofUnsigned, hword, hv, if_true]
  · exact toOption_eq_none_iff fun e => Word.quotient?_eq_error_iff.trans Word.eq_zero_iff
  · exact toOption_eq_none_iff fun e => Word.remainder?_eq_error_iff.trans Word.eq_zero_iff
  · obtain ⟨q, r, hq, hr, -, -, hqv, hrv⟩ := exists_inner_division x hx'
    obtain ⟨q', r', hq', hr', hqv', hrv'⟩ := exists_division x hx'
    refine ⟨q, r, by rw [hq]; rfl, by rw [hr]; rfl, ?_, ?_⟩
    · exact binary_eq_of_closed hv ⟨_, hq', rfl, hqv'⟩ hqv
    · exact binary_eq_of_closed hv ⟨_, hr', rfl, hrv'⟩ hrv

theorem division_with_remainder_greatest :
    let x : Unsigned .w64 := Word.greatest _
    let x' : Unsigned .w64 := Word.ofNat _ 9223372036854775808
    let y : Unsigned .w8 := Word.ofNat _ 200
    let a := ofUnsigned x
    let b := ofUnsigned y
    b.value ≠ 0 ∧ (ofUnsigned x').value ≠ 0 ∧ Width.isClosed .w64 = true ∧
      Operator.rem ∈ [Operator.div, .rem] ∧
      InnerOperator.quotient ∈ [InnerOperator.quotient, .remainder] ∧
      binary .rem a (ofUnsigned (Word.zero .w16)) = .error (.trap .divisionByZero) ∧
      inner .quotient a (ofUnsigned x') ≠ .error (.arithmetic .divisionByZero) ∧
      (∃ q r p s, binary .div a b = .ok q ∧ binary .rem a b = .ok r ∧ binary .mul q b = .ok p ∧
        binary .add p r = .ok s ∧ s.typedEq? a = some true ∧ r.typedOrder b = .ok .lt) ∧
      (∃ q, (x.quotient? x').toOption = some q ∧
        binary .div a (ofUnsigned x') = .ok (ofUnsigned q)) := by
  intro x x' y a b
  have hb : b.value ≠ 0 := by decide
  have hx' : (ofUnsigned x').value ≠ 0 := by decide
  have hw : Width.isClosed .w64 = true := by decide
  have hrem : Operator.rem ∈ [Operator.div, .rem] := by decide
  have hquotient : InnerOperator.quotient ∈ [InnerOperator.quotient, .remainder] := by decide
  obtain ⟨htrap, -⟩ := division_with_remainder x x' (Word.zero .w16)
  obtain ⟨-, hback, hreport, -, hchecked⟩ := division_with_remainder x x' y
  obtain ⟨q, r, p, s, hq, hr, hp, hs, -, -, -, -, heq, hlt, -⟩ := hback hb
  obtain ⟨-, -, -, hsome⟩ := hchecked hw
  obtain ⟨q', -, hq', -, hdiv, -⟩ := hsome hx'
  exact ⟨hb, hx', hw, hrem, hquotient, (htrap _ hrem _).mpr ⟨by decide, rfl⟩,
    fun h => hx' ((hreport _ hquotient _).mp h).1, ⟨q, r, p, s, hq, hr, hp, hs, heq, hlt⟩,
    ⟨q', hq', hdiv⟩⟩

end Scalar

end FixedWidth
