import FixedWidth.Proofs.Conversion.Reduction
import FixedWidth.Proofs.Program.Run

/-!
# The ways to convert agree

A cast exists for the sources that its target lists, a widening for the targets that its source
lists, reading the bits in the other domain exists for all kinds, and the conversion of scalars asks
for a class. The lists turn out to be the classes (`Kind.mem_castSources_iff`,
`Width.mem_wider_iff`), and each result is the residue of the operand's value, so wherever two of
the ways exist they lead to the same scalar. In a program one can stand for the other, since a step
that fails leaves the registers alone (`Step.registers_cast_eq_convert`).
-/

namespace FixedWidth

/-! ### The lists of sources and targets -/

theorem Kind.mem_castSources_iff {s t : Kind} : s ∈ t.castSources ↔ s.Converts t := by
  obtain ⟨_ | _, _ | _ | _ | _⟩ := s <;> obtain ⟨_ | _, _ | _ | _ | _⟩ := t <;> decide

theorem Width.mem_wider_iff {v w : Width} : w ∈ v.wider ↔ v.bits < w.bits := by
  cases v <;> cases w <;> decide

theorem Kind.range_subset_of_unsigned {s t : Kind} (hs : s.domain = .unsigned)
    (h : s.bits < t.bits) : s.range ⊆ t.range := by
  refine conversion?_mem_iff.mp ?_
  rw [conversion?, if_neg (Nat.lt_asymm h), if_neg h.ne, hs]
  exact List.mem_cons_of_mem _ List.mem_cons_self

/-! ### Words -/

namespace Word

variable {k : Kind} {w : Width}

theorem ofNat_toNat_eq_ofCarrier (t : Kind) (x : Unsigned w) :
    ofNat t x.toNat = ofCarrier t x.carrier := by
  have hn : t.IsResidue (ofNat t x.toNat).value x.value := isResidue_ofNat t x.toNat
  have hc : t.IsResidue (ofCarrier t x.carrier).value x.value := isResidue_ofCarrier t x
  exact value_injective (hn.unique hc)

theorem ofCarrier_dual_carrier (x : Word k) : ofCarrier k.dual x.carrier = x.dual :=
  congrArg dual x.ofCarrier_carrier

/-- The two readings of a word differ by the number of bit patterns, if its top bit is set. -/
theorem toNat_sub_toInt (x : Word k) :
    (x.toNat : Int) - x.toInt = if x.bits.msb then 2 ^ k.bits else 0 := by
  have h : x.toInt = if x.bits.msb then (x.toNat : Int) - (2 ^ k.bits : Nat) else x.toNat :=
    x.bits.toInt_eq_msb_cond
  rw [h]
  split
  · rw [Nat.cast_pow, Nat.cast_ofNat]
    exact sub_sub_cancel _ _
  · exact sub_self _

theorem value_ofSigned (x : Signed w) :
    (ofSigned x).value = if x.value < 0 then x.value + 2 ^ w.bits else x.value := by
  have h : (x.toNat : Int) - x.toInt = if x.bits.msb then 2 ^ w.bits else 0 := x.toNat_sub_toInt
  have hmsb : x.bits.msb = decide (x.toInt < 0) := x.bits.msb_eq_toInt
  simp only [hmsb, decide_eq_true_eq] at h
  show (x.toNat : Int) = if x.toInt < 0 then x.toInt + 2 ^ w.bits else x.toInt
  split at h
  next hneg =>
    rw [if_pos hneg]
    omega
  next hneg =>
    rw [if_neg hneg]
    omega

end Word

/-! ### Scalars -/

namespace Scalar

variable {a b : Scalar} {t : Kind}

theorem cast_eq_ok_iff :
    a.cast t = .ok b ↔ a.kind.Converts t ∧ b = ⟨t, Word.ofCarrier t a.word.carrier⟩ := by
  rw [cast, Word.cast?, ← Kind.mem_castSources_iff]
  by_cases h : a.kind ∈ t.castSources
  · simp [h, eq_comm]
  · simp [h]

theorem cast_eq_error_iff {f : Fault} :
    a.cast t = .error f ↔ ¬ a.kind.Converts t ∧ f = .undefined := by
  rw [cast, Word.cast?, ← Kind.mem_castSources_iff]
  by_cases h : a.kind ∈ t.castSources
  · simp [h]
  · simp [h, eq_comm]

/-- **A cast and a conversion are the same** wherever they exist. -/
theorem cast_eq_ok_iff_convert : a.cast t = .ok b ↔ a.convert t = .ok b := by
  rw [cast_eq_ok_iff, convert_eq_ok_iff]

theorem exists_convert_iff : (∃ b, a.convert t = .ok b) ↔ a.kind.Converts t := by
  constructor
  · rintro ⟨b, hb⟩
    exact (convert_eq_ok_iff.mp hb).1
  · intro h
    exact ⟨_, convert_eq_ok_iff.mpr ⟨h, rfl⟩⟩

theorem widen_eq_ok_iff :
    a.widen t = .ok b ↔ (a.kind.domain = .unsigned ∧ a.kind.bits < t.bits) ∧
      b = ⟨t, Word.ofCarrier t a.word.carrier⟩ := by
  obtain ⟨⟨_ | _, w⟩, x⟩ := a
  · simp [widen]
  · rw [widen, Word.widen?, Word.ofNat_toNat_eq_ofCarrier]
    by_cases h : t.width ∈ w.wider
    · simp [h, Width.mem_wider_iff.mp h, eq_comm]
    · simp [h, mt Width.mem_wider_iff.mpr h]

theorem cast_of_widen (h : a.widen t = .ok b) : a.cast t = .ok b ∧ b.value = a.value := by
  obtain ⟨⟨hd, hb⟩, rfl⟩ := widen_eq_ok_iff.mp h
  have hr : a.kind.range ⊆ t.range := Kind.range_subset_of_unsigned hd hb
  have hc : a.kind.Converts t := Kind.converts_of_mem (Kind.conversion?_mem_iff.mpr hr)
  refine ⟨cast_eq_ok_iff.mpr ⟨hc, rfl⟩, ?_⟩
  exact (Word.isResidue_ofCarrier t a.word).eq_iff_mem_range.mpr (hr a.word.value_mem_range)

theorem convert_dual (a : Scalar) : a.convert a.kind.dual = .ok a.dual := by
  rw [convert_eq_ok_iff, Word.ofCarrier_dual_carrier]
  exact ⟨a.kind.converts_dual, rfl⟩

theorem dual_dual (a : Scalar) : a.dual.dual = a := by
  obtain ⟨⟨_ | _, w⟩, x⟩ := a <;> rfl

theorem abs_dual_value_sub (a : Scalar) :
    |a.dual.value - a.value| = if a.word.bits.msb then 2 ^ a.kind.bits else 0 := by
  have h := a.word.toNat_sub_toInt
  have hd : |(a.word.toNat : Int) - a.word.toInt| =
      if a.word.bits.msb then 2 ^ a.kind.bits else 0 := by
    rw [h]
    split
    · exact abs_of_nonneg (Int.pow_nonneg (by decide))
    · exact abs_zero
  obtain ⟨⟨_ | _, w⟩, x⟩ := a
  · exact hd
  · exact (abs_sub_comm _ _).trans hd

theorem dual_value_eq_iff : a.dual.value = a.value ↔ a.word.bits.msb = false := by
  rw [← sub_eq_zero, ← abs_eq_zero, abs_dual_value_sub]
  cases a.word.bits.msb with
  | false => simp
  | true => simp

end Scalar

/-! ### Steps of programs -/

namespace Step

variable {n : Nat} {regs : Registers n} {d r : Fin n} {t : Kind}

theorem run_cast_of_converts (h : (regs.get r).kind.Converts t) :
    (cast d t r).run regs = (convert d t r).run regs := by
  obtain ⟨b, hb⟩ := Scalar.exists_convert_iff.mpr h
  have hc := Scalar.cast_eq_ok_iff_convert.mpr hb
  simp only [run, effect, hb, hc, Except.mapError, Except.map]

theorem run_cast_of_not_converts (h : ¬ (regs.get r).kind.Converts t) :
    (cast d t r).run regs = (.fault .undefined, regs) := by
  have hc := Scalar.cast_eq_error_iff.mpr ⟨h, rfl⟩
  exact run_of_error (by simp only [effect, hc, Except.map])

theorem run_convert_of_not_converts (h : ¬ (regs.get r).kind.Converts t) :
    (convert d t r).run regs =
      (.fault (.kinds (.signedWidening (regs.get r).kind t)), regs) := by
  have hc := Scalar.convert_eq_error_iff.mpr ⟨h, rfl⟩
  exact run_of_error (by simp only [effect, hc, Except.map, Except.mapError])

theorem registers_cast_eq_convert (regs : Registers n) (d r : Fin n) (t : Kind) :
    ((cast d t r).run regs).2 = ((convert d t r).run regs).2 := by
  by_cases h : (regs.get r).kind.Converts t
  · rw [run_cast_of_converts h]
  · rw [run_cast_of_not_converts h, run_convert_of_not_converts h]

/-- The answers of a cast and of a conversion differ only where neither exists, in the fault. -/
theorem answer_cast_convert (regs : Registers n) (d r : Fin n) (t : Kind) :
    if (regs.get r).kind.Converts t then
      ((cast d t r).run regs).1 = ((convert d t r).run regs).1
    else
      ((cast d t r).run regs).1 = .fault .undefined ∧
        ((convert d t r).run regs).1 =
          .fault (.kinds (.signedWidening (regs.get r).kind t)) := by
  split
  next h => rw [run_cast_of_converts h]
  next h => exact ⟨by rw [run_cast_of_not_converts h], by rw [run_convert_of_not_converts h]⟩

end Step

/-! ### The agreement -/

/-- **The ways to convert agree**: casts, widenings and duals exist where their lists of kinds say,
and give what the conversion of scalars gives. -/
theorem conversions_agree (a : Scalar) (t : Kind) :
    ((∃ b, a.cast t = .ok b) ↔ (a.kind.conversion? t).isSome) ∧
    ((∃ b, a.convert t = .ok b) ↔ (a.kind.conversion? t).isSome) ∧
    (∀ b, a.cast t = .ok b ↔ a.convert t = .ok b) ∧
    ((∃ b, a.widen t = .ok b) ↔ a.kind.domain = .unsigned ∧ a.kind.bits < t.bits) ∧
    (∀ b, a.widen t = .ok b → a.cast t = .ok b ∧ b.value = a.value) ∧
    a.convert a.kind.dual = .ok a.dual ∧
    a.dual.dual = a ∧
    (a.dual.value = a.value ↔ a.word.bits.msb = false) ∧
    (a.word.bits.msb = true → |a.dual.value - a.value| = 2 ^ a.kind.bits) ∧
    (∀ (n : Nat) (regs : Registers n) (p q : List (Step n)) (d r : Fin n),
      ∃ earlier later final x y, earlier.length = p.length ∧
        Program.run regs (p ++ .cast d t r :: q) = (earlier ++ x :: later, final) ∧
        Program.run regs (p ++ .convert d t r :: q) = (earlier ++ y :: later, final) ∧
        if (((Program.run regs p).2.get r).kind.conversion? t).isSome then x = y
        else
          x = .fault .undefined ∧
            y = .fault (.kinds (.signedWidening ((Program.run regs p).2.get r).kind t))) := by
  refine ⟨?_, Scalar.exists_convert_iff, fun b => Scalar.cast_eq_ok_iff_convert, ?_,
    fun b => Scalar.cast_of_widen, a.convert_dual, a.dual_dual, Scalar.dual_value_eq_iff, ?_, ?_⟩
  · simp only [Scalar.cast_eq_ok_iff_convert]
    exact Scalar.exists_convert_iff
  · simp only [Scalar.widen_eq_ok_iff, exists_and_left, exists_eq, and_true]
  · intro h
    rw [Scalar.abs_dual_value_sub, if_pos h]
  · intro n regs p q d r
    obtain ⟨earlier, later, final, hl, hc, hv⟩ := Program.run_replace
      (Step.registers_cast_eq_convert (Program.run regs p).2 d r t) q
    exact ⟨earlier, later, final, _, _, hl, hc, hv, Step.answer_cast_convert _ d r t⟩

theorem conversions_agree_two_hundred :
    let a := Scalar.ofWord (Word.ofNat ⟨.unsigned, .w8⟩ 200)
    let b := Scalar.ofWord (Word.ofNat ⟨.signed, .w16⟩ 200)
    a.widen b.kind = .ok b ∧ a.word.bits.msb = true ∧
      a.cast b.kind = .ok b ∧ b.value = a.value ∧ |a.dual.value - a.value| = 2 ^ 8 := by
  intro a b
  have hw : a.widen b.kind = .ok b := rfl
  have hm : a.word.bits.msb = true := by decide
  obtain ⟨-, -, -, -, hc, -, -, -, hd, -⟩ := conversions_agree a b.kind
  exact ⟨hw, hm, (hc b hw).1, (hc b hw).2, hd hm⟩

end FixedWidth
