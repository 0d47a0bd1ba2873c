import FixedWidth.Proofs.Text.Layout

/-!
# One numeral from two engines

For a number of 64 bits neither engine is ever refused an access to its buffer or to the table of
pairs, and both leave the same bytes in the same place (`DigitBuffer.Holds`). Since the digits are
the same, so are the documents, and nothing that is done with a document can tell the engines apart.
-/

namespace FixedWidth

/-! ### The bytes of a numeral -/

namespace DigitBuffer

variable {buffer : DigitBuffer} {d n : Nat}

/-- The bytes in use are ASCII digits that stand for `n`, without a superfluous zero in front. -/
structure Holds (buffer : DigitBuffer) (n : Nat) : Prop where
  ascii : ∀ b ∈ buffer.bytes, '0'.toNat ≤ b.toNat ∧ b.toNat ≤ '9'.toNat
  value : Radix.decimal.valueOf (buffer.bytes.map fun b => b.toNat - '0'.toNat) = n
  leading : buffer.bytes.head?.map UInt8.toNat = some '0'.toNat → n = 0
  zero : n = 0 → buffer.bytes.length = 1

theorem toNat_digitByte (h : d < 10) : (digitByte d).toNat = '0'.toNat + d := by
  have hall : ∀ i : Fin 10, (digitByte i).toNat = '0'.toNat + i := by decide
  exact hall ⟨d, h⟩

theorem Extends.holds_of_blank
    (h : buffer.Extends blank ((Radix.decimal.digits n).map digitByte)) : buffer.Holds n := by
  have hblank : blank.bytes = [] := rfl
  have hbytes : buffer.bytes = (Radix.decimal.digits n).map digitByte := by
    rw [h.bytes_eq, hblank, List.append_nil]
  have hbyte : ∀ d ∈ Radix.decimal.digits n, (digitByte d).toNat = '0'.toNat + d :=
    fun d hd => toNat_digitByte (Radix.decimal.digits_lt n d hd)
  have hnine : '9'.toNat = '0'.toNat + 9 := rfl
  refine ⟨?_, ?_, ?_, ?_⟩
  · intro b hb
    rw [hbytes] at hb
    obtain ⟨d, hd, rfl⟩ := List.mem_map.mp hb
    have hlt : d < 10 := Radix.decimal.digits_lt n d hd
    rw [hbyte d hd]
    omega
  · have hback : ((Radix.decimal.digits n).map digitByte).map (fun b => b.toNat - '0'.toNat) =
        Radix.decimal.digits n := by
      rw [List.map_map]
      refine (List.map_congr_left fun d hd => ?_).trans (List.map_id _)
      rw [Function.comp_apply, hbyte d hd, Nat.add_sub_cancel_left, id]
    rw [hbytes, hback, Radix.valueOf_digits]
  · intro hhead
    rw [hbytes, List.head?_map, Option.map_map] at hhead
    obtain ⟨d, hd, hzero⟩ := Option.map_eq_some_iff.mp hhead
    have hmem : d ∈ Radix.decimal.digits n := List.mem_of_head? hd
    have hd0 : d = 0 := by
      have := hbyte d hmem
      rw [Function.comp_apply] at hzero
      omega
    exact (Radix.decimal.head?_digits_eq_zero_iff n).mp (hd0 ▸ hd)
  · rintro rfl
    rw [hbytes, Radix.digits_zero]
    rfl

end DigitBuffer

/-! ### The documents of an engine -/

namespace DigitEngine

variable {n : Nat}

theorem isWritable_decimal (engine : DigitEngine) (spec : Spec) (h : n < 2 ^ 64) :
    (engine.decimal spec n).isWritable := by
  rw [engine.decimal_eq spec h]
  split
  · exact spec.isWritable_bareDigits _
  · exact spec.isWritable_number _ _ _

end DigitEngine

namespace Word

variable {w : Width}

theorem isWritable_document (x : Unsigned w) (engine : DigitEngine) (form : Form) (spec : Spec) :
    (x.document engine form spec).isWritable := by
  cases form with
  | display => exact engine.isWritable_decimal spec x.toNat_lt_two_pow
  | debug hex => exact engine.isWritable_decimal spec x.toNat_lt_two_pow
  | hexadecimal letters => exact spec.isWritable_number _ _ _
  | octal => exact spec.isWritable_number _ _ _
  | binary => exact spec.isWritable_number _ _ _

theorem document_eq (x : Unsigned w) (engine engine' : DigitEngine) (form : Form) (spec : Spec) :
    x.document engine form spec = x.document engine' form spec := by
  have h : engine.decimal spec x.toNat = engine'.decimal spec x.toNat := by
    rw [engine.decimal_eq spec x.toNat_lt_two_pow, engine'.decimal_eq spec x.toNat_lt_two_pow]
  cases form with
  | display => exact h
  | debug hex => exact h
  | hexadecimal letters => rfl
  | octal => rfl
  | binary => rfl

end Word

/-! ### Both engines -/

namespace DigitEngine

/-- **The two engines agree** on every number of 64 bits: in the buffer, in its text and in all
texts of words on every sink. -/
theorem engines_agree :
    (∀ n < 2 ^ 64, ∃ one two : DigitBuffer,
      single.fill? n = some one ∧ paired.fill? n = some two ∧
        one.start = two.start ∧ one.bytes = two.bytes ∧ one.Holds n ∧
          one.text? = some (Radix.decimal.write .lower n) ∧ two.text? = one.text?) ∧
    ∀ {w : Width} (x : Unsigned w) (form : Form) (spec : Spec),
      (∀ engine : DigitEngine, (x.document engine form spec).isWritable) ∧
        ∀ limit : Option Nat, (x.document single form spec).write limit =
          (x.document paired form spec).write limit := by
  refine ⟨fun n hn => ?_, fun x form spec => ⟨?_, ?_⟩⟩
  · obtain ⟨one, hone, hone'⟩ := single.fill?_extends hn
    obtain ⟨two, htwo, htwo'⟩ := paired.fill?_extends hn
    have hstart : one.start = two.start := by
      have h₁ := hone'.start_add
      have h₂ := htwo'.start_add
      exact Fin.ext (by omega)
    have htext := hone'.text?_of_blank
    refine ⟨one, two, hone, htwo, hstart, ?_, hone'.holds_of_blank, htext, ?_⟩
    · rw [hone'.bytes_eq, htwo'.bytes_eq]
    · rw [htext, htwo'.text?_of_blank]
  · exact fun engine => x.isWritable_document engine form spec
  · intro limit
    rw [x.document_eq single paired]

/-- The greatest number of 64 bits fills the buffer from its first byte to its last. -/
theorem engines_agree_greatest :
    18446744073709551615 < 2 ^ 64 ∧ ∃ one two : DigitBuffer,
      single.fill? 18446744073709551615 = some one ∧
        paired.fill? 18446744073709551615 = some two ∧ one.start = 0 ∧ two.start = 0 ∧
          two.text? = some "18446744073709551615" := by
  have h : 18446744073709551615 < 2 ^ 64 := by decide
  obtain ⟨one, two, hone, htwo, hstart, -, -, htext, htext'⟩ := engines_agree.1 _ h
  have hzero : (single.fill? 18446744073709551615).map DigitBuffer.start = some 0 := by
    decide +kernel
  have hnumeral : Radix.decimal.write .lower 18446744073709551615 = "18446744073709551615" := by
    decide +kernel
  rw [hone] at hzero
  have hone' : one.start = 0 := Option.some.inj hzero
  exact ⟨h, one, two, hone, htwo, hone', hstart.symm.trans hone', by rw [htext', htext, hnumeral]⟩

end DigitEngine

end FixedWidth
