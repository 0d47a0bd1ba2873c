import FixedWidth.Proofs.Text.Engine

/-!
# Decimal text in a field

A decimal number never shows a sign, and takes the layout for bare digits where a sign is asked for
and the layout for numbers where none is. The two share out their padding in different ways and
write the same characters (`Spec.chars_bareDigits`, `Spec.chars_number`), namely the digits in a
field (`Spec.field`), which knows nothing of signs, marks and precision.
-/

namespace FixedWidth

/-! ### Digits in a field -/

namespace Spec

variable {spec : Spec}

/-- Digits in the field of a spec: behind zeros, or with the filling before, behind or around them.
-/
def field (spec : Spec) (digits : List Char) : List Char :=
  let missing := spec.width.getD 0 - digits.length
  if spec.zero then List.replicate missing '0' ++ digits
  else
    match spec.alignment with
    | some .left => digits ++ List.replicate missing spec.fill
    | some .centre =>
      List.replicate (missing / 2) spec.fill ++ digits ++
        List.replicate ((missing + 1) / 2) spec.fill
    | some .right | none => List.replicate missing spec.fill ++ digits

theorem field_of_le {digits : List Char} (h : spec.width.getD 0 ≤ digits.length) :
    spec.field digits = digits := by
  simp only [field, Nat.sub_eq_zero_of_le h]
  split
  · rfl
  · split
    · exact List.append_nil digits
    · exact List.append_nil digits
    · rfl
    · rfl

theorem length_field (spec : Spec) (digits : List Char) :
    (spec.field digits).length = max (spec.width.getD 0) digits.length := by
  simp only [field]
  generalize spec.width.getD 0 = width
  split
  · simp only [List.length_append, List.length_replicate]
    omega
  · split <;> simp only [List.length_append, List.length_replicate] <;> omega

theorem chars_bareDigits (spec : Spec) (digits : String) :
    (spec.bareDigits digits).chars = spec.field digits.toList := by
  have hlen : digits.toList.length = digits.length := String.length_toList
  rcases Nat.lt_or_ge digits.length (spec.width.getD 0) with hw | hw
  · simp only [bareDigits, if_neg (Nat.not_le.mpr hw), field, hlen, paddingAround]
    split
    · rfl
    · cases spec.alignment with
      | none => exact List.append_nil _
      | some alignment =>
        cases alignment with
        | left => rfl
        | centre => rfl
        | right => exact List.append_nil _
  · simp only [bareDigits, if_pos hw]
    exact (field_of_le (hlen ▸ hw)).symm

/-- The layout of numbers leaves the greater half of an odd padding to the back. -/
theorem chars_number (digits : String) (h : spec.plus = false) :
    (spec.number false "" digits).chars = spec.field digits.toList := by
  have hlen : digits.toList.length = digits.length := String.length_toList
  have hfront : spec.sign false ++ (if spec.alternate then "" else "") = "" := by
    rw [sign_of_not_plus h, ite_self, String.append_empty]
  have hzero : ("" : String).length + digits.length = digits.length := Nat.zero_add _
  rcases Nat.lt_or_ge digits.length (spec.width.getD 0) with hw | hw
  · simp only [number, hfront, hzero, if_neg (Nat.not_le.mpr hw), field, hlen, paddingBefore]
    generalize spec.width.getD 0 - digits.length = missing
    have hchars (before : Nat) :
        (Document.fill before spec.fill ++ .text "" ++ .text digits ++
          .fill (missing - before) spec.fill).chars =
          List.replicate before spec.fill ++ digits.toList ++
            List.replicate (missing - before) spec.fill := by
      show List.replicate before spec.fill ++ [] ++ digits.toList ++
        List.replicate (missing - before) spec.fill = _
      rw [List.append_nil]
    have hhalf : missing - missing / 2 = (missing + 1) / 2 := by omega
    split
    · rfl
    · rw [hchars]
      cases spec.alignment with
      | none =>
        rw [Nat.sub_self]
        exact List.append_nil _
      | some alignment =>
        cases alignment with
        | left => rfl
        | centre => rw [hhalf]
        | right =>
          rw [Nat.sub_self]
          exact List.append_nil _
  · simp only [number, hfront, hzero, if_pos hw]
    exact (field_of_le (hlen ▸ hw)).symm

end Spec

/-! ### The text of a word -/

def Form.decimal : List Form := [.display, .debug none, .debug (some .lower), .debug (some .upper)]

theorem DigitEngine.chars_decimal (engine : DigitEngine) (spec : Spec) {n : Nat}
    (hn : n < 2 ^ 64) :
    (engine.decimal spec n).chars = spec.field (Radix.decimal.write .lower n).toList := by
  rw [engine.decimal_eq spec hn]
  cases h : spec.plus with
  | true => exact spec.chars_bareDigits _
  | false => exact Spec.chars_number _ h

namespace Word

variable {w : Width} {form : Form}

theorem document_of_decimal (x : Unsigned w) (engine : DigitEngine) (h : form ∈ Form.decimal)
    (spec : Spec) : x.document engine form spec = engine.decimal spec x.toNat := by
  simp only [Form.decimal, List.mem_cons, List.not_mem_nil, or_false] at h
  rcases h with rfl | rfl | rfl | rfl <;> rfl

theorem chars_document_of_decimal (x : Unsigned w) (engine : DigitEngine) (h : form ∈ Form.decimal)
    (spec : Spec) : (x.document engine form spec).chars =
      spec.field (Radix.decimal.write .lower x.toNat).toList := by
  rw [x.document_of_decimal engine h]
  exact engine.chars_decimal spec x.toNat_lt_two_pow

/-- **Decimal text** is the digits in the field of the spec, as far as the sink has room. Signs,
marks, precisions and layouts make no difference. -/
theorem write_decimal (x : Unsigned w) (engine : DigitEngine) (hform : form ∈ Form.decimal)
    (spec : Spec) :
    let digits := Radix.decimal.write .lower x.toNat
    let text := spec.field digits.toList
    (x.document engine form spec).write none = ⟨String.ofList text, true⟩ ∧
    (∀ n, (x.document engine form spec).write (some n) =
      ⟨String.ofList (text.take n), decide (text.length ≤ n)⟩) ∧
    (spec.width.getD 0 ≤ digits.length → text = digits.toList) ∧
    text.length = max (spec.width.getD 0) digits.length ∧
    (∀ form' ∈ Form.decimal, ∀ plus alternate precision limit,
      (x.document engine form' { spec with plus, alternate, precision }).write limit =
        (x.document engine form spec).write limit) ∧
    ∀ limit, (Spec.bareDigits { spec with plus := true } digits).write limit =
      (Spec.number { spec with plus := false } false "" digits).write limit := by
  intro digits text
  have hlen : digits.toList.length = digits.length := String.length_toList
  have hwritable := x.isWritable_document engine
  have hchars : (x.document engine form spec).chars = text :=
    x.chars_document_of_decimal engine hform spec
  refine ⟨?_, ?_, ?_, ?_, ?_, ?_⟩
  · rw [Document.write_none (hwritable form spec), hchars]
  · intro n
    rw [Document.write_limited (hwritable form spec), hchars]
  · exact fun h => Spec.field_of_le (hlen ▸ h)
  · exact hlen ▸ spec.length_field digits.toList
  · intro form' hform' plus alternate precision limit
    refine Document.write_congr (hwritable _ _) (hwritable _ _) ?_ limit
    rw [hchars, x.chars_document_of_decimal engine hform']
    rfl
  · intro limit
    refine Document.write_congr (Spec.isWritable_bareDigits _ _) (Spec.isWritable_number _ _ _ _) ?_
      limit
    rw [Spec.chars_bareDigits, Spec.chars_number _ rfl]
    rfl

theorem write_decimal_centred :
    let document := (ofNat ⟨.unsigned, .w8⟩ 255).document .single (.debug (some .upper))
      { fill := '*', alignment := some .centre, plus := true, alternate := true, width := some 8 }
    Form.debug (some .upper) ∈ Form.decimal ∧ document.write none = ⟨"**255***", true⟩ ∧
      document.write (some 4) = ⟨"**25", false⟩ := by
  intro document
  have hform : Form.debug (some .upper) ∈ Form.decimal := by decide
  obtain ⟨hnone, hsome, -⟩ := write_decimal (ofNat ⟨.unsigned, .w8⟩ 255) .single hform
    { fill := '*', alignment := some .centre, plus := true, alternate := true, width := some 8 }
  refine ⟨hform, hnone.trans ?_, (hsome 4).trans ?_⟩
  · decide +kernel
  · decide +kernel

end Word

end FixedWidth
