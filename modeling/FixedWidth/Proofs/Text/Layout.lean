import FixedWidth.Proofs.Text.DigitBuffer
import FixedWidth.Proofs.Text.Sink
import FixedWidth.Text.Rendering

/-!
# Numbers without filling

A field that asks for zeros before the digits, or is no wider than what it holds, gets no character
of filling. The text of an unsigned word in such a field is a front, zeros and the numeral of the
word, and the zeros make it exactly as wide as the field. This holds of each of the two layouts of
numbers, so it does not matter which of them a form uses: they differ in the front alone, which is
empty in decimal and the sign in the other radices.
-/

namespace FixedWidth

namespace Document

variable {d : Document}

/-- The document is a front and digits, with as many zeros between them as the width asks for. -/
structure ZeroPadded (d : Document) (front digits : String) (width : Nat) : Prop where
  isWritable : d.isWritable
  chars_eq : d.chars = front.toList ++
    (List.replicate (width - (front.length + digits.length)) '0' ++ digits.toList)

variable {front digits : String} {width : Nat}

theorem zeroPadded_of_le (h : width ≤ front.length + digits.length) :
    (text front ++ text digits).ZeroPadded front digits width := by
  refine ⟨rfl, ?_⟩
  rw [Nat.sub_eq_zero_of_le h, List.replicate_zero, List.nil_append]
  rfl

theorem zeroPadded_fill (front digits : String) (width : Nat) :
    (text front ++ fill (width - (front.length + digits.length)) '0' ++ text digits).ZeroPadded
      front digits width :=
  ⟨rfl, List.append_assoc _ _ _⟩

theorem ZeroPadded.write_none (h : d.ZeroPadded front digits width) :
    d.write none = ⟨String.ofList (front.toList ++
      (List.replicate (width - (front.length + digits.length)) '0' ++ digits.toList)), true⟩ := by
  rw [Document.write_none h.isWritable, h.chars_eq]

theorem ZeroPadded.write_of_le (h : d.ZeroPadded front digits width)
    (hw : width ≤ front.length + digits.length) : d.write none = ⟨front ++ digits, true⟩ := by
  rw [h.write_none, Nat.sub_eq_zero_of_le hw, List.replicate_zero, List.nil_append,
    String.ofList_append, String.ofList_toList, String.ofList_toList]

end Document

/-! ### The two layouts -/

namespace Spec

variable {spec : Spec} {digits mark : String}

/-- A text of so many characters gets no filling. -/
def Unfilled (spec : Spec) (length : Nat) : Prop := spec.zero = true ∨ spec.width.getD 0 ≤ length

theorem sign_false (spec : Spec) : spec.sign false = if spec.plus then "+" else "" := rfl

theorem sign_of_not_plus (h : spec.plus = false) : spec.sign false = "" := by
  rw [spec.sign_false, h, if_neg Bool.false_ne_true]

theorem zeroPadded_number (hmark : (if spec.alternate then mark else "") = "")
    (h : spec.Unfilled ((spec.sign false).length + digits.length)) :
    (spec.number false mark digits).ZeroPadded (spec.sign false) digits (spec.width.getD 0) := by
  rcases Nat.lt_or_ge ((spec.sign false).length + digits.length) (spec.width.getD 0) with hw | hw
  · have hw := Nat.not_le.mpr hw
    simp only [number, hmark, String.append_empty, if_neg hw, if_pos (h.resolve_right hw)]
    exact Document.zeroPadded_fill _ _ _
  · simp only [number, hmark, String.append_empty, if_pos hw]
    exact Document.zeroPadded_of_le hw

theorem zeroPadded_bareDigits (h : spec.Unfilled (("" : String).length + digits.length)) :
    (spec.bareDigits digits).ZeroPadded "" digits (spec.width.getD 0) := by
  have hlen : ("" : String).length + digits.length = digits.length := Nat.zero_add _
  rw [hlen] at h
  rcases Nat.lt_or_ge digits.length (spec.width.getD 0) with hw | hw
  · have hw := Nat.not_le.mpr hw
    simp only [bareDigits, if_neg hw, if_pos (h.resolve_right hw)]
    refine ⟨rfl, ?_⟩
    rw [hlen]
    rfl
  · simp only [bareDigits, if_pos hw]
    refine ⟨rfl, ?_⟩
    rw [hlen, Nat.sub_eq_zero_of_le hw]
    rfl

theorem isWritable_number (spec : Spec) (negative : Bool) (mark digits : String) :
    (spec.number negative mark digits).isWritable := by
  rw [number]
  generalize spec.sign negative ++ _ = front
  dsimp only
  split
  · rfl
  · split <;> rfl

theorem isWritable_bareDigits (spec : Spec) (digits : String) :
    (spec.bareDigits digits).isWritable := by
  rw [bareDigits]
  dsimp only
  split
  · rfl
  · split <;> rfl

end Spec

/-- The layout that a decimal number takes, with its digits put in. -/
theorem DigitEngine.decimal_eq (engine : DigitEngine) (spec : Spec) {n : Nat} (hn : n < 2 ^ 64) :
    engine.decimal spec n =
      if spec.plus then spec.bareDigits (Radix.decimal.write .lower n)
      else spec.number false "" (Radix.decimal.write .lower n) := by
  rw [decimal, engine.digits?_eq hn]

theorem DigitEngine.zeroPadded_decimal (engine : DigitEngine) {spec : Spec} {n : Nat}
    (hn : n < 2 ^ 64)
    (h : spec.Unfilled (("" : String).length + (Radix.decimal.write .lower n).length)) :
    (engine.decimal spec n).ZeroPadded "" (Radix.decimal.write .lower n) (spec.width.getD 0) := by
  rw [engine.decimal_eq spec hn]
  cases hplus : spec.plus with
  | true => exact Spec.zeroPadded_bareDigits h
  | false =>
    have hsign := Spec.sign_of_not_plus hplus
    have hnumber : (spec.number false "" (Radix.decimal.write .lower n)).ZeroPadded
        (spec.sign false) (Radix.decimal.write .lower n) (spec.width.getD 0) :=
      Spec.zeroPadded_number (ite_self "") (hsign ▸ h)
    rwa [hsign] at hnumber

/-! ### The forms of a word -/

namespace Form

def radix : Form → Radix
  | display | debug _ => .decimal
  | hexadecimal _ => .hexadecimal
  | octal => .octal
  | binary => .binary

def letters : Form → LetterCase
  | hexadecimal letters => letters
  | display | debug _ | octal | binary => .lower

/-- What stands before the digits of a word where no mark of the radix is asked for. -/
def front : Form → Spec → String
  | display, _ | debug _, _ => ""
  | hexadecimal _, spec | octal, spec | binary, spec => spec.sign false

def numeral (form : Form) (n : Nat) : String := form.radix.write form.letters n

end Form

theorem Word.toNat_lt_two_pow {w : Width} (x : Unsigned w) : x.toNat < 2 ^ 64 :=
  Nat.lt_of_lt_of_le x.bits.isLt (Nat.pow_le_pow_right (by decide) w.bits_le)

/-- **The text of a word in a field that gets no filling.** -/
theorem Word.zeroPadded_document {w : Width} (x : Unsigned w) (engine : DigitEngine) (form : Form)
    {spec : Spec} (ha : spec.alternate = false)
    (h : spec.Unfilled ((form.front spec).length + (form.numeral x.toNat).length)) :
    (x.document engine form spec).ZeroPadded (form.front spec) (form.numeral x.toNat)
      (spec.width.getD 0) := by
  have hx := x.toNat_lt_two_pow
  have hmark (mark : String) : (if spec.alternate then mark else "") = "" := by
    rw [ha, if_neg Bool.false_ne_true]
  cases form with
  | display => exact engine.zeroPadded_decimal hx h
  | debug hex => exact engine.zeroPadded_decimal hx h
  | hexadecimal letters => exact Spec.zeroPadded_number (hmark "0x") h
  | octal => exact Spec.zeroPadded_number (hmark "0o") h
  | binary => exact Spec.zeroPadded_number (hmark "0b") h

theorem Word.toText_of_no_width {w : Width} (x : Unsigned w) (engine : DigitEngine) (form : Form)
    {spec : Spec} (ha : spec.alternate = false) :
    (x.document engine form { spec with width := none }).toText =
      form.front spec ++ form.numeral x.toNat := by
  have hfront : form.front { spec with width := none } = form.front spec := by
    cases form <;> rfl
  have h : (x.document engine form { spec with width := none }).ZeroPadded
      (form.front { spec with width := none }) (form.numeral x.toNat) 0 :=
    x.zeroPadded_document engine form ha (Or.inr (Nat.zero_le _))
  rw [Document.toText, h.write_of_le (Nat.zero_le _), hfront]

end FixedWidth
