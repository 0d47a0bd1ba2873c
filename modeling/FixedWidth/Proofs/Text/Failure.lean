import FixedWidth.Proofs.Numeral.Refusal
import FixedWidth.Proofs.Text.Engine

/-!
# Writing to a sink that fails

Filling, signs, marks, digits and the margins of an indented body are written by different means,
and a sink can fail in the middle of each. Where it fails does not depend on them: no part of a
document that anything has is refused (`Subject.isWritable_document`), so writing the document is
putting the characters of its text one after the other (`Document.emit_eq_foldlM`), and that ends at
the first character that is not accepted (`foldlM_eq_error_iff`).
-/

namespace FixedWidth

/-! ### Documents that are not refused -/

namespace Document

variable {d e : Document}

theorem isWritable_append (hd : d.isWritable) (he : e.isWritable) : (d ++ e).isWritable :=
  Bool.and_eq_true_iff.mpr ⟨hd, he⟩

theorem toText_eq (h : d.isWritable) : d.toText = String.ofList d.chars := by
  rw [toText, write_none h]

theorem emit_eq_foldlM_toText (h : d.isWritable) {σ : Type} (put : σ → Char → Except σ σ) (s : σ) :
    d.emit put s = d.toText.toList.foldlM put s := by
  rw [d.emit_eq_foldlM h, toText_eq h, String.toList_ofList]

theorem write_toText (h : d.isWritable) : d.write none = ⟨d.toText, true⟩ := by
  rw [write_none h, toText_eq h]

theorem write_of_length_le (h : d.isWritable) {n : Nat} (hn : d.toText.length ≤ n) :
    d.write (some n) = ⟨d.toText, true⟩ := by
  rw [toText_eq h, String.length_ofList] at hn
  rw [write_limited h, toText_eq h, List.take_of_length_le hn, decide_eq_true hn]

theorem write_of_lt_length (h : d.isWritable) {n : Nat} (hn : n < d.toText.length) :
    d.write (some n) = ⟨String.ofList (d.toText.toList.take n), false⟩ := by
  rw [toText_eq h, String.length_ofList] at hn
  rw [write_limited h, toText_eq h, String.toList_ofList, decide_eq_false (Nat.not_le.mpr hn)]

end Document

/-! ### The parts of a debugging text -/

namespace Scalar

theorem isWritable_decimal (a : Scalar) (spec : Spec) : (a.decimal spec).isWritable := by
  obtain ⟨⟨domain, w⟩, x⟩ := a
  cases domain with
  | signed => exact spec.isWritable_number _ _ _
  | unsigned => exact DigitEngine.single.isWritable_decimal spec (Word.toNat_lt_two_pow x)

theorem isWritable_debugNumber (a : Scalar) (hex : Option LetterCase) (spec : Spec) :
    (a.debugNumber hex spec).isWritable := by
  obtain ⟨⟨domain, w⟩, x⟩ := a
  cases domain with
  | unsigned => exact isWritable_decimal ⟨⟨.unsigned, w⟩, x⟩ spec
  | signed =>
    cases hex with
    | none => exact isWritable_decimal ⟨⟨.signed, w⟩, x⟩ spec
    | some letters => exact spec.isWritable_number _ _ _

theorem isWritable_debug (a : Scalar) (hex : Option LetterCase) (spec : Spec) :
    (a.debug hex spec).isWritable := by
  have hnumber : (a.debugNumber hex spec).isWritable := a.isWritable_debugNumber hex spec
  rw [debug]
  split
  · have hbody : (a.debugNumber hex spec ++ .text ",\n").isWritable :=
      Document.isWritable_append hnumber rfl
    exact Document.isWritable_append (Document.isWritable_append rfl hbody) rfl
  · exact Document.isWritable_append (Document.isWritable_append rfl hnumber) rfl

end Scalar

namespace KindError

theorem isWritable_fieldLines (fields : List (String × Kind)) :
    (fieldLines fields).isWritable := by
  induction fields with
  | nil => rfl
  | cons field fields ih => exact Document.isWritable_append rfl ih

theorem isWritable_fieldList (before : String) (fields : List (String × Kind)) :
    (fieldList before fields).isWritable := by
  induction fields generalizing before with
  | nil => rfl
  | cons field fields ih => exact Document.isWritable_append rfl (ih ", ")

theorem isWritable_debug (e : KindError) (spec : Spec) : (e.debug spec).isWritable := by
  rw [debug]
  split
  · exact Document.isWritable_append
      (Document.isWritable_append rfl (isWritable_fieldLines e.fields)) rfl
  · exact Document.isWritable_append
      (Document.isWritable_append rfl (isWritable_fieldList _ e.fields)) rfl

end KindError

/-! ### Subjects -/

namespace Subject

variable {subject : Subject} {form : Form} {spec : Spec} {d : Document}

/-- An unsigned word has a text in every form, a word of a signed kind in none, and everything else
in the forms for display and debugging. -/
def supports : Subject → Form → Bool
  | word _ a, _ => a.kind.domain == .unsigned
  | _, .display | _, .debug _ => true
  | _, .hexadecimal _ | _, .octal | _, .binary => false

theorem exists_document_iff (subject : Subject) (form : Form) (spec : Spec) :
    (∃ d, subject.document form spec = .ok d) ↔ subject.supports form = true := by
  cases subject with
  | word engine a =>
    obtain ⟨⟨domain, w⟩, x⟩ := a
    cases domain <;> simp [document, supports]
  | _ => cases form <;> simp [document, supports]

/-- **Nothing that can be written has a part that is refused.** -/
theorem isWritable_document (h : subject.document form spec = .ok d) : d.isWritable := by
  cases subject with
  | word engine a =>
    obtain ⟨⟨domain, w⟩, x⟩ := a
    cases domain with
    | signed => cases h
    | unsigned =>
      obtain rfl := Except.ok.inj h
      exact Word.isWritable_document x engine form spec
  | scalar a =>
    cases form with
    | display => exact Except.ok.inj h ▸ a.isWritable_decimal spec
    | debug hex => exact Except.ok.inj h ▸ a.isWritable_debug hex spec
    | hexadecimal | octal | binary => cases h
  | kind k =>
    cases form with
    | display | debug => exact Except.ok.inj h ▸ rfl
    | hexadecimal | octal | binary => cases h
  | arithmetic e =>
    cases form with
    | display | debug => exact Except.ok.inj h ▸ rfl
    | hexadecimal | octal | binary => cases h
  | kinds e =>
    cases form with
    | display => exact Except.ok.inj h ▸ rfl
    | debug hex => exact Except.ok.inj h ▸ e.isWritable_debug spec
    | hexadecimal | octal | binary => cases h

/-- **Writing to a sink that fails** stops where its room ends, and the front of the text has been
accepted. -/
theorem write_to_failing_sink (subject : Subject) (form : Form) (spec : Spec) :
    ((∃ d, subject.document form spec = .ok d) ↔ subject.supports form = true) ∧
    ∀ d, subject.document form spec = .ok d →
      d.write none = ⟨d.toText, true⟩ ∧
      (∀ n, d.toText.length ≤ n → d.write (some n) = ⟨d.toText, true⟩) ∧
      (∀ n, n < d.toText.length →
        d.write (some n) = ⟨String.ofList (d.toText.toList.take n), false⟩) ∧
      ∀ {σ : Type} (put : σ → Char → Except σ σ) (s t : σ),
        (d.emit put s = .ok t ↔ d.toText.toList.foldlM put s = .ok t) ∧
        (d.emit put s = .error t ↔ ∃ front c back s', d.toText.toList = front ++ c :: back ∧
          front.foldlM put s = .ok s' ∧ put s' c = .error t) := by
  refine ⟨exists_document_iff subject form spec, fun d hd => ?_⟩
  have hwritable : d.isWritable := isWritable_document hd
  refine ⟨Document.write_toText hwritable, fun n => Document.write_of_length_le hwritable,
    fun n => Document.write_of_lt_length hwritable, fun put s t => ?_⟩
  rw [Document.emit_eq_foldlM_toText hwritable]
  exact ⟨Iff.rfl, foldlM_eq_error_iff⟩

theorem write_to_failing_sink_indented :
    let subject := scalar ⟨⟨.signed, .w16⟩, Word.ofInt _ (-300)⟩
    let spec : Spec :=
      { fill := '*', alignment := some .centre, alternate := true, width := some 7 }
    ∃ d, subject.document (.debug none) spec = .ok d ∧
      d.write none = ⟨"I16(\n    *-300**,\n)", true⟩ ∧
      d.write (some 7) = ⟨"I16(\n  ", false⟩ ∧ d.write (some 12) = ⟨"I16(\n    *-3", false⟩ ∧
      d.write (some 20) = ⟨"I16(\n    *-300**,\n)", true⟩ := by
  intro subject spec
  obtain ⟨hsupports, hwrite⟩ := write_to_failing_sink subject (.debug none) spec
  have hs : subject.supports (.debug none) = true := by decide
  obtain ⟨d, hd⟩ := hsupports.mpr hs
  obtain ⟨hfull, hle, hlt, -⟩ := hwrite d hd
  have htext : d.toText = "I16(\n    *-300**,\n)" := by
    rw [← Except.ok.inj hd]
    decide +kernel
  rw [htext] at hfull hle hlt
  refine ⟨d, hd, hfull, (hlt 7 ?_).trans ?_, (hlt 12 ?_).trans ?_, hle 20 ?_⟩
  all_goals decide +kernel

end Subject

end FixedWidth
