import FixedWidth.Proofs.Text.Failure
import FixedWidth.Proofs.Text.Field
import Mathlib.Data.List.Forall2

/-!
# What a text tells of a scalar

Shown for a reader, without a plus sign, every scalar takes the layout of an integer, in which its
kind does not occur (`Scalar.decimal_eq_integer`). Where no width is given the text is the sign and
the digits, so it tells the value (`Spec.chars_integer_injective`).

For debugging the tag of the kind stands in front, up to the first bracket. Inside the brackets a
number of one kind is always written in the same way, which tells the words of the kind apart
(`Scalar.debugNumber_injective`). Spreading the text over lines loses nothing.
-/

namespace FixedWidth

/-! ### Numerals -/

namespace Radix

variable {r : Radix} {letters : LetterCase} {cs : List Char} {ds es : List Nat} {n : Nat} {c : Char}

theorem digits_injective (r : Radix) : Function.Injective r.digits :=
  Function.LeftInverse.injective r.valueOf_digits

theorem Spells.unique (h : r.Spells cs ds) (h' : r.Spells cs es) : ds = es := by
  have hunique : Relator.RightUnique fun c d => r.digitOf? c = some d := by
    intro c d e hd he
    exact Option.some.inj (hd.symm.trans he)
  exact List.right_unique_forall₂' hunique h h'

/-- **A numeral tells the number.** -/
theorem write_injective (r : Radix) (letters : LetterCase) :
    Function.Injective fun n => (r.write letters n).toList := by
  intro m n h
  simp only [write, String.toList_ofList] at h
  have hm : r.Spells _ (r.digits m) := spells_map_digit letters (r.digits_lt m)
  have hn : r.Spells _ (r.digits n) := spells_map_digit letters (r.digits_lt n)
  rw [h] at hm
  exact r.digits_injective (hm.unique hn)

theorem digitValue?_of_mem_write (h : c ∈ (r.write letters n).toList) : digitValue? c ≠ none := by
  rw [write, String.toList_ofList] at h
  obtain ⟨d, hd, rfl⟩ := List.mem_map.mp h
  rw [digitValue?_digit letters (Nat.lt_of_lt_of_le (r.digits_lt n d hd) r.le_36)]
  exact Option.some_ne_none d

end Radix

/-! ### Numbers without a width -/

namespace Spec

variable {spec : Spec}

theorem chars_number_of_no_width (h : spec.width = none) (negative : Bool) (mark digits : String) :
    (spec.number negative mark digits).chars =
      (spec.sign negative ++ if spec.alternate then mark else "").toList ++ digits.toList := by
  simp only [number, h, Option.getD_none, if_pos (Nat.zero_le _)]
  rfl

def integer (spec : Spec) (i : Int) : Document :=
  spec.number (i < 0) "" (Radix.decimal.write .lower i.natAbs)

theorem chars_integer (h : spec.width = none) (i : Int) :
    (spec.integer i).chars =
      (spec.sign (i < 0)).toList ++ (Radix.decimal.write .lower i.natAbs).toList := by
  rw [integer, chars_number_of_no_width h, ite_self, String.append_empty]

theorem minus_mem_chars_integer (h : spec.width = none) (i : Int) :
    '-' ∈ (spec.integer i).chars ↔ i < 0 := by
  have hdigits : '-' ∉ (Radix.decimal.write .lower i.natAbs).toList := fun hmem =>
    Radix.digitValue?_of_mem_write hmem (by decide)
  rw [chars_integer h, List.mem_append, or_iff_left hdigits]
  by_cases hi : i < 0
  · rw [decide_eq_true hi]
    refine iff_of_true ?_ hi
    show '-' ∈ ("-" : String).toList
    decide
  · rw [decide_eq_false hi, sign_false]
    refine iff_of_false ?_ hi
    split <;> decide

/-- **The text of an integer tells the integer.** -/
theorem chars_integer_injective (h : spec.width = none) :
    Function.Injective fun i => (spec.integer i).chars := by
  intro i j hij
  -- The signs agree first: without them the digits cannot be cut off at the same place.
  have hij : (spec.integer i).chars = (spec.integer j).chars := hij
  have hneg : i < 0 ↔ j < 0 := by
    rw [← minus_mem_chars_integer h i, hij, minus_mem_chars_integer h]
  rw [chars_integer h, chars_integer h, decide_eq_decide.mpr hneg] at hij
  have habs := Radix.decimal.write_injective .lower (List.append_cancel_left hij)
  omega

end Spec

/-! ### Scalars for display -/

namespace Scalar

variable {spec : Spec}

/-- Without a plus sign every scalar takes the layout of an integer. -/
theorem decimal_eq_integer (a : Scalar) (h : spec.plus = false) :
    a.decimal spec = spec.integer a.value := by
  obtain ⟨⟨domain, w⟩, x⟩ := a
  cases domain with
  | signed => rfl
  | unsigned =>
    have hneg : ¬ ((x.toNat : Int) < 0) := Int.not_lt.mpr (Int.natCast_nonneg _)
    show DigitEngine.single.decimal spec x.toNat = spec.integer (x.toNat : Int)
    rw [DigitEngine.decimal_eq _ spec x.toNat_lt_two_pow, h, if_neg Bool.false_ne_true,
      Spec.integer, decide_eq_false hneg, Int.natAbs_natCast]

end Scalar

/-! ### Scalars for debugging -/

namespace Document

theorem indentLines_injective (atStart : Bool) : Function.Injective (indentLines atStart) := by
  intro cs
  induction cs generalizing atStart with
  | nil =>
    intro ds h
    cases ds with
    | nil => rfl
    | cons d ds => cases atStart <;> simp [indentLines, margin] at h
  | cons c cs ih =>
    intro ds h
    cases ds with
    | nil => cases atStart <;> simp [indentLines, margin] at h
    | cons d ds =>
      cases atStart with
      | true =>
        obtain ⟨rfl, hrest⟩ := List.cons.inj (List.append_cancel_left h)
        rw [ih _ hrest]
      | false =>
        obtain ⟨rfl, hrest⟩ := List.cons.inj h
        rw [ih _ hrest]

end Document

namespace Kind

theorem tag_injective : Function.Injective tag := by
  have hall : ∀ k ∈ all, ∀ l ∈ all, k.tag = l.tag → k = l := by decide
  intro k l
  exact hall k k.mem_all l l.mem_all

/-- A tag ends before the first bracket. -/
theorem takeWhile_tag (k : Kind) (cs : List Char) :
    (k.tag.toList ++ '(' :: cs).takeWhile (· != '(') = k.tag.toList := by
  have hbracket : '(' ∉ k.tag.toList := by
    rcases k with ⟨_ | _, _ | _ | _ | _⟩ <;> decide
  have htag : ∀ c ∈ k.tag.toList, (c != '(') = true := by
    intro c hc
    rw [bne_iff_ne]
    rintro rfl
    exact hbracket hc
  rw [List.takeWhile_append_of_pos htag]
  exact List.append_nil _

end Kind

namespace Scalar

variable {a b : Scalar} {spec : Spec}

theorem debugNumber_injective (k : Kind) (hex : Option LetterCase) (h : spec.width = none) :
    Function.Injective fun x : Word k => (debugNumber ⟨k, x⟩ hex spec).chars := by
  obtain ⟨domain, w⟩ := k
  cases domain with
  | unsigned =>
    have hchars (x : Unsigned w) : (debugNumber ⟨_, x⟩ hex spec).chars =
        (Radix.decimal.write .lower x.toNat).toList := by
      show (DigitEngine.single.decimal spec x.toNat).chars = _
      rw [DigitEngine.chars_decimal _ spec x.toNat_lt_two_pow]
      exact Spec.field_of_le (by rw [h]; exact Nat.zero_le _)
    intro x y hxy
    simp only [hchars] at hxy
    exact Word.ext_toNat (Radix.decimal.write_injective .lower hxy)
  | signed =>
    cases hex with
    | none =>
      intro x y hxy
      exact Word.value_injective (Spec.chars_integer_injective h hxy)
    | some letters =>
      intro x y hxy
      simp only [debugNumber, Word.hexadecimal, Spec.chars_number_of_no_width h] at hxy
      exact Word.ext_toNat (Radix.hexadecimal.write_injective letters (List.append_cancel_left hxy))

/-- Behind the tag stands the number, in a way that loses nothing of it. -/
theorem exists_chars_debug (spec : Spec) : ∃ f : List Char → List Char, Function.Injective f ∧
    ∀ (a : Scalar) (hex : Option LetterCase),
      (a.debug hex spec).chars = a.kind.tag.toList ++ '(' :: f (a.debugNumber hex spec).chars := by
  cases halternate : spec.alternate with
  | true =>
    refine ⟨fun cs => '\n' :: (Document.indentLines true (cs ++ [',', '\n']) ++ [')']), ?_, ?_⟩
    · intro cs ds h
      have hlines := List.append_cancel_right (List.cons.inj h).2
      exact List.append_cancel_right (Document.indentLines_injective true hlines)
    · intro a hex
      rw [debug, halternate, if_pos rfl]
      show ((a.kind.tag.toList ++ ['(', '\n']) ++ Document.indentLines true _) ++ [')'] = _
      simp only [List.append_assoc, List.cons_append, List.nil_append]
      rfl
  | false =>
    refine ⟨fun cs => cs ++ [')'], List.append_left_injective [')'], ?_⟩
    intro a hex
    rw [debug, halternate, if_neg Bool.false_ne_true]
    show ((a.kind.tag.toList ++ ['(']) ++ (a.debugNumber hex spec).chars) ++ [')'] = _
    simp only [List.append_assoc, List.cons_append, List.nil_append]

theorem chars_debug_eq_iff (hex : Option LetterCase) (h : spec.width = none) :
    (a.debug hex spec).chars = (b.debug hex spec).chars ↔ a.kind = b.kind ∧ a.value = b.value := by
  obtain ⟨f, hf, hchars⟩ := exists_chars_debug spec
  obtain ⟨k, x⟩ := a
  obtain ⟨l, y⟩ := b
  rw [hchars, hchars]
  constructor
  · intro hab
    have htags := congrArg (List.takeWhile (· != '(')) hab
    rw [Kind.takeWhile_tag, Kind.takeWhile_tag] at htags
    obtain rfl : k = l := Kind.tag_injective (String.toList_injective htags)
    have hnumbers := hf (List.cons.inj (List.append_cancel_left hab)).2
    obtain rfl : x = y := debugNumber_injective k hex h hnumbers
    exact ⟨rfl, rfl⟩
  · rintro ⟨hk, hv⟩
    obtain rfl : k = l := hk
    obtain rfl : x = y := Word.value_injective hv
    rfl

/-! ### Texts -/

/-- What comes of writing a scalar to a sink without a limit. -/
def written (a : Scalar) (form : Form) (spec : Spec) : Except Fault Written :=
  ((Subject.scalar a).document form spec).map (·.write none)

theorem written_display (a : Scalar) (spec : Spec) :
    a.written .display spec = .ok ⟨String.ofList (a.decimal spec).chars, true⟩ :=
  congrArg Except.ok (Document.write_none (a.isWritable_decimal spec))

theorem written_debug (a : Scalar) (hex : Option LetterCase) (spec : Spec) :
    a.written (.debug hex) spec = .ok ⟨String.ofList (a.debug hex spec).chars, true⟩ :=
  congrArg Except.ok (Document.write_none (a.isWritable_debug hex spec))

/-- **What a text tells of a scalar**: the text for display its value, and the text for debugging
its kind as well. -/
theorem text_tells_value (a b : Scalar) (spec : Spec) :
    (∃ s t, a.written .display spec = .ok ⟨s, true⟩ ∧ b.written .display spec = .ok ⟨t, true⟩ ∧
      (spec.plus = false → a == b → s = t) ∧
      (spec.plus = false → spec.width = none → s = t → a == b)) ∧
    ∀ hex, ∃ s t, a.written (.debug hex) spec = .ok ⟨s, true⟩ ∧
      b.written (.debug hex) spec = .ok ⟨t, true⟩ ∧
      (spec.width = none → (s = t ↔ a.kind = b.kind ∧ a.value = b.value)) := by
  constructor
  · refine ⟨_, _, written_display a spec, written_display b spec, fun hplus hab => ?_,
      fun hplus hwidth hst => ?_⟩
    · rw [decimal_eq_integer a hplus, decimal_eq_integer b hplus, beq_iff_value_eq.mp hab]
    · rw [decimal_eq_integer a hplus, decimal_eq_integer b hplus, String.ofList_inj] at hst
      exact beq_iff_value_eq.mpr (Spec.chars_integer_injective hwidth hst)
  · intro hex
    refine ⟨_, _, written_debug a hex spec, written_debug b hex spec, fun hwidth => ?_⟩
    rw [String.ofList_inj, chars_debug_eq_iff hex hwidth]

theorem text_tells_value_two_hundred :
    let a : Scalar := ⟨⟨.signed, .w64⟩, Word.ofInt _ 200⟩
    let b : Scalar := ⟨⟨.unsigned, .w8⟩, Word.ofNat _ 200⟩
    let field : Spec :=
      { fill := '*', alignment := some .centre, alternate := true, width := some 8 }
    let lines : Spec := { plus := true, alternate := true }
    a == b ∧ (∃ s, a.written .display field = .ok ⟨s, true⟩ ∧
        b.written .display field = .ok ⟨s, true⟩ ∧ s = "**200***") ∧
      (∃ s t, a.written .display {} = .ok ⟨s, true⟩ ∧ b.written .display {} = .ok ⟨t, true⟩ ∧
        s = t ∧ (s = t → a == b)) ∧
      a.written (.debug (some .upper)) lines ≠ b.written (.debug (some .upper)) lines := by
  intro a b field lines
  have hab : a == b := by decide
  obtain ⟨⟨s, t, hs, ht, heq, -⟩, -⟩ := text_tells_value a b field
  obtain ⟨⟨s', t', hs', ht', heq', hvalue⟩, -⟩ := text_tells_value a b {}
  obtain ⟨-, hdebug⟩ := text_tells_value a b lines
  obtain ⟨u, v, hu, hv, hiff⟩ := hdebug (some .upper)
  obtain rfl := heq rfl hab
  refine ⟨hab, ⟨s, hs, ht, ?_⟩, ⟨s', t', hs', ht', heq' rfl hab, hvalue rfl rfl⟩, fun h => ?_⟩
  · have htext : a.written .display field = .ok ⟨"**200***", true⟩ := by decide +kernel
    rw [hs] at htext
    exact congrArg Written.text (Except.ok.inj htext)
  · rw [hu, hv] at h
    have huv : u = v := congrArg Written.text (Except.ok.inj h)
    exact absurd ((hiff rfl).mp huv).1 (by decide)

end Scalar

end FixedWidth
