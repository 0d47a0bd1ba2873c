import FixedWidth.Proofs.Numeral.Reading
import FixedWidth.Proofs.Text.Layout

/-!
# From a word to its text and back

A text of an unsigned word that is neither filled up nor marked with its radix is read back as the
word: behind the sign it spells some zeros and then the digits of the word. The other way round the
text that was read comes back without its plus sign and its superfluous zeros and in the case of the
form (`Form.normalize`).
-/

namespace FixedWidth

namespace Form

/-- A numeral without its plus sign and its superfluous zeros, with letters in the case of the
form. -/
def normalize (form : Form) (s : String) : String :=
  String.ofList ((trimLeading '0' (withoutPlus s.toList)).map form.letters.convert)

theorem toList_numeral (form : Form) (n : Nat) :
    (form.numeral n).toList = (form.radix.digits n).map form.letters.digit :=
  String.toList_ofList

theorem front_eq (form : Form) (spec : Spec) : form.front spec = "" ∨ form.front spec = "+" := by
  have hsign : spec.sign false = "" ∨ spec.sign false = "+" := by
    rw [spec.sign_false]
    cases spec.plus with
    | true => exact Or.inr rfl
    | false => exact Or.inl rfl
  cases form with
  | display => exact Or.inl rfl
  | debug hex => exact Or.inl rfl
  | hexadecimal letters => exact hsign
  | octal => exact hsign
  | binary => exact hsign

theorem spells_zeros (form : Form) (n k : Nat) :
    form.radix.Spells (List.replicate k '0' ++ (form.numeral n).toList)
      (List.replicate k 0 ++ form.radix.digits n) := by
  have hzero : form.letters.digit 0 = '0' := by
    cases form.letters <;> rfl
  have hmap : (List.replicate k 0 ++ form.radix.digits n).map form.letters.digit =
      List.replicate k '0' ++ (form.numeral n).toList := by
    rw [List.map_append, List.map_replicate, hzero, toList_numeral]
  rw [← hmap]
  refine Radix.spells_map_digit form.letters ?_
  intro d hd
  rcases List.mem_append.mp hd with hd | hd
  · rw [List.eq_of_mem_replicate hd]
    exact form.radix.base_pos
  · exact form.radix.digits_lt n d hd

end Form

namespace Word

variable {w : Width} {x : Unsigned w}

/-- Behind the front stand zeros and the digits of the word, which are read as the word. -/
theorem exists_read_of_zeroPadded {d : Document} {form : Form} {spec : Spec} {width : Nat}
    (h : d.ZeroPadded (form.front spec) (form.numeral x.toNat) width) :
    ∃ s, d.write none = ⟨s, true⟩ ∧ form.radix.read w s = .ok x := by
  refine ⟨_, h.write_none, ?_⟩
  rw [Radix.read_eq_ok_iff, String.toList_ofList]
  generalize width - _ = k
  have hspells := form.spells_zeros x.toNat k
  have hplus : withoutPlus ((form.front spec).toList ++
      (List.replicate k '0' ++ (form.numeral x.toNat).toList)) =
        List.replicate k '0' ++ (form.numeral x.toNat).toList := by
    rcases form.front_eq spec with hf | hf
    · rw [hf]
      exact hspells.withoutPlus_eq
    · rw [hf]
      rfl
  rw [hplus]
  refine ⟨hspells.ne_nil_iff.mpr ?_, _, hspells, ?_⟩
  · exact List.append_ne_nil_of_right_ne_nil _ (form.radix.digits_ne_nil x.toNat)
  · rw [Radix.valueOf_replicate_append, Radix.valueOf_digits]

theorem numeral_of_read {form : Form} {s : String} (h : form.radix.read w s = .ok x) :
    form.numeral x.toNat = form.normalize s := by
  obtain ⟨hne, ds, hds, hv⟩ := Radix.read_eq_ok_iff.mp h
  rw [Form.numeral, Radix.write, ← hv, Radix.digits_valueOf (hds.ne_nil_iff.mp hne) hds.lt,
    hds.map_trimLeading form.letters]
  rfl

/-- **Text and value.** A text without filling is read back as its word, and a text that is read
comes back in its plain form. -/
theorem text_roundTrip (w : Width) (engine : DigitEngine) (form : Form) :
    (∀ (x : Unsigned w) (spec : Spec), spec.alternate = false →
      spec.Unfilled (x.document engine form { spec with width := none }).toText.length →
        ∃ s, (x.document engine form spec).write none = ⟨s, true⟩ ∧ form.radix.read w s = .ok x) ∧
    ∀ (s : String) (x : Unsigned w), form.radix.read w s = .ok x →
      (x.document engine form {}).write none = ⟨form.normalize s, true⟩ := by
  constructor
  · intro x spec ha hfill
    rw [x.toText_of_no_width engine form ha, String.length_append] at hfill
    exact exists_read_of_zeroPadded (x.zeroPadded_document engine form ha hfill)
  · intro s x h
    have hfront : form.front {} = "" := by
      cases form <;> rfl
    have hd : (x.document engine form {}).ZeroPadded (form.front {}) (form.numeral x.toNat) 0 :=
      x.zeroPadded_document engine form rfl (Or.inr (Nat.zero_le _))
    rw [hd.write_of_le (Nat.zero_le _), hfront, String.empty_append, numeral_of_read h]

theorem text_roundTrip_beef :
    (∃ s, ((ofNat ⟨.unsigned, .w32⟩ 48879).document .paired (.hexadecimal .upper)
        { plus := true, zero := true, width := some 12 }).write none = ⟨s, true⟩ ∧
      Radix.hexadecimal.read .w32 s = .ok (ofNat _ 48879)) ∧
    Radix.hexadecimal.read .w32 "+00beEF" = .ok (ofNat _ 48879) ∧
    ((ofNat ⟨.unsigned, .w32⟩ 48879).document .paired (.hexadecimal .upper) {}).write none =
      ⟨"BEEF", true⟩ := by
  have hread : Radix.hexadecimal.read .w32 "+00beEF" = .ok (ofNat _ 48879) := by decide
  have htrip := text_roundTrip .w32 .paired (.hexadecimal .upper)
  exact ⟨htrip.1 _ _ rfl (Or.inl rfl), hread, htrip.2 "+00beEF" _ hread⟩

end Word

end FixedWidth
