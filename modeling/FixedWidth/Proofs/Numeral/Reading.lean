import FixedWidth.Numeral.Reader
import FixedWidth.Proofs.Numeral.Digits
import FixedWidth.Proofs.Residue

/-!
# What a reader accepts

A text is read as a word just if, behind an optional plus sign, it spells at least one digit and
the number of the digits is the value of the word (`Radix.read_eq_ok_iff`). The reader checks the
fit after every digit and not only at the end, but the number never gets smaller on the way, so
the last check decides.
-/

namespace FixedWidth

/-- A text without the plus sign at its front, if it has one. -/
def withoutPlus : List Char → List Char
  | '+' :: cs => cs
  | cs => cs

theorem eq_or_eq_withoutPlus (cs : List Char) :
    cs = '+' :: withoutPlus cs ∨ cs = withoutPlus cs := by
  fun_cases withoutPlus cs with
  | case1 cs => exact Or.inl rfl
  | case2 h => exact Or.inr rfl

namespace Radix

variable {r : Radix} {w : Width} {c : Char} {cs : List Char} {n m d : Nat} {ds : List Nat}

/-! ### One character -/

theorem extend_of_none (h : r.digitOf? c = none) : r.extend w n c = .error .invalidDigit := by
  simp only [extend, h]

/-- Where the number fits with one more digit it fits without it, so only one check counts. -/
theorem extend_of_some (h : r.digitOf? c = some d) :
    r.extend w n c =
      if n * r.base + d < w.modulus then .ok (n * r.base + d) else .error .overflow := by
  simp only [extend, h, Width.fit?]
  by_cases hd : n * r.base + d < w.modulus
  · rw [if_pos (show n * r.base < w.modulus by omega), Option.bind_some, if_pos hd, if_pos hd]
  · rw [if_neg hd]
    by_cases hn : n * r.base < w.modulus
    · rw [if_pos hn, Option.bind_some, if_neg hd]
    · rw [if_neg hn, Option.bind_none]

/-! ### A whole text -/

theorem foldlM_extend_eq_ok_iff (hn : n < w.modulus) :
    cs.foldlM (r.extend w) n = .ok m ↔
      ∃ ds, r.Spells cs ds ∧ r.valueFrom n ds = m ∧ m < w.modulus := by
  induction cs generalizing n with
  | nil =>
    constructor
    · intro h
      obtain rfl : n = m := Except.ok.inj h
      exact ⟨[], List.Forall₂.nil, rfl, hn⟩
    · rintro ⟨ds, hds, h, -⟩
      cases hds with
      | nil => exact congrArg Except.ok h
  | cons c cs ih =>
    rw [List.foldlM_cons]
    cases hc : r.digitOf? c with
    | none =>
      rw [extend_of_none hc]
      constructor
      · intro h
        cases h
      · rintro ⟨ds, hds, -⟩
        cases hds with
        | cons hd _ => exact nomatch hc.symm.trans hd
    | some d =>
      rw [extend_of_some hc]
      constructor
      · intro h
        by_cases hk : n * r.base + d < w.modulus
        · rw [if_pos hk] at h
          obtain ⟨ds, hds, hv, hm⟩ := (ih hk).mp h
          exact ⟨d :: ds, List.Forall₂.cons hc hds, hv, hm⟩
        · rw [if_neg hk] at h
          cases h
      · rintro ⟨ds, hds, hv, hm⟩
        cases hds with
        | @cons _ e _ ds hd hds =>
          obtain rfl := Option.some.inj (hc.symm.trans hd)
          -- The digits behind it only make the number greater.
          have hle := r.le_valueFrom (n * r.base + d) ds
          rw [valueFrom_cons] at hv
          have hk : n * r.base + d < w.modulus := by omega
          rw [if_pos hk]
          exact (ih hk).mpr ⟨ds, hds, hv, hm⟩

theorem Spells.withoutPlus_eq (h : r.Spells cs ds) : withoutPlus cs = cs := by
  cases h with
  | nil => rfl
  | @cons c d cs ds hc _ =>
    have hne : c ≠ '+' := by
      rintro rfl
      exact nomatch hc
    rw [withoutPlus]
    exact fun _ h => hne (List.cons.inj h).1

theorem map_readDigits_eq_ok_iff {x : Unsigned w} :
    (r.readDigits w cs).map (Word.ofNat _) = .ok x ↔
      ∃ ds, r.Spells cs ds ∧ r.valueOf ds = x.toNat := by
  have hx := x.toNat_lt
  have h0 : 0 < w.modulus := Nat.lt_of_le_of_lt (Nat.zero_le _) hx
  constructor
  · intro h
    cases hm : r.readDigits w cs with
    | error e =>
      rw [hm] at h
      cases h
    | ok m =>
      rw [hm] at h
      obtain rfl := Except.ok.inj h
      obtain ⟨ds, hds, hv, hlt⟩ := (foldlM_extend_eq_ok_iff h0).mp hm
      exact ⟨ds, hds, hv.trans (Word.toNat_ofNat_of_lt hlt).symm⟩
  · rintro ⟨ds, hds, hv⟩
    have hm : r.readDigits w cs = .ok x.toNat :=
      (foldlM_extend_eq_ok_iff h0).mpr ⟨ds, hds, hv, hx⟩
    rw [hm]
    exact congrArg Except.ok (Word.ext_toNat (Word.toNat_ofNat_of_lt hx))

theorem digitOf?_minus (r : Radix) : r.digitOf? '-' = none := rfl

theorem read_eq_error_of_nil {s : String} (h : withoutPlus s.toList = []) :
    ∃ e, r.read w s = .error e := by
  rcases eq_or_eq_withoutPlus s.toList with hs | hs
  · rw [h] at hs
    refine ⟨.invalidDigit, ?_⟩
    rw [read, hs]
    rfl
  · rw [h] at hs
    refine ⟨.empty, ?_⟩
    rw [read, hs]

theorem read_of_ne_nil {s : String} (h : withoutPlus s.toList ≠ []) :
    r.read w s = (r.readDigits w (withoutPlus s.toList)).map (Word.ofNat _) := by
  rw [read]
  split
  · rename_i hs
    rw [hs] at h
    exact absurd rfl h
  · rename_i hs
    rw [hs] at h
    exact absurd rfl h
  · rename_i hs
    have hminus : r.readDigits w (withoutPlus ['-']) = .error .invalidDigit := by
      show (r.extend w 0 '-' >>= fun n => .ok n) = _
      rw [extend_of_none r.digitOf?_minus]
      rfl
    rw [hs, hminus]
    rfl
  · rename_i hs
    rw [hs]
    rfl
  · rename_i hplus
    have hs : withoutPlus s.toList = s.toList := by
      rw [withoutPlus]
      exact hplus
    rw [hs]

/-- **What is read as a word.** -/
theorem read_eq_ok_iff {s : String} {x : Unsigned w} :
    r.read w s = .ok x ↔ withoutPlus s.toList ≠ [] ∧
      ∃ ds, r.Spells (withoutPlus s.toList) ds ∧ r.valueOf ds = x.toNat := by
  by_cases hs : withoutPlus s.toList = []
  · obtain ⟨e, he⟩ := read_eq_error_of_nil (r := r) (w := w) hs
    rw [he]
    exact ⟨fun h => (nomatch h), fun h => absurd hs h.1⟩
  · rw [read_of_ne_nil hs, map_readDigits_eq_ok_iff]
    exact (and_iff_right hs).symm

end Radix

end FixedWidth
