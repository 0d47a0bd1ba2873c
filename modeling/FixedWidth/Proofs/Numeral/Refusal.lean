import FixedWidth.Proofs.Numeral.Reading

/-!
# What a reader refuses, and why

A reader stops at the first character that it cannot take: all before it are digits whose number
fits (`Radix.FailsAt`). Only this character decides the error: the wrong digit is told from the
digit too many by the character itself (`Radix.faultOf`), and no product of what was read so far
enters into it.
-/

namespace FixedWidth

theorem foldlM_eq_error_iff {α β ε : Type} {f : β → α → Except ε β} {xs : List α} {b : β} {e : ε} :
    xs.foldlM f b = .error e ↔
      ∃ front x back c, xs = front ++ x :: back ∧ front.foldlM f b = .ok c ∧ f c x = .error e := by
  induction xs generalizing b with
  | nil =>
    constructor
    · intro h
      cases h
    · rintro ⟨front, x, back, c, hxs, -⟩
      exact absurd hxs.symm (List.append_ne_nil_of_right_ne_nil _ (List.cons_ne_nil x back))
  | cons y ys ih =>
    rw [List.foldlM_cons]
    constructor
    · intro h
      cases hy : f b y with
      | error e' =>
        rw [hy] at h
        cases h
        exact ⟨[], y, ys, b, rfl, rfl, hy⟩
      | ok b' =>
        rw [hy] at h
        obtain ⟨front, x, back, c, rfl, hfront, hx⟩ := ih.mp h
        refine ⟨y :: front, x, back, c, rfl, ?_, hx⟩
        rw [List.foldlM_cons, hy]
        exact hfront
    · rintro ⟨front, x, back, c, hxs, hfront, hx⟩
      cases front with
      | nil =>
        obtain ⟨rfl, rfl⟩ := List.cons.inj hxs
        obtain rfl : b = c := Except.ok.inj hfront
        rw [hx]
        rfl
      | cons z front =>
        obtain ⟨rfl, rfl⟩ := List.cons.inj hxs
        rw [List.foldlM_cons] at hfront
        cases hy : f b y with
        | error e' =>
          rw [hy] at hfront
          cases hfront
        | ok b' =>
          rw [hy] at hfront
          exact ih.mpr ⟨front, x, back, c, rfl, hfront, hx⟩

theorem Word.toNat_greatest (w : Width) : (Word.greatest w).toNat + 1 = w.modulus := by
  cases w <;> rfl

namespace Radix

variable {r : Radix} {w : Width} {c : Char} {cs : List Char} {n : Nat} {ds : List Nat}
  {s : String} {e : NumeralError}

/-! ### One character -/

/-- What is wrong with a character at which reading stops. -/
def faultOf (r : Radix) (c : Char) : NumeralError :=
  match r.digitOf? c with
  | none => .invalidDigit
  | some _ => .overflow

theorem extend_eq_error_iff :
    r.extend w n c = .error e ↔
      (∀ d, r.digitOf? c = some d → w.modulus ≤ n * r.base + d) ∧ e = r.faultOf c := by
  cases hc : r.digitOf? c with
  | none =>
    rw [extend_of_none hc, faultOf, hc]
    constructor
    · intro h
      cases h
      exact ⟨fun d hd => (nomatch hd), rfl⟩
    · rintro ⟨-, rfl⟩
      rfl
  | some d =>
    rw [extend_of_some hc, faultOf, hc]
    split
    · rename_i hlt
      constructor
      · intro h
        cases h
      · rintro ⟨hle, -⟩
        exact absurd (hle d rfl) (Nat.not_le.mpr hlt)
    · rename_i hge
      constructor
      · intro h
        cases h
        exact ⟨fun d' hd' => Option.some.inj hd' ▸ Nat.not_lt.mp hge, rfl⟩
      · rintro ⟨-, rfl⟩
        rfl

theorem digitOf?_zero (r : Radix) : r.digitOf? '0' = some 0 := by
  rw [digitOf?_eq_some_iff]
  exact ⟨rfl, r.base_pos⟩

/-! ### The characters of a text -/

/-- `c` is the first character of a text that cannot be taken: it is no digit, or a digit too many. -/
def FailsAt (r : Radix) (w : Width) (cs : List Char) (c : Char) : Prop :=
  ∃ front back ds, cs = front ++ c :: back ∧ r.Spells front ds ∧
    r.valueOf ds ≤ (Word.greatest w).toNat ∧
      ∀ d, r.digitOf? c = some d → (Word.greatest w).toNat < r.valueOf (ds ++ [d])

theorem readDigits_eq_ok_iff :
    r.readDigits w cs = .ok n ↔
      ∃ ds, r.Spells cs ds ∧ r.valueOf ds = n ∧ n ≤ (Word.greatest w).toNat := by
  have hw := Word.toNat_greatest w
  have hfits : n < w.modulus ↔ n ≤ (Word.greatest w).toNat := by omega
  rw [readDigits, foldlM_extend_eq_ok_iff (show 0 < w.modulus by omega), hfits]
  exact Iff.rfl

theorem readDigits_eq_error_iff :
    r.readDigits w cs = .error e ↔ ∃ c, r.FailsAt w cs c ∧ e = r.faultOf c := by
  have hw := Word.toNat_greatest w
  rw [readDigits, foldlM_eq_error_iff]
  constructor
  · rintro ⟨front, c, back, n, rfl, hfront, hc⟩
    obtain ⟨ds, hds, rfl, hle⟩ := readDigits_eq_ok_iff.mp hfront
    obtain ⟨hd, rfl⟩ := extend_eq_error_iff.mp hc
    refine ⟨c, ⟨front, back, ds, rfl, hds, hle, fun d hcd => ?_⟩, rfl⟩
    have := hd d hcd
    rw [valueOf_append_singleton]
    omega
  · rintro ⟨c, ⟨front, back, ds, rfl, hds, hle, hd⟩, rfl⟩
    have hfront : r.readDigits w front = .ok (r.valueOf ds) :=
      readDigits_eq_ok_iff.mpr ⟨ds, hds, rfl, hle⟩
    refine ⟨front, c, back, r.valueOf ds, rfl, hfront, extend_eq_error_iff.mpr ⟨?_, rfl⟩⟩
    intro d hcd
    have := hd d hcd
    rw [valueOf_append_singleton] at this
    omega

/-- A character that is no digit ends the reading wherever the number before it fits. -/
theorem readDigits_of_none {front back : List Char} (hds : r.Spells front ds)
    (hle : r.valueOf ds ≤ (Word.greatest w).toNat) (hc : r.digitOf? c = none) :
    r.readDigits w (front ++ c :: back) = .error .invalidDigit := by
  have hfault : r.faultOf c = .invalidDigit := by
    rw [faultOf, hc]
  rw [readDigits_eq_error_iff, ← hfault]
  refine ⟨c, ⟨front, back, ds, rfl, hds, hle, fun d hd => ?_⟩, rfl⟩
  rw [hc] at hd
  cases hd

theorem readDigits_replicate_append (k : Nat) (cs : List Char) :
    r.readDigits w (List.replicate k '0' ++ cs) = r.readDigits w cs := by
  induction k with
  | zero => rfl
  | succ k ih =>
    have hw := Word.toNat_greatest w
    have hzero : r.extend w 0 '0' = .ok 0 := by
      rw [extend_of_some r.digitOf?_zero, Nat.zero_mul, Nat.zero_add, if_pos (by omega)]
    rw [List.replicate_succ, List.cons_append, readDigits, List.foldlM_cons, hzero]
    exact ih

/-! ### A whole text -/

theorem Spells.exists_digit (h : r.Spells cs ds) (hc : c ∈ cs) : ∃ d, r.digitOf? c = some d := by
  induction h with
  | nil => exact absurd hc List.not_mem_nil
  | @cons _ d _ _ hd _ ih =>
    rcases List.mem_cons.mp hc with rfl | hc
    · exact ⟨d, hd⟩
    · exact ih hc

theorem withoutPlus_ne_nil (hempty : s ≠ "") (hplus : s ≠ "+") : withoutPlus s.toList ≠ [] := by
  intro h
  rcases eq_or_eq_withoutPlus s.toList with hs | hs
  · rw [h] at hs
    exact hplus (String.toList_inj.mp hs)
  · rw [h] at hs
    exact hempty (String.toList_inj.mp hs)

theorem mem_withoutPlus (hc : c ≠ '+') (h : c ∈ cs) : c ∈ withoutPlus cs := by
  rcases eq_or_eq_withoutPlus cs with hcs | hcs
  · rw [hcs] at h
    exact (List.mem_cons.mp h).resolve_left hc
  · exact hcs ▸ h

/-- **All that a reader can answer**: the number of a numeral, or the fault of the first character
that cannot be taken. -/
theorem read_grammar (r : Radix) (w : Width) (s : String) :
    let greatest := (Word.greatest w).toNat
    let body := withoutPlus s.toList
    (s = "" → r.read w s = .error .empty) ∧
    (s = "+" ∨ s = "-" → r.read w s = .error .invalidDigit) ∧
    (s ≠ "" → s ≠ "+" →
      (∀ n, (∃ x, r.read w s = .ok x ∧ x.toNat = n) ↔
        ∃ ds, r.Spells body ds ∧ r.valueOf ds = n ∧ n ≤ greatest) ∧
      ((∃ x, r.read w s = .ok x) ∨ ∃ c, r.FailsAt w body c) ∧
      (∀ c, r.FailsAt w body c → r.read w s = .error (r.faultOf c)) ∧
      (∀ front c back ds, body = front ++ c :: back → r.Spells front ds →
        r.valueOf ds ≤ greatest → r.digitOf? c = none → r.read w s = .error .invalidDigit) ∧
      ∀ k, r.read w (String.ofList ('+' :: (List.replicate k '0' ++ body))) = r.read w s ∧
        r.read w (String.ofList (List.replicate (k + 1) '0' ++ body)) = r.read w s) ∧
    r.digitOf? '-' = none ∧ ('-' ∈ s.toList → ∀ x, r.read w s ≠ .ok x) := by
  intro greatest body
  have hw : greatest + 1 = w.modulus := Word.toNat_greatest w
  refine ⟨?_, ?_, fun hempty hplus => ?_, r.digitOf?_minus, ?_⟩
  · rintro rfl
    rfl
  · rintro (rfl | rfl) <;> rfl
  · have hbody : body ≠ [] := withoutPlus_ne_nil hempty hplus
    have hread : r.read w s = (r.readDigits w body).map (Word.ofNat _) := read_of_ne_nil hbody
    have hfails : ∀ c, r.FailsAt w body c → r.read w s = .error (r.faultOf c) := by
      intro c hc
      rw [hread, readDigits_eq_error_iff.mpr ⟨c, hc, rfl⟩]
      rfl
    have hzeros (cs : List Char) (k : Nat) (hcs : withoutPlus cs = List.replicate k '0' ++ body) :
        r.read w (String.ofList cs) = r.read w s := by
      have hne : withoutPlus (String.ofList cs).toList ≠ [] := by
        rw [String.toList_ofList, hcs]
        exact List.append_ne_nil_of_right_ne_nil _ hbody
      rw [read_of_ne_nil hne, String.toList_ofList, hcs, readDigits_replicate_append, hread]
    refine ⟨fun n => ?_, ?_, hfails, ?_, fun k => ⟨?_, ?_⟩⟩
    · rw [hread]
      constructor
      · rintro ⟨x, hx, rfl⟩
        obtain ⟨ds, hds, hv⟩ := map_readDigits_eq_ok_iff.mp hx
        have hlt : x.toNat < w.modulus := x.toNat_lt
        exact ⟨ds, hds, hv, by omega⟩
      · rintro ⟨ds, hds, hv, hle⟩
        have hlt : n < w.modulus := by omega
        have hn : (Word.ofNat ⟨.unsigned, w⟩ n).toNat = n := Word.toNat_ofNat_of_lt hlt
        exact ⟨_, map_readDigits_eq_ok_iff.mpr ⟨ds, hds, hv.trans hn.symm⟩, hn⟩
    · rw [hread]
      cases hm : r.readDigits w body with
      | ok n => exact Or.inl ⟨_, rfl⟩
      | error e =>
        obtain ⟨c, hc, -⟩ := readDigits_eq_error_iff.mp hm
        exact Or.inr ⟨c, hc⟩
    · intro front c back ds hsplit hds hle hc
      rw [hread, hsplit, readDigits_of_none hds hle hc]
      rfl
    · exact hzeros _ k rfl
    · exact hzeros _ (k + 1) rfl
  · intro hmem x hx
    obtain ⟨-, ds, hds, -⟩ := read_eq_ok_iff.mp hx
    obtain ⟨d, hd⟩ := hds.exists_digit (mem_withoutPlus (by decide) hmem)
    exact nomatch hd

/-- Behind the greatest number there is room for no digit, but what is none is still reported as
such. -/
theorem read_grammar_greatest :
    (∃ x, decimal.read .w32 "+4294967295" = .ok x ∧ x.toNat = 4294967295) ∧
      decimal.read .w32 "4294967295x" = .error .invalidDigit ∧
      decimal.read .w32 "4294967296x" = .error .overflow := by
  have hdigits : ∀ d ∈ [4, 2, 9, 4, 9, 6, 7, 2, 9], d < decimal.base := by decide
  have hdigits' : ∀ d ∈ [4, 2, 9, 4, 9, 6, 7, 2, 9, 5], d < decimal.base := by decide
  have hfront : decimal.Spells "429496729".toList [4, 2, 9, 4, 9, 6, 7, 2, 9] :=
    spells_map_digit .lower hdigits
  have hspells : decimal.Spells "4294967295".toList [4, 2, 9, 4, 9, 6, 7, 2, 9, 5] :=
    spells_map_digit .lower hdigits'
  obtain ⟨-, -, h, -⟩ := read_grammar decimal .w32 "+4294967295"
  obtain ⟨-, -, hx, -⟩ := read_grammar decimal .w32 "4294967295x"
  obtain ⟨-, -, h6, -⟩ := read_grammar decimal .w32 "4294967296x"
  refine ⟨?_, ?_, ?_⟩
  · exact ((h (by decide) (by decide)).1 4294967295).mpr ⟨_, hspells, rfl, by decide⟩
  · exact (hx (by decide) (by decide)).2.2.2.1 _ 'x' [] _ rfl hspells (by decide) rfl
  · refine (h6 (by decide) (by decide)).2.2.1 '6' ⟨_, ['x'], _, rfl, hfront, by decide, ?_⟩
    intro d hd
    obtain rfl : 6 = d := Option.some.inj hd
    decide

end Radix

end FixedWidth
