import Mathlib.Data.Nat.Digits.Lemmas
import FixedWidth.Numeral

/-!
# Digits and their characters

A list of digits, highest first, stands for a number by Horner's rule. Among the lists of digits
below the radix that stand for one number, the one that `Radix.digits` gives is each of the others
with its superfluous zeros trimmed (`Radix.digits_valueOf`). Mathlib counts digits from the lowest;
read backwards, its digits are ours, and its theory carries over.

A text spells a list of digits when its characters stand for them one by one, which determines it up
to the case of its letters.
-/

namespace FixedWidth

/-! ### Superfluous elements in front -/

/-- A list without the `z` in front of it, of which one stays where nothing else is left. -/
def trimLeading {α : Type} [DecidableEq α] (z : α) : List α → List α
  | a :: b :: l => if a = z then trimLeading z (b :: l) else a :: b :: l
  | l => l

section Trim

variable {α : Type} [DecidableEq α] {z a : α} {l : List α}

theorem trimLeading_cons_self (h : l ≠ []) : trimLeading z (z :: l) = trimLeading z l := by
  cases l with
  | nil => exact absurd rfl h
  | cons b l => rw [trimLeading, if_pos rfl]

theorem trimLeading_cons_of_ne (h : a ≠ z) : trimLeading z (a :: l) = a :: l := by
  cases l with
  | nil => rfl
  | cons b l => rw [trimLeading, if_neg h]

end Trim

namespace Radix

variable {r : Radix} {n k d : Nat} {ds : List Nat}

/-! ### The number of a list of digits -/

/-- The number `n` with the digits `ds` behind it. -/
def valueFrom (r : Radix) (n : Nat) (ds : List Nat) : Nat :=
  ds.foldl (fun n d => n * r.base + d) n

/-- The number that a list of digits stands for. -/
def valueOf (r : Radix) (ds : List Nat) : Nat := r.valueFrom 0 ds

theorem one_lt_base (r : Radix) : 1 < r.base := r.two_le

theorem base_pos (r : Radix) : 0 < r.base := Nat.lt_trans Nat.zero_lt_one r.one_lt_base

@[simp]
theorem valueFrom_cons (r : Radix) (n d : Nat) (ds : List Nat) :
    r.valueFrom n (d :: ds) = r.valueFrom (n * r.base + d) ds := rfl

theorem le_valueFrom (r : Radix) (n : Nat) (ds : List Nat) : n ≤ r.valueFrom n ds := by
  induction ds generalizing n with
  | nil => exact Nat.le_refl n
  | cons d ds ih =>
    have hn : n ≤ n * r.base := Nat.le_mul_of_pos_right n r.base_pos
    have := ih (n * r.base + d)
    rw [valueFrom_cons]
    omega

theorem valueOf_zero_cons (r : Radix) (ds : List Nat) : r.valueOf (0 :: ds) = r.valueOf ds := by
  simp only [valueOf, valueFrom_cons, Nat.zero_mul, Nat.zero_add]

theorem valueOf_replicate_append (r : Radix) (k : Nat) (ds : List Nat) :
    r.valueOf (List.replicate k 0 ++ ds) = r.valueOf ds := by
  induction k with
  | zero => rfl
  | succ k ih => rw [List.replicate_succ, List.cons_append, valueOf_zero_cons, ih]

theorem valueOf_append_singleton (r : Radix) (ds : List Nat) (d : Nat) :
    r.valueOf (ds ++ [d]) = r.valueOf ds * r.base + d := by
  simp only [valueOf, valueFrom, List.foldl_append, List.foldl_cons, List.foldl_nil]

/-- Horner's rule, against the digits counted from the lowest. -/
theorem valueOf_eq_ofDigits (r : Radix) (ds : List Nat) :
    r.valueOf ds = Nat.ofDigits r.base ds.reverse := by
  induction ds using List.reverseRecOn with
  | nil => rfl
  | append_singleton ds d ih =>
    rw [List.reverse_append, List.reverse_singleton, List.singleton_append, Nat.ofDigits_cons, ← ih,
      valueOf_append_singleton, Nat.add_comm, Nat.mul_comm]

/-! ### The digits of a number -/

theorem digits_of_lt (h : n < r.base) : r.digits n = [n] := by
  rw [digits, if_pos h]

theorem digits_of_le (h : r.base ≤ n) : r.digits n = r.digits (n / r.base) ++ [n % r.base] := by
  rw [digits, if_neg (by omega)]

theorem digits_zero (r : Radix) : r.digits 0 = [0] := digits_of_lt r.base_pos

theorem digits_ne_nil (r : Radix) (n : Nat) : r.digits n ≠ [] := by
  rcases Nat.lt_or_ge n r.base with h | h
  · rw [digits_of_lt h]
    exact List.cons_ne_nil n []
  · rw [digits_of_le h]
    exact List.append_ne_nil_of_right_ne_nil _ (List.cons_ne_nil _ [])

theorem digits_eq_reverse (h : n ≠ 0) : r.digits n = (Nat.digits r.base n).reverse := by
  have hb := r.one_lt_base
  fun_induction digits r n with
  | case1 n hn => rw [Nat.digits_of_lt r.base n h hn, List.reverse_singleton]
  | case2 n hn ih =>
    have hq : n / r.base ≠ 0 := Nat.div_ne_zero_iff.mpr ⟨by omega, Nat.le_of_not_lt hn⟩
    rw [ih hq, Nat.digits_def' hb (Nat.pos_of_ne_zero h), List.reverse_cons]

theorem head?_digits_eq_zero_iff (r : Radix) (n : Nat) : (r.digits n).head? = some 0 ↔ n = 0 := by
  constructor
  · intro h
    by_contra hn
    have hne : Nat.digits r.base n ≠ [] := Nat.digits_ne_nil_iff_ne_zero.mpr hn
    rw [digits_eq_reverse hn, List.head?_reverse, List.getLast?_eq_some_getLast hne] at h
    have hlast := Option.some.inj h
    exact Nat.getLast_digit_ne_zero r.base hn hlast
  · rintro rfl
    rw [digits_zero]
    rfl

theorem valueOf_digits (r : Radix) (n : Nat) : r.valueOf (r.digits n) = n := by
  rcases Nat.eq_zero_or_pos n with rfl | h
  · rw [digits_zero, valueOf_zero_cons]
    rfl
  · rw [valueOf_eq_ofDigits, digits_eq_reverse (by omega), List.reverse_reverse,
      Nat.ofDigits_digits]

theorem length_digits_le (hk : 0 < k) (h : n < r.base ^ k) : (r.digits n).length ≤ k := by
  rcases Nat.eq_zero_or_pos n with rfl | hn
  · rw [digits_zero]
    exact hk
  · rw [digits_eq_reverse (by omega), List.length_reverse]
    exact (Nat.digits_length_le_iff r.one_lt_base n).mpr h

theorem digits_valueOf_of_ne_zero (hd : d ≠ 0) (h : ∀ e ∈ d :: ds, e < r.base) :
    r.digits (r.valueOf (d :: ds)) = d :: ds := by
  have hl : Nat.digits r.base (Nat.ofDigits r.base (d :: ds).reverse) = (d :: ds).reverse := by
    refine Nat.digits_ofDigits r.base r.one_lt_base _ ?_ ?_
    · intro e he
      exact h e (List.mem_reverse.mp he)
    · intro hne
      rw [List.getLast_reverse, List.head_cons]
      exact hd
  have hn : Nat.ofDigits r.base (d :: ds).reverse ≠ 0 := by
    intro h0
    rw [h0, Nat.digits_zero] at hl
    exact absurd (List.reverse_eq_nil_iff.mp hl.symm) (List.cons_ne_nil d ds)
  rw [valueOf_eq_ofDigits, digits_eq_reverse hn, hl, List.reverse_reverse]

/-- **The digits of the number of a list of digits are the list, up to superfluous zeros.** -/
theorem digits_valueOf (hne : ds ≠ []) (h : ∀ d ∈ ds, d < r.base) :
    r.digits (r.valueOf ds) = trimLeading 0 ds := by
  induction ds with
  | nil => exact absurd rfl hne
  | cons d ds ih =>
    rcases Nat.eq_zero_or_pos d with rfl | hd
    · cases ds with
      | nil =>
        rw [valueOf_zero_cons]
        exact r.digits_zero
      | cons e ds =>
        rw [valueOf_zero_cons, trimLeading_cons_self (List.cons_ne_nil e ds)]
        exact ih (List.cons_ne_nil e ds) fun a ha => h a (List.mem_cons_of_mem 0 ha)
    · have hd : d ≠ 0 := by omega
      rw [digits_valueOf_of_ne_zero hd h, trimLeading_cons_of_ne hd]

end Radix

/-! ### The characters of the digits -/

def LetterCase.convert : LetterCase → Char → Char
  | .lower, c => c.toLower
  | .upper, c => c.toUpper

theorem toNat_lt_of_digitValue? {c : Char} {d : Nat} (h : digitValue? c = some d) :
    c.toNat < 128 := by
  have hle (top : Char) (hc : c ≤ top) : c.toNat ≤ top.toNat :=
    UInt32.le_iff_toNat_le.mp (Char.le_def.mp hc)
  rw [digitValue?] at h
  split at h
  · rename_i hc
    exact Nat.lt_of_le_of_lt (hle '9' hc.2) (by decide)
  · split at h
    · rename_i hc
      exact Nat.lt_of_le_of_lt (hle 'z' hc.2) (by decide)
    · split at h
      · rename_i hc
        exact Nat.lt_of_le_of_lt (hle 'Z' hc.2) (by decide)
      · cases h

/-- The ASCII characters of a digit are that digit in either case, and only one stands for zero. -/
theorem digitValue?_ascii : ∀ i : Fin 128, ∀ d ∈ digitValue? (Char.ofNat i),
    (LetterCase.lower.digit d = LetterCase.lower.convert (Char.ofNat i) ∧
      LetterCase.upper.digit d = LetterCase.upper.convert (Char.ofNat i)) ∧
        (d = 0 ↔ Char.ofNat i = '0') := by
  decide

theorem digitValue?_digit (letters : LetterCase) {d : Nat} (h : d < 36) :
    digitValue? (letters.digit d) = some d := by
  have hall : ∀ i : Fin 36, digitValue? (LetterCase.lower.digit i) = some i.val ∧
      digitValue? (LetterCase.upper.digit i) = some i.val := by
    decide
  cases letters with
  | lower => exact (hall ⟨d, h⟩).1
  | upper => exact (hall ⟨d, h⟩).2

namespace Radix

variable {r : Radix} {c : Char} {cs : List Char} {d : Nat} {ds : List Nat}

theorem digitOf?_eq_some_iff : r.digitOf? c = some d ↔ digitValue? c = some d ∧ d < r.base := by
  rw [digitOf?, Option.filter_eq_some_iff, decide_eq_true_iff]

theorem digitOf?_digit (letters : LetterCase) (h : d < r.base) :
    r.digitOf? (letters.digit d) = some d :=
  digitOf?_eq_some_iff.mpr ⟨digitValue?_digit letters (Nat.lt_of_lt_of_le h r.le_36), h⟩

theorem digit_of_digitOf? (letters : LetterCase) (h : r.digitOf? c = some d) :
    letters.digit d = letters.convert c := by
  have hc := (digitOf?_eq_some_iff.mp h).1
  have hd := digitValue?_ascii ⟨c.toNat, toNat_lt_of_digitValue? hc⟩ d
  rw [Char.ofNat_toNat] at hd
  cases letters with
  | lower => exact (hd hc).1.1
  | upper => exact (hd hc).1.2

theorem eq_zero_iff_of_digitOf? (h : r.digitOf? c = some d) : d = 0 ↔ c = '0' := by
  have hc := (digitOf?_eq_some_iff.mp h).1
  have hd := digitValue?_ascii ⟨c.toNat, toNat_lt_of_digitValue? hc⟩ d
  rw [Char.ofNat_toNat] at hd
  exact (hd hc).2

/-! ### Spelling -/

/-- The characters stand for the digits, one by one. -/
def Spells (r : Radix) (cs : List Char) (ds : List Nat) : Prop :=
  List.Forall₂ (fun c d => r.digitOf? c = some d) cs ds

theorem Spells.lt (h : r.Spells cs ds) : ∀ d ∈ ds, d < r.base := by
  induction h with
  | nil => exact fun d hd => absurd hd List.not_mem_nil
  | cons hc _ ih =>
    intro d hd
    rcases List.mem_cons.mp hd with rfl | hd
    · exact (digitOf?_eq_some_iff.mp hc).2
    · exact ih d hd

theorem Spells.ne_nil_iff (h : r.Spells cs ds) : cs ≠ [] ↔ ds ≠ [] := by
  cases h with
  | nil => exact iff_of_false (fun h => h rfl) fun h => h rfl
  | cons _ _ => exact iff_of_true (List.cons_ne_nil _ _) (List.cons_ne_nil _ _)

theorem spells_map_digit (letters : LetterCase) (h : ∀ d ∈ ds, d < r.base) :
    r.Spells (ds.map letters.digit) ds := by
  induction ds with
  | nil => exact List.Forall₂.nil
  | cons d ds ih =>
    refine List.Forall₂.cons (digitOf?_digit letters (h d List.mem_cons_self)) ?_
    exact ih fun e he => h e (List.mem_cons_of_mem d he)

theorem Spells.map_digit (letters : LetterCase) (h : r.Spells cs ds) :
    ds.map letters.digit = cs.map letters.convert := by
  induction h with
  | nil => rfl
  | cons hc _ ih => rw [List.map_cons, List.map_cons, ih, digit_of_digitOf? letters hc]

/-- **A text is the text of its digits**, up to superfluous zeros and the case of its letters. -/
theorem Spells.map_trimLeading (letters : LetterCase) (h : r.Spells cs ds) :
    (trimLeading 0 ds).map letters.digit = (trimLeading '0' cs).map letters.convert := by
  induction h with
  | nil => rfl
  | @cons c d cs ds hc hcs ih =>
    by_cases hd : d = 0
    · obtain rfl := (eq_zero_iff_of_digitOf? hc).mp hd
      obtain rfl := hd
      cases hcs with
      | nil => exact Spells.map_digit letters (List.Forall₂.cons hc List.Forall₂.nil)
      | cons he hcs =>
        rw [trimLeading_cons_self (List.cons_ne_nil _ _),
          trimLeading_cons_self (List.cons_ne_nil _ _)]
        exact ih
    · have hne : c ≠ '0' := fun h => hd ((eq_zero_iff_of_digitOf? hc).mpr h)
      rw [trimLeading_cons_of_ne hd, trimLeading_cons_of_ne hne]
      exact Spells.map_digit letters (List.Forall₂.cons hc hcs)

end Radix

end FixedWidth
