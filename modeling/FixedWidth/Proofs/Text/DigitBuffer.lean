import FixedWidth.Proofs.Numeral.Digits
import FixedWidth.Text.DigitBuffer

/-!
# Both ways to fill a buffer of digits

One digit for every division and two for every division put the same bytes in front of those that
a buffer already holds: the decimal digits of the number, as far as there is room for them. A
number of 64 bits has at most twenty digits, so a blank buffer always has room, every byte that is
written is ASCII, and the two engines write the same numeral.
-/

namespace FixedWidth

namespace DigitBuffer

variable {before middle after : DigitBuffer} {bs cs : List UInt8} {k n : Nat}

/-! ### More bytes in front -/

/-- One buffer holds the bytes of another behind some more. -/
structure Extends (after before : DigitBuffer) (bs : List UInt8) : Prop where
  bytes_eq : after.bytes = bs ++ before.bytes
  start_add : after.start.val + bs.length = before.start.val

theorem Extends.trans (h : after.Extends middle bs) (g : middle.Extends before cs) :
    after.Extends before (bs ++ cs) := by
  constructor
  · rw [h.bytes_eq, g.bytes_eq, List.append_assoc]
  · rw [List.length_append, ← g.start_add, ← h.start_add, Nat.add_assoc]

theorem Extends.le_start (h : after.Extends before bs) (hk : k + bs.length ≤ before.start.val) :
    k ≤ after.start.val := by
  have := h.start_add
  omega

theorem push?_extends (h : 0 < before.start.val) (b : UInt8) :
    ∃ after, before.push? b = some after ∧ after.Extends before [b] := by
  rw [push?, dif_pos h]
  refine ⟨_, rfl, ?_, Nat.sub_add_cancel h⟩
  have hlt : before.start.val - 1 < before.cells.toList.length := by
    rw [Vector.length_toList]
    omega
  have hs : before.start.val - 1 + 1 = before.start.val := Nat.sub_add_cancel h
  -- The cell that is written is the first of the bytes in use from now on.
  simp only [bytes, Vector.toList_set]
  rw [List.drop_set, if_neg (Nat.lt_irrefl _), Nat.sub_self, List.drop_eq_getElem_cons hlt, hs]
  rfl

/-! ### One digit at a time -/

theorem digits_of_lt_ten (h : n < 10) : Radix.decimal.digits n = [n] := Radix.digits_of_lt h

theorem digits_of_ten_le (h : 10 ≤ n) :
    Radix.decimal.digits n = Radix.decimal.digits (n / 10) ++ [n % 10] :=
  Radix.digits_of_le h

theorem pushDigits?_extends (n : Nat) (before : DigitBuffer)
    (h : (Radix.decimal.digits n).length ≤ before.start.val) :
    ∃ after, pushDigits? n before = some after ∧
      after.Extends before ((Radix.decimal.digits n).map digitByte) := by
  induction n using Nat.strongRecOn generalizing before with
  | ind n ih =>
    have hpos : 0 < before.start.val := by
      have := List.length_pos_iff.mpr (Radix.decimal.digits_ne_nil n)
      omega
    -- The last digit goes in first, and the digits of the quotient go in front of it.
    obtain ⟨middle, hm, hlast⟩ := push?_extends hpos (digitByte (n % 10))
    rw [pushDigits?, hm]
    dsimp only
    rcases Nat.lt_or_ge n 10 with hn | hn
    · rw [if_pos (Nat.div_eq_of_lt hn), digits_of_lt_ten hn]
      rw [Nat.mod_eq_of_lt hn] at hlast
      exact ⟨middle, rfl, hlast⟩
    · rw [digits_of_ten_le hn] at h ⊢
      rw [List.length_append] at h
      obtain ⟨after, ha, hfront⟩ := ih (n / 10) (by omega) middle (hlast.le_start h)
      rw [if_neg (show n / 10 ≠ 0 by omega), List.map_append]
      exact ⟨after, ha, hfront.trans hlast⟩

/-! ### Two digits at a time -/

theorem digits_of_hundred_le (h : 100 ≤ n) :
    Radix.decimal.digits n = Radix.decimal.digits (n / 100) ++ [n % 100 / 10, n % 100 % 10] := by
  have htens : n / 10 % 10 = n % 100 / 10 := by omega
  have hunits : n % 10 = n % 100 % 10 := by omega
  have hrest : n / 10 / 10 = n / 100 := by omega
  rw [digits_of_ten_le (show 10 ≤ n by omega), digits_of_ten_le (show 10 ≤ n / 10 by omega),
    htens, hunits, hrest, List.append_assoc]
  rfl

theorem toList_pairTable :
    pairTable.toList = (List.range 200).map fun i =>
      digitByte (if i % 2 = 0 then i / 2 / 10 else i / 2 % 10) := by
  decide +kernel

/-- The table holds the tens and the units of every number below a hundred. -/
theorem pairTable_eq (h : n < 100) :
    pairTable[2 * n]? = some (digitByte (n / 10)) ∧
      pairTable[2 * n + 1]? = some (digitByte (n % 10)) := by
  have htens : (2 * n) % 2 = 0 ∧ 2 * n / 2 = n := by omega
  have hunits : (2 * n + 1) % 2 ≠ 0 ∧ (2 * n + 1) / 2 = n := by omega
  constructor
  · rw [← Vector.getElem?_toList, toList_pairTable, List.getElem?_map,
      List.getElem?_range (show 2 * n < 200 by omega), Option.map_some, if_pos htens.1, htens.2]
  · rw [← Vector.getElem?_toList, toList_pairTable, List.getElem?_map,
      List.getElem?_range (show 2 * n + 1 < 200 by omega), Option.map_some, if_neg hunits.1,
      hunits.2]

theorem pushPair?_extends (hn : n < 100) (h : 2 ≤ before.start.val) :
    ∃ after, pushPair? n before = some after ∧
      after.Extends before ([n / 10, n % 10].map digitByte) := by
  obtain ⟨htens, hunits⟩ := pairTable_eq hn
  obtain ⟨middle, hm, hlast⟩ := push?_extends (show 0 < before.start.val by omega)
    (digitByte (n % 10))
  obtain ⟨after, ha, hfirst⟩ := push?_extends (hlast.le_start h) (digitByte (n / 10))
  simp only [pushPair?, htens, hunits, hm, Option.bind_some]
  exact ⟨after, ha, hfirst.trans hlast⟩

theorem pushPairs?_extends (n : Nat) (before : DigitBuffer)
    (h : (Radix.decimal.digits n).length ≤ before.start.val) :
    ∃ after, pushPairs? n before = some after ∧
      after.Extends before ((Radix.decimal.digits n).map digitByte) := by
  induction n using Nat.strongRecOn generalizing before with
  | ind n ih =>
    rw [pushPairs?]
    rcases Nat.lt_or_ge n 100 with hn | hn
    · rw [if_neg (by omega)]
      rcases Nat.lt_or_ge n 10 with hs | hs
      · rw [digits_of_lt_ten hs] at h ⊢
        rw [if_neg (by omega)]
        exact push?_extends h (digitByte n)
      · rw [digits_of_ten_le hs, digits_of_lt_ten (show n / 10 < 10 by omega)] at h ⊢
        rw [if_pos hs]
        exact pushPair?_extends hn h
    · rw [digits_of_hundred_le hn] at h ⊢
      rw [List.length_append] at h
      have h2 : 2 ≤ before.start.val := Nat.le_trans (Nat.le_add_left 2 _) h
      obtain ⟨middle, hm, hlast⟩ := pushPair?_extends (Nat.mod_lt n (by omega : 100 > 0)) h2
      obtain ⟨after, ha, hfront⟩ := ih (n / 100) (by omega) middle (hlast.le_start h)
      rw [if_pos hn, hm, List.map_append]
      exact ⟨after, ha, hfront.trans hlast⟩

/-! ### The text of a buffer -/

theorem mapM_asciiChar? {ds : List Nat} (h : ∀ d ∈ ds, d < 10) :
    (ds.map digitByte).mapM asciiChar? = some (ds.map LetterCase.lower.digit) := by
  have hall : ∀ i : Fin 10, asciiChar? (digitByte i) = some (LetterCase.lower.digit i) := by
    decide
  induction ds with
  | nil => rfl
  | cons d ds ih =>
    have hd := hall ⟨d, h d List.mem_cons_self⟩
    have hds := ih fun e he => h e (List.mem_cons_of_mem d he)
    simp only [List.map_cons, List.mapM_cons, hd, hds]
    rfl

theorem Extends.text?_of_blank (h : after.Extends blank ((Radix.decimal.digits n).map digitByte)) :
    after.text? = some (Radix.decimal.write .lower n) := by
  have hblank : blank.bytes = [] := rfl
  rw [text?, h.bytes_eq, hblank, List.append_nil, mapM_asciiChar? (Radix.decimal.digits_lt n)]
  rfl

end DigitBuffer

namespace DigitEngine

variable {n : Nat}

/-- **Both engines put the decimal digits of every number of 64 bits into a buffer.** -/
theorem fill?_extends (engine : DigitEngine) (h : n < 2 ^ 64) :
    ∃ buffer, engine.fill? n = some buffer ∧
      buffer.Extends .blank ((Radix.decimal.digits n).map DigitBuffer.digitByte) := by
  have hroom : (Radix.decimal.digits n).length ≤ DigitBuffer.blank.start.val := by
    refine Radix.length_digits_le (by decide) (Nat.lt_trans h ?_)
    decide
  cases engine with
  | single => exact DigitBuffer.pushDigits?_extends n .blank hroom
  | paired => exact DigitBuffer.pushPairs?_extends n .blank hroom

theorem digits?_eq (engine : DigitEngine) (h : n < 2 ^ 64) :
    engine.digits? n = some (Radix.decimal.write .lower n) := by
  obtain ⟨buffer, hb, hext⟩ := engine.fill?_extends h
  rw [digits?, hb, Option.bind_some]
  exact hext.text?_of_blank

end DigitEngine

end FixedWidth
