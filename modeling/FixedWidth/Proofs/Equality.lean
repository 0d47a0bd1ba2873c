import FixedWidth.HashCode
import FixedWidth.Proofs.Residue
import FixedWidth.Scalar.Comparison

/-!
# Equality is of values, and hashing respects it

Inside one unsigned kind two words are compared by their bits, across kinds by their values, and
scalars by their values whatever their kinds. These rules are one: a kind has no two words of one
value, so bits agree exactly when values do (`Word.beq_eq_decide`).

A hash code is a function of the value, so equal scalars and equal words write the same to a hasher.
The code leaves alone what a signed word of 32 bits holds, so whatever fits there writes what that
word writes (`Scalar.hashWrites_eq_ownWrites`).
-/

namespace FixedWidth

/-! ### Words of one kind -/

namespace Word

variable {k : Kind}

/-- **Bits agree exactly when values do**, inside one kind. -/
theorem beq_eq_decide (x y : Word k) : (x == y) = decide (x.value = y.value) := by
  rw [Bool.eq_iff_iff, beq_iff_eq, decide_eq_true_iff]
  exact value_injective.eq_iff.symm

theorem sameValue_eq_decide {j : Kind} (x : Word j) (y : Word k) :
    x.sameValue y = decide (x.value = y.value) := by
  rw [Bool.eq_iff_iff, sameValue, beq_iff_eq, decide_eq_true_iff]

theorem hashCode_value (x : Signed .w32) : FixedWidth.hashCode x.value = x := by
  have h : Width.w32.holdsSigned x.value = true := by
    rw [Width.holdsSigned, Bool.and_eq_true, decide_eq_true_iff, decide_eq_true_iff]
    exact x.value_mem_range
  rw [FixedWidth.hashCode, if_pos h, ofInt_value]

/-- What a signed word of 32 bits hands to a hasher by the rule of its own kind: itself. -/
def ownWrites (x : Signed .w32) : List HashWrite := [.int32 x]

end Word

/-! ### Scalars -/

namespace Scalar

variable {a b c : Scalar}

theorem beq_eq_decide (a b : Scalar) : (a == b) = decide (a.value = b.value) := by
  rw [Bool.eq_iff_iff, beq_iff_value_eq, decide_eq_true_iff]

theorem word?_eq_none {k : Kind} (h : a.kind ≠ k) : a.word? k = none := by
  rw [word?, dif_neg h]

/-- **The equality that two words have by their kinds** is that of their values. -/
theorem typedEq?_eq (a b : Scalar) :
    a.typedEq? b =
      if a.kind.domain = .signed ∧ b.kind.domain = .signed then none
      else some (decide (a.value = b.value)) := by
  obtain ⟨k, x⟩ := a
  obtain ⟨l, y⟩ := b
  show _ = if k.domain = .signed ∧ l.domain = .signed then none
    else some (decide (x.value = y.value))
  -- of one kind the bits are compared, of two kinds the values
  by_cases hk : l = k
  · subst hk
    have hy : (⟨l, y⟩ : Scalar).word? l = some y := word?_kind ⟨l, y⟩
    cases hl : l.domain <;> simp [typedEq?, hl, hy, x.beq_eq_decide y]
  · have hy : (⟨l, y⟩ : Scalar).word? k = none := word?_eq_none hk
    cases hd : k.domain <;> cases hl : l.domain <;>
      simp [typedEq?, hd, hl, hy, x.sameValue_eq_decide y]

theorem typedEq?_isSome_iff :
    (a.typedEq? b).isSome ↔ ¬ (a.kind.domain = .signed ∧ b.kind.domain = .signed) := by
  rw [typedEq?_eq]
  split <;> simp [*]

theorem typedEq?_eq_some_iff {r : Bool} :
    a.typedEq? b = some r ↔
      ¬ (a.kind.domain = .signed ∧ b.kind.domain = .signed) ∧ r = decide (a.value = b.value) := by
  rw [typedEq?_eq, Option.ite_none_left_eq_some, Option.some_inj, eq_comm (a := r)]

theorem typedEq?_comm (a b : Scalar) : a.typedEq? b = b.typedEq? a := by
  rw [typedEq?_eq, typedEq?_eq]
  simp only [and_comm, eq_comm]

theorem typedEq?_ne_false (hab : a.typedEq? b = some true) (hbc : b.typedEq? c = some true) :
    a.typedEq? c ≠ some false := by
  intro hac
  have h₁ : a.value = b.value := of_decide_eq_true (typedEq?_eq_some_iff.mp hab).2.symm
  have h₂ : b.value = c.value := of_decide_eq_true (typedEq?_eq_some_iff.mp hbc).2.symm
  exact of_decide_eq_false (typedEq?_eq_some_iff.mp hac).2.symm (h₁.trans h₂)

theorem beq_equivalence : Equivalence fun x y : Scalar => x == y := by
  simp only [beq_iff_value_eq]
  exact ⟨fun _ => rfl, Eq.symm, Eq.trans⟩

/-! ### Hashing -/

theorem hashWrites?_eq_some_iff {ws : List HashWrite} :
    a.word.hashWrites? = some ws ↔ a.kind.domain = .unsigned ∧ ws = a.hashWrites := by
  rw [Word.hashWrites?]
  cases a.kind.domain with
  | signed => simp
  | unsigned => simp [hashWrites, hashCode, Word.hashCode, value, eq_comm]

theorem hashWrites?_isSome_iff : a.word.hashWrites?.isSome ↔ a.kind.domain = .unsigned := by
  simp only [Option.isSome_iff_exists, hashWrites?_eq_some_iff, exists_and_left, exists_eq,
    and_true]

theorem hashWrites_eq_of_beq (h : a == b) : a.hashWrites = b.hashWrites := by
  rw [hashWrites, hashWrites, hashCode_eq_of_beq h]

theorem exists_value_eq_iff :
    (∃ i : Signed .w32, i.value = a.value) ↔ a.value ∈ Kind.range ⟨.signed, .w32⟩ := by
  constructor
  · rintro ⟨i, hi⟩
    exact hi ▸ i.value_mem_range
  · intro h
    exact ⟨Word.ofInt _ a.value, Word.value_ofInt h⟩

theorem hashWrites_eq_ownWrites {i : Signed .w32} (h : i.value = a.value) :
    a.hashWrites = i.ownWrites := by
  rw [hashWrites, hashCode, ← h, Word.hashCode_value, Word.ownWrites]

/-- **Equality is of values, and hashing respects it**, by the rules of the kinds and by that of
scalars. -/
theorem equality_by_value (a b c : Scalar) :
    ((a.typedEq? b).isSome ↔ ¬ (a.kind.domain = .signed ∧ b.kind.domain = .signed)) ∧
    (∀ r, a.typedEq? b = some r →
      r = decide (a.value = b.value) ∧ (!r) = decide (a.value ≠ b.value)) ∧
    a.sameValue b = decide (a.value = b.value) ∧
    (a == b) = decide (a.value = b.value) ∧ (a != b) = decide (a.value ≠ b.value) ∧
    Equivalence (fun x y : Scalar => x == y) ∧
    a.typedEq? b = b.typedEq? a ∧
    (a.typedEq? b = some true → b.typedEq? c = some true → a.typedEq? c ≠ some false) ∧
    (a.word.hashWrites?.isSome ↔ a.kind.domain = .unsigned) ∧
    (a == b →
      a.word.hashCode = b.word.hashCode ∧ a.hashCode = b.hashCode ∧ a.word.hashCode = b.hashCode ∧
      a.hashWrites = b.hashWrites ∧
      ∀ ws, a.word.hashWrites? = some ws →
        ws = b.hashWrites ∧ ∀ ws', b.word.hashWrites? = some ws' → ws = ws') ∧
    ((∃ i : Signed .w32, i.value = a.value) ↔ a.value ∈ Kind.range ⟨.signed, .w32⟩) ∧
    (∀ i : Signed .w32, i.value = a.value →
      a.hashWrites = i.ownWrites ∧ ∀ ws, a.word.hashWrites? = some ws → ws = i.ownWrites) := by
  refine ⟨typedEq?_isSome_iff, fun r hr => ?_, a.word.sameValue_eq_decide b.word, beq_eq_decide a b,
    ?_, beq_equivalence, typedEq?_comm a b, typedEq?_ne_false, hashWrites?_isSome_iff, fun h => ?_,
    exists_value_eq_iff, fun i hi => ?_⟩
  · obtain ⟨-, rfl⟩ := typedEq?_eq_some_iff.mp hr
    exact ⟨rfl, decide_not.symm⟩
  · rw [bne, beq_eq_decide]
    exact decide_not.symm
  · have hc : a.hashCode = b.hashCode := hashCode_eq_of_beq h
    refine ⟨hc, hc, hc, hashWrites_eq_of_beq h, fun ws hws => ?_⟩
    obtain ⟨-, rfl⟩ := hashWrites?_eq_some_iff.mp hws
    refine ⟨hashWrites_eq_of_beq h, fun ws' hws' => ?_⟩
    obtain ⟨-, rfl⟩ := hashWrites?_eq_some_iff.mp hws'
    exact hashWrites_eq_of_beq h
  · refine ⟨hashWrites_eq_ownWrites hi, fun ws hws => ?_⟩
    obtain ⟨-, rfl⟩ := hashWrites?_eq_some_iff.mp hws
    exact hashWrites_eq_ownWrites hi

/-- The largest unsigned word of 32 bits hashes as the words of 64 bits that are equal to it. -/
theorem equality_by_value_top_bit :
    let a := ofWord (Word.ofInt ⟨.unsigned, .w32⟩ (-1))
    let b := ofWord (Word.ofInt ⟨.signed, .w64⟩ 4294967295)
    let c := ofWord (Word.ofNat ⟨.unsigned, .w64⟩ 4294967295)
    let d := ofWord (Word.ofNat ⟨.unsigned, .w16⟩ 40000)
    let i : Signed .w32 := Word.ofInt _ 40000
    a == b ∧ a.typedEq? b = some true ∧ b.typedEq? c = some true ∧ a.typedEq? c ≠ some false ∧
      a.word.hashWrites? = some a.hashWrites ∧ a.hashWrites = b.hashWrites ∧
      i.value = d.value ∧ d.hashWrites = i.ownWrites := by
  intro a b c d i
  have hab : a == b := by decide
  have hab' : a.typedEq? b = some true := by decide
  have hbc' : b.typedEq? c = some true := by decide
  have hd : i.value = d.value := by decide
  obtain ⟨-, -, -, -, -, -, -, ht, -, hh, -, -⟩ := equality_by_value a b c
  obtain ⟨-, -, -, hw, -⟩ := hh hab
  obtain ⟨-, -, -, -, -, -, -, -, -, -, -, hi⟩ := equality_by_value d b c
  exact ⟨hab, hab', hbc', ht hab' hbc', rfl, hw, hd, (hi i hd).1⟩

end Scalar

end FixedWidth
