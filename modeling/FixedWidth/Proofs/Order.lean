import FixedWidth.Proofs.Arithmetic.Wrapping
import FixedWidth.Proofs.Conversion.Interfaces
import FixedWidth.Proofs.Equality
import Mathlib.Order.Compare

/-!
# One order of values

Words of one unsigned kind are ordered by their plain binary readings, words of two unsigned kinds
after both have been brought to 64 bits, and scalars of one domain by their values. In all three the
same two integers are compared (`Scalar.typedOrder_eq_ok_iff`, `Scalar.order?_eq_ok_iff`).

Reading the bits in the other domain moves a value by the number of bit patterns, if the top bit is
set, and else not at all, so two words with the same top bit stay in their order
(`Word.compares_toInt`). A signed and an unsigned scalar have no order, not even where they are
equal.
-/

namespace FixedWidth

/-! ### Comparisons of integers -/

section Compares

variable {i j l : Int} {m n : Nat} {o o' : Ordering}

theorem exists_compares (i j : Int) : ∃ o : Ordering, o.Compares i j :=
  ⟨compare i j, (compare_iff i j).mp rfl⟩

theorem compares_natCast : o.Compares (m : Int) n ↔ o.Compares m n := by
  cases o with
  | lt => exact Int.ofNat_lt
  | eq => exact Int.ofNat_inj
  | gt => exact Int.ofNat_lt

theorem comparisons (h : o.Compares i j) :
    (o.isLT ↔ i < j) ∧ (o.isLE ↔ i ≤ j) ∧ (o.isGT ↔ j < i) ∧ (o.isGE ↔ j ≤ i) := by
  refine ⟨?_, ?_, ?_, ?_⟩
  · rw [Ordering.isLT_iff_eq_lt, h.eq_lt]
  · rw [← Ordering.ne_gt_iff_isLE]
    exact h.ne_gt
  · rw [Ordering.isGT_iff_eq_gt, h.eq_gt]
  · rw [← Ordering.ne_lt_iff_isGE]
    exact h.ne_lt

theorem compares_then (h : o.Compares i j) (h' : o'.Compares j l)
    (hdir : o.isLE ∧ o'.isLE ∨ o.isGE ∧ o'.isGE) : (o.then o').Compares i l := by
  cases o with
  | lt =>
    cases o' with
    | lt => exact lt_trans h h'
    | eq => exact lt_of_lt_of_eq h h'
    | gt => simp at hdir
  | eq =>
    obtain rfl : i = j := h
    exact h'
  | gt =>
    cases o' with
    | lt => simp at hdir
    | eq => exact lt_of_eq_of_lt (Eq.symm h') h
    | gt => exact lt_trans h' h

end Compares

/-! ### Words -/

namespace Word

variable {k : Kind} {v w : Width} {o : Ordering}

theorem cmp_eq_iff {x y : Unsigned w} : x.cmp y = o ↔ o.Compares x.value y.value :=
  (compare_iff x.toNat y.toNat).trans compares_natCast.symm

theorem crossCmp_eq_iff {x : Unsigned v} {y : Unsigned w} :
    x.crossCmp y = o ↔ o.Compares x.value y.value := by
  rw [crossCmp_eq]
  exact (compare_iff x.toNat y.toNat).trans compares_natCast.symm

theorem value_min (x y : Unsigned w) : (min x y).value = min x.value y.value := by
  have h : (x.cmp y).isLE ↔ x.value ≤ y.value := (comparisons (cmp_eq_iff.mp rfl)).2.1
  show (if (x.cmp y).isLE then x else y).value = min x.value y.value
  by_cases hle : x.value ≤ y.value
  · rw [if_pos (h.mpr hle), min_eq_left hle]
  · rw [if_neg (mt h.mp hle), min_eq_right (le_of_not_ge hle)]

theorem value_max (x y : Unsigned w) : (max x y).value = max x.value y.value := by
  have h : (x.cmp y).isLE ↔ x.value ≤ y.value := (comparisons (cmp_eq_iff.mp rfl)).2.1
  show (if (x.cmp y).isLE then y else x).value = max x.value y.value
  by_cases hle : x.value ≤ y.value
  · rw [if_pos (h.mpr hle), max_eq_right hle]
  · rw [if_neg (mt h.mp hle), max_eq_left (le_of_not_ge hle)]

theorem lt_of_msb {x y : Word k} (hx : x.bits.msb = true) (hy : y.bits.msb = false) :
    x.toInt < y.toInt ∧ (y.toNat : Int) < x.toNat := by
  have hxi := x.toNat_sub_toInt
  have hyi := y.toNat_sub_toInt
  rw [hx, if_pos rfl] at hxi
  rw [hy, if_neg Bool.false_ne_true] at hyi
  have hlt : (x.toNat : Int) < 2 ^ k.bits := by exact_mod_cast x.bits.isLt
  have hxn : 2 ^ (k.bits - 1) ≤ x.toNat := of_decide_eq_true (x.bits.msb_eq_decide ▸ hx)
  have hyn : ¬ 2 ^ (k.bits - 1) ≤ y.toNat := of_decide_eq_false (y.bits.msb_eq_decide ▸ hy)
  constructor <;> omega

/-- **Two's complement keeps the order inside each half of a kind** and exchanges the halves. -/
theorem compares_toInt {x y : Word k} (h : o.Compares (x.toNat : Int) y.toNat) :
    (if x.bits.msb = y.bits.msb then o else o.swap).Compares x.toInt y.toInt := by
  by_cases hm : x.bits.msb = y.bits.msb
  · rw [if_pos hm]
    have hx := x.toNat_sub_toInt
    rw [hm, ← y.toNat_sub_toInt] at hx
    cases o with
    | lt =>
      have hlt : (x.toNat : Int) < y.toNat := h
      exact (by omega : x.toInt < y.toInt)
    | eq =>
      have heq : (x.toNat : Int) = y.toNat := h
      exact (by omega : x.toInt = y.toInt)
    | gt =>
      have hgt : (y.toNat : Int) < x.toNat := h
      exact (by omega : y.toInt < x.toInt)
  · rw [if_neg hm]
    cases hx : x.bits.msb with
    | true =>
      have hy : y.bits.msb = false := by
        rw [hx] at hm
        exact (Bool.not_eq_true _).mp (Ne.symm hm)
      obtain ⟨hint, hnat⟩ := lt_of_msb hx hy
      obtain rfl : o = .gt := h.eq_gt.mpr hnat
      exact hint
    | false =>
      have hy : y.bits.msb = true := by
        rw [hx] at hm
        exact (Bool.not_eq_false _).mp (Ne.symm hm)
      obtain ⟨hint, hnat⟩ := lt_of_msb hy hx
      obtain rfl : o = .lt := h.eq_lt.mpr hnat
      exact hint

end Word

/-! ### Scalars -/

namespace Scalar

variable {a b c : Scalar} {u v w : Width} {o o' : Ordering}

theorem innerOrder?_eq_some_iff {x y : Unsigned w} :
    (ofUnsigned x).innerOrder? (ofUnsigned y) = some o ↔ o.Compares x.value y.value := by
  have hy : (ofUnsigned y).word? ⟨.unsigned, w⟩ = some y := word?_kind (ofUnsigned y)
  show ((ofUnsigned y).word? ⟨.unsigned, w⟩).map x.cmp = some o ↔ _
  rw [hy, Option.map_some, Option.some_inj, Word.cmp_eq_iff]

/-- **The order of unsigned words** is that of their values, across kinds as well. -/
theorem typedOrder_eq_ok_iff {x : Unsigned v} {y : Unsigned w} :
    (ofUnsigned x).typedOrder (ofUnsigned y) = .ok o ↔ o.Compares x.value y.value := by
  show Except.ok (((ofUnsigned x).innerOrder? (ofUnsigned y)).getD (x.crossCmp y)) = .ok o ↔ _
  by_cases hw : w = v
  · subst hw
    have hcmp : (ofUnsigned x).innerOrder? (ofUnsigned y) = some (x.cmp y) :=
      innerOrder?_eq_some_iff.mpr (Word.cmp_eq_iff.mp rfl)
    rw [hcmp, Option.getD_some, Except.ok.injEq, Word.cmp_eq_iff]
  · have hkind : (ofUnsigned y).kind ≠ ⟨.unsigned, v⟩ := fun h => hw (congrArg Kind.width h)
    have hnone : (ofUnsigned x).innerOrder? (ofUnsigned y) = none :=
      congrArg (Option.map x.cmp) (word?_eq_none hkind)
    rw [hnone, Option.getD_none, Except.ok.injEq, Word.crossCmp_eq_iff]

theorem typedOrder_then {x : Unsigned u} {y : Unsigned v} {z : Unsigned w}
    (h : (ofUnsigned x).typedOrder (ofUnsigned y) = .ok o)
    (h' : (ofUnsigned y).typedOrder (ofUnsigned z) = .ok o')
    (hdir : o.isLE ∧ o'.isLE ∨ o.isGE ∧ o'.isGE) :
    (ofUnsigned x).typedOrder (ofUnsigned z) = .ok (o.then o') :=
  typedOrder_eq_ok_iff.mpr
    (compares_then (typedOrder_eq_ok_iff.mp h) (typedOrder_eq_ok_iff.mp h') hdir)

/-- Exactly one of smaller, equal and larger. -/
theorem count_comparisons (h : o.Compares a.value b.value)
    (hb : ¬ (a.kind.domain = .signed ∧ b.kind.domain = .signed)) :
    [o.isLT, a.typedEq? b == some true, o.isGT].count true = 1 := by
  rw [typedEq?_eq, if_neg hb]
  cases o with
  | lt => simp [(show a.value < b.value from h).ne]
  | eq => simp [show a.value = b.value from h]
  | gt => simp [(show b.value < a.value from h).ne']

theorem exists_common_order (x : Unsigned v) (y : Unsigned w)
    (h : o.Compares x.value y.value) :
    ∃ k d e, Kind.common? ⟨.unsigned, v⟩ ⟨.unsigned, w⟩ = some k ∧
      (ofUnsigned x).cast k = .ok d ∧ (ofUnsigned y).cast k = .ok e ∧
        d.innerOrder? e = some o ∧ d.typedOrder e = .ok o := by
  have hcast {u : Width} (z : Unsigned u) : (ofUnsigned z).cast ⟨.unsigned, v.common w⟩ =
      .ok (ofUnsigned (z.resize (v.common w))) :=
    cast_eq_ok_iff.mpr ⟨Kind.converts_of_unsigned rfl, rfl⟩
  rw [← Word.value_resize_of_le (Width.bits_le_common_left v w) x,
    ← Word.value_resize_of_le (Width.bits_le_common_right v w) y] at h
  exact ⟨⟨.unsigned, v.common w⟩, _, _, rfl, hcast x, hcast y, innerOrder?_eq_some_iff.mpr h,
    typedOrder_eq_ok_iff.mpr h⟩

/-- **The order of scalars** is that of their values, inside a domain. -/
theorem order?_eq_ok_iff :
    a.order? b = .ok o ↔ a.kind.domain = b.kind.domain ∧ o.Compares a.value b.value := by
  rw [order?]
  split
  next h => rw [Except.ok.injEq, compare_iff, eq_true h, true_and]
  next h => simp [h]

theorem order?_swap : a.order? b = .ok o ↔ b.order? a = .ok o.swap := by
  rw [order?_eq_ok_iff, order?_eq_ok_iff, Ordering.compares_swap, eq_comm (a := a.kind.domain)]

theorem order?_mixed_swap {k l : Kind} :
    a.order? b = .error (.mixedDomains k l) ↔ b.order? a = .error (.mixedDomains l k) := by
  rw [order?_eq_error_iff, order?_eq_error_iff, KindError.mixedDomains.injEq,
    KindError.mixedDomains.injEq, ne_comm, and_comm (a := k = a.kind)]

theorem order?_eq_ok_eq_iff :
    a.order? b = .ok .eq ↔ a.kind.domain = b.kind.domain ∧ (a == b) = true := by
  rw [order?_eq_ok_iff, beq_iff_value_eq]
  rfl

theorem order?_then (h : a.order? b = .ok o) (h' : b.order? c = .ok o')
    (hdir : o.isLE ∧ o'.isLE ∨ o.isGE ∧ o'.isGE) : a.order? c = .ok (o.then o') := by
  rw [order?_eq_ok_iff] at h h' ⊢
  exact ⟨h.1.trans h'.1, compares_then h.2 h'.2 hdir⟩

/-- **One order of values**, inside a kind, across unsigned kinds and of scalars; only scalars of
two domains have none. -/
theorem order_by_value (x x' : Unsigned u) (y : Unsigned v) (z : Unsigned w) (s t r : Scalar) :
    let a := ofUnsigned x
    let a' := ofUnsigned x'
    let b := ofUnsigned y
    let c := ofUnsigned z
    (∃ o, a.typedOrder b = .ok o ∧ a.order? b = .ok o ∧
      (o.isLT ↔ a.value < b.value) ∧ (o.isLE ↔ a.value ≤ b.value) ∧
      (o.isGT ↔ b.value < a.value) ∧ (o.isGE ↔ b.value ≤ a.value) ∧
      [o.isLT, a.typedEq? b == some true, o.isGT].count true = 1 ∧
      ∃ k d e, Kind.common? a.kind b.kind = some k ∧ a.cast k = .ok d ∧ b.cast k = .ok e ∧
        d.innerOrder? e = some o ∧ d.typedOrder e = .ok o) ∧
    (∃ o, a.innerOrder? a' = some o ∧ a.typedOrder a' = .ok o ∧
      Yields (inner .min a a') a.kind (min a.value a'.value) ∧
      Yields (inner .max a a') a.kind (max a.value a'.value) ∧
      a.dual.order? a'.dual = .ok (if x.bits.msb = x'.bits.msb then o else o.swap)) ∧
    (∀ o o', a.typedOrder b = .ok o → b.typedOrder c = .ok o' →
      o.isLE ∧ o'.isLE ∨ o.isGE ∧ o'.isGE → a.typedOrder c = .ok (o.then o')) ∧
    (∀ e, s.order? t = .error e ↔
      s.kind.domain ≠ t.kind.domain ∧ e = .mixedDomains s.kind t.kind) ∧
    (∀ o, s.order? t = .ok o ↔ s.kind.domain = t.kind.domain ∧ o = compare s.value t.value) ∧
    (∀ o, s.order? t = .ok o ↔ t.order? s = .ok o.swap) ∧
    (∀ k l, s.order? t = .error (.mixedDomains k l) ↔
      t.order? s = .error (.mixedDomains l k)) ∧
    (s.order? t = .ok .eq ↔ s.kind.domain = t.kind.domain ∧ (s == t) = true) ∧
    (∀ o o', s.order? t = .ok o → t.order? r = .ok o' →
      o.isLE ∧ o'.isLE ∨ o.isGE ∧ o'.isGE → s.order? r = .ok (o.then o')) := by
  intro a a' b c
  refine ⟨?_, ?_, fun _ _ => typedOrder_then, fun _ => order?_eq_error_iff, ?_,
    fun _ => order?_swap, fun _ _ => order?_mixed_swap, order?_eq_ok_eq_iff,
    fun _ _ => order?_then⟩
  · obtain ⟨o, ho⟩ := exists_compares x.value y.value
    obtain ⟨hlt, hle, hgt, hge⟩ := comparisons ho
    have hcount : [o.isLT, a.typedEq? b == some true, o.isGT].count true = 1 :=
      count_comparisons ho (fun h => Domain.noConfusion h.1)
    exact ⟨o, typedOrder_eq_ok_iff.mpr ho, order?_eq_ok_iff.mpr ⟨rfl, ho⟩, hlt, hle, hgt, hge,
      hcount, exists_common_order x y ho⟩
  · obtain ⟨o, ho⟩ := exists_compares x.value x'.value
    exact ⟨o, innerOrder?_eq_some_iff.mpr ho, typedOrder_eq_ok_iff.mpr ho,
      yields_inner rfl (Word.value_min x x'), yields_inner rfl (Word.value_max x x'),
      order?_eq_ok_iff.mpr ⟨rfl, Word.compares_toInt ho⟩⟩
  · intro o
    rw [order?_eq_ok_iff, ← compare_iff, eq_comm (a := o)]

theorem order_by_value_top_bits :
    let x : Unsigned .w8 := Word.ofNat _ 200
    let y : Unsigned .w16 := Word.ofNat _ 40000
    let z : Unsigned .w64 := Word.ofNat _ 9223372036854775808
    let s := ofWord (Word.ofInt ⟨.signed, .w64⟩ (-300))
    let t := ofWord (Word.ofInt ⟨.signed, .w8⟩ (-1))
    let r := ofWord (Word.ofInt ⟨.signed, .w16⟩ 5)
    (ofUnsigned x).typedOrder (ofUnsigned y) = .ok .lt ∧
      (ofUnsigned y).typedOrder (ofUnsigned z) = .ok .lt ∧
      s.order? t = .ok .lt ∧ t.order? r = .ok .lt ∧
      (ofUnsigned x).typedOrder (ofUnsigned z) = .ok .lt ∧ s.order? r = .ok .lt := by
  intro x y z s t r
  have hxy : (ofUnsigned x).typedOrder (ofUnsigned y) = .ok .lt := by decide
  have hyz : (ofUnsigned y).typedOrder (ofUnsigned z) = .ok .lt := by decide
  have hst : s.order? t = .ok .lt := by decide
  have htr : t.order? r = .ok .lt := by decide
  obtain ⟨-, -, hwords, -, -, -, -, -, hscalars⟩ := order_by_value x x y z s t r
  exact ⟨hxy, hyz, hst, htr, hwords _ _ hxy hyz (.inl ⟨rfl, rfl⟩),
    hscalars _ _ hst htr (.inl ⟨rfl, rfl⟩)⟩

/-- One at a signed kind and one at an unsigned kind are equal, and are not found to be so. -/
theorem order?_of_equal_ones :
    let a := ofWord (Word.ofInt ⟨.signed, .w32⟩ 1)
    let b := ofWord (Word.ofNat ⟨.unsigned, .w32⟩ 1)
    (a == b) = true ∧ a.order? b = .error (.mixedDomains a.kind b.kind) ∧
      ¬ (a.order? b = .ok .eq ↔ (a == b) = true) := by
  intro a b
  have heq : (a == b) = true := by decide
  have herr : a.order? b = .error (.mixedDomains a.kind b.kind) := by decide
  refine ⟨heq, herr, fun h => ?_⟩
  rw [h.mpr heq] at herr
  cases herr

end Scalar

end FixedWidth
