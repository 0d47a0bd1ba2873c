import FixedWidth.Proofs.Order
import Mathlib.Data.List.Perm.Basic

/-!
# Sorting by value

A word is known by its value, so a list is the sorted one as soon as it is a rearrangement and
ascends (`Word.eq_ascending_iff`), and no property of sorting has to look at how it is done. A map
of words that keeps the order of values takes the sorted list to the sorted list; widening is one.
Reading the bits in two's complement is not. It keeps the order inside each half of a kind, so the
signed words come in two blocks, which have to change places.
-/

namespace FixedWidth.Word

variable {k t : Kind} {w : Width}

/-! ### The order of words -/

instance : LE (Word k) := ⟨fun x y => x.value ≤ y.value⟩

theorem le_iff {x y : Word k} : x ≤ y ↔ x.value ≤ y.value := Iff.rfl

instance : Std.IsLinearOrder (Word k) where
  le_refl x := le_refl x.value
  le_trans _ _ _ := le_trans (α := Int)
  le_antisymm _ _ h h' := value_injective (le_antisymm (α := Int) h h')
  le_total x y := le_total x.value y.value

theorem isLE_cmp_iff {x y : Unsigned w} : (x.cmp y).isLE ↔ x ≤ y :=
  (comparisons (cmp_eq_iff.mp rfl)).2.1

instance : Std.LawfulOrderMin (Unsigned w) where
  le_min_iff x y z := by
    rw [le_iff, value_min]
    exact le_min_iff
  min_eq_or x y := ite_eq_or_eq _ x y

instance : Std.LawfulOrderMax (Unsigned w) where
  max_le_iff x y z := by
    rw [le_iff, value_max]
    exact max_le_iff
  max_eq_or x y := (ite_eq_or_eq _ y x).symm

/-! ### Ascending rearrangements -/

/-- The words of a list of any kind by ascending value. -/
def ascending (xs : List (Word k)) : List (Word k) :=
  xs.mergeSort fun x y => decide (x.value ≤ y.value)

theorem sort_eq_ascending (xs : List (Unsigned w)) : sort xs = ascending xs := by
  have hle : (fun x y : Unsigned w => (x.cmp y).isLE) = fun x y => decide (x.value ≤ y.value) := by
    funext x y
    rw [Bool.eq_iff_iff, isLE_cmp_iff, le_iff, decide_eq_true_iff]
  rw [sort, ascending, hle]

theorem ascending_perm (xs : List (Word k)) : (ascending xs).Perm xs := List.mergeSort_perm xs _

theorem pairwise_ascending (xs : List (Word k)) : (ascending xs).Pairwise (· ≤ ·) := by
  refine (List.pairwise_mergeSort ?_ ?_ xs).imp of_decide_eq_true
  · intro x y z hxy hyz
    exact decide_eq_true (Int.le_trans (of_decide_eq_true hxy) (of_decide_eq_true hyz))
  · intro x y
    rw [Bool.or_eq_true, decide_eq_true_iff, decide_eq_true_iff]
    exact le_total x.value y.value

/-- **There is only one ascending rearrangement**, as words with equal values are equal. -/
theorem eq_ascending_iff {xs ys : List (Word k)} :
    ys = ascending xs ↔ ys.Perm xs ∧ ys.Pairwise (· ≤ ·) := by
  constructor
  · rintro rfl
    exact ⟨ascending_perm xs, pairwise_ascending xs⟩
  · rintro ⟨hp, hs⟩
    have hanti : ∀ x y, x ∈ ys → y ∈ ascending xs → x ≤ y → y ≤ x → x = y :=
      fun _ _ _ _ h h' => value_injective (le_antisymm h h')
    exact List.Perm.eq_of_pairwise hanti hs (pairwise_ascending xs)
      (hp.trans (ascending_perm xs).symm)

theorem ascending_congr {xs ys : List (Word k)} (h : ys.Perm xs) : ascending ys = ascending xs :=
  eq_ascending_iff.mpr ⟨(ascending_perm ys).trans h, pairwise_ascending ys⟩

theorem map_ascending {f : Word k → Word t} (hf : ∀ x y, x ≤ y → f x ≤ f y)
    (xs : List (Word k)) : (ascending xs).map f = ascending (xs.map f) :=
  eq_ascending_iff.mpr ⟨(ascending_perm xs).map f, (pairwise_ascending xs).map f hf⟩

/-! ### The ends of a sorted list -/

theorem min?_eq_head? (xs : List (Unsigned w)) : xs.min? = (ascending xs).head? := by
  have hp := ascending_perm xs
  cases h : ascending xs with
  | nil =>
    rw [h] at hp
    rw [← hp.nil_eq, List.min?_nil, List.head?_nil]
  | cons x ys =>
    have hs := pairwise_ascending xs
    rw [h] at hp hs
    rw [List.head?_cons, List.min?_eq_some_iff]
    refine ⟨hp.subset List.mem_cons_self, fun y hy => ?_⟩
    rcases List.mem_cons.mp (hp.symm.subset hy) with rfl | hm
    · exact le_refl y.value
    · exact List.rel_of_pairwise_cons hs hm

theorem max?_eq_getLast? (xs : List (Unsigned w)) : xs.max? = (ascending xs).getLast? := by
  have hp := ascending_perm xs
  rcases List.eq_nil_or_concat' (ascending xs) with h | ⟨ys, x, h⟩
  · rw [h] at hp
    rw [h, ← hp.nil_eq, List.max?_nil, List.getLast?_nil]
  · have hs := pairwise_ascending xs
    rw [h] at hp hs
    rw [h, List.getLast?_concat, List.max?_eq_some_iff]
    refine ⟨hp.subset (List.mem_append_right ys List.mem_cons_self), fun y hy => ?_⟩
    rcases List.mem_append.mp (hp.symm.subset hy) with hm | hm
    · exact (List.pairwise_append.mp hs).2.2 y hm x List.mem_cons_self
    · rw [List.mem_singleton.mp hm]
      exact le_refl x.value

/-! ### Other readings of the words -/

theorem widen?_of_lt (h : w.bits < t.bits) (x : Unsigned w) : x.widen? t = some (ofNat t x.toNat) :=
  if_pos (Width.mem_wider_iff.mpr h)

theorem value_ofNat_toNat (h : w.bits < t.bits) (x : Unsigned w) :
    (ofNat t x.toNat).value = x.value := by
  have hx : x.value ∈ t.range := Kind.range_subset_of_unsigned rfl h x.value_mem_range
  exact (isResidue_ofNat t x.toNat).eq_iff_mem_range.mpr hx

theorem ofSigned_le_ofSigned {x y : Signed w} (h : x ≤ y) (hs : x.value < 0 ↔ y.value < 0) :
    ofSigned x ≤ ofSigned y := by
  rw [le_iff] at h ⊢
  rw [value_ofSigned, value_ofSigned, if_congr hs rfl rfl]
  split <;> omega

/-- As plain binary, the words that are negative in two's complement come last. -/
theorem ofSigned_le_of_neg {x y : Signed w} (hx : 0 ≤ x.value) (hy : y.value < 0) :
    ofSigned x ≤ ofSigned y := by
  have hxm : x.bits.msb = false := x.bits.msb_eq_toInt.trans (decide_eq_false (not_lt.mpr hx))
  have hym : y.bits.msb = true := y.bits.msb_eq_toInt.trans (decide_eq_true hy)
  exact (lt_of_msb hym hxm).2.le

/-- **The signed words of the same bits** ascend in two blocks, the negative ones first. -/
theorem exists_blocks (xs : List (Unsigned w)) :
    ∃ negative nonnegative, ascending (xs.map toSigned) = negative ++ nonnegative ∧
      (∀ y ∈ negative, y.value < 0) ∧ (∀ y ∈ nonnegative, 0 ≤ y.value) ∧
      ascending xs = (nonnegative ++ negative).map ofSigned := by
  let ys := ascending (xs.map toSigned)
  let negative := ys.filter fun y => decide (y.value < 0)
  let nonnegative := ys.filter fun y => !decide (y.value < 0)
  have hneg : ∀ y ∈ negative, y.value < 0 := fun y hy => of_decide_eq_true (List.mem_filter.mp hy).2
  have hnonneg : ∀ y ∈ nonnegative, 0 ≤ y.value := fun y hy =>
    not_lt.mp (of_decide_eq_false ((Bool.not_eq_true' _).mp (List.mem_filter.mp hy).2))
  have hpartition : (negative ++ nonnegative).Perm ys := List.filter_append_perm _ ys
  have hys := pairwise_ascending (xs.map toSigned)
  refine ⟨negative, nonnegative, ?_, hneg, hnonneg, ?_⟩
  · refine (eq_ascending_iff.mpr ⟨hpartition.trans (ascending_perm _), ?_⟩).symm
    refine List.pairwise_append.mpr ⟨hys.filter _, hys.filter _, fun x hx y hy => ?_⟩
    exact (hneg x hx).le.trans (hnonneg y hy)
  · refine (eq_ascending_iff.mpr ⟨?_, ?_⟩).symm
    · have hp : (nonnegative ++ negative).Perm (xs.map toSigned) :=
        List.perm_append_comm.trans (hpartition.trans (ascending_perm _))
      have hxs : (xs.map toSigned).map ofSigned = xs := by
        rw [List.map_map]
        exact List.map_id xs
      exact hxs ▸ hp.map ofSigned
    · rw [List.pairwise_map, List.pairwise_append]
      refine ⟨?_, ?_, fun x hx y hy => ofSigned_le_of_neg (hnonneg x hx) (hneg y hy)⟩
      · refine (hys.filter _).imp_of_mem fun {x y} hx hy h => ofSigned_le_ofSigned h ?_
        exact iff_of_false (not_lt.mpr (hnonneg x hx)) (not_lt.mpr (hnonneg y hy))
      · refine (hys.filter _).imp_of_mem fun {x y} hx hy h => ofSigned_le_ofSigned h ?_
        exact iff_of_true (hneg x hx) (hneg y hy)

/-! ### Sorting -/

/-- **Sorting by value** is the only ascending rearrangement. It can change places with widening,
and the signed words of the same bits have the same two blocks the other way round. -/
theorem sort_by_value (xs : List (Unsigned w)) :
    (sort xs).Perm xs ∧
    (sort xs).Pairwise (fun x y => x.value ≤ y.value) ∧
    (∀ ys : List (Unsigned w),
      ys.Perm xs → ys.Pairwise (fun x y => x.value ≤ y.value) → ys = sort xs) ∧
    (xs.min? = (sort xs).head? ∧ xs.max? = (sort xs).getLast? ∧
      (xs.min? = none ↔ xs = []) ∧ (xs.max? = none ↔ xs = [])) ∧
    (∀ ys : List (Unsigned w), ys.Perm xs → sort ys = sort xs) ∧
    (∀ t : Kind, w.bits < t.bits → ∃ f : Unsigned w → Word t,
      (∀ x, x.widen? t = some (f x) ∧ (f x).value = x.value) ∧
        (sort xs).map f = ascending (xs.map f)) ∧
    (∀ (v : Width) (ys : List (Unsigned v)), ascending ys = sort ys) ∧
    (∃ negative nonnegative, ascending (xs.map toSigned) = negative ++ nonnegative ∧
      (∀ y ∈ negative, y.value < 0) ∧ (∀ y ∈ nonnegative, 0 ≤ y.value) ∧
      sort xs = (nonnegative ++ negative).map ofSigned) := by
  simp only [sort_eq_ascending]
  refine ⟨ascending_perm xs, pairwise_ascending xs,
    fun ys hp hs => eq_ascending_iff.mpr ⟨hp, hs⟩,
    ⟨min?_eq_head? xs, max?_eq_getLast? xs, List.min?_eq_none_iff, List.max?_eq_none_iff⟩,
    fun ys => ascending_congr, fun t h => ?_, fun v ys => trivial, exists_blocks xs⟩
  have hf : ∀ x : Unsigned w, (ofNat t x.toNat).value = x.value := value_ofNat_toNat h
  refine ⟨fun x => ofNat t x.toNat, fun x => ⟨widen?_of_lt h x, hf x⟩, map_ascending ?_ xs⟩
  intro x y hxy
  rw [le_iff, hf, hf]
  exact hxy

theorem sort_by_value_both_halves :
    let xs : List (Unsigned .w8) := [ofNat _ 200, ofNat _ 3, ofNat _ 128, ofNat _ 3]
    let ys : List (Unsigned .w8) := [ofNat _ 3, ofNat _ 3, ofNat _ 128, ofNat _ 200]
    let t : Kind := ⟨.signed, .w16⟩
    ys.Perm xs ∧ ys.Pairwise (fun x y => x.value ≤ y.value) ∧ Width.bits .w8 < t.bits ∧
      ys = sort xs ∧ sort ys = sort xs ∧
      ∃ f : Unsigned .w8 → Word t, (∀ x, x.widen? t = some (f x) ∧ (f x).value = x.value) ∧
        ys.map f = ascending (xs.map f) := by
  intro xs ys t
  have hp : ys.Perm xs := by decide
  have hs : ys.Pairwise (fun x y => x.value ≤ y.value) := by decide
  have ht : Width.bits .w8 < t.bits := by decide
  obtain ⟨-, -, honly, -, horder, hwiden, -, -⟩ := sort_by_value xs
  have hys : ys = sort xs := honly ys hp hs
  exact ⟨hp, hs, ht, hys, horder ys hp, hys ▸ hwiden t ht⟩

end FixedWidth.Word
