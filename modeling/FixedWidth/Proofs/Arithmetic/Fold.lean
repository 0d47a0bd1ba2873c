import FixedWidth.Proofs.Arithmetic.Wrapping
import FixedWidth.Word.Closed
import Mathlib.Algebra.BigOperators.Group.List.Basic

/-!
# Sums, products and powers of many words

A list is folded one word at a time and every step wraps; repeated squaring wraps too, but after
other steps. `Word.ofInt` carries sums and products of integers to wrapped sums and products of
words, so a computation on words is the image of the same computation on integers, and only the
image of the last number counts (`ModularOperator.foldl_inside`, `power_map`).
-/

namespace FixedWidth

/-! ### Repeated squaring over any type -/

section Generic

variable {M α : Type} [Monoid M] [Mul α] {f : M → α}

/-- The bits above the lowest one contribute `b` to the power of what they stand for, `n - n % 2`.
-/
theorem powerOnto_map (hmul : ∀ a b, f (a * b) = f a * f b) (a b : M) (n : Nat) :
    powerOnto (f a) (f b) n = f (a * b ^ (n - n % 2)) := by
  -- The accumulator is general, as it takes up a square at every set bit.
  induction n using Nat.strong_induction_on generalizing a b with
  | _ n ih =>
    rw [powerOnto]
    split
    case isTrue hn =>
      have h0 : n - n % 2 = 0 := by omega
      rw [h0, pow_zero, mul_one]
    case isFalse hn =>
      have hlt : n / 2 < n := by omega
      have hsquare (m : Nat) : (b * b) ^ m = b ^ (2 * m) := by rw [← pow_two, ← pow_mul]
      simp only [← hmul]
      split
      case isTrue hbit =>
        have hexp : n - n % 2 = 2 + 2 * (n / 2 - n / 2 % 2) := by omega
        rw [ih (n / 2) hlt, hsquare, hexp, pow_add, pow_two, mul_assoc]
      case isFalse hbit =>
        have hexp : n - n % 2 = 2 * (n / 2 - n / 2 % 2) := by omega
        rw [ih (n / 2) hlt, hsquare, hexp]

theorem powerPos_map (hmul : ∀ a b, f (a * b) = f a * f b) (b : M) (n : Nat) (hn : 0 < n) :
    powerPos (f b) n = f (b ^ n) := by
  induction n using Nat.strong_induction_on generalizing b with
  | _ n ih =>
    rw [powerPos]
    split
    case isTrue heven =>
      have hexp : n = 2 * (n / 2) := by omega
      rw [← hmul, ih (n / 2) (by omega) _ (by omega), ← pow_two, ← pow_mul, ← hexp]
    case isFalse hodd =>
      have hexp : n = 1 + (n - n % 2) := by omega
      rw [powerOnto_map hmul, ← pow_succ', Nat.add_comm, ← hexp]

/-- **Repeated squaring is carried along every map that keeps one and products.** -/
theorem power_map [One α] (hone : f 1 = One.one) (hmul : ∀ a b, f (a * b) = f a * f b) (b : M)
    (n : Nat) : power (f b) n = f (b ^ n) := by
  rw [power]
  split
  case isTrue h => rw [h, pow_zero, hone]
  case isFalse h => exact powerPos_map hmul b n (Nat.pos_of_ne_zero h)

end Generic

/-! ### Folds with the operations inside a width -/

namespace ModularOperator

variable {w : Width}

theorem foldl_inside {op : ModularOperator} {g : Int → Int → Int}
    (h : ∀ i j, op.onIntegers? i j = some (g i j)) (xs : List (Unsigned w)) (i : Int) :
    xs.foldl op.inside (Word.ofInt _ i) = Word.ofInt _ ((xs.map Word.value).foldl g i) := by
  -- What has been folded so far is the image of an integer, and so is what the next step makes of it.
  induction xs generalizing i with
  | nil => rfl
  | cons x xs ih =>
    have hstep : op.inside (Word.ofInt _ i) x = Word.ofInt _ (g i x.value) := by
      rw [← inside_ofInt (h i x.value), Word.ofInt_value]
    rw [List.foldl_cons, hstep, ih, List.map_cons, List.foldl_cons]

end ModularOperator

namespace Word

variable {w : Width}

theorem ofInt_zero (w : Width) : ofInt _ 0 = zero w := ofInt_value (zero w)

theorem ofInt_one (w : Width) : ofInt _ 1 = one w := congrArg mk (BitVec.ofInt_natCast w.bits 1)

theorem ofInt_add (i j : Int) :
    (ofInt _ (i + j) : Unsigned w) = (ofInt _ i).wrapAdd (ofInt _ j) := by
  have h : ModularOperator.add.onIntegers? i j = some (i + j) := rfl
  exact (ModularOperator.inside_ofInt h).symm

theorem ofInt_mul (i j : Int) :
    (ofInt _ (i * j) : Unsigned w) = (ofInt _ i).wrapMul (ofInt _ j) := by
  have h : ModularOperator.mul.onIntegers? i j = some (i * j) := rfl
  exact (ModularOperator.inside_ofInt h).symm

theorem sum_eq_ofInt (xs : List (Unsigned w)) : sum xs = ofInt _ (xs.map value).sum := by
  have h (i j : Int) : ModularOperator.add.onIntegers? i j = some (i + j) := rfl
  rw [List.sum_eq_foldl, sum, ← ofInt_zero]
  exact ModularOperator.foldl_inside h xs 0

theorem product_eq_ofInt (xs : List (Unsigned w)) : product xs = ofInt _ (xs.map value).prod := by
  have h (i j : Int) : ModularOperator.mul.onIntegers? i j = some (i * j) := rfl
  rw [List.prod_eq_foldl, product, ← ofInt_one]
  exact ModularOperator.foldl_inside h xs 1

theorem value_sum (xs : List (Unsigned w)) :
    (sum xs).value = (xs.map value).sum % 2 ^ w.bits := by
  rw [sum_eq_ofInt]
  exact toNat_ofInt _ _

theorem value_product (xs : List (Unsigned w)) :
    (product xs).value = (xs.map value).prod % 2 ^ w.bits := by
  rw [product_eq_ofInt]
  exact toNat_ofInt _ _

theorem sum_append (xs ys : List (Unsigned w)) : sum (xs ++ ys) = (sum xs).wrapAdd (sum ys) := by
  simp only [sum_eq_ofInt, List.map_append, List.sum_append, ofInt_add]

theorem product_append (xs ys : List (Unsigned w)) :
    product (xs ++ ys) = (product xs).wrapMul (product ys) := by
  simp only [product_eq_ofInt, List.map_append, List.prod_append, ofInt_mul]

theorem sum_perm {xs ys : List (Unsigned w)} (h : xs.Perm ys) : sum xs = sum ys := by
  rw [sum_eq_ofInt, sum_eq_ofInt, (h.map value).sum_eq]

theorem product_perm {xs ys : List (Unsigned w)} (h : xs.Perm ys) : product xs = product ys := by
  rw [product_eq_ofInt, product_eq_ofInt, (h.map value).prod_eq]

end Word

/-! ### The operators of the closed widths -/

theorem Width.isClosed_iff {w : Width} : w.isClosed = true ↔ w = .w32 ∨ w = .w64 := by
  cases w <;> decide

namespace Word

variable {w : Width}

theorem resize_self (x : Unsigned w) : x.resize w = x := by rw [resize, ofCarrier_carrier]

section Closed

variable [w.Closed]

/-- At a closed width promotion does nothing. -/
theorem cast_promoted (op : {v : Width} → Unsigned v → Unsigned v → Unsigned v)
    (x y : Unsigned w) : (w.common_self ▸ promoted x y op : Unsigned w) = op x y := by
  obtain rfl | rfl := Width.isClosed_iff.mp (Width.Closed.isClosed (w := w))
  all_goals
    show op (x.resize _) (y.resize _) = op x y
    rw [resize_self, resize_self]

theorem add_eq_wrapAdd (x y : Unsigned w) : x + y = x.wrapAdd y := cast_promoted wrapAdd x y

theorem mul_eq_wrapMul (x y : Unsigned w) : x * y = x.wrapMul y := cast_promoted wrapMul x y

theorem foldAdd_eq_sum (xs : List (Unsigned w)) : foldAdd xs = sum xs := by
  have hop : (fun x y : Unsigned w => x + y) = wrapAdd := funext₂ add_eq_wrapAdd
  rw [foldAdd, hop]
  rfl

theorem foldMul_eq_product (xs : List (Unsigned w)) : foldMul xs = product xs := by
  have hop : (fun x y : Unsigned w => x * y) = wrapMul := funext₂ mul_eq_wrapMul
  rw [foldMul, hop]
  rfl

theorem power_eq_product (x : Unsigned w) (n : Nat) :
    power x n = product (List.replicate n x) := by
  have hmul (i j : Int) : (ofInt _ (i * j) : Unsigned w) = ofInt _ i * ofInt _ j := by
    rw [mul_eq_wrapMul, ofInt_mul]
  rw [product_eq_ofInt, List.map_replicate, List.prod_replicate, ← power_map (ofInt_one w) hmul,
    ofInt_value]

end Closed

end Word

namespace Fold

variable {w : Width}

theorem run_eq_fold [w.Closed] (f : Fold) (xs : List (Unsigned w)) :
    f.run w xs = .ok (f.fold xs) := by
  rw [run, dif_pos Width.Closed.isClosed]

theorem run_sum (hw : w.isClosed = true) (xs : List (Unsigned w)) {f : Fold}
    (hf : f ∈ [Fold.sum, .foldAdd]) : f.run w xs = .ok (Word.sum xs) := by
  have : w.Closed := ⟨hw⟩
  obtain rfl | rfl : f = .sum ∨ f = .foldAdd := by simpa using hf
  · exact run_eq_fold .sum xs
  · rw [run_eq_fold, fold, Word.foldAdd_eq_sum]

theorem run_product (hw : w.isClosed = true) (xs : List (Unsigned w)) {f : Fold}
    (hf : f ∈ [Fold.product, .foldMul]) : f.run w xs = .ok (Word.product xs) := by
  have : w.Closed := ⟨hw⟩
  obtain rfl | rfl : f = .product ∨ f = .foldMul := by simpa using hf
  · exact run_eq_fold .product xs
  · rw [run_eq_fold, fold, Word.foldMul_eq_product]

end Fold

namespace Word

variable {w : Width}

theorem power?_eq (hw : w.isClosed = true) (x : Unsigned w) (n : Nat) :
    x.power? n = .ok (product (List.replicate n x)) := by
  have : w.Closed := ⟨hw⟩
  rw [power?, dif_pos hw, power_eq_product]

/-- **Folds and powers at the closed widths** are the sums, products and powers of the values modulo
the number of bit patterns, in whatever order they are computed. -/
theorem folds_and_powers (hw : w.isClosed = true) (xs ys : List (Unsigned w)) (x : Unsigned w)
    (n : Nat) :
    (∀ f ∈ [Fold.sum, .foldAdd], f.run w xs = .ok (sum xs)) ∧
    (∀ f ∈ [Fold.product, .foldMul], f.run w xs = .ok (product xs)) ∧
    (sum xs).value = (xs.map value).sum % 2 ^ w.bits ∧
    (product xs).value = (xs.map value).prod % 2 ^ w.bits ∧
    (sum ([] : List (Unsigned w))).value = 0 ∧ (product ([] : List (Unsigned w))).value = 1 ∧
    (xs.Perm ys → sum xs = sum ys ∧ product xs = product ys) ∧
    sum (xs ++ ys) = (sum xs).wrapAdd (sum ys) ∧
    product (xs ++ ys) = (product xs).wrapMul (product ys) ∧
    x.power? n = .ok (product (List.replicate n x)) ∧
    (product (List.replicate n x)).value = x.value ^ n % 2 ^ w.bits ∧
    x.power? 0 = .ok (one w) := by
  have hone : (one w).value = 1 := by cases w <;> rfl
  refine ⟨fun f => Fold.run_sum hw xs, fun f => Fold.run_product hw xs, value_sum xs,
    value_product xs, value_sum [], hone, fun h => ⟨sum_perm h, product_perm h⟩, sum_append xs ys,
    product_append xs ys, power?_eq hw x n, ?_, power?_eq hw x 0⟩
  rw [value_product, List.map_replicate, List.prod_replicate]

/-- Words with their top bits set: sum, product and power all wrap. -/
theorem folds_and_powers_top_bits :
    let x : Unsigned .w32 := ofNat _ 4294967295
    let y : Unsigned .w32 := ofNat _ 2147483651
    Width.isClosed .w32 = true ∧ [x, y].Perm [y, x] ∧
      Fold.foldAdd ∈ [Fold.sum, .foldAdd] ∧ Fold.foldMul ∈ [Fold.product, .foldMul] ∧
      Fold.foldAdd.run .w32 [x, y] = .ok (sum [y, x]) ∧
      Fold.foldMul.run .w32 [x, y] = .ok (product [y, x]) ∧
      (sum [x, y]).value = 2147483650 ∧ (product [x, y]).value = 2147483645 ∧
      ∃ z, y.power? 5 = .ok z ∧ z.value = 2147483891 := by
  intro x y
  have hw : Width.isClosed .w32 = true := by decide
  have hperm : [x, y].Perm [y, x] := List.Perm.swap y x []
  have hadd : Fold.foldAdd ∈ [Fold.sum, .foldAdd] := by decide
  have hmul : Fold.foldMul ∈ [Fold.product, .foldMul] := by decide
  obtain ⟨hsum, hproduct, hs, hp, -, -, horder, -, -, hpower, hvalue, -⟩ :=
    folds_and_powers hw [x, y] [y, x] y 5
  obtain ⟨horderSum, horderProduct⟩ := horder hperm
  exact ⟨hw, hperm, hadd, hmul, horderSum ▸ hsum _ hadd, horderProduct ▸ hproduct _ hmul,
    hs.trans (by decide), hp.trans (by decide), _, hpower, hvalue.trans (by decide)⟩

end Word

end FixedWidth
