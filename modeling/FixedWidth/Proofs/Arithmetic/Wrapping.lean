import FixedWidth.Proofs.LowBits

/-!
# Arithmetic of plain binary readings

Sums, differences and products are computed on the two's complement readings of the bits, and come
out as the arithmetic of the plain binary readings modulo the number of bit patterns: a word is
`Word.ofInt` of its value, which turns integer arithmetic into the arithmetic inside a width
(`ModularOperator.value_inside`). On the way to the common width an unsigned word gains only zeros,
so the operator across kinds sees the same two integers (`Word.value_resize_of_le`).
-/

namespace FixedWidth

/-! ### Words of a width -/

namespace Word

variable {v w : Width}

theorem value_resize_of_le (h : v.bits ≤ w.bits) (x : Unsigned v) :
    (x.resize w).value = x.value := by
  have hn : (x.resize w).bits.toNat = x.bits.toNat := by
    rw [bits_resize]
    exact BitVec.toNat_setWidth_of_le h
  exact congrArg Int.ofNat hn

theorem toNat_resize_of_le (h : v.bits ≤ w.bits) (x : Unsigned v) :
    (x.resize w).toNat = x.toNat :=
  Int.ofNat.inj (value_resize_of_le h x)

theorem value_complement (x : Unsigned w) : x.complement.value = 2 ^ w.bits - 1 - x.value := by
  have hlt : x.toNat < 2 ^ w.bits := x.bits.isLt
  have hn : x.complement.toNat = 2 ^ w.bits - 1 - x.toNat := BitVec.toNat_not
  have hc : ((2 ^ w.bits : Nat) : Int) = 2 ^ w.bits := by rw [Nat.cast_pow, Nat.cast_ofNat]
  rw [value_unsigned, value_unsigned, hn, ← hc]
  omega

end Word

/-! ### Inside one width -/

namespace ModularOperator

variable {w : Width}

/-- The operator on two numbers, at a width of `n` bits. -/
def onValues (n : Nat) : ModularOperator → Nat → Nat → Int
  | add, i, j => ((i : Int) + j) % 2 ^ n
  | sub, i, j => ((i : Int) - j) % 2 ^ n
  | mul, i, j => ((i : Int) * j) % 2 ^ n
  | and, i, j => (i &&& j : Nat)
  | or, i, j => (i ||| j : Nat)
  | xor, i, j => (i ^^^ j : Nat)

theorem value_inside_of_integers {op : ModularOperator} {x y : Unsigned w} {n : Int}
    (h : op.onIntegers? x.value y.value = some n) : (op.inside x y).value = n % 2 ^ w.bits := by
  have hi : op.inside x y = Word.ofInt _ n := by
    rw [← inside_ofInt h, Word.ofInt_value, Word.ofInt_value]
  rw [hi]
  exact Word.toNat_ofInt _ n

/-- **Inside a width an operator is the one on the plain binary readings.** -/
theorem value_inside (op : ModularOperator) (x y : Unsigned w) :
    (op.inside x y).value = op.onValues w.bits x.toNat y.toNat := by
  cases op with
  | add => exact value_inside_of_integers rfl
  | sub => exact value_inside_of_integers rfl
  | mul => exact value_inside_of_integers rfl
  | and => exact congrArg Int.ofNat (BitVec.toNat_and x.bits y.bits)
  | or => exact congrArg Int.ofNat (BitVec.toNat_or x.bits y.bits)
  | xor => exact congrArg Int.ofNat (BitVec.toNat_xor x.bits y.bits)

end ModularOperator

/-! ### Across kinds -/

namespace Scalar

variable {v w : Width} {o o' : Except Fault Scalar} {k : Kind} {i : Int}

/-- The outcome is a scalar of kind `k` that stands for `i`. -/
def Yields (outcome : Except Fault Scalar) (k : Kind) (i : Int) : Prop :=
  ∃ c, outcome = .ok c ∧ c.kind = k ∧ c.value = i

theorem yields_ofUnsigned {x : Unsigned w} {i : Int} (h : x.value = i) :
    Yields (.ok (ofUnsigned x)) ⟨.unsigned, w⟩ i :=
  ⟨_, rfl, rfl, h⟩

theorem yields_ofUnsigned_toNat {x : Unsigned w} {n : Nat} (h : x.toNat = n) :
    Yields (.ok (ofUnsigned x)) ⟨.unsigned, w⟩ n :=
  yields_ofUnsigned (congrArg Int.ofNat h)

theorem Yields.eq (h : Yields o k i) (h' : Yields o' k i) : o = o' := by
  obtain ⟨⟨l, x⟩, rfl, hl, hx⟩ := h
  obtain ⟨⟨l', y⟩, rfl, hl', hy⟩ := h'
  obtain rfl : l = l' := hl.trans hl'.symm
  obtain rfl : x = y := Word.value_injective (hx.trans hy.symm)
  rfl

/-- **A modular operator across kinds** works at the common width on the operands' own numbers. -/
theorem yields_binary (op : ModularOperator) (x : Unsigned v) (y : Unsigned w) :
    Yields (binary op.toOperator (ofUnsigned x) (ofUnsigned y)) ⟨.unsigned, v.common w⟩
      (op.onValues (v.common w).bits x.toNat y.toNat) := by
  have hx := Word.toNat_resize_of_le (Width.bits_le_common_left v w) x
  have hy := Word.toNat_resize_of_le (Width.bits_le_common_right v w) y
  rw [op.binary_toOperator, Word.promoted]
  refine yields_ofUnsigned ?_
  rw [op.value_inside, hx, hy]

theorem binary_ofUnsigned (op : Operator) (x : Unsigned v) (y : Unsigned w) :
    binary op (ofUnsigned x) (ofUnsigned y) = ((op.apply x y).map ofUnsigned).mapError .trap := by
  cases h : op.apply x y <;> simp only [binary, ofUnsigned, h, Except.map, Except.mapError]

theorem binary_eq_ok {op : Operator} {x : Unsigned v} {y : Unsigned w}
    {z : Unsigned (op.width v w)} (h : op.apply x y = .ok z) :
    binary op (ofUnsigned x) (ofUnsigned y) = .ok (ofUnsigned z) := by
  rw [binary_ofUnsigned, h]
  rfl

theorem inner_ofUnsigned (op : InnerOperator) (x y : Unsigned w) :
    inner op (ofUnsigned x) (ofUnsigned y) =
      ((op.apply x y).map ofUnsigned).mapError .arithmetic := by
  have hy : (ofUnsigned y).word? ⟨.unsigned, w⟩ = some y := word?_kind (ofUnsigned y)
  simp only [ofUnsigned] at hy
  cases h : op.apply x y <;> simp only [inner, ofUnsigned, hy, h, Except.map, Except.mapError]

theorem inner_eq_ok {op : InnerOperator} {x y z : Unsigned w} (h : op.apply x y = .ok z) :
    inner op (ofUnsigned x) (ofUnsigned y) = .ok (ofUnsigned z) := by
  rw [inner_ofUnsigned, h]
  rfl

theorem yields_inner {op : InnerOperator} {x y z : Unsigned w} {i : Int}
    (hz : op.apply x y = .ok z) (hi : z.value = i) :
    Yields (inner op (ofUnsigned x) (ofUnsigned y)) ⟨.unsigned, w⟩ i := by
  rw [inner_eq_ok hz]
  exact yields_ofUnsigned hi

/-- **Modular arithmetic**, across kinds at the common width and inside a kind at its own, whichever
top bits are set. -/
theorem yields_modular (x x' : Unsigned v) (y : Unsigned w) :
    (∃ k, Kind.common? ⟨.unsigned, v⟩ ⟨.unsigned, w⟩ = some k ∧
      Yields (binary .add (ofUnsigned x) (ofUnsigned y)) k ((x.value + y.value) % 2 ^ k.bits) ∧
      Yields (binary .sub (ofUnsigned x) (ofUnsigned y)) k ((x.value - y.value) % 2 ^ k.bits) ∧
      Yields (binary .mul (ofUnsigned x) (ofUnsigned y)) k (x.value * y.value % 2 ^ k.bits) ∧
      Yields (binary .and (ofUnsigned x) (ofUnsigned y)) k (x.toNat &&& y.toNat : Nat) ∧
      Yields (binary .or (ofUnsigned x) (ofUnsigned y)) k (x.toNat ||| y.toNat : Nat) ∧
      Yields (binary .xor (ofUnsigned x) (ofUnsigned y)) k (x.toNat ^^^ y.toNat : Nat)) ∧
    Yields (inner .wrapAdd (ofUnsigned x) (ofUnsigned x')) ⟨.unsigned, v⟩
      ((x.value + x'.value) % 2 ^ v.bits) ∧
    Yields (inner .wrapSub (ofUnsigned x) (ofUnsigned x')) ⟨.unsigned, v⟩
      ((x.value - x'.value) % 2 ^ v.bits) ∧
    Yields (inner .wrapMul (ofUnsigned x) (ofUnsigned x')) ⟨.unsigned, v⟩
      (x.value * x'.value % 2 ^ v.bits) ∧
    Yields (ofUnsigned x).complement ⟨.unsigned, v⟩ (2 ^ v.bits - 1 - x.value) := by
  refine ⟨⟨⟨.unsigned, v.common w⟩, rfl, ?_, ?_, ?_, ?_, ?_, ?_⟩, ?_, ?_, ?_, ?_⟩
  · exact yields_binary .add x y
  · exact yields_binary .sub x y
  · exact yields_binary .mul x y
  · exact yields_binary .and x y
  · exact yields_binary .or x y
  · exact yields_binary .xor x y
  · exact yields_inner rfl (ModularOperator.value_inside .add x x')
  · exact yields_inner rfl (ModularOperator.value_inside .sub x x')
  · exact yields_inner rfl (ModularOperator.value_inside .mul x x')
  · exact yields_ofUnsigned x.value_complement

end Scalar

end FixedWidth
