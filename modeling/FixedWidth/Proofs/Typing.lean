import FixedWidth.Proofs.Arithmetic.Wrapping
import FixedWidth.Proofs.Conversion.Interfaces
import FixedWidth.Proofs.Equality

/-!
# Kinds decide what exists

Each family of operations has a rule that tells from the kinds of the operands whether an operation
exists, and of which kind its result is. Where the rule has no kind it has the fault that is
reported, whatever the values are. A division whose divisor is zero fails though its rule has a
kind, and nothing else does (`Obeys`).
-/

namespace FixedWidth

/-! ### Zero divisors -/

def Operator.divides : Operator → Bool
  | .div | .rem => true
  | _ => false

def InnerOperator.divides : InnerOperator → Bool
  | .quotient | .remainder => true
  | _ => false

/-- Whether a fault is that of a zero divisor. -/
def Fault.isZeroDivisor : Fault → Bool
  | .arithmetic .divisionByZero | .trap .divisionByZero => true
  | .undefined | .kinds _ => false

namespace Word

variable {v w : Width}

theorem eq_zero_iff {x : Unsigned w} : x = zero w ↔ x.value = 0 := by
  have h0 : (zero w).value = 0 := by cases w <;> decide
  rw [← h0]
  exact value_injective.eq_iff.symm

theorem resize_common_eq_zero_iff {y : Unsigned w} :
    y.resize (v.common w) = zero (v.common w) ↔ y.value = 0 := by
  rw [eq_zero_iff, value_resize_of_le (Width.bits_le_common_right v w)]

end Word

theorem Operator.apply_eq_error_iff {v w : Width} {op : Operator} {x : Unsigned v} {y : Unsigned w}
    {e : ArithmeticError} : op.apply x y = .error e ↔ op.divides = true ∧ y.value = 0 := by
  cases op with
  | div =>
    show (x.resize _).quotient? (y.resize (v.common w)) = .error e ↔ true = true ∧ y.value = 0
    rw [Word.quotient?_eq_error_iff, Word.resize_common_eq_zero_iff, eq_self, true_and]
  | rem =>
    show (x.resize _).remainder? (y.resize (v.common w)) = .error e ↔ true = true ∧ y.value = 0
    rw [Word.remainder?_eq_error_iff, Word.resize_common_eq_zero_iff, eq_self, true_and]
  | _ => simp [apply, divides]

theorem InnerOperator.apply_eq_error_iff {w : Width} {op : InnerOperator} {x y : Unsigned w}
    {e : ArithmeticError} : op.apply x y = .error e ↔ op.divides = true ∧ y.value = 0 := by
  cases op with
  | quotient => simp [apply, Word.quotient?_eq_error_iff, divides, Word.eq_zero_iff]
  | remainder => simp [apply, Word.remainder?_eq_error_iff, divides, Word.eq_zero_iff]
  | _ => simp [apply, divides]

/-! ### Rules of kinds -/

/-- The kind of an operator's result. -/
def Operator.kind (op : Operator) : Kind → Kind → Except Fault Kind
  | ⟨.unsigned, v⟩, ⟨.unsigned, w⟩ => .ok ⟨.unsigned, op.width v w⟩
  | _, _ => .error .undefined

namespace Kind

/-- The kind of a left operand after an assignment. -/
def assigned (k l : Kind) : Except Fault Kind :=
  if Scalar.assignable k l then .ok k else .error .undefined

/-- The kind of the result of an operation inside one kind. -/
def inner (k l : Kind) : Except Fault Kind :=
  if k.domain = .unsigned ∧ l = k then .ok k else .error .undefined

def cast (k t : Kind) : Except Fault Kind :=
  if k.Converts t then .ok t else .error .undefined

def widen (k t : Kind) : Except Fault Kind :=
  if k.domain = .unsigned ∧ k.bits < t.bits then .ok t else .error .undefined

def convert (k t : Kind) : Except Fault Kind :=
  if k.Converts t then .ok t else .error (.kinds (.signedWidening k t))

end Kind

/-- An outcome that a rule of kinds foretells: the rule's fault, a scalar of the rule's kind, or the
fault of a zero divisor where one is met. -/
def Obeys (zero : Bool) (rule : Except Fault Kind) (outcome : Except Fault Scalar) : Prop :=
  match rule with
  | .error f => f.isZeroDivisor = false ∧ outcome = .error f
  | .ok k =>
    if zero then ∃ f, f.isZeroDivisor = true ∧ outcome = .error f
    else ∃ c, outcome = .ok c ∧ c.kind = k

namespace Obeys

variable {zero : Bool} {rule : Except Fault Kind} {outcome : Except Fault Scalar} {c : Scalar}

theorem rule_eq (h : Obeys zero rule (.ok c)) : rule = .ok c.kind := by
  cases rule with
  | error f => cases h.2
  | ok k =>
    cases zero with
    | true =>
      obtain ⟨f, -, hf⟩ := h
      cases hf
    | false =>
      obtain ⟨d, hd, rfl⟩ := h
      rw [Except.ok.inj hd]

theorem exists_error (h : Obeys true rule outcome) : ∃ f, outcome = .error f := by
  cases rule with
  | error f => exact ⟨f, h.2⟩
  | ok k =>
    obtain ⟨f, -, hf⟩ := h
    exact ⟨f, hf⟩

end Obeys

namespace Scalar

variable {a b c : Scalar} {t : Kind}

theorem obeys_ok (h : a.kind = t) : Obeys false (.ok t) (.ok a) := ⟨a, rfl, h⟩

theorem obeys_undefined (zero : Bool) : Obeys zero (.error .undefined) (.error .undefined) :=
  ⟨rfl, rfl⟩

theorem obeys_of_apply {w : Width} {o : Except ArithmeticError (Unsigned w)}
    {outcome : Except Fault Scalar} {divides : Bool} {i : Int} {g : ArithmeticError → Fault}
    (h : ∀ e, o = .error e ↔ divides = true ∧ i = 0) (hg : ∀ e, (g e).isZeroDivisor = true)
    (hok : ∀ z, o = .ok z → outcome = .ok (ofUnsigned z))
    (herr : ∀ e, o = .error e → outcome = .error (g e)) :
    Obeys (divides && i == 0) (.ok ⟨.unsigned, w⟩) outcome := by
  cases ho : o with
  | error e =>
    obtain ⟨rfl, rfl⟩ := (h e).mp ho
    exact ⟨g e, hg e, herr e ho⟩
  | ok z =>
    have hz : (divides && i == 0) = false := by
      rw [Bool.eq_false_iff, ne_eq, Bool.and_eq_true, beq_iff_eq]
      intro hd
      rw [(h .divisionByZero).mpr hd] at ho
      cases ho
    rw [hz, hok z ho]
    exact obeys_ok rfl

theorem obeys_binary (op : Operator) (a b : Scalar) :
    Obeys (op.divides && b.value == 0) (op.kind a.kind b.kind) (binary op a b) := by
  obtain ⟨⟨_ | _, v⟩, x⟩ := a
  · exact obeys_undefined _
  obtain ⟨⟨_ | _, w⟩, y⟩ := b
  · exact obeys_undefined _
  refine obeys_of_apply (o := op.apply x y) (g := .trap) (fun e => Operator.apply_eq_error_iff)
    (fun .divisionByZero => rfl) (fun z hz => ?_) fun e he => ?_
  · simp only [binary, hz]
  · simp only [binary, he]

/-- An operator whose result can be assigned has the kind of its left operand. -/
theorem kind_of_assignable (op : Operator) {k l : Kind} (h : assignable k l = true) :
    op.kind k l = .ok k := by
  obtain ⟨_ | _, v⟩ := k
  · cases h
  obtain ⟨_ | _, w⟩ := l
  · cases h
  have hw : op.width v w = v := by
    have hvw : v.common w = v := beq_iff_eq.mp h
    have hv : v.common v = v := by
      rw [← hvw]
      cases v <;> cases w <;> rfl
    cases op <;> first | exact hvw | exact hv
  rw [Operator.kind, hw]

theorem obeys_assign (op : Operator) (a b : Scalar) :
    Obeys (op.divides && b.value == 0) (a.kind.assigned b.kind) (assign op a b) := by
  rw [Kind.assigned, assign]
  split
  next h =>
    rw [← kind_of_assignable op h]
    exact obeys_binary op a b
  next h => exact obeys_undefined _

theorem kind_of_assign {op : Operator} (h : assign op a b = .ok c) : c.kind = a.kind := by
  have hr := obeys_assign op a b
  rw [h] at hr
  have hk := hr.rule_eq
  rw [Kind.assigned] at hk
  split at hk
  next => exact (Except.ok.inj hk).symm
  next => cases hk

theorem obeys_inner (op : InnerOperator) (a b : Scalar) :
    Obeys (op.divides && b.value == 0) (a.kind.inner b.kind) (inner op a b) := by
  obtain ⟨⟨_ | _, v⟩, x⟩ := a
  · exact obeys_undefined _
  obtain ⟨l, y⟩ := b
  by_cases hl : l = ⟨.unsigned, v⟩
  · subst hl
    have hy : (⟨⟨.unsigned, v⟩, y⟩ : Scalar).word? ⟨.unsigned, v⟩ = some y := word?_kind ⟨_, y⟩
    rw [Kind.inner, if_pos ⟨rfl, rfl⟩]
    refine obeys_of_apply (o := op.apply x y) (g := .arithmetic)
      (fun e => InnerOperator.apply_eq_error_iff) (fun .divisionByZero => rfl)
      (fun z hz => ?_) fun e he => ?_
    · simp only [inner, hy, hz]
    · simp only [inner, hy, he]
  · rw [Kind.inner, if_neg fun h => hl h.2]
    simp only [inner, word?_eq_none (a := ⟨l, y⟩) hl]
    exact obeys_undefined _

theorem obeys_shift (direction : Direction) (a : Scalar) (count : Unsigned .w32) :
    Obeys false (a.kind.inner a.kind) (shift direction a count) := by
  obtain ⟨⟨_ | _, v⟩, x⟩ := a
  · exact obeys_undefined _
  · rw [Kind.inner, if_pos ⟨rfl, rfl⟩]
    exact obeys_ok rfl

theorem obeys_complement (a : Scalar) : Obeys false (a.kind.inner a.kind) a.complement := by
  obtain ⟨⟨_ | _, v⟩, x⟩ := a
  · exact obeys_undefined _
  · rw [Kind.inner, if_pos ⟨rfl, rfl⟩]
    exact obeys_ok rfl

theorem obeys_cast (t : Kind) (a : Scalar) : Obeys false (a.kind.cast t) (a.cast t) := by
  rw [Kind.cast]
  split
  next h =>
    obtain ⟨b, hb⟩ := exists_convert_iff.mpr h
    rw [cast_eq_ok_iff_convert.mpr hb]
    exact obeys_ok (kind_of_convert hb)
  next h =>
    rw [cast_eq_error_iff.mpr ⟨h, rfl⟩]
    exact obeys_undefined _

theorem obeys_widen (t : Kind) (a : Scalar) : Obeys false (a.kind.widen t) (a.widen t) := by
  rw [Kind.widen]
  split
  next h =>
    rw [widen_eq_ok_iff.mpr ⟨h, rfl⟩]
    exact obeys_ok rfl
  next h =>
    have hf : a.widen t = .error .undefined := by
      obtain ⟨⟨_ | _, v⟩, x⟩ := a
      · rfl
      · have hm : t.width ∉ v.wider := fun hm => h ⟨rfl, Width.mem_wider_iff.mp hm⟩
        simp only [widen, Word.widen?, if_neg hm]
    rw [hf]
    exact obeys_undefined _

theorem obeys_convert (t : Kind) (a : Scalar) :
    Obeys false (a.kind.convert t) ((a.convert t).mapError .kinds) := by
  rw [Kind.convert]
  split
  next h =>
    obtain ⟨b, hb⟩ := exists_convert_iff.mpr h
    rw [hb]
    exact obeys_ok (kind_of_convert hb)
  next h =>
    rw [convert_eq_error_iff.mpr ⟨h, rfl⟩]
    exact ⟨rfl, rfl⟩

end Scalar

end FixedWidth
