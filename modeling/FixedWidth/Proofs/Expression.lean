import FixedWidth.Proofs.Conversion.Interfaces
import FixedWidth.Proofs.LowBits

/-!
# Expressions of mixed widths

Each operator brings its operands to their common width, so the nodes of one expression work at
different widths. Seen modulo `2 ^ t.bits` none of this shows, provided that no node works in fewer
bits than `t` has (`Expression.Covers`): the low bits are those that come out when all words are
brought to `t` first (`Expression.resize_eval`). A complement below that width would miss the high
bits that it has to set, and an operator below it would lose a carry.

Inside one width, sums, differences and products are those of the integers modulo `2 ^ t.bits`
(`Expression.evalAt_eq_ofInt`), and associative operators can be regrouped
(`Expression.Regroups.evalAt_eq`).
-/

namespace FixedWidth

/-- A tree of modular operators and complements over unsigned words. -/
inductive Expression where
  | leaf {w : Width} (x : Unsigned w)
  | node (op : ModularOperator) (l r : Expression)
  | complement (e : Expression)

namespace Expression

variable {t : Width}

/-- The width of the value: common for an operator, the operand's own for a complement. -/
def width : Expression → Width
  | leaf (w := w) _ => w
  | node _ l r => l.width.common r.width
  | complement e => e.width

/-- The value by the operations of scalars. -/
def run : Expression → Except Fault Scalar
  | leaf x => .ok (.ofUnsigned x)
  | node op l r => l.run.bind fun a => r.run.bind fun b => Scalar.binary op.toOperator a b
  | complement e => e.run.bind Scalar.complement

/-- The value by the operations of scalars, cast to width `t` in the end. -/
def runTo (t : Width) (e : Expression) : Except Fault Scalar :=
  e.run.bind (Scalar.cast ⟨.unsigned, t⟩)

/-- The value inside width `t`, to which the words are brought first. -/
def evalAt (t : Width) : Expression → Unsigned t
  | leaf x => x.resize t
  | node op l r => op.inside (l.evalAt t) (r.evalAt t)
  | complement e => (e.evalAt t).complement

/-- No operator and no complement works in fewer bits than `t` has. -/
def Covers (t : Width) : Expression → Prop
  | leaf _ => True
  | node op l r => t.bits ≤ (node op l r).width.bits ∧ l.Covers t ∧ r.Covers t
  | complement e => t.bits ≤ (complement e).width.bits ∧ e.Covers t

def decideCovers (t : Width) : (e : Expression) → Decidable (e.Covers t)
  | leaf _ => .isTrue trivial
  | node op l r =>
    have := decideCovers t l
    have := decideCovers t r
    inferInstanceAs (Decidable (t.bits ≤ (node op l r).width.bits ∧ l.Covers t ∧ r.Covers t))
  | complement e =>
    have := decideCovers t e
    inferInstanceAs (Decidable (t.bits ≤ (complement e).width.bits ∧ e.Covers t))

instance : DecidablePred (Covers t) := decideCovers t

/-- The integer that a tree of sums, differences and products has without any wrapping. -/
def integer? : Expression → Option Int
  | leaf x => some x.value
  | node op l r => l.integer?.bind fun i => r.integer?.bind fun j => op.onIntegers? i j
  | complement _ => none

/-- The trees that differ in the grouping and the order of operands, except under differences. -/
inductive Regroups : Expression → Expression → Prop
  | refl (e : Expression) : Regroups e e
  | symm {e f : Expression} : Regroups e f → Regroups f e
  | trans {e f g : Expression} : Regroups e f → Regroups f g → Regroups e g
  | node {op : ModularOperator} {l l' r r' : Expression} :
      Regroups l l' → Regroups r r' → Regroups (.node op l r) (.node op l' r')
  | complement {e f : Expression} : Regroups e f → Regroups (.complement e) (.complement f)
  | assoc {op : ModularOperator} (h : op ≠ .sub) (e f g : Expression) :
      Regroups (.node op (.node op e f) g) (.node op e (.node op f g))
  | comm {op : ModularOperator} (h : op ≠ .sub) (e f : Expression) :
      Regroups (.node op e f) (.node op f e)

/-! ### The value at its own width -/

def eval : (e : Expression) → Unsigned e.width
  | leaf x => x
  | node op l r => Word.promoted l.eval r.eval op.inside
  | complement e => e.eval.complement

theorem run_eq_ok (e : Expression) : e.run = .ok (.ofUnsigned e.eval) := by
  induction e with
  | leaf x => rfl
  | node op l r ihl ihr =>
    rw [run, ihl, ihr]
    exact op.binary_toOperator l.eval r.eval
  | complement e ih =>
    rw [run, ih]
    rfl

/-- **The low bits of the value are the value at the low bits.** -/
theorem resize_eval {e : Expression} (h : e.Covers t) : e.eval.resize t = e.evalAt t := by
  induction e with
  | leaf x => rfl
  | node op l r ihl ihr =>
    obtain ⟨hw, hl, hr⟩ := h
    -- Each operand comes to the node at a width of its own, with the low bits that it has at `t`.
    calc (node op l r).eval.resize t
        = op.inside ((l.eval.resize (node op l r).width).resize t)
            ((r.eval.resize (node op l r).width).resize t) := op.resize_inside hw _ _
      _ = op.inside (l.eval.resize t) (r.eval.resize t) := by
          rw [Word.resize_resize_of_le hw, Word.resize_resize_of_le hw]
      _ = (node op l r).evalAt t := by rw [ihl hl, ihr hr, evalAt]
  | complement e ih =>
    obtain ⟨hw, he⟩ := h
    calc (complement e).eval.resize t
        = (e.eval.resize t).complement := Word.resize_complement hw _
      _ = (complement e).evalAt t := by rw [ih he, evalAt]

theorem runTo_of_covers {e : Expression} (h : e.Covers t) :
    e.runTo t = .ok (.ofUnsigned (e.evalAt t)) := by
  rw [runTo, run_eq_ok, ← resize_eval h]
  exact Scalar.cast_eq_ok_iff.mpr ⟨Kind.converts_of_unsigned rfl, rfl⟩

/-! ### The value inside one width -/

/-- **Inside one width the arithmetic is that of the integers**, reduced once at the end. -/
theorem evalAt_eq_ofInt (t : Width) {e : Expression} :
    ∀ {n : Int}, e.integer? = some n → e.evalAt t = Word.ofInt _ n := by
  induction e with
  | leaf x =>
    intro n hn
    obtain rfl : x.value = n := Option.some.inj hn
    have hr : Kind.IsResidue ⟨.unsigned, t⟩ (x.resize t).value x.value :=
      Word.isResidue_ofCarrier _ x
    exact Word.value_injective (hr.unique (Word.isResidue_ofInt _ x.value))
  | node op l r ihl ihr =>
    intro n hn
    obtain ⟨i, hi, hn⟩ := Option.bind_eq_some_iff.mp hn
    obtain ⟨j, hj, hn⟩ := Option.bind_eq_some_iff.mp hn
    rw [evalAt, ihl hi, ihr hj, ModularOperator.inside_ofInt hn]
  | complement e _ =>
    intro n hn
    exact absurd hn (Option.some_ne_none n).symm

theorem evalAt_value (t : Width) {e : Expression} {n : Int} (h : e.integer? = some n) :
    (e.evalAt t).value = n % 2 ^ t.bits := by
  rw [evalAt_eq_ofInt t h]
  exact Word.toNat_ofInt _ n

theorem Regroups.evalAt_eq (t : Width) {e f : Expression} (h : Regroups e f) :
    e.evalAt t = f.evalAt t := by
  induction h with
  | refl e => rfl
  | symm _ ih => exact ih.symm
  | trans _ _ ih₁ ih₂ => exact ih₁.trans ih₂
  | node _ _ ih₁ ih₂ => rw [evalAt, evalAt, ih₁, ih₂]
  | complement _ ih => rw [evalAt, evalAt, ih]
  | assoc h e f g => exact ModularOperator.inside_assoc h _ _ _
  | comm h e f => exact ModularOperator.inside_comm h _ _

/-- **Mixed widths do not show in the low bits**, as long as no node works in fewer bits than are
looked at. -/
theorem runTo_eq_evalAt (e : Expression) (t : Width) (h : e.Covers t) :
    (∃ x : Unsigned e.width, e.run = .ok (.ofUnsigned x)) ∧
    e.runTo t = .ok (.ofUnsigned (e.evalAt t)) ∧
    (∀ n, e.integer? = some n → (e.evalAt t).value = n % 2 ^ t.bits) ∧
    (∀ f : Expression, f.Covers t →
      Regroups e f ∨ (∃ n, e.integer? = some n ∧ f.integer? = some n) →
        f.runTo t = e.runTo t) := by
  refine ⟨⟨e.eval, e.run_eq_ok⟩, runTo_of_covers h, fun n => evalAt_value t, ?_⟩
  intro f hf hef
  rw [runTo_of_covers h, runTo_of_covers hf]
  rcases hef with hg | ⟨n, he, hn⟩
  · rw [hg.evalAt_eq t]
  · rw [evalAt_eq_ofInt t he, evalAt_eq_ofInt t hn]

theorem runTo_eq_evalAt_sixteen :
    let a := leaf (Word.ofNat ⟨.unsigned, .w8⟩ 200)
    let b := leaf (Word.ofNat ⟨.unsigned, .w64⟩ 1099511627783)
    let c := leaf (Word.ofNat ⟨.unsigned, .w16⟩ 300)
    let d := complement (leaf (Word.ofNat ⟨.unsigned, .w32⟩ 5))
    let e := node .sub (node .mul (node .add a b) c) d
    let f := node .sub (node .mul c (node .add a b)) d
    e.Covers .w16 ∧ f.Covers .w16 ∧ Regroups e f ∧
      e.runTo .w16 = .ok (.ofUnsigned (Word.ofNat ⟨.unsigned, .w16⟩ 62106)) ∧
      f.runTo .w16 = e.runTo .w16 := by
  intro a b c d e f
  have he : e.Covers .w16 := by decide
  have hf : f.Covers .w16 := by decide
  have hef : Regroups e f := .node (.comm (by decide) _ _) (.refl d)
  obtain ⟨-, hr, -, hg⟩ := runTo_eq_evalAt e .w16 he
  refine ⟨he, hf, hef, hr.trans ?_, hg f hf (.inl hef)⟩
  have hv : e.evalAt .w16 = Word.ofNat ⟨.unsigned, .w16⟩ 62106 := by decide
  rw [hv]

end Expression

end FixedWidth
