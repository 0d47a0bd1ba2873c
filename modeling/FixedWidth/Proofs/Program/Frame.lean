import FixedWidth.Proofs.Program.Run
import FixedWidth.Proofs.Typing

/-!
# What a step leaves alone

A step of a program does one of three things. A computing step stores a scalar in its destination
and answers it, a query answers something else and stores nothing, and a step that fails answers a
fault and stores nothing (`Step.run_cases`). A compound assignment is the operator with its left
operand for a destination, as far as the assignment exists (`Step.run_assign`).
-/

namespace FixedWidth

/-- Whether an answer is the fault of a zero divisor. -/
def Answer.isZeroDivisor : Answer → Bool
  | .fault f => f.isZeroDivisor
  | _ => false

namespace Step

variable {n : Nat} {regs : Registers n} {step : Step n} {dst b : Fin n} {op : Operator}

/-- The register that a computing step stores to. A query has none. -/
def destination? : Step n → Option (Fin n)
  | .binary dst .. | .assign dst .. | .inner dst .. | .shift dst .. | .complement dst _
  | .dual dst _ | .cast dst .. | .widen dst .. | .convert dst .. => some dst
  | .order .. | .equality .. | .hash _ | .text _ => none

/-- A step stores a scalar and answers it, or answers something else, or fails. -/
def Cases (regs : Registers n) (step : Step n) : Prop :=
  (∃ dst a, step.destination? = some dst ∧
    step.run regs = (.value a, regs.set dst a dst.isLt)) ∨
  (∃ x, step.destination? = none ∧ (∀ a, x ≠ .value a) ∧ step.run regs = (x, regs)) ∨
  ∃ f, step.run regs = (.fault f, regs)

theorem cases_of_store {o : Except Fault Scalar} (hd : step.destination? = some dst)
    (h : step.effect regs = o.map (.store dst)) : step.Cases regs := by
  cases o with
  | ok a => exact Or.inl ⟨dst, a, hd, by rw [run, h]; rfl⟩
  | error f => exact Or.inr (Or.inr ⟨f, by rw [run, h]; rfl⟩)

theorem cases_of_tell {x : Answer} (hd : step.destination? = none) (hx : ∀ a, x ≠ .value a)
    (h : step.effect regs = .ok (.tell x)) : step.Cases regs :=
  Or.inr (Or.inl ⟨x, hd, hx, by rw [run, h]⟩)

/-- **All that a step can do.** -/
theorem run_cases (regs : Registers n) (step : Step n) : step.Cases regs := by
  cases step with
  | binary dst op a b => exact cases_of_store rfl rfl
  | assign dst op b => exact cases_of_store rfl rfl
  | inner dst op a b => exact cases_of_store rfl rfl
  | shift dst direction a count => exact cases_of_store rfl rfl
  | complement dst a => exact cases_of_store rfl rfl
  | dual dst a => exact cases_of_store (o := .ok _) rfl rfl
  | cast dst target a => exact cases_of_store rfl rfl
  | widen dst target a => exact cases_of_store rfl rfl
  | convert dst target a => exact cases_of_store rfl rfl
  | order a b =>
    cases h : (regs.get a).order? (regs.get b) with
    | ok o => exact cases_of_tell rfl (fun _ => Answer.noConfusion) (by rw [effect, h]; rfl)
    | error e => exact Or.inr (Or.inr ⟨.kinds e, run_of_error (by rw [effect, h]; rfl)⟩)
  | equality a b => exact cases_of_tell rfl (fun _ => Answer.noConfusion) rfl
  | hash a => exact cases_of_tell rfl (fun _ => Answer.noConfusion) rfl
  | text a => exact cases_of_tell rfl (fun _ => Answer.noConfusion) rfl

/-- **A stored value is the only change.** -/
theorem get_of_value {a : Scalar} (h : (step.run regs).1 = .value a) :
    ∃ dst, step.destination? = some dst ∧ (step.run regs).2.get dst = a ∧
      ∀ i, i ≠ dst → (step.run regs).2.get i = regs.get i := by
  rcases step.run_cases regs with ⟨dst, c, hd, hr⟩ | ⟨x, -, hx, hr⟩ | ⟨f, hr⟩
  · rw [hr] at h
    obtain rfl : c = a := Answer.value.inj h
    refine ⟨dst, hd, ?_, fun i hi => ?_⟩
    · rw [hr]
      exact Vector.getElem_set_self dst.isLt
    · rw [hr]
      exact Vector.getElem_set_ne dst.isLt i.isLt fun he => hi (Fin.ext he.symm)
  · rw [hr] at h
    exact absurd h (hx a)
  · rw [hr] at h
    cases h

theorem registers_of_query (h : step.destination? = none) : (step.run regs).2 = regs := by
  rcases step.run_cases regs with ⟨dst, c, hd, -⟩ | ⟨x, -, -, hr⟩ | ⟨f, hr⟩
  · rw [h] at hd
    cases hd
  · rw [hr]
  · rw [hr]

theorem registers_of_fault {f : Fault} (h : (step.run regs).1 = .fault f) :
    (step.run regs).2 = regs := by
  rcases step.run_cases regs with ⟨dst, c, -, hr⟩ | ⟨x, -, -, hr⟩ | ⟨f, hr⟩
  · rw [hr] at h
    cases h
  · rw [hr]
  · rw [hr]

/-! ### Compound assignments -/

/-- **A compound assignment that exists is the operator**, in its answer and in its effect. -/
theorem run_assign (regs : Registers n) (dst : Fin n) (op : Operator) (b : Fin n) :
    (assign dst op b).run regs =
      if Scalar.assignable (regs.get dst).kind (regs.get b).kind then
        (binary dst op dst b).run regs
      else (.fault .undefined, regs) := by
  split
  next h => simp only [run, effect, Scalar.assign_eq_binary h]
  next h =>
    have hf : Scalar.assign op (regs.get dst) (regs.get b) = .error .undefined := if_neg h
    exact run_of_error (by rw [effect, hf]; rfl)

theorem isZeroDivisor_assign :
    ((assign dst op b).run regs).1.isZeroDivisor = true ↔
      Scalar.assignable (regs.get dst).kind (regs.get b).kind = true ∧
        ((binary dst op dst b).run regs).1.isZeroDivisor = true := by
  rw [run_assign]
  split
  next h => rw [h, eq_self, true_and]
  next h => simp [h, Answer.isZeroDivisor, Fault.isZeroDivisor]

theorem kind_of_assign_value {a : Scalar} (h : ((assign dst op b).run regs).1 = .value a) :
    a.kind = (regs.get dst).kind := by
  cases ho : Scalar.assign op (regs.get dst) (regs.get b) with
  | ok c =>
    have hr : (assign dst op b).run regs = (.value c, regs.set dst c dst.isLt) := by
      rw [run, effect, ho]
      rfl
    rw [hr] at h
    obtain rfl : c = a := Answer.value.inj h
    exact Scalar.kind_of_assign ho
  | error f =>
    rw [run_of_error (f := f) (by rw [effect, ho]; rfl)] at h
    cases h

theorem run_assign_of_value {a : Scalar} (h : ((assign dst op b).run regs).1 = .value a) :
    (assign dst op b).run regs = (binary dst op dst b).run regs := by
  rw [run_assign] at h ⊢
  split at h
  next ha => rw [if_pos ha]
  next => cases h

theorem exists_fault_of_zero (hd : op.divides = true) (hb : (regs.get b).value = 0) :
    (∃ f, ((assign dst op b).run regs).1 = .fault f) ∧
      ∃ f, ((binary dst op dst b).run regs).1 = .fault f := by
  have hz : (op.divides && (regs.get b).value == 0) = true := by rw [hd, hb]; rfl
  constructor
  · have ho := Scalar.obeys_assign op (regs.get dst) (regs.get b)
    rw [hz] at ho
    obtain ⟨f, hf⟩ := ho.exists_error
    exact ⟨f, by rw [run_of_error (f := f) (by rw [effect, hf]; rfl)]⟩
  · have ho := Scalar.obeys_binary op (regs.get dst) (regs.get b)
    rw [hz] at ho
    obtain ⟨f, hf⟩ := ho.exists_error
    exact ⟨f, by rw [run_of_error (f := f) (by rw [effect, hf]; rfl)]⟩

end Step

/-! ### Programs -/

/-- **Closure, frame and atomicity** at every place in a run: a step stores to its destination or
changes nothing, and every register holds an integer of its kind. -/
theorem Program.run_frame {n : Nat} (regs : Registers n) (earlier later : List (Step n))
    (step : Step n) :
    let before := (run regs earlier).2
    let answer := (step.run before).1
    let after := (step.run before).2
    run regs (earlier ++ step :: later) =
        ((run regs earlier).1 ++ answer :: (run after later).1, (run after later).2) ∧
    (∀ i, (before.get i).value ∈ (before.get i).kind.range ∧
      (after.get i).value ∈ (after.get i).kind.range) ∧
    (∀ a, answer = .value a → ∃ dst, step.destination? = some dst ∧ after.get dst = a ∧
      ∀ i, i ≠ dst → after.get i = before.get i) ∧
    (step.destination? = none → after = before) ∧
    (∀ f, answer = .fault f → after = before) ∧
    (∀ dst op b, step = .assign dst op b →
      (∀ a, answer = .value a → (answer, after) = (Step.binary dst op dst b).run before ∧
        a.kind = (before.get dst).kind) ∧
      (answer.isZeroDivisor = true ↔
        Scalar.assignable (before.get dst).kind (before.get b).kind = true ∧
          ((Step.binary dst op dst b).run before).1.isZeroDivisor = true) ∧
      (op.divides = true → (before.get b).value = 0 →
        (∃ f, answer = .fault f) ∧ ∃ f, ((Step.binary dst op dst b).run before).1 = .fault f)) := by
  intro before answer after
  refine ⟨?_, fun i => ⟨Scalar.value_mem_range _, Scalar.value_mem_range _⟩,
    fun a => Step.get_of_value, Step.registers_of_query, fun f => Step.registers_of_fault, ?_⟩
  · rw [run_append, run_cons]
  · rintro dst op b rfl
    exact ⟨fun a ha => ⟨Step.run_assign_of_value ha, Step.kind_of_assign_value ha⟩,
      Step.isZeroDivisor_assign, Step.exists_fault_of_zero⟩

/-- A quotient by zero leaves its destination alone, so the sum after it still finds the old value.
-/
theorem Program.run_frame_wrapping :
    let regs : Registers 3 := #v[.ofWord (Word.ofNat ⟨.unsigned, .w32⟩ 4294967295),
      .ofWord (Word.ofNat ⟨.unsigned, .w8⟩ 2), .ofWord (Word.ofNat ⟨.unsigned, .w16⟩ 0)]
    let earlier : List (Step 3) := [.assign 0 .div 2]
    let step : Step 3 := .assign 0 .add 1
    let before := (run regs earlier).2
    let after := (step.run before).2
    let sum : Scalar := .ofWord (Word.ofNat ⟨.unsigned, .w32⟩ 1)
    before = regs ∧ (step.run before).1 = .value sum ∧ after.get 0 = sum ∧
      after.get 1 = before.get 1 ∧
      (.value sum, after) = (Step.binary 0 .add 0 1).run before := by
  intro regs earlier step before after sum
  have hf : ((Step.assign 0 .div 2).run regs).1 = .fault (.trap .divisionByZero) := by decide
  have hb : before = regs := (run_frame regs [] [] (.assign 0 .div 2)).2.2.2.2.1 _ hf
  have hv : (step.run before).1 = .value sum := by
    rw [hb]
    decide
  obtain ⟨-, -, hs, -, -, ha⟩ := run_frame regs earlier [] step
  obtain ⟨dst, hd, hget, hother⟩ := hs sum hv
  obtain rfl : 0 = dst := Option.some.inj hd
  refine ⟨hb, hv, hget, hother 1 (by decide), ?_⟩
  exact hv ▸ ((ha 0 .add 1 rfl).1 sum hv).1

end FixedWidth
