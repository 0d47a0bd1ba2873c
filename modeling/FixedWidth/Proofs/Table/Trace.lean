import FixedWidth.Table.Map
import FixedWidth.Table.Set
import Mathlib.Data.List.Induction

/-!
# Traces of steps

Sets and maps take steps one after another, and each step gives an answer and the next state. What
such a sequence leaves is a fold, and the trace of a longer sequence is that of its first part,
followed by that of the rest from the state in between (`Trace.steps_append`). An invariant may
speak of the state and of the steps that led to it; it holds after any number of steps if one step
keeps it (`Trace.final_induction`).
-/

namespace FixedWidth

namespace Trace

variable {σ ι ρ : Type} (run : σ → ι → ρ × σ)

/-- The answers of a sequence of steps, each with the state after it. -/
def steps (s : σ) : List ι → List (ρ × σ)
  | [] => []
  | step :: rest => run s step :: steps (run s step).2 rest

def final (s : σ) (history : List ι) : σ := history.foldl (fun s step => (run s step).2) s

theorem final_concat (s : σ) (history : List ι) (step : ι) :
    final run s (history ++ [step]) = (run (final run s history) step).2 := by
  rw [final, List.foldl_append]
  rfl

theorem steps_append (s : σ) (p q : List ι) :
    steps run s (p ++ q) = steps run s p ++ steps run (final run s p) q := by
  induction p generalizing s with
  | nil => rfl
  | cons step p ih =>
    rw [List.cons_append, steps, ih, steps, List.cons_append, final, final, List.foldl_cons]

theorem length_steps (s : σ) (history : List ι) :
    (steps run s history).length = history.length := by
  induction history generalizing s with
  | nil => rfl
  | cons step rest ih => rw [steps, List.length_cons, List.length_cons, ih]

/-- **A step inside a trace** runs on the state that the steps before it left. -/
theorem exists_steps_eq (s : σ) (earlier later : List ι) (step : ι) :
    ∃ before after,
      steps run s (earlier ++ step :: later) =
        before ++ ((run (final run s earlier) step).1, final run s (earlier ++ [step])) :: after ∧
      before.length = earlier.length ∧ after.length = later.length := by
  refine ⟨steps run s earlier, steps run (final run s (earlier ++ [step])) later, ?_,
    length_steps run _ _, length_steps run _ _⟩
  rw [steps_append, steps, final_concat]

variable {run}

/-- **What one step keeps, any number of steps keeps**, also when it speaks of the steps taken. -/
theorem final_induction {P : σ → List ι → Prop} {s : σ} (hs : P s [])
    (hstep : ∀ s history step, P s history → P (run s step).2 (history ++ [step]))
    (history : List ι) : P (final run s history) history := by
  induction history using List.reverseRecOn with
  | nil => exact hs
  | append_singleton history step ih =>
    rw [final_concat]
    exact hstep _ history step ih

/-- **Related runs**: related steps on related states give related answers and states. -/
theorem steps_forall₂ {R : σ → σ → Prop} {S : ι → ι → Prop} {Q : ρ → ρ → Prop}
    (hstep : ∀ s s' step step', R s s' → S step step' →
      Q (run s step).1 (run s' step').1 ∧ R (run s step).2 (run s' step').2)
    {xs ys : List ι} (h : List.Forall₂ S xs ys) : ∀ {s s' : σ}, R s s' →
      List.Forall₂ (fun p q => Q p.1 q.1 ∧ R p.2 q.2) (steps run s xs) (steps run s' ys) := by
  induction h with
  | nil =>
    intro s s' _
    exact .nil
  | cons hxy _ ih =>
    intro s s' hs
    have hr := hstep s s' _ _ hs hxy
    exact .cons hr (ih hr.2)

end Trace

theorem SetStep.runAll_eq_steps (s : ScalarSet) (history : List SetStep) :
    runAll s history = Trace.steps run s history := by
  induction history generalizing s with
  | nil => rfl
  | cons step rest ih => rw [runAll, Trace.steps, ih]

theorem MapStep.runAll_eq_steps (m : ScalarMap) (history : List MapStep) :
    runAll m history = Trace.steps run m history := by
  induction history generalizing m with
  | nil => rfl
  | cons step rest ih => rw [runAll, Trace.steps, ih]

end FixedWidth
