import FixedWidth.Program

/-!
# Runs of programs

A run takes the steps of a program one after another and collects their answers. So the run of a
program in two parts is the run of the first part followed by the run of the second from the
registers that the first one left, and two programs that differ in one step can be compared at that
step (`Program.run_replace`).
-/

namespace FixedWidth.Program

variable {n : Nat}

theorem run_cons (regs : Registers n) (step : Step n) (steps : List (Step n)) :
    run regs (step :: steps) =
      ((step.run regs).1 :: (run (step.run regs).2 steps).1, (run (step.run regs).2 steps).2) := rfl

theorem run_append (regs : Registers n) (p q : List (Step n)) :
    run regs (p ++ q) =
      ((run regs p).1 ++ (run (run regs p).2 q).1, (run (run regs p).2 q).2) := by
  induction p generalizing regs with
  | nil => rfl
  | cons step p ih => rw [List.cons_append, run_cons, ih, run_cons, List.cons_append]

theorem length_run (regs : Registers n) (p : List (Step n)) : (run regs p).1.length = p.length := by
  induction p generalizing regs with
  | nil => rfl
  | cons step p ih => rw [run_cons, List.length_cons, List.length_cons, ih]

/-- **Two steps that leave the same registers** can stand for each other. -/
theorem run_replace {regs : Registers n} {p : List (Step n)} {s s' : Step n}
    (h : (s.run (run regs p).2).2 = (s'.run (run regs p).2).2) (q : List (Step n)) :
    ∃ earlier later final, earlier.length = p.length ∧
      run regs (p ++ s :: q) = (earlier ++ (s.run (run regs p).2).1 :: later, final) ∧
      run regs (p ++ s' :: q) = (earlier ++ (s'.run (run regs p).2).1 :: later, final) := by
  refine ⟨(run regs p).1, (run (s.run (run regs p).2).2 q).1, (run (s.run (run regs p).2).2 q).2,
    length_run regs p, ?_, ?_⟩
  · rw [run_append, run_cons]
  · rw [run_append, run_cons, h]

end FixedWidth.Program
