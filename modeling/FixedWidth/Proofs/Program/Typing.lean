import FixedWidth.Proofs.Program.Frame

/-!
# Kinds, not values, decide the typing of programs

From the kinds of the registers alone follows whether a step exists and which kinds the registers
have after it (`Step.typing`). A step without a type answers the fault that its typing names, even
where its divisor is zero. A step with a type fails for a zero divisor and for nothing else
(`Step.conforms`). So the values show in one place only, and two runs from registers of the same
kinds stay in step as long as they meet zero divisors at the same steps (`Program.kinds_run`).
-/

namespace FixedWidth

variable {n : Nat}

/-! ### The typing of a step -/

/-- The kinds of the registers. -/
def Registers.kinds (regs : Registers n) : Vector Kind n := regs.map (·.kind)

theorem Registers.get_kinds (regs : Registers n) (i : Fin n) :
    regs.kinds.get i = (regs.get i).kind :=
  Vector.getElem_map Scalar.kind i.isLt

theorem Registers.kinds_eq_iff {regs regs' : Registers n} :
    regs.kinds = regs'.kinds ↔ ∀ i, (regs.get i).kind = (regs'.get i).kind := by
  constructor
  · intro h i
    rw [← get_kinds, h, get_kinds]
  · intro h
    refine Vector.ext fun i hi => ?_
    have hk := h ⟨i, hi⟩
    rw [← get_kinds, ← get_kinds] at hk
    exact hk

theorem Registers.kinds_set (regs : Registers n) (i : Fin n) (a : Scalar) :
    Registers.kinds (regs.set i a i.isLt) = regs.kinds.set i a.kind i.isLt :=
  Vector.map_set

/-- The fault of an answer that the kinds alone explain. -/
def Answer.kindFault? : Answer → Option Fault
  | .fault f => if f.isZeroDivisor then none else some f
  | _ => none

namespace Step

/-- The kinds of the registers after a step that does not meet a zero divisor. -/
def typing (kinds : Vector Kind n) : Step n → Except Fault (Vector Kind n)
  | .binary dst op a b =>
    (op.kind (kinds.get a) (kinds.get b)).map fun k => kinds.set dst k dst.isLt
  | .assign dst _ b =>
    ((kinds.get dst).assigned (kinds.get b)).map fun k => kinds.set dst k dst.isLt
  | .inner dst _ a b => ((kinds.get a).inner (kinds.get b)).map fun k => kinds.set dst k dst.isLt
  | .shift dst _ a _ => ((kinds.get a).inner (kinds.get a)).map fun k => kinds.set dst k dst.isLt
  | .complement dst a => ((kinds.get a).inner (kinds.get a)).map fun k => kinds.set dst k dst.isLt
  | .dual dst a => .ok (kinds.set dst (kinds.get a).dual dst.isLt)
  | .cast dst target a => ((kinds.get a).cast target).map fun k => kinds.set dst k dst.isLt
  | .widen dst target a => ((kinds.get a).widen target).map fun k => kinds.set dst k dst.isLt
  | .convert dst target a => ((kinds.get a).convert target).map fun k => kinds.set dst k dst.isLt
  | .order a b =>
    if (kinds.get a).domain = (kinds.get b).domain then .ok kinds
    else .error (.kinds (.mixedDomains (kinds.get a) (kinds.get b)))
  | .equality .. | .hash _ | .text _ => .ok kinds

def divisor? : Step n → Option (Fin n)
  | .binary _ op _ b | .assign _ op b => if op.divides then some b else none
  | .inner _ op _ b => if op.divides then some b else none
  | _ => none

def meetsZero (regs : Registers n) (step : Step n) : Bool :=
  step.divisor?.any fun r => (regs.get r).value == 0

/-- A step does what its typing foretells. -/
def Conforms (regs : Registers n) (step : Step n) : Prop :=
  match step.typing regs.kinds with
  | .error f => f.isZeroDivisor = false ∧ step.run regs = (.fault f, regs)
  | .ok kinds =>
    if step.meetsZero regs then ∃ f, f.isZeroDivisor = true ∧ step.run regs = (.fault f, regs)
    else (∀ f, (step.run regs).1 ≠ .fault f) ∧ Registers.kinds (step.run regs).2 = kinds

variable {regs regs' : Registers n} {step : Step n} {dst : Fin n}

theorem conforms_of_store {zero : Bool} {rule : Except Fault Kind} {outcome : Except Fault Scalar}
    (ho : Obeys zero rule outcome) (hz : step.meetsZero regs = zero)
    (ht : step.typing regs.kinds = rule.map fun k => regs.kinds.set dst k dst.isLt)
    (he : step.effect regs = outcome.map (.store dst)) : step.Conforms regs := by
  have hfail {f : Fault} (hf : outcome = .error f) : step.run regs = (.fault f, regs) :=
    run_of_error (by rw [he, hf]; rfl)
  rw [Conforms, ht, hz]
  cases rule with
  | error f => exact ⟨ho.1, hfail ho.2⟩
  | ok k =>
    cases zero with
    | true =>
      obtain ⟨f, hf, hof⟩ := ho
      exact ⟨f, hf, hfail hof⟩
    | false =>
      obtain ⟨c, rfl, rfl⟩ := ho
      have hr : step.run regs = (.value c, regs.set dst c dst.isLt) := by
        rw [run, he]
        rfl
      show (∀ f, (step.run regs).1 ≠ .fault f) ∧ _
      rw [hr]
      exact ⟨fun _ => Answer.noConfusion, regs.kinds_set dst c⟩

theorem conforms_of_tell {x : Answer} (hx : ∀ f, x ≠ .fault f) (hz : step.meetsZero regs = false)
    (ht : step.typing regs.kinds = .ok regs.kinds) (he : step.effect regs = .ok (.tell x)) :
    step.Conforms regs := by
  have hr : step.run regs = (x, regs) := by rw [run, he]
  rw [Conforms, ht, hz, hr]
  exact ⟨hx, rfl⟩

theorem meetsZero_of_divides {op : Bool} {r : Fin n} :
    (if op then some r else none).any (fun r => (regs.get r).value == 0) =
      (op && (regs.get r).value == 0) := by
  cases op <;> rfl

/-- **A step does what its typing foretells**, case by case. -/
theorem conforms (regs : Registers n) (step : Step n) : step.Conforms regs := by
  cases step with
  | binary dst op a b =>
    refine conforms_of_store (Scalar.obeys_binary op (regs.get a) (regs.get b))
      meetsZero_of_divides ?_ rfl
    rw [typing, regs.get_kinds, regs.get_kinds]
  | assign dst op b =>
    refine conforms_of_store (Scalar.obeys_assign op (regs.get dst) (regs.get b))
      meetsZero_of_divides ?_ rfl
    rw [typing, regs.get_kinds, regs.get_kinds]
  | inner dst op a b =>
    refine conforms_of_store (Scalar.obeys_inner op (regs.get a) (regs.get b))
      meetsZero_of_divides ?_ rfl
    rw [typing, regs.get_kinds, regs.get_kinds]
  | shift dst direction a count =>
    refine conforms_of_store (Scalar.obeys_shift direction (regs.get a) count) rfl ?_ rfl
    rw [typing, regs.get_kinds]
  | complement dst a =>
    refine conforms_of_store (Scalar.obeys_complement (regs.get a)) rfl ?_ rfl
    rw [typing, regs.get_kinds]
  | dual dst a =>
    refine conforms_of_store (Scalar.obeys_ok (regs.get a).kind_dual) rfl ?_ rfl
    rw [typing, regs.get_kinds]
    rfl
  | cast dst target a =>
    refine conforms_of_store (Scalar.obeys_cast target (regs.get a)) rfl ?_ rfl
    rw [typing, regs.get_kinds]
  | widen dst target a =>
    refine conforms_of_store (Scalar.obeys_widen target (regs.get a)) rfl ?_ rfl
    rw [typing, regs.get_kinds]
  | convert dst target a =>
    refine conforms_of_store (Scalar.obeys_convert target (regs.get a)) rfl ?_ rfl
    rw [typing, regs.get_kinds]
  | order a b =>
    by_cases h : (regs.get a).kind.domain = (regs.get b).kind.domain
    · refine conforms_of_tell (x := .order (compare (regs.get a).value (regs.get b).value))
        (fun _ => Answer.noConfusion) rfl ?_ ?_
      · rw [typing, regs.get_kinds, regs.get_kinds, if_pos h]
      · rw [effect, Scalar.order?, if_pos h]
        rfl
    · have ht : (order a b).typing regs.kinds =
          .error (.kinds (.mixedDomains (regs.get a).kind (regs.get b).kind)) := by
        rw [typing, regs.get_kinds, regs.get_kinds, if_neg h]
      rw [Conforms, ht]
      refine ⟨rfl, run_of_error ?_⟩
      rw [effect, Scalar.order?_eq_error_iff.mpr ⟨h, rfl⟩]
      rfl
  | equality a b => exact conforms_of_tell (fun _ => Answer.noConfusion) rfl rfl rfl
  | hash a => exact conforms_of_tell (fun _ => Answer.noConfusion) rfl rfl rfl
  | text a => exact conforms_of_tell (fun _ => Answer.noConfusion) rfl rfl rfl

/-! ### Two runs -/

theorem kindFault?_run (regs : Registers n) (step : Step n) :
    (step.run regs).1.kindFault? =
      match step.typing regs.kinds with
      | .error f => some f
      | .ok _ => none := by
  have h := step.conforms regs
  rw [Conforms] at h
  split at h
  next f ht =>
    rw [h.2, Answer.kindFault?, h.1]
    rfl
  next kinds ht =>
    split at h
    next hz =>
      obtain ⟨f, hf, hr⟩ := h
      rw [hr, Answer.kindFault?, if_pos hf]
    next hz =>
      cases hx : (step.run regs).1 with
      | fault f => exact absurd hx (h.1 f)
      | _ => rfl

/-- **The kinds after a step** are a matter of kinds and of whether a zero divisor is met. -/
theorem kinds_run (regs : Registers n) (step : Step n) :
    Registers.kinds (step.run regs).2 =
      match step.typing regs.kinds with
      | .error _ => regs.kinds
      | .ok kinds => if (step.run regs).1.isZeroDivisor then regs.kinds else kinds := by
  have h := step.conforms regs
  rw [Conforms] at h
  split at h
  next f ht => rw [h.2]
  next kinds ht =>
    split at h
    next hz =>
      obtain ⟨f, hf, hr⟩ := h
      rw [hr, Answer.isZeroDivisor, if_pos hf]
    next hz =>
      have hn : (step.run regs).1.isZeroDivisor = false := by
        cases hx : (step.run regs).1 with
        | fault f => exact absurd hx (h.1 f)
        | _ => rfl
      rw [hn, h.2]
      rfl

theorem kindFault?_run_eq (h : regs.kinds = regs'.kinds) (step : Step n) :
    (step.run regs).1.kindFault? = (step.run regs').1.kindFault? := by
  rw [kindFault?_run, kindFault?_run, h]

theorem kinds_run_eq (h : regs.kinds = regs'.kinds)
    (hz : (step.run regs).1.isZeroDivisor = (step.run regs').1.isZeroDivisor) :
    Registers.kinds (step.run regs).2 = Registers.kinds (step.run regs').2 := by
  rw [kinds_run, kinds_run, h, hz]

end Step

namespace Program

theorem kinds_run_eq {p : List (Step n)} : ∀ {regs regs' : Registers n},
    regs.kinds = regs'.kinds →
    (run regs p).1.map Answer.isZeroDivisor = (run regs' p).1.map Answer.isZeroDivisor →
    Registers.kinds (run regs p).2 = Registers.kinds (run regs' p).2 ∧
      (run regs p).1.map Answer.kindFault? = (run regs' p).1.map Answer.kindFault? := by
  induction p with
  | nil =>
    intro regs regs' hk _
    exact ⟨hk, rfl⟩
  | cons step p ih =>
    intro regs regs' hk hz
    rw [run_cons, run_cons, List.map_cons, List.map_cons] at hz
    obtain ⟨hz₀, hz₁⟩ := List.cons_eq_cons.mp hz
    obtain ⟨hks, hf⟩ := ih (Step.kinds_run_eq hk hz₀) hz₁
    refine ⟨hks, ?_⟩
    rw [run_cons, run_cons, List.map_cons, List.map_cons, Step.kindFault?_run_eq hk, hf]

theorem map_isZeroDivisor_of_append {regs regs' : Registers n} {p q : List (Step n)}
    (h : (run regs (p ++ q)).1.map Answer.isZeroDivisor =
      (run regs' (p ++ q)).1.map Answer.isZeroDivisor) :
    (run regs p).1.map Answer.isZeroDivisor = (run regs' p).1.map Answer.isZeroDivisor := by
  rw [run_append, run_append, List.map_append, List.map_append] at h
  exact List.append_inj_left h (by rw [List.length_map, List.length_map, length_run, length_run])

/-- **Kinds, not values, decide the typing of programs**: runs from the same kinds that meet zero
divisors at the same steps have the same kinds and faults throughout. -/
theorem kinds_decide {regs regs' : Registers n} {p : List (Step n)} (hk : regs.kinds = regs'.kinds)
    (hz : (run regs p).1.map Answer.isZeroDivisor = (run regs' p).1.map Answer.isZeroDivisor) :
    (∀ earlier later, p = earlier ++ later →
      Registers.kinds (run regs earlier).2 = Registers.kinds (run regs' earlier).2) ∧
    (run regs p).1.map Answer.kindFault? = (run regs' p).1.map Answer.kindFault? ∧
    (∀ (step : Step n) (s : Registers n),
      match step.typing s.kinds with
      | .error f => f.isZeroDivisor = false ∧ step.run s = (.fault f, s)
      | .ok kinds =>
        if step.meetsZero s then ∃ f, f.isZeroDivisor = true ∧ step.run s = (.fault f, s)
        else (∀ f, (step.run s).1 ≠ .fault f) ∧ Registers.kinds (step.run s).2 = kinds) := by
  refine ⟨?_, (kinds_run_eq hk hz).2, fun step s => step.conforms s⟩
  rintro earlier later rfl
  exact (kinds_run_eq hk (map_isZeroDivisor_of_append hz)).1

theorem kinds_decide_zero_divisors :
    let word (w : Width) (i : Nat) : Scalar := .ofWord (Word.ofNat ⟨.unsigned, w⟩ i)
    let regs : Registers 3 := #v[word .w8 7, word .w8 0, word .w16 300]
    let regs' : Registers 3 := #v[word .w8 200, word .w8 0, word .w16 1]
    let p : List (Step 3) := [.binary 0 .div 2 1, .assign 1 .rem 1, .binary 0 .div 1 2,
      .order 0 1, .widen 2 ⟨.unsigned, .w8⟩ 2]
    regs.kinds = regs'.kinds ∧
      (run regs p).1.map Answer.isZeroDivisor = [true, false, false, false, false] ∧
      (run regs p).1.map Answer.kindFault? =
        [none, some .undefined, none, none, some .undefined] ∧
      (run regs' p).1.map Answer.kindFault? = (run regs p).1.map Answer.kindFault? ∧
      Registers.kinds (run regs p).2 = Registers.kinds (run regs' p).2 := by
  intro word regs regs' p
  have hk : regs.kinds = regs'.kinds := Registers.kinds_eq_iff.mpr (by decide)
  have hz : (run regs p).1.map Answer.isZeroDivisor = [true, false, false, false, false] := by
    decide
  have hz' : (run regs' p).1.map Answer.isZeroDivisor = [true, false, false, false, false] := by
    decide
  obtain ⟨hks, hf, -⟩ := kinds_decide hk (hz.trans hz'.symm)
  exact ⟨hk, hz, by decide, hf.symm, hks p [] (List.append_nil p).symm⟩

end Program

end FixedWidth
