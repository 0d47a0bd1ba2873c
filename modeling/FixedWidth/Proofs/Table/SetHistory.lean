import FixedWidth.Proofs.Table.Lookup
import FixedWidth.Proofs.Table.Trace
import Mathlib.Data.Finset.Basic

/-!
# What a set remembers of its history

A set of scalars is a finite set of integers in which each integer has a representative: the operand
of the latest step that stored a scalar of this value, where an insertion stores only what it finds
absent and a replacement always stores (`SetStep.Remembers`).

The proof follows one integer: a step acts on the entry under it (`SetStep.lookup_run`), and
appending a step to the history acts on what is remembered in the same way
(`SetStep.remembers_concat`). So the two agree after any number of steps (`SetStep.follows_final`),
and every answer of a set is one about the history before it.
-/

namespace FixedWidth.SetStep

variable {s : ScalarSet} {history : List SetStep} {a : Scalar} {i : Int}

/-! ### What a history says -/

/-- A step on the integers of a set: the step on the values. -/
def onIntegers (integers : Finset Int) : SetStep → Finset Int
  | .insert a => Insert.insert a.value integers
  | .replace a => Insert.insert a.value integers
  | .remove a => integers.erase a.value
  | .take a => integers.erase a.value
  | .contains _ => integers
  | .get _ => integers
  | .clear => ∅

/-- The integers that a history leaves, from the empty set on. -/
def integers (history : List SetStep) : Finset Int := history.foldl onIntegers ∅

/-- A step after a history stores `a`: it replaces, or it inserts what is absent. -/
def Stores (history : List SetStep) (step : SetStep) (a : Scalar) : Prop :=
  step = .replace a ∨ step = .insert a ∧ a.value ∉ integers history

/-- A step after a history leaves the value of `a` present and stores nothing of this value. -/
def Keeps (history : List SetStep) (step : SetStep) (a : Scalar) : Prop :=
  a.value ∈ integers (history ++ [step]) ∧ ∀ b, Stores history step b → b.value ≠ a.value

/-- Some step of a history stored `a`, and every step after it kept `a`. -/
def Remembers (history : List SetStep) (a : Scalar) : Prop :=
  ∃ earlier step later, history = earlier ++ step :: later ∧ Stores earlier step a ∧
    ∀ p next q, later = p ++ next :: q → Keeps (earlier ++ step :: p) next a

/-- The answers that the history before a step allows. -/
def Prescribes (history : List SetStep) : SetStep → SetAnswer → Prop
  | .insert a, answer => answer = .flag (a.value ∉ integers history)
  | .remove a, answer => answer = .flag (a.value ∈ integers history)
  | .contains a, answer => answer = .flag (a.value ∈ integers history)
  | .replace a, answer | .take a, answer | .get a, answer =>
    ∃ e, answer = .element e ∧ ∀ b, e = some b ↔ Remembers history b ∧ b.value = a.value
  | .clear, answer => answer = .none

theorem integers_concat (history : List SetStep) (step : SetStep) :
    integers (history ++ [step]) = step.onIntegers (integers history) := by
  rw [integers, integers, List.foldl_append]
  rfl

theorem not_remembers_nil (a : Scalar) : ¬ Remembers [] a := by
  rintro ⟨earlier, step, later, h, -⟩
  exact List.append_ne_nil_of_right_ne_nil earlier (List.cons_ne_nil step later) h.symm

/-- **One more step** is remembered if it stores, and else what it keeps is. -/
theorem remembers_concat {step : SetStep} :
    Remembers (history ++ [step]) a ↔
      Stores history step a ∨ Remembers history a ∧ Keeps history step a := by
  constructor
  · rintro ⟨earlier, stored, later, h, hs, hk⟩
    -- either the storing step is the last one, or the last one comes after it
    rcases List.eq_nil_or_concat' later with rfl | ⟨later, last, rfl⟩
    · obtain ⟨rfl, hl⟩ := List.append_inj' h rfl
      obtain rfl := List.head_eq_of_cons_eq hl
      exact Or.inl hs
    · rw [← List.cons_append, ← List.append_assoc] at h
      obtain ⟨rfl, hl⟩ := List.append_inj' h rfl
      obtain rfl := List.head_eq_of_cons_eq hl
      refine Or.inr ⟨⟨earlier, stored, later, rfl, hs, ?_⟩, hk later step [] rfl⟩
      intro p next q hq
      exact hk p next (q ++ [step]) (by rw [hq, List.append_assoc, List.cons_append])
  · rintro (hs | ⟨⟨earlier, stored, later, rfl, hs, hk⟩, hlast⟩)
    · refine ⟨history, step, [], rfl, hs, fun p next q hq => ?_⟩
      exact absurd hq.symm (List.append_ne_nil_of_right_ne_nil p (List.cons_ne_nil next q))
    · refine ⟨earlier, stored, later ++ [step], by simp, hs, fun p next q hq => ?_⟩
      rcases List.eq_nil_or_concat' q with rfl | ⟨q, last, rfl⟩
      · obtain ⟨rfl, hl⟩ := List.append_inj' hq rfl
        obtain rfl := List.head_eq_of_cons_eq hl
        exact hlast
      · rw [← List.cons_append, ← List.append_assoc] at hq
        obtain ⟨rfl, -⟩ := List.append_inj' hq rfl
        exact hk p next q rfl

/-! ### What a step does to a set -/

/-- A step on the entry under an integer. -/
def onEntry (i : Int) (e : Option (Scalar × Unit)) : SetStep → Option (Scalar × Unit)
  | .insert a => if i = a.value then e.or (some (a, ())) else e
  | .replace a => if i = a.value then some (a, ()) else e
  | .remove a => if i = a.value then none else e
  | .take a => if i = a.value then none else e
  | .contains _ => e
  | .get _ => e
  | .clear => none

theorem lookup_run (s : ScalarSet) (step : SetStep) (i : Int) :
    Table.lookup (step.run s).2 i = step.onEntry i (s.lookup i) := by
  cases step with
  | insert a =>
    rw [run, Table.contains_eq_isSome, onEntry]
    cases hl : s.lookup a.value with
    | none =>
      show (s.store a ()).lookup i = _
      rw [Table.lookup_store]
      split
      next hi => rw [hi, hl, Option.none_or]
      next => rfl
    | some e =>
      show s.lookup i = _
      split
      next hi => rw [hi, hl, Option.some_or]
      next => rfl
  | replace a => exact Table.lookup_store s a () i
  | remove a => exact Table.lookup_erase s a i
  | take a => exact Table.lookup_erase s a i
  | contains a => rfl
  | get a => rfl
  | clear => rfl

theorem distinct_run (h : Table.Distinct s) (step : SetStep) : Table.Distinct (step.run s).2 := by
  cases step with
  | insert a =>
    rw [run]
    split
    next => exact h
    next => exact h.store a ()
  | replace a => exact h.store a ()
  | remove a => exact h.erase a
  | take a => exact h.erase a
  | contains a => exact h
  | get a => exact h
  | clear => exact Table.distinct_empty

/-! ### A set and its history -/

/-- A set holds what a history says. -/
structure Follows (s : ScalarSet) (history : List SetStep) : Prop where
  distinct : Table.Distinct s
  mem_integers_iff : ∀ i, i ∈ integers history ↔ (s.lookup i).isSome
  remembers_iff : ∀ a, Remembers history a ↔ s.lookup a.value = some (a, ())

theorem follows_empty : Follows .empty [] where
  distinct := Table.distinct_empty
  mem_integers_iff i := by simp [integers, ScalarSet.empty, Table.lookup_empty]
  remembers_iff a := by simp [not_remembers_nil, ScalarSet.empty, Table.lookup_empty]

namespace Follows

theorem mem_integers_run (h : Follows s history) (step : SetStep) (i : Int) :
    i ∈ integers (history ++ [step]) ↔ (Table.lookup (step.run s).2 i).isSome := by
  have hi := h.mem_integers_iff i
  rw [integers_concat, lookup_run]
  cases step with
  | insert a => by_cases he : i = a.value <;> simp [onIntegers, onEntry, he, hi]
  | replace a => by_cases he : i = a.value <;> simp [onIntegers, onEntry, he, hi]
  | remove a => by_cases he : i = a.value <;> simp [onIntegers, onEntry, he, hi]
  | take a => by_cases he : i = a.value <;> simp [onIntegers, onEntry, he, hi]
  | contains a => exact hi
  | get a => exact hi
  | clear => simp [onIntegers, onEntry]

theorem lookup_run_of_stores (h : Follows s history) {step : SetStep} (hs : Stores history step a) :
    Table.lookup (step.run s).2 a.value = some (a, ()) := by
  rw [lookup_run]
  rcases hs with rfl | ⟨rfl, ha⟩
  · rw [onEntry, if_pos rfl]
  · have hn : s.lookup a.value = none :=
      Option.not_isSome_iff_eq_none.mp (mt (h.mem_integers_iff a.value).mpr ha)
    rw [onEntry, if_pos rfl, hn, Option.none_or]

theorem lookup_run_of_keeps (h : Follows s history) {step : SetStep} (hk : Keeps history step a) :
    Table.lookup (step.run s).2 a.value = s.lookup a.value := by
  obtain ⟨hp, hs⟩ := hk
  rw [integers_concat] at hp
  rw [lookup_run]
  cases step with
  | insert b =>
    rw [onEntry]
    split
    next hab =>
      -- an absent value would be stored anew by this step
      have hb : b.value ∈ integers history := by
        by_contra hb
        exact hs b (Or.inr ⟨rfl, hb⟩) hab.symm
      obtain ⟨e, he⟩ := Option.isSome_iff_exists.mp ((h.mem_integers_iff b.value).mp hb)
      rw [hab, he, Option.some_or]
    next => rfl
  | replace b => exact if_neg (Ne.symm (hs b (Or.inl rfl)))
  | remove b => exact if_neg (Finset.ne_of_mem_erase hp)
  | take b => exact if_neg (Finset.ne_of_mem_erase hp)
  | contains b => rfl
  | get b => rfl
  | clear => exact absurd hp (Finset.notMem_empty _)

theorem remembers_run (h : Follows s history) (step : SetStep) (a : Scalar) :
    Remembers (history ++ [step]) a ↔ Table.lookup (step.run s).2 a.value = some (a, ()) := by
  rw [remembers_concat]
  constructor
  · rintro (hs | ⟨hr, hk⟩)
    · exact h.lookup_run_of_stores hs
    · rw [h.lookup_run_of_keeps hk]
      exact (h.remembers_iff a).mp hr
  · intro hl
    by_cases hs : ∃ b, Stores history step b ∧ b.value = a.value
    · obtain ⟨b, hb, hv⟩ := hs
      have hlb := h.lookup_run_of_stores hb
      rw [hv, hl] at hlb
      obtain rfl : a = b := congrArg Prod.fst (Option.some.inj hlb)
      exact Or.inl hb
    · have hp : a.value ∈ integers (history ++ [step]) := by
        rw [h.mem_integers_run, hl]
        rfl
      have hk : Keeps history step a := ⟨hp, fun b hb hv => hs ⟨b, hb, hv⟩⟩
      rw [h.lookup_run_of_keeps hk] at hl
      exact Or.inr ⟨(h.remembers_iff a).mpr hl, hk⟩

/-- **A step keeps a set and its history together.** -/
theorem run (h : Follows s history) (step : SetStep) :
    Follows (step.run s).2 (history ++ [step]) where
  distinct := distinct_run h.distinct step
  mem_integers_iff := h.mem_integers_run step
  remembers_iff := h.remembers_run step

theorem get?_eq_some_iff (h : Follows s history) {b : Scalar} :
    s.get? a = some b ↔ Remembers history b ∧ b.value = a.value := by
  rw [ScalarSet.get?, Table.find?_eq_lookup, Option.map_eq_some_iff]
  constructor
  · rintro ⟨e, he, rfl⟩
    have hv : e.1.value = a.value := Table.value_of_lookup he
    exact ⟨(h.remembers_iff e.1).mpr (by rw [hv, he]), hv⟩
  · rintro ⟨hb, hv⟩
    exact ⟨(b, ()), hv ▸ (h.remembers_iff b).mp hb, rfl⟩

theorem contains_eq_decide (h : Follows s history) (a : Scalar) :
    s.contains a = decide (a.value ∈ integers history) := by
  rw [Bool.eq_iff_iff, decide_eq_true_iff, h.mem_integers_iff, Table.contains_eq_isSome]

theorem prescribes (h : Follows s history) (step : SetStep) :
    Prescribes history step (step.run s).1 := by
  cases step with
  | insert a =>
    rw [SetStep.run, h.contains_eq_decide, Prescribes]
    by_cases ha : a.value ∈ integers history
    · simp [ha]
    · simp [ha]
  | replace a => exact ⟨_, rfl, fun b => h.get?_eq_some_iff⟩
  | remove a => exact congrArg SetAnswer.flag (h.contains_eq_decide a)
  | take a => exact ⟨_, rfl, fun b => h.get?_eq_some_iff⟩
  | contains a => exact congrArg SetAnswer.flag (h.contains_eq_decide a)
  | get a => exact ⟨_, rfl, fun b => h.get?_eq_some_iff⟩
  | clear => rfl

theorem mem_elements_iff (h : Follows s history) : a ∈ s.elements ↔ Remembers history a := by
  rw [ScalarSet.elements, List.mem_map, h.remembers_iff]
  constructor
  · rintro ⟨e, he, rfl⟩
    exact h.distinct.mem_listing_iff.mp he
  · intro ha
    exact ⟨(a, ()), h.distinct.mem_listing_iff.mpr ha, rfl⟩

theorem pairwise_elements (h : Follows s history) :
    s.elements.Pairwise fun a b => a.value < b.value :=
  List.pairwise_map.mpr h.distinct.pairwise_listing

theorem exists_mem_elements_iff (h : Follows s history) :
    (∃ a ∈ s.elements, a.value = i) ↔ i ∈ integers history := by
  rw [h.mem_integers_iff, ← h.distinct.exists_mem_listing_iff]
  simp [ScalarSet.elements]

end Follows

/-! ### Sequences of steps -/

/-- **After any number of steps** a set holds what its history says. -/
theorem follows_final (history : List SetStep) :
    Follows (Trace.final SetStep.run .empty history) history :=
  Trace.final_induction follows_empty (fun _ _ step h => h.run step) history

/-- **A set is a finite set of integers with remembered representatives**: each is the operand of
the latest step that stored its value since that value was last absent. -/
theorem runAll_remembers (earlier later : List SetStep) (step : SetStep) :
    ∃ before answer s after,
      runAll .empty (earlier ++ step :: later) = before ++ (answer, s) :: after ∧
      before.length = earlier.length ∧ after.length = later.length ∧
      Prescribes earlier step answer ∧
      s.elements.Pairwise (fun a b => a.value < b.value) ∧
      (∀ i, i ∈ integers (earlier ++ [step]) ↔ ∃ a ∈ s.elements, a.value = i) ∧
      (∀ a, a ∈ s.elements ↔ Remembers (earlier ++ [step]) a) := by
  have hb : Follows (Trace.final run .empty earlier) earlier := follows_final earlier
  have ha : Follows (Trace.final run .empty (earlier ++ [step])) (earlier ++ [step]) :=
    follows_final (earlier ++ [step])
  obtain ⟨before, after, h, hl, hr⟩ := Trace.exists_steps_eq run .empty earlier later step
  refine ⟨before, (step.run (Trace.final run .empty earlier)).1,
    Trace.final run .empty (earlier ++ [step]), after, ?_, hl, hr, hb.prescribes step,
    ha.pairwise_elements, fun i => ha.exists_mem_elements_iff.symm, fun a => ha.mem_elements_iff⟩
  rw [runAll_eq_steps, h]

/-- Inserting keeps the first five, replacing stores the second one, and taking answers that one. -/
example :
    let five (k : Kind) : Scalar := ⟨k, Word.ofNat k 5⟩
    (runAll .empty [.insert (five ⟨.signed, .w8⟩), .insert (five ⟨.unsigned, .w32⟩),
        .replace (five ⟨.unsigned, .w64⟩), .take (five ⟨.signed, .w16⟩)]).map (·.1) =
      [.flag true, .flag false, .element (five ⟨.signed, .w8⟩),
        .element (five ⟨.unsigned, .w64⟩)] := by
  decide

end FixedWidth.SetStep
