import FixedWidth.Proofs.Table.MapHistory
import FixedWidth.Proofs.Table.SetHistory
import Mathlib.Data.List.Sort

/-!
# Tables are blind to kinds

Replace some of the scalars in a sequence of steps by scalars of the same value and of any kinds.
The two runs cannot be told apart, except by the kinds of the scalars that they store and answer.
What a table holds, apart from the kinds of its keys, is a function from integers
(`Table.contents`), and two tables with one such function are *alike*. Every step looks at a table
through the lookups of its operands' values, so it leaves alike tables alike. A listing ascends
strictly by value, hence it is determined by the contents (`Table.Alike.listing`).
-/

namespace FixedWidth

/-- Entries of one value and one content, under keys of any kinds. -/
def EntryAlike {α : Type} (e f : Scalar × α) : Prop := e.1 == f.1 ∧ e.2 = f.2

namespace Table

variable {α : Type} {t t' : Table α} {i : Int} {a b : Scalar}

/-- What is stored under an integer, without the key. -/
def contents (t : Table α) (i : Int) : Option α := (t.lookup i).map (·.2)

/-- The values of the keys with what is stored under them, in ascending order. -/
def view (t : Table α) : List (Int × α) := t.listing.map fun e => (e.1.value, e.2)

theorem Distinct.pairwise_view (h : t.Distinct) : t.view.Pairwise fun p q => p.1 < q.1 :=
  List.pairwise_map.mpr h.pairwise_listing

theorem Distinct.mem_view_iff (h : t.Distinct) {p : Int × α} :
    p ∈ t.view ↔ t.contents p.1 = some p.2 := by
  rw [view, List.mem_map, contents, Option.map_eq_some_iff]
  constructor
  · rintro ⟨e, he, rfl⟩
    exact ⟨e, h.mem_listing_iff.mp he, rfl⟩
  · rintro ⟨e, he, hp⟩
    have hv : e.1.value = p.1 := value_of_lookup he
    exact ⟨e, h.mem_listing_iff.mpr (hv ▸ he), Prod.ext hv hp⟩

/-- Two tables that hold the same under the same integers. -/
structure Alike (t t' : Table α) : Prop where
  distinct_left : t.Distinct
  distinct_right : t'.Distinct
  contents_eq : ∀ i, t.contents i = t'.contents i

theorem alike_empty : Alike ({} : Table α) {} where
  distinct_left := distinct_empty
  distinct_right := distinct_empty
  contents_eq _ := rfl

namespace Alike

theorem find? (h : Alike t t') (hab : a == b) :
    Option.Rel EntryAlike (t.find? a) (t'.find? b) := by
  have hv : a.value = b.value := Scalar.beq_iff_value_eq.mp hab
  have hc := h.contents_eq b.value
  rw [find?_eq_lookup, find?_eq_lookup, hv]
  rw [contents, contents] at hc
  cases hl : t.lookup b.value with
  | none =>
    rw [hl, Option.map_none, eq_comm, Option.map_eq_none_iff] at hc
    rw [hc]
    exact .none
  | some e =>
    rw [hl, Option.map_some, eq_comm, Option.map_eq_some_iff] at hc
    obtain ⟨f, hf, hfe⟩ := hc
    have hef : e.1.value = f.1.value := (value_of_lookup hl).trans (value_of_lookup hf).symm
    rw [hf]
    exact .some ⟨Scalar.beq_iff_value_eq.mpr hef, hfe.symm⟩

theorem contains_eq (h : Alike t t') (hab : a == b) : t.contains a = t'.contains b := by
  have hf := h.find? hab
  rw [contains, contains]
  generalize t.find? a = x, t'.find? b = y at hf ⊢
  cases hf <;> rfl

/-- **Alike tables have alike listings**, entry by entry. -/
theorem listing (h : Alike t t') : List.Forall₂ EntryAlike t.listing t'.listing := by
  have hirr : Std.Irrefl fun p q : Int × α => p.1 < q.1 := ⟨fun p => lt_irrefl p.1⟩
  have hanti : Std.Antisymm fun p q : Int × α => p.1 < q.1 :=
    ⟨fun p q hpq hqp => absurd hpq (lt_asymm hqp)⟩
  have hv : t.view = t'.view := by
    refine h.distinct_left.pairwise_view.eq_of_mem_iff h.distinct_right.pairwise_view fun p => ?_
    rw [h.distinct_left.mem_view_iff, h.distinct_right.mem_view_iff, h.contents_eq]
  rw [view, view, ← List.forall₂_eq_eq_eq, List.forall₂_map_left_iff,
    List.forall₂_map_right_iff] at hv
  refine hv.imp fun e f hef => ?_
  obtain ⟨hk, hx⟩ := Prod.ext_iff.mp hef
  exact ⟨Scalar.beq_iff_value_eq.mpr hk, hx⟩

end Alike

end Table

/-! ### Sets -/

/-- The same step on a set, with operands of one value and of any kinds. -/
inductive SetStep.Alike : SetStep → SetStep → Prop
  | insert {a b : Scalar} (h : a == b) : Alike (.insert a) (.insert b)
  | replace {a b : Scalar} (h : a == b) : Alike (.replace a) (.replace b)
  | remove {a b : Scalar} (h : a == b) : Alike (.remove a) (.remove b)
  | take {a b : Scalar} (h : a == b) : Alike (.take a) (.take b)
  | contains {a b : Scalar} (h : a == b) : Alike (.contains a) (.contains b)
  | get {a b : Scalar} (h : a == b) : Alike (.get a) (.get b)
  | clear : Alike .clear .clear

/-- The same answer of a set, up to the kind of an element in it. -/
inductive SetAnswer.Alike : SetAnswer → SetAnswer → Prop
  | flag (b : Bool) : Alike (.flag b) (.flag b)
  | element {x y : Option Scalar} (h : Option.Rel (fun a b : Scalar => a == b) x y) :
      Alike (.element x) (.element y)
  | none : Alike .none .none

namespace SetStep.Alike

variable {step step' : SetStep} {s s' : ScalarSet}

theorem map_onEntry (h : step.Alike step') (i : Int) {e e' : Option (Scalar × Unit)}
    (he : e.map (·.2) = e'.map (·.2)) :
    (step.onEntry i e).map (·.2) = (step'.onEntry i e').map (·.2) := by
  cases h with
  | insert h =>
    rw [onEntry, onEntry, Scalar.beq_iff_value_eq.mp h]
    split
    · cases e <;> cases e' <;> rfl
    · exact he
  | replace h =>
    rw [onEntry, onEntry, Scalar.beq_iff_value_eq.mp h]
    split
    · rfl
    · exact he
  | remove h | take h =>
    rw [onEntry, onEntry, Scalar.beq_iff_value_eq.mp h]
    split
    · rfl
    · exact he
  | contains h | get h => exact he
  | clear => rfl

theorem get? (hs : Table.Alike s s') {a b : Scalar} (h : a == b) :
    Option.Rel (fun a b : Scalar => a == b) (s.get? a) (s'.get? b) := by
  have hf := hs.find? h
  rw [ScalarSet.get?, ScalarSet.get?]
  generalize s.find? a = x, s'.find? b = y at hf ⊢
  cases hf with
  | none => exact .none
  | some hef => exact .some hef.1

/-- **Two steps that differ in kinds alone** give answers that do, and leave alike sets alike. -/
theorem run (hs : Table.Alike s s') (h : step.Alike step') :
    (step.run s).1.Alike (step'.run s').1 ∧ Table.Alike (step.run s).2 (step'.run s').2 := by
  constructor
  · cases h with
    | insert h =>
      rw [SetStep.run, SetStep.run, hs.contains_eq h]
      split <;> exact .flag _
    | replace h | take h | get h => exact .element (get? hs h)
    | remove h | contains h =>
      rw [SetStep.run, SetStep.run, hs.contains_eq h]
      exact .flag _
    | clear => exact .none
  · refine ⟨distinct_run hs.distinct_left step, distinct_run hs.distinct_right step', fun i => ?_⟩
    rw [Table.contents, Table.contents, lookup_run, lookup_run]
    exact h.map_onEntry i (hs.contents_eq i)

end SetStep.Alike

theorem ScalarSet.elements_of_alike {s s' : ScalarSet} (h : Table.Alike s s') :
    List.Forall₂ (fun a b : Scalar => a == b) s.elements s'.elements := by
  rw [elements, elements, List.forall₂_map_left_iff, List.forall₂_map_right_iff]
  exact h.listing.imp fun _ _ hef => hef.1

/-! ### Maps -/

inductive MapStep.Alike : MapStep → MapStep → Prop
  | insert {a b : Scalar} (h : a == b) (text : String) : Alike (.insert a text) (.insert b text)
  | append {a b : Scalar} (h : a == b) (text : String) : Alike (.append a text) (.append b text)
  | remove {a b : Scalar} (h : a == b) : Alike (.remove a) (.remove b)
  | get {a b : Scalar} (h : a == b) : Alike (.get a) (.get b)

inductive MapAnswer.Alike : MapAnswer → MapAnswer → Prop
  | text (s : Option String) : Alike (.text s) (.text s)
  | entry {x y : Option (Scalar × String)} (h : Option.Rel EntryAlike x y) :
      Alike (.entry x) (.entry y)

theorem MapStep.answer_insert (m : ScalarMap) (key : Scalar) (text : String) :
    ((insert key text).run m).1 = .text (m.contents key.value) := by
  rw [run, Table.find?_eq_lookup, Table.contents]
  cases m.lookup key.value <;> rfl

theorem MapStep.answer_append (m : ScalarMap) (key : Scalar) (text : String) :
    ((append key text).run m).1 =
      .text (some ((m.contents key.value).getD "" ++ text)) := by
  rw [run, Table.find?_eq_lookup, Table.contents]
  cases m.lookup key.value with
  | none => simp
  | some e => rfl

namespace MapStep.Alike

variable {step step' : MapStep} {m m' : ScalarMap}

theorem map_onEntry (h : step.Alike step') (i : Int) {e e' : Option (Scalar × String)}
    (he : e.map (·.2) = e'.map (·.2)) :
    (step.onEntry i e).map (·.2) = (step'.onEntry i e').map (·.2) := by
  cases h with
  | insert h text =>
    rw [onEntry, onEntry, Scalar.beq_iff_value_eq.mp h]
    split
    · rfl
    · exact he
  | append h text =>
    rw [onEntry, onEntry, Scalar.beq_iff_value_eq.mp h, he]
    split
    · rfl
    · exact he
  | remove h =>
    rw [onEntry, onEntry, Scalar.beq_iff_value_eq.mp h]
    split
    · rfl
    · exact he
  | get h => exact he

theorem run (hm : Table.Alike m m') (h : step.Alike step') :
    (step.run m).1.Alike (step'.run m').1 ∧ Table.Alike (step.run m).2 (step'.run m').2 := by
  constructor
  · cases h with
    | insert h text =>
      rw [answer_insert, answer_insert, hm.contents_eq, Scalar.beq_iff_value_eq.mp h]
      exact .text _
    | append h text =>
      rw [answer_append, answer_append, hm.contents_eq, Scalar.beq_iff_value_eq.mp h]
      exact .text _
    | remove h | get h => exact .entry (hm.find? h)
  · refine ⟨distinct_run hm.distinct_left step, distinct_run hm.distinct_right step', fun i => ?_⟩
    rw [Table.contents, Table.contents, lookup_run, lookup_run]
    exact h.map_onEntry i (hm.contents_eq i)

end MapStep.Alike

/-! ### Sequences of steps -/

/-- **Tables are blind to kinds**: operands of the same values give answers and contents of the same
values, whatever the kinds are. -/
theorem Table.runAll_alike :
    (∀ steps steps' : List SetStep, List.Forall₂ SetStep.Alike steps steps' →
      List.Forall₂ (fun x y => x.1.Alike y.1 ∧
          List.Forall₂ (fun a b : Scalar => a == b) x.2.elements y.2.elements)
        (SetStep.runAll .empty steps) (SetStep.runAll .empty steps')) ∧
    (∀ steps steps' : List MapStep, List.Forall₂ MapStep.Alike steps steps' →
      List.Forall₂ (fun x y => x.1.Alike y.1 ∧ List.Forall₂ EntryAlike x.2.listing y.2.listing)
        (MapStep.runAll .empty steps) (MapStep.runAll .empty steps')) := by
  constructor
  · intro steps steps' h
    rw [SetStep.runAll_eq_steps, SetStep.runAll_eq_steps]
    have hr := Trace.steps_forall₂ (S := SetStep.Alike) (fun _ _ _ _ => SetStep.Alike.run) h
      Table.alike_empty
    exact hr.imp fun _ _ hxy => ⟨hxy.1, ScalarSet.elements_of_alike hxy.2⟩
  · intro steps steps' h
    rw [MapStep.runAll_eq_steps, MapStep.runAll_eq_steps]
    have hr := Trace.steps_forall₂ (S := MapStep.Alike) (fun _ _ _ _ => MapStep.Alike.run) h
      Table.alike_empty
    exact hr.imp fun _ _ hxy => ⟨hxy.1, hxy.2.listing⟩

theorem Table.runAll_alike_mixed :
    let large (k : Kind) : Scalar := ⟨k, Word.ofNat k 2147483648⟩
    let minus (k : Kind) : Scalar := ⟨k, Word.ofInt k (-1)⟩
    let steps : List SetStep := [.insert (large ⟨.unsigned, .w32⟩), .insert (minus ⟨.signed, .w8⟩),
      .replace (large ⟨.signed, .w64⟩), .take (minus ⟨.signed, .w32⟩)]
    let steps' : List SetStep := [.insert (large ⟨.signed, .w64⟩), .insert (minus ⟨.signed, .w64⟩),
      .replace (large ⟨.unsigned, .w64⟩), .take (minus ⟨.signed, .w16⟩)]
    let writes : List MapStep := [.insert (minus ⟨.signed, .w8⟩) "a",
      .append (minus ⟨.signed, .w64⟩) "b", .get (minus ⟨.signed, .w16⟩)]
    let writes' : List MapStep := [.insert (minus ⟨.signed, .w64⟩) "a",
      .append (minus ⟨.signed, .w8⟩) "b", .get (minus ⟨.signed, .w32⟩)]
    List.Forall₂ SetStep.Alike steps steps' ∧
      List.Forall₂ (fun x y => List.Forall₂ (fun a b : Scalar => a == b) x.2.elements y.2.elements)
        (SetStep.runAll .empty steps) (SetStep.runAll .empty steps') ∧
      List.Forall₂ MapStep.Alike writes writes' ∧
      List.Forall₂ (fun x y => List.Forall₂ EntryAlike x.2.listing y.2.listing)
        (MapStep.runAll .empty writes) (MapStep.runAll .empty writes') := by
  intro large minus steps steps' writes writes'
  have hs : List.Forall₂ SetStep.Alike steps steps' :=
    .cons (.insert (by decide)) (.cons (.insert (by decide)) (.cons (.replace (by decide))
      (.cons (.take (by decide)) .nil)))
  have hw : List.Forall₂ MapStep.Alike writes writes' :=
    .cons (.insert (by decide) "a") (.cons (.append (by decide) "b")
      (.cons (.get (by decide)) .nil))
  exact ⟨hs, (Table.runAll_alike.1 steps steps' hs).imp fun _ _ h => h.2,
    hw, (Table.runAll_alike.2 writes writes' hw).imp fun _ _ h => h.2⟩

/-- What remains of the kinds: the scalar that a set answers is the one that it stored. -/
example :
    let five (k : Kind) : Scalar := ⟨k, Word.ofNat k 5⟩
    ((SetStep.runAll .empty [.insert (five ⟨.signed, .w8⟩), .get (five ⟨.signed, .w8⟩)]).map (·.1),
      (SetStep.runAll .empty [.insert (five ⟨.unsigned, .w64⟩), .get (five ⟨.signed, .w8⟩)]).map
        (·.1)) =
      ([.flag true, .element (five ⟨.signed, .w8⟩)],
        [.flag true, .element (five ⟨.unsigned, .w64⟩)]) := by
  decide

end FixedWidth
