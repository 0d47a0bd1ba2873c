import FixedWidth.Proofs.Table.Lookup
import FixedWidth.Proofs.Table.Trace
import Mathlib.Data.List.DropRight

/-!
# What a map remembers of its history

What a map holds under an integer can be read off the steps that wrote there since the integer was
last removed (`MapStep.writes`). The key is that of the first write, and the text is that of the
latest insertion with all later appends behind it (`MapWrite.textOf`).

The proof follows one integer, as for sets. A step acts on the entry under it
(`MapStep.lookup_run`), and a step at the end of the history acts in the same way on the entry that
the history describes (`MapStep.entryOf_concat`).
-/

namespace FixedWidth

/-- A text written under a key, by an insertion or by an append. -/
structure MapWrite where
  key : Scalar
  text : String
  inserts : Bool

namespace MapWrite

/-- The text of the latest insertion, if there was one, and then those of the appends after it. -/
def textOf (ws : List MapWrite) : String :=
  (((ws.filter fun w => w.inserts).getLast?.map fun w => w.text).getD "") ++
    String.join ((ws.rtakeWhile fun w => !w.inserts).map fun w => w.text)

theorem textOf_concat_insert (ws : List MapWrite) (key : Scalar) (text : String) :
    textOf (ws ++ [⟨key, text, true⟩]) = text := by
  simp [textOf, String.join]

theorem textOf_concat_append (ws : List MapWrite) (key : Scalar) (text : String) :
    textOf (ws ++ [⟨key, text, false⟩]) = textOf ws ++ text := by
  simp [textOf, String.join, String.append_assoc]

end MapWrite

namespace MapStep

variable {m : ScalarMap} {history : List MapStep} {i : Int}

/-! ### What a history says -/

def removes (i : Int) : MapStep → Bool
  | .remove key => i = key.value
  | _ => false

def write? (i : Int) : MapStep → Option MapWrite
  | .insert key text => if i = key.value then some ⟨key, text, true⟩ else none
  | .append key text => if i = key.value then some ⟨key, text, false⟩ else none
  | _ => none

/-- The writes to an integer after its last removal, first to last. -/
def writes (i : Int) (history : List MapStep) : List MapWrite :=
  (history.rtakeWhile fun step => !step.removes i).filterMap (write? i)

/-- The entry under an integer: the first key, and the text. -/
def entryOf (i : Int) (history : List MapStep) : Option (Scalar × String) :=
  (writes i history).head?.map fun w => (w.key, MapWrite.textOf (writes i history))

/-- The answer that a step has after a history. -/
def answer (history : List MapStep) : MapStep → MapAnswer
  | .insert key _ => .text ((entryOf key.value history).map (·.2))
  | .append key text => .text (some (((entryOf key.value history).map (·.2)).getD "" ++ text))
  | .remove key => .entry (entryOf key.value history)
  | .get key => .entry (entryOf key.value history)

/-- A step on the entry under an integer. -/
def onEntry (i : Int) (e : Option (Scalar × String)) : MapStep → Option (Scalar × String)
  | .insert key text => if i = key.value then some ((e.map (·.1)).getD key, text) else e
  | .append key text =>
    if i = key.value then some ((e.map (·.1)).getD key, (e.map (·.2)).getD "" ++ text) else e
  | .remove key => if i = key.value then none else e
  | .get _ => e

theorem removes_of_write? {step : MapStep} {w : MapWrite} (h : step.write? i = some w) :
    step.removes i = false := by
  cases step with
  | insert key text => rfl
  | append key text => rfl
  | remove key => exact absurd h (Option.some_ne_none w).symm
  | get key => rfl

theorem writes_concat (i : Int) (history : List MapStep) (step : MapStep) :
    writes i (history ++ [step]) =
      if step.removes i then [] else writes i history ++ (step.write? i).toList := by
  rw [writes, List.rtakeWhile_concat]
  by_cases h : step.removes i
  · simp [h]
  · cases hw : step.write? i <;> simp [h, hw, writes]

/-- A write keeps the first key, and its text goes behind those before it. -/
theorem entryOf_concat_of_write {step : MapStep} {w : MapWrite} (h : step.write? i = some w) :
    entryOf i (history ++ [step]) =
      some (((entryOf i history).map (·.1)).getD w.key,
        MapWrite.textOf (writes i history ++ [w])) := by
  have hc : writes i (history ++ [step]) = writes i history ++ [w] := by
    rw [writes_concat, removes_of_write? h, h]
    rfl
  rw [entryOf, entryOf, hc]
  cases writes i history <;> rfl

theorem entryOf_concat_of_removes {step : MapStep} (h : step.removes i = true) :
    entryOf i (history ++ [step]) = none := by
  rw [entryOf, writes_concat, if_pos h]
  rfl

theorem entryOf_concat_of_other {step : MapStep} (hr : step.removes i = false)
    (hw : step.write? i = none) : entryOf i (history ++ [step]) = entryOf i history := by
  have hc : writes i (history ++ [step]) = writes i history := by
    rw [writes_concat, hr, hw]
    exact List.append_nil _
  rw [entryOf, hc, entryOf]

theorem getD_entryOf_text (i : Int) (history : List MapStep) :
    ((entryOf i history).map (·.2)).getD "" = MapWrite.textOf (writes i history) := by
  rw [entryOf]
  cases writes i history <;> rfl

/-- **One more step** acts on the entry that a history describes. -/
theorem entryOf_concat (i : Int) (history : List MapStep) (step : MapStep) :
    entryOf i (history ++ [step]) = step.onEntry i (entryOf i history) := by
  cases step with
  | insert key text =>
    rw [onEntry]
    split
    next hi =>
      have hw : write? i (.insert key text) = some ⟨key, text, true⟩ := if_pos hi
      rw [entryOf_concat_of_write hw, MapWrite.textOf_concat_insert]
    next hi => exact entryOf_concat_of_other rfl (if_neg hi)
  | append key text =>
    rw [onEntry]
    split
    next hi =>
      have hw : write? i (.append key text) = some ⟨key, text, false⟩ := if_pos hi
      rw [entryOf_concat_of_write hw, MapWrite.textOf_concat_append, getD_entryOf_text]
    next hi => exact entryOf_concat_of_other rfl (if_neg hi)
  | remove key =>
    rw [onEntry]
    split
    next hi => exact entryOf_concat_of_removes (decide_eq_true hi)
    next hi => exact entryOf_concat_of_other (decide_eq_false hi) rfl
  | get key => exact entryOf_concat_of_other rfl rfl

/-! ### What a step does to a map -/

/-- The key under which a write to `key` is stored: the one that is there, if any. -/
def storedKey (m : ScalarMap) (key : Scalar) : Scalar := ((m.lookup key.value).map (·.1)).getD key

theorem value_storedKey (m : ScalarMap) (key : Scalar) : (storedKey m key).value = key.value := by
  rw [storedKey]
  cases h : m.lookup key.value with
  | none => rfl
  | some e => exact Table.value_of_lookup h

theorem run_insert (m : ScalarMap) (key : Scalar) (text : String) :
    ((insert key text).run m).2 = m.store (storedKey m key) text := by
  rw [run, Table.find?_eq_lookup, storedKey]
  cases m.lookup key.value <;> rfl

theorem run_append (m : ScalarMap) (key : Scalar) (text : String) :
    ((append key text).run m).2 =
      m.store (storedKey m key) (((m.lookup key.value).map (·.2)).getD "" ++ text) := by
  rw [run, Table.find?_eq_lookup, storedKey]
  cases m.lookup key.value with
  | none => simp
  | some e => rfl

theorem lookup_run (m : ScalarMap) (step : MapStep) (i : Int) :
    Table.lookup (step.run m).2 i = step.onEntry i (m.lookup i) := by
  cases step with
  | insert key text =>
    rw [run_insert, Table.lookup_store, value_storedKey, onEntry]
    split
    next hi => rw [hi, storedKey]
    next => rfl
  | append key text =>
    rw [run_append, Table.lookup_store, value_storedKey, onEntry]
    split
    next hi => rw [hi, storedKey]
    next => rfl
  | remove key => exact Table.lookup_erase m key i
  | get key => rfl

theorem distinct_run (h : Table.Distinct m) (step : MapStep) : Table.Distinct (step.run m).2 := by
  cases step with
  | insert key text =>
    rw [run_insert]
    exact h.store _ _
  | append key text =>
    rw [run_append]
    exact h.store _ _
  | remove key => exact h.erase key
  | get key => exact h

/-! ### A map and its history -/

/-- A map holds what a history says. -/
structure Follows (m : ScalarMap) (history : List MapStep) : Prop where
  distinct : Table.Distinct m
  lookup_eq : ∀ i, m.lookup i = entryOf i history

theorem follows_empty : Follows .empty [] where
  distinct := Table.distinct_empty
  lookup_eq _ := rfl

namespace Follows

/-- **A step keeps a map and its history together.** -/
theorem run (h : Follows m history) (step : MapStep) :
    Follows (step.run m).2 (history ++ [step]) where
  distinct := distinct_run h.distinct step
  lookup_eq i := by rw [lookup_run, h.lookup_eq, entryOf_concat]

theorem answer_eq (h : Follows m history) (step : MapStep) :
    (step.run m).1 = step.answer history := by
  have hl (key : Scalar) : m.find? key = entryOf key.value history := by
    rw [Table.find?_eq_lookup, h.lookup_eq]
  cases step with
  | insert key text =>
    rw [MapStep.run, hl, answer]
    cases entryOf key.value history <;> rfl
  | append key text =>
    rw [MapStep.run, hl, answer]
    cases entryOf key.value history <;> simp
  | remove key => exact congrArg MapAnswer.entry (hl key)
  | get key => exact congrArg MapAnswer.entry (hl key)

theorem mem_listing_iff (h : Follows m history) {e : Scalar × String} :
    e ∈ m.listing ↔ entryOf e.1.value history = some e := by
  rw [h.distinct.mem_listing_iff, h.lookup_eq]

theorem exists_mem_listing_iff (h : Follows m history) :
    (∃ e ∈ m.listing, e.1.value = i) ↔ writes i history ≠ [] := by
  rw [h.distinct.exists_mem_listing_iff, h.lookup_eq, entryOf]
  cases writes i history <;> simp

end Follows

/-! ### Sequences of steps -/

/-- **After any number of steps** a map holds what its history says. -/
theorem follows_final (history : List MapStep) :
    Follows (Trace.final MapStep.run .empty history) history :=
  Trace.final_induction follows_empty (fun _ _ step h => h.run step) history

/-- **A map is a finite map from integers**: what it holds and answers is what the writes since the
last removal say. -/
theorem runAll_entryOf (earlier later : List MapStep) (step : MapStep) :
    ∃ before m after,
      runAll .empty (earlier ++ step :: later) = before ++ (step.answer earlier, m) :: after ∧
      before.length = earlier.length ∧ after.length = later.length ∧
      m.listing.Pairwise (fun e f => e.1.value < f.1.value) ∧
      (∀ i, (∃ e ∈ m.listing, e.1.value = i) ↔ writes i (earlier ++ [step]) ≠ []) ∧
      (∀ e, e ∈ m.listing ↔ entryOf e.1.value (earlier ++ [step]) = some e) := by
  have hb : Follows (Trace.final run .empty earlier) earlier := follows_final earlier
  have ha : Follows (Trace.final run .empty (earlier ++ [step])) (earlier ++ [step]) :=
    follows_final (earlier ++ [step])
  obtain ⟨before, after, h, hl, hr⟩ := Trace.exists_steps_eq run .empty earlier later step
  refine ⟨before, Trace.final run .empty (earlier ++ [step]), after, ?_, hl, hr,
    ha.distinct.pairwise_listing, fun i => ha.exists_mem_listing_iff, fun e => ha.mem_listing_iff⟩
  rw [runAll_eq_steps, h, hb.answer_eq]

/-- The key is that of the first write, and the insertion drops the text before it. -/
example :
    let five (k : Kind) : Scalar := ⟨k, Word.ofNat k 5⟩
    entryOf 5 [.append (five ⟨.signed, .w8⟩) "a", .insert (five ⟨.unsigned, .w32⟩) "b",
        .append (five ⟨.unsigned, .w64⟩) "c"] =
      some (five ⟨.signed, .w8⟩, "bc") := by
  decide

end MapStep

end FixedWidth
