import FixedWidth.Proofs.Buffer.Bytes
import FixedWidth.Proofs.Conversion.Interfaces
import Mathlib.Data.List.Induction

/-!
# Writing through a view

A view does not hold words of its own, so what a write leaves can be told from the view alone: the
word at the written index is the written one and all others stay (`Buffer.get_view_write`). By
induction on the number of writes every index holds the last word that was written there, or else
its first one (`Buffer.view_writeAll`). The bytes are those of the words laid end to end, all of one
length, so the groups of that many bytes are the words again.
-/

namespace FixedWidth.Buffer

variable {w : Width} {n : Nat}

/-! ### Views -/

theorem get_view (buffer : Buffer w n) (i : Fin n) :
    buffer.view.get i = ⟨buffer.patterns.get i⟩ :=
  Vector.getElem_map _ i.isLt

theorem values_view (buffer : Buffer w n) :
    buffer.view.toList.map Word.value = buffer.patterns.toList.map fun b => (b.toNat : Int) := by
  rw [view, Vector.toList_map, List.map_map]
  rfl

theorem view_ofSigned {buffer : Buffer w n} {words : Vector (Signed w) n}
    (h : words.map Word.bits = buffer.patterns) :
    (ofSigned words).view = buffer.view ∧
      ∀ i : Fin n, (buffer.view.get i).value =
        if (words.get i).value < 0 then (words.get i).value + 2 ^ w.bits
        else (words.get i).value := by
  have hb : ofSigned words = buffer := congrArg Buffer.mk h
  refine ⟨congrArg view hb, fun i => ?_⟩
  have hword : buffer.view.get i = Word.ofSigned (words.get i) := by
    rw [← hb, get_view]
    exact congrArg Word.mk (Vector.getElem_map _ i.isLt)
  rw [hword, Word.value_ofSigned]

/-! ### Writes -/

theorem get_view_write (buffer : Buffer w n) (i j : Fin n) (x : Unsigned w) :
    (buffer.write i x).view.get j = if j = i then x else buffer.view.get j := by
  rw [view_write]
  split
  next h =>
    subst h
    exact Vector.getElem_set_self j.isLt
  next h => exact Vector.getElem_set_ne i.isLt j.isLt fun he => h (Fin.ext he.symm)

theorem writeAll_append (buffer : Buffer w n) (earlier later : List (Fin n × Unsigned w)) :
    buffer.writeAll (earlier ++ later) = (buffer.writeAll earlier).writeAll later :=
  List.foldl_append

theorem history_append (buffer : Buffer w n) (earlier later : List (Fin n × Unsigned w)) :
    buffer.history (earlier ++ later) =
      buffer.history earlier ++ (buffer.writeAll earlier).history later := by
  induction earlier generalizing buffer with
  | nil => rfl
  | cons step earlier ih =>
    rw [List.cons_append, history, ih, history, List.cons_append]
    rfl

theorem length_history (buffer : Buffer w n) (steps : List (Fin n × Unsigned w)) :
    (buffer.history steps).length = steps.length := by
  induction steps generalizing buffer with
  | nil => rfl
  | cons step steps ih => rw [history, List.length_cons, List.length_cons, ih]

theorem getLastD_history (buffer : Buffer w n) (steps : List (Fin n × Unsigned w)) :
    (buffer.history steps).getLastD buffer = buffer.writeAll steps := by
  induction steps using List.reverseRecOn with
  | nil => rfl
  | append_singleton steps step _ =>
    rw [history_append, history, history, List.getLastD_concat, writeAll_append]
    rfl

/-- **A write inside a sequence** changes the buffer before it at its own index only. -/
theorem exists_history_eq (buffer : Buffer w n) (earlier later : List (Fin n × Unsigned w))
    (i : Fin n) (x : Unsigned w) :
    ∃ before next after, buffer.history (earlier ++ (i, x) :: later) = before ++ next :: after ∧
      before.length = earlier.length ∧ after.length = later.length ∧
      ∀ j : Fin n, next.view.get j = if j = i then x else (before.getLastD buffer).view.get j := by
  refine ⟨buffer.history earlier, (buffer.writeAll earlier).write i x,
    ((buffer.writeAll earlier).write i x).history later, ?_, length_history _ _,
    length_history _ _, fun j => ?_⟩
  · rw [history_append, history]
  · rw [getLastD_history, get_view_write]

/-- **What a sequence of writes leaves** at an index is the last word written there, if there is
one. -/
theorem view_writeAll (buffer : Buffer w n) (steps : List (Fin n × Unsigned w)) (j : Fin n) :
    (∃ earlier x later, steps = earlier ++ (j, x) :: later ∧ (∀ step ∈ later, step.1 ≠ j) ∧
      (buffer.writeAll steps).view.get j = x) ∨
    (∀ step ∈ steps, step.1 ≠ j) ∧ (buffer.writeAll steps).view.get j = buffer.view.get j := by
  -- The last write is at the index, or it changes nothing there.
  induction steps using List.reverseRecOn with
  | nil => exact .inr ⟨fun _ h => absurd h List.not_mem_nil, rfl⟩
  | append_singleton steps step ih =>
    obtain ⟨i, x⟩ := step
    have hlast : (buffer.writeAll (steps ++ [(i, x)])).view.get j =
        if j = i then x else (buffer.writeAll steps).view.get j := by
      rw [writeAll_append]
      exact get_view_write _ i j x
    rw [hlast]
    split
    next h => exact .inl ⟨steps, x, [], by rw [h], fun _ h => absurd h List.not_mem_nil, rfl⟩
    next h =>
      have hne : ∀ step ∈ [(i, x)], step.1 ≠ j := fun step hs => by
        rw [List.mem_singleton.mp hs]
        exact Ne.symm h
      rcases ih with ⟨earlier, y, later, rfl, hl, hv⟩ | ⟨hs, hv⟩
      · refine .inl ⟨earlier, y, later ++ [(i, x)], by simp, ?_, hv⟩
        exact List.forall_mem_append.mpr ⟨hl, hne⟩
      · exact .inr ⟨List.forall_mem_append.mpr ⟨hs, hne⟩, hv⟩

/-! ### The readings together -/

theorem length_toBytes (buffer : Buffer w n) : buffer.toBytes.length = w.bytes * n := by
  rw [toBytes, Word.length_flatMap_toBytes, Vector.length_toList]

theorem ofBytes?_toBytes (buffer : Buffer w n) (i : Fin n) :
    Word.ofBytes? w ((buffer.toBytes.drop (w.bytes * i)).take w.bytes) =
      some (buffer.view.get i) := by
  have h : i < buffer.view.toList.length := Vector.length_toList.symm ▸ i.isLt
  exact (Word.ofBytes?_block buffer.view.toList h).trans (congrArg some (Vector.getElem_toList h))

/-- **One storage and its readings**, as unsigned words, as signed words and as bytes, after any
sequence of writes. -/
theorem readings_of_storage (buffer : Buffer w n) (steps : List (Fin n × Unsigned w)) :
    let last := buffer.writeAll steps
    (buffer.view.toList.map Word.value = buffer.patterns.toList.map fun b => (b.toNat : Int)) ∧
    (∀ earlier i x later, ∃ before next after,
      buffer.history (earlier ++ (i, x) :: later) = before ++ next :: after ∧
      before.length = earlier.length ∧ after.length = later.length ∧
      ∀ j : Fin n, next.view.get j = if j = i then x else (before.getLastD buffer).view.get j) ∧
    (buffer.history steps).getLastD buffer = last ∧
    (∀ j : Fin n,
      (∃ earlier x later, steps = earlier ++ (j, x) :: later ∧ (∀ step ∈ later, step.1 ≠ j) ∧
        last.view.get j = x) ∨
      (∀ step ∈ steps, step.1 ≠ j) ∧ last.view.get j = buffer.view.get j) ∧
    last.toBytes.length = w.bytes * n ∧
    (∀ i : Fin n, Word.ofBytes? w ((last.toBytes.drop (w.bytes * i)).take w.bytes) =
      some (last.view.get i)) ∧
    (∀ bytes, Word.ofBytes? w bytes = none ↔ bytes.length ≠ w.bytes) ∧
    (∀ bytes x, Word.ofBytes? w bytes = some x ↔
      bytes.length = w.bytes ∧ x.toNat = Nat.ofDigits 256 (bytes.map UInt8.toNat)) ∧
    Set.InjOn (Word.ofBytes? w) {bytes | bytes.length = w.bytes} ∧
    (∀ x, ∃ bytes, bytes.length = w.bytes ∧ Word.ofBytes? w bytes = some x) ∧
    (∀ words : Vector (Signed w) n, words.map Word.bits = buffer.patterns →
      (ofSigned words).view = buffer.view ∧
        ∀ i : Fin n, (buffer.view.get i).value =
          if (words.get i).value < 0 then (words.get i).value + 2 ^ w.bits
          else (words.get i).value) := by
  intro last
  exact ⟨buffer.values_view, fun earlier i x later => buffer.exists_history_eq earlier later i x,
    buffer.getLastD_history steps, buffer.view_writeAll steps, last.length_toBytes,
    last.ofBytes?_toBytes, fun _ => Word.ofBytes?_eq_none_iff, fun _ _ => Word.ofBytes?_eq_some_iff,
    Word.ofBytes?_injOn, fun x => ⟨x.toBytes, x.length_toBytes, Word.ofBytes?_toBytes x⟩,
    fun _ => view_ofSigned⟩

/-- The middle one of three words is written twice. -/
theorem readings_of_storage_written_twice :
    let buffer : Buffer .w16 3 := ⟨#v[0x1234#16, 0xFFFE#16, 0x8000#16]⟩
    let words : Vector (Signed .w16) 3 := #v[.ofInt _ 4660, .ofInt _ (-2), .ofInt _ (-32768)]
    let last := buffer.writeAll [(1, .ofNat _ 0xBEEF), (0, .ofNat _ 7), (1, .ofNat _ 0xCAFE)]
    words.map Word.bits = buffer.patterns ∧
      (ofSigned words).view = buffer.view ∧
      (buffer.view.get 1).value = (words.get 1).value + 2 ^ 16 ∧
      last.toBytes = [0x07, 0x00, 0xFE, 0xCA, 0x00, 0x80] ∧
      Word.ofBytes? .w16 ((last.toBytes.drop 2).take 2) = some (last.view.get 1) := by
  intro buffer words last
  have hw : words.map Word.bits = buffer.patterns := by decide +kernel
  obtain ⟨-, -, -, -, -, hread, -, -, -, -, hsigned⟩ := readings_of_storage buffer
    [(1, .ofNat _ 0xBEEF), (0, .ofNat _ 7), (1, .ofNat _ 0xCAFE)]
  obtain ⟨hview, hvalue⟩ := hsigned words hw
  exact ⟨hw, hview, hvalue 1, by decide +kernel, hread 1⟩

end FixedWidth.Buffer
