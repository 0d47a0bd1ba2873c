import FixedWidth.Text.Document

/-!
# What a sink accepts

Writing a document is putting its characters into the sink one after the other, so the outcome is
known from the characters and the room of the sink. Where there is room for all of them, all are
accepted. Otherwise the sink has accepted as many of the first ones as it has room for, and the
writing is known to be incomplete. In particular no sink can tell two documents of the same
characters apart, whatever parts they are put together from (`Document.write_congr`).
-/

namespace FixedWidth

namespace Sink

theorem append_ofList_cons (s : String) (c : Char) (cs : List Char) :
    s ++ String.ofList (c :: cs) = s.push c ++ String.ofList cs := by
  rw [String.ext_iff]
  simp only [String.toList_append, String.toList_push, String.toList_ofList, List.append_assoc,
    List.singleton_append]

theorem foldlM_put (cs : List Char) (s : String) :
    cs.foldlM put ⟨s, none⟩ = .ok ⟨s ++ String.ofList cs, none⟩ := by
  induction cs generalizing s with
  | nil =>
    rw [String.ofList_nil, String.append_empty]
    rfl
  | cons c cs ih =>
    rw [List.foldlM_cons, append_ofList_cons]
    exact ih (s.push c)

theorem foldlM_put_limited (cs : List Char) (s : String) (n : Nat) :
    cs.foldlM put ⟨s, some n⟩ =
      if cs.length ≤ n then .ok ⟨s ++ String.ofList cs, some (n - cs.length)⟩
      else .error ⟨s ++ String.ofList (cs.take n), some 0⟩ := by
  induction cs generalizing s n with
  | nil =>
    rw [List.length_nil, if_pos (Nat.zero_le n), String.ofList_nil, String.append_empty]
    rfl
  | cons c cs ih =>
    rw [List.foldlM_cons, List.length_cons]
    cases n with
    | zero =>
      rw [if_neg (Nat.not_succ_le_zero cs.length), List.take_zero, String.ofList_nil,
        String.append_empty]
      rfl
    | succ n =>
      rw [List.take_succ_cons, append_ofList_cons, append_ofList_cons, Nat.add_sub_add_right]
      simp only [Nat.add_le_add_iff_right]
      exact ih (s.push c) n

end Sink

namespace Document

variable {d e : Document}

theorem write_none (h : d.isWritable) : d.write none = ⟨String.ofList d.chars, true⟩ := by
  rw [write, d.emit_eq_foldlM h, Sink.foldlM_put, String.empty_append]

/-- **A sink with room for `n` characters accepts the first `n`**, and the writing is complete if
these are all. -/
theorem write_limited (h : d.isWritable) (n : Nat) :
    d.write (some n) = ⟨String.ofList (d.chars.take n), decide (d.chars.length ≤ n)⟩ := by
  rw [write, d.emit_eq_foldlM h, Sink.foldlM_put_limited, String.empty_append, String.empty_append]
  by_cases hn : d.chars.length ≤ n
  · rw [if_pos hn, List.take_of_length_le hn, decide_eq_true hn]
  · rw [if_neg hn, decide_eq_false hn]

/-- A sink sees the characters of a document and nothing else of it. -/
theorem write_congr (hd : d.isWritable) (he : e.isWritable) (h : d.chars = e.chars)
    (limit : Option Nat) : d.write limit = e.write limit := by
  cases limit with
  | none => rw [write_none hd, write_none he, h]
  | some n => rw [write_limited hd, write_limited he, h]

end Document

end FixedWidth
