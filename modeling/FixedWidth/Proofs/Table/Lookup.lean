import FixedWidth.Table
import Mathlib.Data.List.Pairwise
import Mathlib.Data.Int.Order.Basic

/-!
# What a table holds under an integer

A probe takes the entry whose key has the probe's value, whatever the two kinds are, since equal
values have equal hash codes. So a table is seen through its integers: `Table.lookup` gives the
entry under an integer, and every operation has one equation for it.

The equations hold for all lists of entries. That no integer has two entries (`Table.Distinct`) is
an invariant of its own; it makes the listing of a table and its lookups the same information.
-/

namespace FixedWidth.Table

variable {α : Type} {t : Table α} {i : Int}

/-- The entry under an integer. -/
def lookup (t : Table α) (i : Int) : Option (Scalar × α) :=
  t.entries.find? fun entry => decide (entry.1.value = i)

theorem hits_eq_decide (probe key : Scalar) :
    hits probe key = decide (key.value = probe.value) := by
  rw [Bool.eq_iff_iff, hits_iff, decide_eq_true_iff]
  exact eq_comm

/-- **A probe is its value.** -/
theorem find?_eq_lookup (t : Table α) (probe : Scalar) : t.find? probe = t.lookup probe.value := by
  simp only [find?, lookup, hits_eq_decide]

theorem contains_eq_isSome (t : Table α) (probe : Scalar) :
    t.contains probe = (t.lookup probe.value).isSome := by
  rw [contains, find?_eq_lookup]

theorem mem_of_lookup {e : Scalar × α} (h : t.lookup i = some e) : e ∈ t.entries :=
  List.mem_of_find?_eq_some h

theorem value_of_lookup {e : Scalar × α} (h : t.lookup i = some e) : e.1.value = i := by
  have hd := List.find?_some (p := fun f : Scalar × α => decide (f.1.value = i)) h
  exact of_decide_eq_true hd

/-! ### The operations -/

theorem lookup_empty (i : Int) : ({} : Table α).lookup i = none := rfl

theorem mem_entries_erase {e : Scalar × α} {probe : Scalar} :
    e ∈ (t.erase probe).entries ↔ e ∈ t.entries ∧ e.1.value ≠ probe.value := by
  simp [erase, hits_eq_decide]

theorem lookup_erase (t : Table α) (probe : Scalar) (i : Int) :
    (t.erase probe).lookup i = if i = probe.value then none else t.lookup i := by
  split
  next h =>
    refine List.find?_eq_none.mpr fun e he hi => ?_
    exact (mem_entries_erase.mp he).2 ((of_decide_eq_true hi).trans h)
  next h =>
    -- an entry under `i` is none of those that the filter drops
    rw [lookup, erase, List.find?_filter]
    refine congrArg t.entries.find? (funext fun e => ?_)
    by_cases he : e.1.value = i
    · simp [hits_eq_decide, he, h]
    · simp [he]

theorem lookup_store (t : Table α) (key : Scalar) (x : α) (i : Int) :
    (t.store key x).lookup i = if i = key.value then some (key, x) else t.lookup i := by
  have h : (t.store key x).lookup i =
      ((t.erase key).lookup i).or ([(key, x)].find? fun e => decide (e.1.value = i)) :=
    List.find?_append
  rw [h, lookup_erase]
  split
  next hi => simp [hi]
  next hi => simp [Ne.symm hi]

/-! ### One entry for each integer -/

/-- No two entries have keys of one value. -/
def Distinct (t : Table α) : Prop := t.entries.Pairwise fun e f => e.1.value ≠ f.1.value

theorem distinct_empty : ({} : Table α).Distinct := List.Pairwise.nil

theorem Distinct.erase (h : t.Distinct) (probe : Scalar) : (t.erase probe).Distinct :=
  h.filter _

theorem Distinct.store (h : t.Distinct) (key : Scalar) (x : α) : (t.store key x).Distinct := by
  refine List.pairwise_append.mpr ⟨h.erase key, List.pairwise_singleton _ _, ?_⟩
  intro e he f hf
  rw [List.mem_singleton.mp hf]
  exact (mem_entries_erase.mp he).2

theorem Distinct.mem_entries_iff (h : t.Distinct) {e : Scalar × α} :
    e ∈ t.entries ↔ t.lookup e.1.value = some e := by
  constructor
  · intro he
    obtain ⟨f, hf⟩ : ∃ f, t.lookup e.1.value = some f := by
      refine Option.isSome_iff_exists.mp (List.find?_isSome.mpr ⟨e, he, ?_⟩)
      exact decide_eq_true rfl
    have hv : f.1.value = e.1.value := value_of_lookup hf
    have : Std.Symm fun e f : Scalar × α => e.1.value ≠ f.1.value := ⟨fun _ _ => Ne.symm⟩
    have hfe : f = e := by
      by_contra hne
      exact (List.Pairwise.forall h (mem_of_lookup hf) he hne) hv
    rw [hf, hfe]
  · exact mem_of_lookup

/-- **A listing holds what the lookups find.** -/
theorem Distinct.mem_listing_iff (h : t.Distinct) {e : Scalar × α} :
    e ∈ t.listing ↔ t.lookup e.1.value = some e := by
  rw [listing, List.mem_mergeSort]
  exact h.mem_entries_iff

theorem Distinct.exists_mem_listing_iff (h : t.Distinct) :
    (∃ e ∈ t.listing, e.1.value = i) ↔ (t.lookup i).isSome := by
  rw [Option.isSome_iff_exists]
  constructor
  · rintro ⟨e, he, rfl⟩
    exact ⟨e, h.mem_listing_iff.mp he⟩
  · rintro ⟨e, he⟩
    obtain rfl := value_of_lookup he
    exact ⟨e, h.mem_listing_iff.mpr he, rfl⟩

/-- **A listing is strictly ascending**: it is sorted, and no value occurs twice. -/
theorem Distinct.pairwise_listing (h : t.Distinct) :
    t.listing.Pairwise fun e f => e.1.value < f.1.value := by
  have hs : t.listing.Pairwise fun e f => decide (e.1.value ≤ f.1.value) = true := by
    refine List.pairwise_mergeSort (fun a b c hab hbc => ?_) (fun a b => ?_) t.entries
    · exact decide_eq_true (Int.le_trans (of_decide_eq_true hab) (of_decide_eq_true hbc))
    · rw [Bool.or_eq_true, decide_eq_true_iff, decide_eq_true_iff]
      exact Int.le_total a.1.value b.1.value
  have hd : t.listing.Pairwise fun e f => e.1.value ≠ f.1.value :=
    (List.mergeSort_perm t.entries _).symm.pairwise h Ne.symm
  exact hs.imp₂ (fun _ _ hle hne => lt_of_le_of_ne (of_decide_eq_true hle) hne) hd

end FixedWidth.Table
