import FixedWidth.HashCode

/-!
# Tables keyed by scalars

A table holds at most one entry for each integer. A probe looks at the entries under its own hash
code and takes the one whose key equals it, so two keys of equal value would be kept apart if their
codes differed. The order of the entries is the order in which they came; a listing shows them by
value.
-/

namespace FixedWidth

/-- Entries under scalar keys. -/
structure Table (α : Type) where
  entries : List (Scalar × α) := []

namespace Table

variable {α : Type}

/-- Whether a probe takes the entry of a key. -/
def hits (probe key : Scalar) : Bool :=
  probe.hashCode == key.hashCode && probe == key

/-- The entry that a probe takes. -/
def find? (t : Table α) (probe : Scalar) : Option (Scalar × α) :=
  t.entries.find? fun entry => hits probe entry.1

/-- Whether a probe takes an entry. -/
def contains (t : Table α) (probe : Scalar) : Bool := (t.find? probe).isSome

/-- The table without the entry that a probe takes. -/
def erase (t : Table α) (probe : Scalar) : Table α :=
  ⟨t.entries.filter fun entry => !hits probe entry.1⟩

/-- The table with a new entry in place of the one that its key takes. -/
def store (t : Table α) (key : Scalar) (value : α) : Table α :=
  ⟨(t.erase key).entries ++ [(key, value)]⟩

/-- The entries in ascending order of the values of their keys. -/
def listing (t : Table α) : List (Scalar × α) :=
  t.entries.mergeSort fun a b => decide (a.1.value ≤ b.1.value)

theorem hits_iff {probe key : Scalar} : hits probe key ↔ probe.value = key.value := by
  rw [hits, Bool.and_eq_true, Scalar.beq_iff_value_eq]
  constructor
  · exact And.right
  · intro h
    refine ⟨?_, h⟩
    rw [Scalar.hashCode_eq_of_beq (Scalar.beq_iff_value_eq.mpr h)]
    exact beq_self_eq_true _

end Table

end FixedWidth
