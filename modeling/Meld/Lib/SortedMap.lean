import Mathlib

/-!
# Sorted maps

A map from the keys of a linear order, as the list of its entries in the order of their keys. It is
read with `find`, written with `assign`, and walked through in the order of the keys.
-/

namespace Meld.Lib

/-- A map whose entries are in the order of their keys. -/
structure SortedMap (K V : Type) [LinearOrder K] where
  entries : List (K × V)
  sorted : entries.Pairwise fun x y => x.1 < y.1

namespace SortedMap

variable {K V : Type} [LinearOrder K]

/-- The entries with a new one, which replaces the one of its key. -/
def assignEntries (k : K) (v : V) : List (K × V) → List (K × V)
  | [] => [(k, v)]
  | (j, w) :: l =>
    if k < j then (k, v) :: (j, w) :: l
    else if k = j then (k, v) :: l
    else (j, w) :: assignEntries k v l

variable {k j : K} {v w : V} {l : List (K × V)}

/-- The entries are the new one and old ones. -/
theorem mem_assignEntries {x : K × V} (h : x ∈ assignEntries k v l) : x = (k, v) ∨ x ∈ l := by
  induction l with
  | nil => exact .inl (List.mem_singleton.mp h)
  | cons y l ih =>
    rw [assignEntries] at h
    split_ifs at h with hlt heq
    · exact List.mem_cons.mp h
    · exact (List.mem_cons.mp h).imp_right (List.mem_cons_of_mem _)
    · rcases List.mem_cons.mp h with rfl | h
      · exact .inr List.mem_cons_self
      · exact (ih h).imp_right (List.mem_cons_of_mem _)

/-- The keys stay in order. -/
theorem pairwise_assignEntries (h : l.Pairwise fun x y => x.1 < y.1) :
    (assignEntries k v l).Pairwise fun x y => x.1 < y.1 := by
  induction l with
  | nil => exact List.pairwise_singleton _ _
  | cons y l ih =>
    obtain ⟨hy, hl⟩ := List.pairwise_cons.mp h
    rw [assignEntries]
    split_ifs with hlt heq
    · refine List.pairwise_cons.mpr ⟨fun x hx => ?_, h⟩
      rcases List.mem_cons.mp hx with rfl | hx
      · exact hlt
      · exact lt_trans hlt (hy x hx)
    · exact List.pairwise_cons.mpr ⟨fun x hx => heq ▸ hy x hx, hl⟩
    · refine List.pairwise_cons.mpr ⟨fun x hx => ?_, ih hl⟩
      rcases mem_assignEntries hx with rfl | hx
      · exact lt_of_le_of_ne (not_lt.mp hlt) (Ne.symm heq)
      · exact hy x hx

/-- The value that is assigned is found. -/
theorem lookup_assignEntries_self : (assignEntries k v l).lookup k = some v := by
  induction l with
  | nil => simp [assignEntries]
  | cons y l ih =>
    rw [assignEntries]
    split_ifs with hlt heq
    · simp
    · simp
    · rw [List.lookup_cons, beq_false_of_ne heq]
      exact ih

/-- The other keys have the values that they had. -/
theorem lookup_assignEntries_of_ne (hne : j ≠ k) : (assignEntries k v l).lookup j = l.lookup j := by
  induction l with
  | nil => rw [assignEntries, List.lookup_cons, beq_false_of_ne hne]
  | cons y l ih =>
    rw [assignEntries]
    split_ifs with hlt heq
    · rw [List.lookup_cons, beq_false_of_ne hne]
    · rw [List.lookup_cons, List.lookup_cons, beq_false_of_ne hne, ← heq, beq_false_of_ne hne]
    · rw [List.lookup_cons, List.lookup_cons, ih]

/-- Where the keys are in order, an entry is what is found at its key. -/
theorem mem_iff_lookup (h : l.Pairwise fun x y => x.1 < y.1) :
    (k, v) ∈ l ↔ l.lookup k = some v := by
  induction l with
  | nil => simp
  | cons y l ih =>
    obtain ⟨hy, hl⟩ := List.pairwise_cons.mp h
    rw [List.mem_cons, List.lookup_cons]
    by_cases hk : k = y.1
    · subst hk
      have hnot : (y.1, v) ∉ l := fun hmem => absurd (hy _ hmem) (lt_irrefl _)
      simp only [hnot, or_false, beq_self_eq_true, Option.some.injEq]
      exact ⟨fun heq => by rw [← heq], fun heq => by rw [← heq]⟩
    · rw [beq_false_of_ne hk, ← ih hl]
      exact or_iff_right fun heq => hk (by rw [← heq])

/-! ### The operations -/

/-- The map without entries. -/
def empty : SortedMap K V := ⟨[], .nil⟩

/-- What the map has for a key. -/
def find (m : SortedMap K V) (k : K) : Option V := m.entries.lookup k

/-- The map with another value for a key. -/
def assign (m : SortedMap K V) (k : K) (v : V) : SortedMap K V :=
  ⟨assignEntries k v m.entries, pairwise_assignEntries m.sorted⟩

@[simp] theorem find_empty : (empty : SortedMap K V).find k = none := rfl

@[simp] theorem find_assign_self (m : SortedMap K V) : (m.assign k v).find k = some v :=
  lookup_assignEntries_self

/-- The other keys have the values that they had. -/
theorem find_assign_of_ne (m : SortedMap K V) (hne : j ≠ k) : (m.assign k v).find j = m.find j :=
  lookup_assignEntries_of_ne hne

/-- An entry is what is found at its key. -/
theorem mem_entries (m : SortedMap K V) : (k, v) ∈ m.entries ↔ m.find k = some v :=
  mem_iff_lookup m.sorted

/-- Every key has one entry. -/
theorem nodup_keys (m : SortedMap K V) : (m.entries.map Prod.fst).Nodup :=
  List.pairwise_map.mpr (m.sorted.imp fun h => ne_of_lt h)

end SortedMap

end Meld.Lib
