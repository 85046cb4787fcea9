namespace NestedAutomata

open Std

-- Finite maps, each kept as the list of its entries in ascending order of the keys. As with sorted
-- sets the list is a canonical form: maps that give the same values are the same map.
structure SortedMap (κ ν : Type) [Ord κ] where
  entries   : List (κ × ν)
  ascending : entries.Pairwise (compare ·.1 ·.1 = .lt)

namespace SortedMap

variable {κ ν : Type} [Ord κ] [TransOrd κ] [LawfulEqOrd κ]

def insertSorted (k : κ) (v : ν) : List (κ × ν) → List (κ × ν)
  | []          => [(k, v)]
  | (j, u) :: l =>
    match compare k j with
    | .lt => (k, v) :: (j, u) :: l
    | .eq => (k, v) :: l
    | .gt => (j, u) :: insertSorted k v l

omit [TransOrd κ] [LawfulEqOrd κ] in
theorem eq_or_mem_of_mem_insertSorted {k : κ} {v : ν} {e : κ × ν} {l : List (κ × ν)}
    (h : e ∈ insertSorted k v l) : e = (k, v) ∨ e ∈ l := by
  induction l with
  | nil => exact .inl (List.mem_singleton.mp h)
  | cons _ l ih =>
    simp only [insertSorted] at h
    split at h
    case h_1 => exact List.mem_cons.mp h
    case h_2 => exact (List.mem_cons.mp h).imp_right (List.mem_cons_of_mem _)
    case h_3 =>
      cases List.mem_cons.mp h with
      | inl h => exact .inr (h ▸ List.mem_cons_self)
      | inr h => exact (ih h).imp_right (List.mem_cons_of_mem _)

theorem ascending_insertSorted {k : κ} {v : ν} {l : List (κ × ν)}
    (h : l.Pairwise (compare ·.1 ·.1 = .lt)) :
    (insertSorted k v l).Pairwise (compare ·.1 ·.1 = .lt) := by
  induction l with
  | nil => exact List.pairwise_singleton ..
  | cons e l ih =>
    have ⟨he, hl⟩ := List.pairwise_cons.mp h
    simp only [insertSorted]
    split
    case h_1 hc =>
      refine List.pairwise_cons.mpr ⟨?_, h⟩
      intro f hf
      cases List.mem_cons.mp hf with
      | inl hf => exact hf ▸ hc
      | inr hf => exact TransCmp.lt_trans hc (he f hf)
    case h_2 hc => exact List.pairwise_cons.mpr ⟨LawfulEqOrd.eq_of_compare hc ▸ he, hl⟩
    case h_3 hc =>
      refine List.pairwise_cons.mpr ⟨?_, ih hl⟩
      intro f hf
      cases eq_or_mem_of_mem_insertSorted hf with
      | inl hf => exact hf ▸ OrientedCmp.gt_iff_lt.mp hc
      | inr hf => exact he f hf

instance : EmptyCollection (SortedMap κ ν) where
  emptyCollection := ⟨[], .nil⟩

def insert (m : SortedMap κ ν) (k : κ) (v : ν) : SortedMap κ ν where
  entries   := insertSorted k v m.entries
  ascending := ascending_insertSorted m.ascending

variable [DecidableEq κ]

def find? (m : SortedMap κ ν) (k : κ) : Option ν :=
  m.entries.lookup k

def contains (m : SortedMap κ ν) (k : κ) : Bool :=
  (m.find? k).isSome

def erase (m : SortedMap κ ν) (k : κ) : SortedMap κ ν where
  entries   := m.entries.filter (·.1 ≠ k)
  ascending := m.ascending.filter _

end SortedMap

end NestedAutomata
