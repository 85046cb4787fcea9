namespace NestedAutomata

open Std

-- Finite sets, each kept as the ascending list of its members. The list is a canonical form: sets with
-- the same members are the same value, and `toList` runs through the members in their order.
structure SortedSet (α : Type) [Ord α] where
  toList    : List α
  ascending : toList.Pairwise (compare · · = .lt)
deriving DecidableEq

namespace SortedSet

variable {α : Type} [Ord α] [TransOrd α] [LawfulEqOrd α]

def insertSorted (a : α) : List α → List α
  | []     => [a]
  | b :: l =>
    match compare a b with
    | .lt => a :: b :: l
    | .eq => b :: l
    | .gt => b :: insertSorted a l

omit [TransOrd α] in
theorem mem_insertSorted {a x : α} {l : List α} :
    x ∈ insertSorted a l ↔ x = a ∨ x ∈ l := by
  induction l with
  | nil => simp [insertSorted]
  | cons b l ih =>
    simp only [insertSorted]
    split
    case h_1 => simp
    case h_2 h => simp [LawfulEqOrd.eq_of_compare h]
    case h_3 => simp [ih, or_left_comm]

theorem ascending_insertSorted {a : α} {l : List α} (h : l.Pairwise (compare · · = .lt)) :
    (insertSorted a l).Pairwise (compare · · = .lt) := by
  induction l with
  | nil => simp [insertSorted]
  | cons b l ih =>
    have ⟨hb, hl⟩ := List.pairwise_cons.mp h
    simp only [insertSorted]
    split
    case h_1 hc =>
      refine List.pairwise_cons.mpr ⟨?_, h⟩
      intro x hx
      cases List.mem_cons.mp hx with
      | inl hx => exact hx ▸ hc
      | inr hx => exact TransCmp.lt_trans hc (hb x hx)
    case h_2 => exact h
    case h_3 hc =>
      refine List.pairwise_cons.mpr ⟨?_, ih hl⟩
      intro x hx
      cases mem_insertSorted.mp hx with
      | inl hx => exact hx ▸ OrientedCmp.gt_iff_lt.mp hc
      | inr hx => exact hb x hx

instance : Membership α (SortedSet α) where
  mem s a := a ∈ s.toList

instance [DecidableEq α] (a : α) (s : SortedSet α) : Decidable (a ∈ s) :=
  inferInstanceAs (Decidable (a ∈ s.toList))

instance : EmptyCollection (SortedSet α) where
  emptyCollection := ⟨[], .nil⟩

instance : Inhabited (SortedSet α) where
  default := ∅

instance : Insert α (SortedSet α) where
  insert a s := ⟨insertSorted a s.toList, ascending_insertSorted s.ascending⟩

instance : Singleton α (SortedSet α) where
  singleton a := ⟨[a], List.pairwise_singleton ..⟩

def insertAll (l : List α) (s : SortedSet α) : SortedSet α :=
  l.foldr insert s

def ofList (l : List α) : SortedSet α :=
  insertAll l ∅

def filter (p : α → Bool) (s : SortedSet α) : SortedSet α where
  toList    := s.toList.filter p
  ascending := s.ascending.filter p

def erase [DecidableEq α] (s : SortedSet α) (a : α) : SortedSet α :=
  s.filter (· ≠ a)

def size (s : SortedSet α) : Nat :=
  s.toList.length

def isEmpty (s : SortedSet α) : Bool :=
  s.toList.isEmpty

end SortedSet

end NestedAutomata
