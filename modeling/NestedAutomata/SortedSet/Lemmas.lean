import NestedAutomata.SortedSet.Basic

namespace NestedAutomata.SortedSet

open Std

variable {α : Type} [Ord α] [TransOrd α] [LawfulEqOrd α]
variable {s t : SortedSet α} {a b : α}

omit [TransOrd α] [LawfulEqOrd α] in
@[simp]
theorem mem_toList : a ∈ s.toList ↔ a ∈ s :=
  .rfl

omit [TransOrd α] [LawfulEqOrd α] in
@[simp]
theorem not_mem_empty : a ∉ (∅ : SortedSet α) :=
  List.not_mem_nil

@[simp]
theorem mem_insert : a ∈ (insert b s : SortedSet α) ↔ a = b ∨ a ∈ s :=
  mem_insertSorted

omit [TransOrd α] [LawfulEqOrd α] in
@[simp]
theorem mem_singleton : a ∈ ({b} : SortedSet α) ↔ a = b :=
  List.mem_singleton

omit [TransOrd α] [LawfulEqOrd α] in
@[simp]
theorem mem_filter {p : α → Bool} : a ∈ s.filter p ↔ a ∈ s ∧ p a :=
  List.mem_filter

omit [TransOrd α] [LawfulEqOrd α] in
@[simp]
theorem mem_erase [DecidableEq α] : a ∈ s.erase b ↔ a ∈ s ∧ a ≠ b := by
  simp [erase]

@[simp]
theorem mem_insertAll {l : List α} : a ∈ insertAll l s ↔ a ∈ l ∨ a ∈ s := by
  induction l with
  | nil => simp [insertAll]
  | cons b l ih => simp only [insertAll, List.foldr_cons, mem_insert] at ih ⊢; simp [ih, or_assoc]

@[simp]
theorem mem_ofList {l : List α} : a ∈ ofList l ↔ a ∈ l := by
  simp [ofList]

omit [TransOrd α] [LawfulEqOrd α] in
theorem nodup_toList [ReflOrd α] (s : SortedSet α) : s.toList.Nodup :=
  s.ascending.imp fun h e => by simp [e, ReflCmp.compare_self] at h

-- The members of a set fix its list, as the ascending order leaves them no choice of place.
omit [LawfulEqOrd α] in
@[ext]
theorem ext_mem (h : ∀ a, a ∈ s ↔ a ∈ t) : s = t := by
  have perm : s.toList.Perm t.toList :=
    (List.perm_ext_iff_of_nodup s.nodup_toList t.nodup_toList).mpr h
  have asymm : ∀ a b : α, compare a b = .lt → compare b a = .lt → a = b :=
    fun _ _ hab hba => (OrientedCmp.not_lt_of_lt hab hba).elim
  have := perm.eq_of_pairwise (fun a b _ _ => asymm a b) s.ascending t.ascending
  cases s; cases t
  simpa using this

omit [LawfulEqOrd α] in
theorem eq_empty (h : ∀ a, a ∉ s) : s = ∅ :=
  ext_mem fun a => iff_of_false (h a) not_mem_empty

omit [LawfulEqOrd α] in
@[simp]
theorem isEmpty_iff : s.isEmpty ↔ s = ∅ := by
  rw [isEmpty, List.isEmpty_iff]
  constructor
  case mp  => exact fun h => ext_mem fun a => by rw [← mem_toList, h]; rfl
  case mpr => rintro rfl; rfl

omit [TransOrd α] [LawfulEqOrd α] in
theorem exists_mem_of_ne_empty (h : s ≠ ∅) : ∃ a, a ∈ s := by
  obtain ⟨_ | ⟨a, l⟩, _⟩ := s
  case nil  => exact absurd rfl h
  case cons => exact ⟨a, List.mem_cons_self⟩

end NestedAutomata.SortedSet
