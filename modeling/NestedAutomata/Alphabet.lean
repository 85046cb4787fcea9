import NestedAutomata.Key.Basic
import NestedAutomata.SortedSet.Lemmas

namespace NestedAutomata

structure Alphabet where
  symbols    : SortedSet Key
  unreserved : ∀ a ∈ symbols, ¬a.Reserved
deriving DecidableEq

namespace Alphabet

instance : EmptyCollection Alphabet where
  emptyCollection := ⟨∅, fun _ h => nomatch h⟩

instance : Inhabited Alphabet where
  default := ∅

instance : Membership Key Alphabet where
  mem as a := a ∈ as.symbols

instance (a : Key) (as : Alphabet) : Decidable (a ∈ as) :=
  inferInstanceAs (Decidable (a ∈ as.symbols))

def toList (as : Alphabet) : List Key :=
  as.symbols.toList

def size (as : Alphabet) : Nat :=
  as.symbols.size

def add (as : Alphabet) (a : Key) : Alphabet :=
  if h : a.Reserved then
    as
  else {
    symbols    := insert a as.symbols
    unreserved := fun b hb =>
      match SortedSet.mem_insert.mp hb with
      | .inl hb => hb ▸ h
      | .inr hb => as.unreserved b hb
  }

def addAll (as : Alphabet) (l : List Key) : Alphabet :=
  l.foldl add as

def remove (as : Alphabet) (a : Key) : Alphabet where
  symbols    := as.symbols.erase a
  unreserved := fun b hb => as.unreserved b (SortedSet.mem_erase.mp hb).1

variable {as : Alphabet} {a b : Key}

@[simp]
theorem mem_symbols : a ∈ as.symbols ↔ a ∈ as :=
  .rfl

@[simp]
theorem mem_toList : a ∈ as.toList ↔ a ∈ as :=
  .rfl

@[simp]
theorem mem_add : b ∈ as.add a ↔ b ∈ as ∨ b = a ∧ ¬a.Reserved := by
  simp only [add]
  split
  case isTrue h  => simp [h]
  case isFalse h => simp [h, ← mem_symbols, or_comm]

@[simp]
theorem mem_addAll {l : List Key} : b ∈ as.addAll l ↔ b ∈ as ∨ b ∈ l ∧ ¬b.Reserved := by
  induction l generalizing as with
  | nil => simp [addAll]
  | cons a l ih =>
    simp only [addAll, List.foldl_cons] at ih ⊢
    grind [mem_add]

theorem mem_addAll_toList {bs : Alphabet} : a ∈ as.addAll bs.toList ↔ a ∈ as ∨ a ∈ bs := by
  rw [mem_addAll, mem_toList]
  exact or_congr_right (and_iff_left_of_imp (bs.unreserved a))

@[simp]
theorem mem_remove : b ∈ as.remove a ↔ b ∈ as ∧ b ≠ a := by
  simp [remove, ← mem_symbols]

inductive Edit
  | add (a : Key)
  | remove (a : Key)
  | clear

namespace Edit

def apply (as : Alphabet) : Edit → Alphabet
  | add a    => as.add a
  | remove a => as.remove a
  | clear    => ∅

def effective (as : Alphabet) : Edit → Bool
  | add a    => ¬a.Reserved ∧ a ∉ as
  | remove a => a ∈ as
  | clear    => true

end Edit

end Alphabet

end NestedAutomata
