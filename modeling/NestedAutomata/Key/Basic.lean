import NestedAutomata.SortedSet.Basic

namespace NestedAutomata

open Std

-- Keys name states and symbols. A key is a bare number: what it stands for is recorded by the key
-- table that handed it out. Keys are ordered by that number, that is by age.
@[ext]
structure Key where
  index : Nat
deriving DecidableEq, Repr, Inhabited

namespace Key

instance : Ord Key where
  compare := compareOn index

instance : TransOrd Key :=
  inferInstanceAs (TransCmp (compareOn index))

instance : LawfulEqOrd Key where
  eq_of_compare h := Key.ext (Nat.compare_eq_eq.mp h)

-- Labels the internal transitions that read nothing.
def ε : Key := ⟨0⟩

-- Labels the transitions that read every symbol of the alphabet.
def wild : Key := ⟨1⟩

def Reserved (k : Key) : Prop :=
  k = ε ∨ k = wild

instance (k : Key) : Decidable k.Reserved :=
  inferInstanceAs (Decidable (_ ∨ _))

def text (k : Key) : String :=
  if k = ε then "#eps"
  else if k = wild then "#wild"
  else s!"#{k.index}"

end Key

@[ext]
structure Link where
  origin : Key
  target : Key
deriving DecidableEq, Repr

namespace Link

instance : Ord Link where
  compare := compareLex (compareOn origin) (compareOn target)

instance : TransOrd Link :=
  inferInstanceAs (TransCmp (compareLex (compareOn origin) (compareOn target)))

instance : LawfulEqOrd Link where
  eq_of_compare h :=
    have ⟨ho, ht⟩ := compareLex_eq_eq.mp h
    Link.ext (LawfulEqOrd.eq_of_compare ho) (LawfulEqOrd.eq_of_compare ht)

end Link

abbrev Relation :=
  SortedSet Link

end NestedAutomata
