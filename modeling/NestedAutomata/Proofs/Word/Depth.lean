import NestedAutomata.Word

namespace NestedAutomata.Word

-- The number of open calls after the word, if `depth` calls are open before it. There is none if some
-- return finds no open call.
def depth? : (depth : Nat) → Word → Option Nat
  | depth, []               => some depth
  | depth, .call _ :: w     => depth? (depth + 1) w
  | depth, .internal _ :: w => depth? depth w
  | 0, .ret _ :: _          => none
  | depth + 1, .ret _ :: w  => depth? depth w

variable {v w : Word} {k m n : Nat}

theorem depth?_append : depth? n (v ++ w) = (depth? n v).bind (depth? · w) := by
  induction v generalizing n with
  | nil => rfl
  | cons x v ih => cases x <;> cases n <;> simp [depth?, ih]

theorem depth?_cons {x : Position} : depth? n (x :: w) = (depth? n [x]).bind (depth? · w) :=
  depth?_append (v := [x])

theorem returnBelow_eq_none_iff : returnBelow n w = none ↔ depth? n w ≠ none := by
  induction w generalizing n with
  | nil => simp [depth?, returnBelow]
  | cons x w ih => cases x <;> cases n <;> simp [depth?, returnBelow, ih]

theorem length_go_pendingCalls {opened : List Nat} (h : depth? opened.length w = some m) :
    (pendingCalls.go opened k w).length = m := by
  induction w generalizing opened k with
  | nil => simpa [depth?, pendingCalls.go] using h
  | cons x w ih =>
    cases x with
    | call     => exact ih (by simpa [depth?] using h)
    | internal => exact ih (by simpa [depth?] using h)
    | ret      =>
      cases opened with
      | nil      => simp [depth?] at h
      | cons _ o => exact ih (by simpa [depth?] using h)

theorem length_pendingCalls (h : depth? 0 w = some m) : w.pendingCalls.length = m :=
  @length_go_pendingCalls _ _ _ [] h

theorem wellMatched_iff : w.WellMatched ↔ depth? 0 w = some 0 := by
  constructor
  case mp =>
    intro ⟨hr, hc⟩
    cases h : depth? 0 w with
    | none   => exact absurd h (returnBelow_eq_none_iff.mp hr)
    | some m => simpa [hc] using (length_pendingCalls h).symm
  case mpr =>
    intro h
    exact ⟨returnBelow_eq_none_iff.mpr (by simp [h]), List.length_eq_zero_iff.mp (length_pendingCalls h)⟩

def Unreserved (w : Word) : Prop :=
  ∀ x ∈ w, ¬x.symbol.Reserved

instance (w : Word) : Decidable w.Unreserved :=
  inferInstanceAs (Decidable (∀ x ∈ w, ¬x.symbol.Reserved))

theorem unreserved_cons {x : Position} : Unreserved (x :: w) ↔ ¬x.symbol.Reserved ∧ Unreserved w :=
  List.forall_mem_cons

theorem unreserved_append : Unreserved (v ++ w) ↔ Unreserved v ∧ Unreserved w :=
  List.forall_mem_append

end NestedAutomata.Word
