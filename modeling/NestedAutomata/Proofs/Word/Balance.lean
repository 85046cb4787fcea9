import NestedAutomata.Proofs.Word.Depth

namespace NestedAutomata.Word

-- Nothing, or an internal position before such a word, or such a word between a call and its return, with
-- another one after it.
inductive Balanced : Word → Prop
  | nil :
    Balanced []
  | internal {a w} :
    Balanced w → Balanced (.internal a :: w)
  | nested {a b v w} :
    Balanced v → Balanced w → Balanced (.call a :: v ++ .ret b :: w)

-- The rest of such a word, while a number of calls is open: there is a balanced word on each level, and
-- a return between one level and the next.
inductive Closing : Nat → Word → Prop
  | base {w} :
    Balanced w → Closing 0 w
  | ret {n a v w} :
    Balanced v → Closing n w → Closing (n + 1) (v ++ .ret a :: w)

variable {v w : Word} {a b : Key} {n : Nat}

theorem Closing.internal (h : Closing n w) : Closing n (.internal a :: w) := by
  cases h with
  | base hw   => exact .base hw.internal
  | ret hv hw => exact .ret hv.internal hw

theorem Closing.nested (hv : Balanced v) (h : Closing n w) : Closing n (.call a :: v ++ .ret b :: w) := by
  cases h with
  | base hw   => exact .base (hv.nested hw)
  | ret hu hw => simpa using Closing.ret (hv.nested (a := a) (b := b) hu) hw

theorem closing_of_depth? (h : depth? n w = some 0) : Closing n w := by
  induction w generalizing n with
  | nil =>
    obtain rfl : n = 0 := Option.some.inj h
    exact .base .nil
  | cons x w ih =>
    cases x with
    | internal => exact (ih h).internal
    | call     =>
      cases ih h with
      | ret hv hw => exact hw.nested hv
    | ret      =>
      cases n with
      | zero   => cases h
      | succ n => exact .ret .nil (ih h)

theorem Balanced.depth? (h : Balanced w) : Word.depth? n w = some n := by
  induction h generalizing n with
  | nil                => rfl
  | internal _ ih      => exact ih
  | nested _ _ ihv ihw => simp [depth?_append, Word.depth?, ihv, ihw]

theorem balanced_iff : Balanced w ↔ depth? 0 w = some 0 where
  mp    := Balanced.depth?
  mpr h := by
    cases closing_of_depth? h with
    | base hw => exact hw

theorem WellMatched.balanced (h : w.WellMatched) : Balanced w :=
  balanced_iff.mpr (wellMatched_iff.mp h)

theorem Balanced.wellMatched (h : Balanced w) : w.WellMatched :=
  wellMatched_iff.mpr h.depth?

theorem wellMatched_iff_balanced : w.WellMatched ↔ w.Balanced :=
  ⟨WellMatched.balanced, Balanced.wellMatched⟩

end NestedAutomata.Word
