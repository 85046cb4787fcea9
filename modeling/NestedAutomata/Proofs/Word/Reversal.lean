import NestedAutomata.Proofs.Word.Pending

namespace NestedAutomata

namespace Position

variable {x : Position}

@[simp]
theorem reversed_reversed : x.reversed.reversed = x := by
  cases x <;> rfl

@[simp]
theorem symbol_reversed : x.reversed.symbol = x.symbol := by
  cases x <;> rfl

end Position

namespace Word

variable {v w : Word} {x : Position} {i m n : Nat}

@[simp]
theorem reversed_nil : reversed [] = [] :=
  rfl

@[simp]
theorem reversed_cons : reversed (x :: w) = w.reversed ++ [x.reversed] := by
  simp [reversed]

@[simp]
theorem reversed_append : reversed (v ++ w) = w.reversed ++ v.reversed := by
  simp [reversed]

@[simp]
theorem reversed_reversed : w.reversed.reversed = w := by
  induction w with
  | nil => rfl
  | cons x w ih => simp [ih]

theorem unreserved_reversed : w.reversed.Unreserved ↔ w.Unreserved := by
  simp [Unreserved, reversed]

theorem depth?_reversed (h : depth? m w = some n) : depth? n w.reversed = some m := by
  induction w generalizing m with
  | nil => simpa [depth?, eq_comm] using h
  | cons x w ih =>
    rw [reversed_cons, depth?_append]
    cases x with
    | internal | call => simp [ih h, depth?, Position.reversed]
    | ret             =>
      cases m with
      | zero   => cases h
      | succ m => simp [ih h, depth?, Position.reversed]

theorem WellMatched.reversed (h : w.WellMatched) : w.reversed.WellMatched :=
  wellMatched_iff.mpr (depth?_reversed (wellMatched_iff.mp h))

theorem length_reversed : w.reversed.length = w.length := by
  simp [reversed]

theorem Balanced.reversed (h : w.Balanced) : w.reversed.Balanced :=
  balanced_iff.mpr (depth?_reversed (balanced_iff.mp h))

-- What comes after the last pending call is balanced, and comes before the first pending return when it
-- is read backwards.
theorem firstPendingReturn_reversed_of_last (h : w.pendingCalls.getLast? = some i) :
    w.reversed.firstPendingReturn = some (w.length - 1 - i) := by
  have ⟨u, a, t, hw, hu, balanced⟩ := getLast?_pendingCalls_eq_some_iff.mp h
  refine firstPendingReturn_eq_some_iff.mpr ⟨Word.reversed t, a, Word.reversed u, ?_, ?_, balanced.reversed⟩
  · simp [hw, Position.reversed]
  · simp [hw, ← hu, length_reversed]

theorem getLast?_pendingCalls_reversed_of_first (h : w.firstPendingReturn = some i) :
    w.reversed.pendingCalls.getLast? = some (w.length - 1 - i) := by
  have ⟨v, a, t, hw, hv, balanced⟩ := firstPendingReturn_eq_some_iff.mp h
  refine getLast?_pendingCalls_eq_some_iff.mpr ⟨Word.reversed t, a, Word.reversed v, ?_, ?_, balanced.reversed⟩
  · simp [hw, Position.reversed]
  · simp [hw, ← hv, length_reversed]

theorem firstPendingReturn_reversed :
    w.reversed.firstPendingReturn = w.pendingCalls.getLast?.map (w.length - 1 - ·) := by
  cases h : w.pendingCalls.getLast? with
  | some i => exact firstPendingReturn_reversed_of_last h
  | none   =>
    refine Option.eq_none_iff_forall_ne_some.mpr fun j hj => ?_
    have last := getLast?_pendingCalls_reversed_of_first hj
    rw [reversed_reversed, h] at last
    cases last

theorem getLast?_pendingCalls_reversed :
    w.reversed.pendingCalls.getLast? = w.firstPendingReturn.map (w.length - 1 - ·) := by
  cases h : w.firstPendingReturn with
  | some i => exact getLast?_pendingCalls_reversed_of_first h
  | none   =>
    refine Option.eq_none_iff_forall_ne_some.mpr fun j hj => ?_
    have first := firstPendingReturn_reversed_of_last hj
    rw [reversed_reversed, h] at first
    cases first

theorem wellMatched_reversed_iff : w.reversed.WellMatched ↔ w.WellMatched where
  mp h := by simpa using h.reversed
  mpr  := WellMatched.reversed

-- The word read backwards has its first pending return where the word has its last pending call, and the
-- other way around.
theorem pending_reversed (w : Word) :
    (∀ i ∈ w.pendingCalls, i < w.length) ∧ (∀ i ∈ w.firstPendingReturn, i < w.length) ∧
      w.reversed.firstPendingReturn = w.pendingCalls.getLast?.map (w.length - 1 - ·) ∧
      (w.reversed.firstPendingReturn = none ↔ w.pendingCalls = []) ∧
      w.reversed.pendingCalls.getLast? = w.firstPendingReturn.map (w.length - 1 - ·) ∧
      (w.reversed.WellMatched ↔ w.WellMatched) := by
  refine ⟨fun i hi => ?_, fun i hi => ?_, firstPendingReturn_reversed, ?_, getLast?_pendingCalls_reversed,
    wellMatched_reversed_iff⟩
  case refine_1 =>
    have ⟨u, a, t, hw, hu, _⟩ := mem_pendingCalls_iff_opens.mp hi
    simp [hw, ← hu]
  case refine_2 =>
    have ⟨v, a, t, hw, hv, _⟩ := firstPendingReturn_eq_some_iff.mp hi
    simp [hw, ← hv]
  case refine_3 => simp [firstPendingReturn_reversed]

theorem pending_reversed_ret_call :
    let w : Word := [.ret ⟨2⟩, .call ⟨3⟩, .internal ⟨4⟩]
    (1 ∈ w.pendingCalls ∧ 1 < w.length) ∧ w.reversed.firstPendingReturn = some 1 ∧
      w.reversed.pendingCalls.getLast? = some 2 := by
  intro w
  have ⟨bound, _, first, _, last, _⟩ := pending_reversed w
  have opened : 1 ∈ w.pendingCalls := by decide
  exact ⟨⟨opened, bound 1 opened⟩, first, last⟩

end Word

end NestedAutomata
