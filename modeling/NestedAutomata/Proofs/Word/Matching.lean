import NestedAutomata.Proofs.Word.Pending

namespace NestedAutomata.Word

variable {t v w : Word} {x : Position} {i j : Nat} {a : Key}

-- A return answers a call if the word between them is balanced.
def Matched (w : Word) (i j : Nat) : Prop :=
  ∃ u a v b t, w = u ++ .call a :: v ++ .ret b :: t ∧ Balanced v ∧ u.length = i ∧ i + 1 + v.length = j

def PendingCall (w : Word) (i : Nat) : Prop :=
  (∃ a, w[i]? = some (.call a)) ∧ ∀ j, ¬w.Matched i j

def PendingReturn (w : Word) (j : Nat) : Prop :=
  (∃ a, w[j]? = some (.ret a)) ∧ ∀ i, ¬w.Matched i j

theorem getElem?_eq_some_iff_append : w[i]? = some x ↔ ∃ v t, w = v ++ x :: t ∧ v.length = i := by
  constructor
  case mp  =>
    intro h
    have ⟨hi, hx⟩ := List.getElem?_eq_some_iff.mp h
    exact ⟨w.take i, w.drop (i + 1), by simp [← hx], by simp; omega⟩
  case mpr =>
    intro ⟨v, t, hw, hv⟩
    simp [hw, ← hv]

-- The return of a call is the first one to be pending in what follows the call.
theorem matched_call_iff :
    Matched (v ++ .call a :: t) v.length j ↔
      ∃ i, t.firstPendingReturn = some i ∧ v.length + 1 + i = j := by
  simp only [firstPendingReturn_eq_some_iff]
  constructor
  case mp  =>
    intro ⟨u, b, m, c, s, hw, hm, hu, hj⟩
    rw [List.append_assoc] at hw
    have ⟨_, rest⟩ := List.append_inj hw hu.symm
    exact ⟨m.length, ⟨m, c, s, (List.cons.inj rest).2, rfl, hm⟩, hj⟩
  case mpr =>
    intro ⟨i, ⟨m, c, s, ht, hm, balanced⟩, hj⟩
    exact ⟨v, a, m, c, s, by simp [ht], balanced, rfl, hm ▸ hj⟩

-- The call of a return is the last one to be pending in what precedes the return.
theorem matched_ret_iff :
    Matched (v ++ .ret a :: t) i v.length ↔ v.pendingCalls.getLast? = some i := by
  rw [getLast?_pendingCalls_eq_some_iff]
  constructor
  case mp  =>
    intro ⟨u, b, m, c, s, hw, hm, hu, hj⟩
    have ⟨hv, _⟩ := List.append_inj hw (by simp; omega)
    exact ⟨u, b, m, hv, hu, hm⟩
  case mpr =>
    intro ⟨u, b, m, hv, hu, hm⟩
    exact ⟨u, b, m, a, t, by rw [hv], hm, hu, by simp [hv]; omega⟩

theorem pendingCall_iff :
    w.PendingCall i ↔ ∃ v a t, w = v ++ .call a :: t ∧ v.length = i ∧ firstPendingReturn t = none := by
  simp only [PendingCall, getElem?_eq_some_iff_append]
  constructor
  case mp  =>
    intro ⟨⟨a, v, t, hw, hv⟩, alone⟩
    refine ⟨v, a, t, hw, hv, Option.eq_none_iff_forall_ne_some.mpr fun k hk => ?_⟩
    subst hw hv
    exact alone _ (matched_call_iff.mpr ⟨k, hk, rfl⟩)
  case mpr =>
    intro ⟨v, a, t, hw, hv, ht⟩
    refine ⟨⟨a, v, t, hw, hv⟩, fun j hj => ?_⟩
    subst hw hv
    have ⟨k, hk, _⟩ := matched_call_iff.mp hj
    cases ht.symm.trans hk

theorem pendingReturn_iff :
    w.PendingReturn i ↔ ∃ v a t, w = v ++ .ret a :: t ∧ v.length = i ∧ pendingCalls v = [] := by
  simp only [PendingReturn, getElem?_eq_some_iff_append, ← List.getLast?_eq_none_iff]
  constructor
  case mp  =>
    intro ⟨⟨a, v, t, hw, hv⟩, alone⟩
    refine ⟨v, a, t, hw, hv, Option.eq_none_iff_forall_ne_some.mpr fun k hk => ?_⟩
    subst hw hv
    exact alone k (matched_ret_iff.mpr hk)
  case mpr =>
    intro ⟨v, a, t, hw, hv, hc⟩
    refine ⟨⟨a, v, t, hw, hv⟩, fun j hj => ?_⟩
    subst hw hv
    cases hc.symm.trans (matched_ret_iff.mp hj)

theorem mem_pendingCalls : i ∈ w.pendingCalls ↔ w.PendingCall i := by
  simp [mem_pendingCalls_iff_opens, pendingCall_iff, Opens]

theorem head?_pendingCalls_eq_some_iff :
    w.pendingCalls.head? = some i ↔ IsLeast { j | w.PendingCall j } i := by
  simp [head?_eq_some_iff_isLeast pairwise_pendingCalls, mem_pendingCalls]

theorem firstPendingReturn_append (h : v.firstPendingReturn = some i) :
    firstPendingReturn (v ++ w) = some i := by
  have ⟨u, a, t, hv, hu, balanced⟩ := firstPendingReturn_eq_some_iff.mp h
  exact firstPendingReturn_eq_some_iff.mpr ⟨u, a, t ++ w, by simp [hv], hu, balanced⟩

theorem PendingReturn.exists_first (h : w.PendingReturn i) :
    ∃ j ≤ i, w.firstPendingReturn = some j := by
  have ⟨v, a, t, hw, hv, hc⟩ := pendingReturn_iff.mp h
  cases hr : v.firstPendingReturn with
  | none   =>
    have balanced : Balanced v := WellMatched.balanced ⟨hr, hc⟩
    exact ⟨i, Nat.le_refl i, firstPendingReturn_eq_some_iff.mpr ⟨v, a, t, hw, hv, balanced⟩⟩
  | some j =>
    have ⟨u, _, _, split, hu, _⟩ := firstPendingReturn_eq_some_iff.mp hr
    exact ⟨j, by simp [← hv, ← hu, split], hw ▸ firstPendingReturn_append hr⟩

theorem isLeast_of_firstPendingReturn (h : w.firstPendingReturn = some i) :
    IsLeast { j | w.PendingReturn j } i := by
  have ⟨v, a, t, hw, hv, balanced⟩ := firstPendingReturn_eq_some_iff.mp h
  refine ⟨pendingReturn_iff.mpr ⟨v, a, t, hw, hv, balanced.wellMatched.2⟩, fun j hj => ?_⟩
  have ⟨k, hk, first⟩ := hj.exists_first
  cases h.symm.trans first
  exact hk

theorem firstPendingReturn_eq_some_iff_isLeast :
    w.firstPendingReturn = some i ↔ IsLeast { j | w.PendingReturn j } i where
  mp      := isLeast_of_firstPendingReturn
  mpr h := by
    have ⟨j, _, first⟩ := h.1.exists_first
    rw [first, (isLeast_of_firstPendingReturn first).unique h]

theorem firstPendingReturn_eq_none_iff : w.firstPendingReturn = none ↔ ∀ i, ¬w.PendingReturn i := by
  constructor
  case mp  =>
    intro h i hi
    have ⟨_, _, first⟩ := hi.exists_first
    cases h.symm.trans first
  case mpr =>
    exact fun h => Option.eq_none_iff_forall_ne_some.mpr fun i hi =>
      h i (firstPendingReturn_eq_some_iff_isLeast.mp hi).1

end NestedAutomata.Word
