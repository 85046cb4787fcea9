import NestedAutomata.Transitions.Raw.Basic

namespace NestedAutomata.Transitions.Raw

variable {ts us : Raw} {t u : Transition} {q a : Key} {l : List Transition}

theorem mem_internals {t : Internal} : t ∈ ts.internals ↔ .internal t ∈ ts :=
  .rfl

theorem mem_calls {t : Call} : t ∈ ts.calls ↔ .call t ∈ ts :=
  .rfl

theorem mem_returns {t : Return} : t ∈ ts.returns ↔ .ret t ∈ ts :=
  .rfl

theorem not_mem_empty : t ∉ (∅ : Raw) := by
  cases t <;> exact SortedSet.not_mem_empty

theorem mem_toList : t ∈ ts.toList ↔ t ∈ ts := by
  cases t <;> simp [toList, mem_internals, mem_calls, mem_returns]

theorem mem_add : u ∈ ts.add t ↔ u ∈ ts ∨ u = t ∧ t.Labelled := by
  simp only [add]
  split
  case isTrue h  =>
    cases t <;> cases u <;> simp [← mem_internals, ← mem_calls, ← mem_returns, h, or_comm]
  case isFalse h => grind

theorem mem_remove : u ∈ ts.remove t ↔ u ∈ ts ∧ u ≠ t := by
  simp only [remove]
  split
  case isTrue h  => cases t <;> cases u <;> simp [← mem_internals, ← mem_calls, ← mem_returns]
  case isFalse h => exact (and_iff_left_of_imp fun hu (e : u = t) => h (e ▸ hu)).symm

theorem mem_removeAll : t ∈ ts.removeAll l ↔ t ∈ ts ∧ t ∉ l := by
  induction l generalizing ts with
  | nil => simp [removeAll]
  | cons u l ih =>
    rw [removeAll, List.foldl_cons, ← removeAll, ih, mem_remove, List.mem_cons, not_or, and_assoc]

theorem mem_removeSymbol : t ∈ ts.removeSymbol a ↔ t ∈ ts ∧ t.label ≠ a := by
  simp only [removeSymbol, mem_removeAll, List.mem_filter, mem_toList, decide_eq_true_eq]
  grind

-- Every index repeats the relation that it belongs to.
structure Consistent (ts : Raw) : Prop where
  internalsBySource   : ts.internalsBySource.Mirrors ts.internals
  internalsByTarget   : ts.internalsByTarget.Mirrors ts.internals
  callsByCallSite     : ts.callsByCallSite.Mirrors ts.calls
  callsByEntry        : ts.callsByEntry.Mirrors ts.calls
  returnsByExit       : ts.returnsByExit.Mirrors ts.returns
  returnsByCallSite   : ts.returnsByCallSite.Mirrors ts.returns
  returnsByReturnSite : ts.returnsByReturnSite.Mirrors ts.returns

namespace Consistent

theorem empty : (∅ : Raw).Consistent :=
  ⟨.empty, .empty, .empty, .empty, .empty, .empty, .empty⟩

theorem add (h : ts.Consistent) : (ts.add t).Consistent := by
  simp only [Raw.add]
  split
  case isFalse => exact h
  case isTrue =>
    cases t with
    | internal => exact { h with
        internalsBySource := h.internalsBySource.add
        internalsByTarget := h.internalsByTarget.add }
    | call => exact { h with
        callsByCallSite := h.callsByCallSite.add
        callsByEntry    := h.callsByEntry.add }
    | ret => exact { h with
        returnsByExit       := h.returnsByExit.add
        returnsByCallSite   := h.returnsByCallSite.add
        returnsByReturnSite := h.returnsByReturnSite.add }

theorem remove (h : ts.Consistent) : (ts.remove t).Consistent := by
  simp only [Raw.remove]
  split
  case isFalse => exact h
  case isTrue =>
    cases t with
    | internal => exact { h with
        internalsBySource := h.internalsBySource.remove
        internalsByTarget := h.internalsByTarget.remove }
    | call => exact { h with
        callsByCallSite := h.callsByCallSite.remove
        callsByEntry    := h.callsByEntry.remove }
    | ret => exact { h with
        returnsByExit       := h.returnsByExit.remove
        returnsByCallSite   := h.returnsByCallSite.remove
        returnsByReturnSite := h.returnsByReturnSite.remove }

theorem removeAll (h : ts.Consistent) : (ts.removeAll l).Consistent :=
  List.foldlRecOn l _ h fun _ h _ _ => h.remove

theorem removeState (h : ts.Consistent) : (ts.removeState q).Consistent :=
  h.removeAll

theorem removeSymbol (h : ts.Consistent) : (ts.removeSymbol a).Consistent :=
  h.removeAll

theorem mem_mentioning (h : ts.Consistent) : t ∈ ts.mentioning q ↔ t ∈ ts ∧ q ∈ t.states := by
  simp only [mentioning, h.internalsBySource.get_eq, h.internalsByTarget.get_eq,
    h.callsByCallSite.get_eq, h.callsByEntry.get_eq, h.returnsByExit.get_eq,
    h.returnsByCallSite.get_eq, h.returnsByReturnSite.get_eq]
  cases t <;>
    simp [mem_internals, mem_calls, mem_returns, Transition.states, ← and_or_left, eq_comm]

theorem mem_removeState (h : ts.Consistent) : t ∈ ts.removeState q ↔ t ∈ ts ∧ q ∉ t.states := by
  simp only [Raw.removeState, mem_removeAll, h.mem_mentioning, not_and]
  exact and_congr_right fun ht => imp_iff_right ht

theorem eq_of_same (h : ts.Consistent) (h' : us.Consistent) (same : ts.Same us) : ts = us := by
  obtain ⟨internals, _, _, calls, _, _, returns, _, _, _⟩ := ts
  obtain ⟨internals', _, _, calls', _, _, returns', _, _, _⟩ := us
  obtain ⟨rfl, rfl, rfl⟩ : internals = internals' ∧ calls = calls' ∧ returns = returns' := same
  obtain rfl := h.internalsBySource.unique h'.internalsBySource
  obtain rfl := h.internalsByTarget.unique h'.internalsByTarget
  obtain rfl := h.callsByCallSite.unique h'.callsByCallSite
  obtain rfl := h.callsByEntry.unique h'.callsByEntry
  obtain rfl := h.returnsByExit.unique h'.returnsByExit
  obtain rfl := h.returnsByCallSite.unique h'.returnsByCallSite
  obtain rfl := h.returnsByReturnSite.unique h'.returnsByReturnSite
  rfl

end Consistent

end NestedAutomata.Transitions.Raw
