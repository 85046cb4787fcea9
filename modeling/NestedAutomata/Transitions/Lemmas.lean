import NestedAutomata.SortedSet.Lemmas
import NestedAutomata.Transitions.Basic
import NestedAutomata.Transitions.Lookup

namespace NestedAutomata.Transitions

variable {ts us : Transitions} {t u : Transition} {p q x c a r : Key}

@[simp]
theorem mem_internals {t : Internal} : t ∈ ts.internals ↔ .internal t ∈ ts :=
  .rfl

@[simp]
theorem mem_calls {t : Call} : t ∈ ts.calls ↔ .call t ∈ ts :=
  .rfl

@[simp]
theorem mem_returns {t : Return} : t ∈ ts.returns ↔ .ret t ∈ ts :=
  .rfl

theorem ext_mem (h : ∀ t, t ∈ ts ↔ t ∈ us) : ts = us :=
  eq_of_same ⟨
    SortedSet.ext_mem fun t => h (.internal t),
    SortedSet.ext_mem fun t => h (.call t),
    SortedSet.ext_mem fun t => h (.ret t)⟩

@[simp]
theorem not_mem_empty : t ∉ (∅ : Transitions) :=
  Raw.not_mem_empty

theorem eq_empty (h : ∀ t, t ∉ ts) : ts = ∅ :=
  ext_mem fun t => iff_of_false (h t) not_mem_empty

@[simp]
theorem mem_toList : t ∈ ts.toList ↔ t ∈ ts :=
  Raw.mem_toList

@[simp]
theorem mem_add : u ∈ ts.add t ↔ u ∈ ts ∨ u = t ∧ t.Labelled :=
  Raw.mem_add

@[simp]
theorem mem_addAll {l : List Transition} : u ∈ ts.addAll l ↔ u ∈ ts ∨ u ∈ l ∧ u.Labelled := by
  induction l with
  | nil => simp [addAll]
  | cons t l ih =>
    simp only [addAll, List.foldr_cons, mem_add] at ih ⊢
    grind

@[simp]
theorem mem_remove : u ∈ ts.remove t ↔ u ∈ ts ∧ u ≠ t :=
  Raw.mem_remove

@[simp]
theorem mem_removeState : t ∈ ts.removeState q ↔ t ∈ ts ∧ q ∉ t.states :=
  ts.consistent.mem_removeState

@[simp]
theorem mem_removeSymbol : t ∈ ts.removeSymbol a ↔ t ∈ ts ∧ t.label ≠ a :=
  Raw.mem_removeSymbol

section Lookup

theorem internalsFrom_eq : ts.internalsFrom p = ts.internals.toList.filter (·.source = p) :=
  ts.consistent.internalsBySource.get_eq

theorem internalsTo_eq : ts.internalsTo q = ts.internals.toList.filter (·.target = q) :=
  ts.consistent.internalsByTarget.get_eq

theorem callsFrom_eq : ts.callsFrom c = ts.calls.toList.filter (·.callSite = c) :=
  ts.consistent.callsByCallSite.get_eq

theorem callsTo_eq : ts.callsTo q = ts.calls.toList.filter (·.entry = q) :=
  ts.consistent.callsByEntry.get_eq

theorem returnsFrom_eq : ts.returnsFrom x = ts.returns.toList.filter (·.exit = x) :=
  ts.consistent.returnsByExit.get_eq

theorem returnsWithCallSite_eq :
    ts.returnsWithCallSite c = ts.returns.toList.filter (·.callSite = c) :=
  ts.consistent.returnsByCallSite.get_eq

theorem returnsTo_eq : ts.returnsTo r = ts.returns.toList.filter (·.returnSite = r) :=
  ts.consistent.returnsByReturnSite.get_eq

@[simp]
theorem mem_internalsFrom {t : Internal} :
    t ∈ ts.internalsFrom p ↔ .internal t ∈ ts ∧ t.source = p := by
  simp [internalsFrom_eq]

@[simp]
theorem mem_internalsFromOn {t : Internal} :
    t ∈ ts.internalsFromOn p a ↔ .internal t ∈ ts ∧ t.source = p ∧ t.symbol = a := by
  simp [Raw.internalsFromOn, and_assoc]

@[simp]
theorem mem_internalsTo {t : Internal} :
    t ∈ ts.internalsTo q ↔ .internal t ∈ ts ∧ t.target = q := by
  simp [internalsTo_eq]

@[simp]
theorem mem_callsFrom {t : Call} : t ∈ ts.callsFrom c ↔ .call t ∈ ts ∧ t.callSite = c := by
  simp [callsFrom_eq]

@[simp]
theorem mem_callsTo {t : Call} : t ∈ ts.callsTo q ↔ .call t ∈ ts ∧ t.entry = q := by
  simp [callsTo_eq]

@[simp]
theorem mem_returnsFrom {t : Return} : t ∈ ts.returnsFrom x ↔ .ret t ∈ ts ∧ t.exit = x := by
  simp [returnsFrom_eq]

@[simp]
theorem mem_returnsPopping {t : Return} :
    t ∈ ts.returnsPopping x c ↔ .ret t ∈ ts ∧ t.exit = x ∧ t.callSite = c := by
  simp [Raw.returnsPopping, and_assoc]

@[simp]
theorem mem_returnsWithCallSite {t : Return} :
    t ∈ ts.returnsWithCallSite c ↔ .ret t ∈ ts ∧ t.callSite = c := by
  simp [returnsWithCallSite_eq]

@[simp]
theorem mem_returnsTo {t : Return} : t ∈ ts.returnsTo r ↔ .ret t ∈ ts ∧ t.returnSite = r := by
  simp [returnsTo_eq]

end Lookup

end NestedAutomata.Transitions
