import Mathlib.Data.List.Nodup
import NestedAutomata.Transitions.Edit
import NestedAutomata.Transitions.Lookup

namespace NestedAutomata.Transitions

inductive Lookup
  | internalsFrom (source : Key)
  | internalsFromOn (source symbol : Key)
  | internalsTo (target : Key)
  | internalsToOn (symbol target : Key)
  | callsFrom (callSite : Key)
  | callsFromOn (callSite symbol : Key)
  | callsTo (entry : Key)
  | callsToOn (symbol entry : Key)
  | returnsFrom (exit : Key)
  | returnsFromOn (exit symbol : Key)
  | returnsPopping (exit callSite : Key)
  | returnsPoppingOn (exit callSite symbol : Key)
  | returnsWithCallSite (callSite : Key)
  | returnsTo (returnSite : Key)
  | returnsToOn (symbol returnSite : Key)

inductive Check
  | hasInternal (source symbol : Key)
  | hasCall (callSite symbol : Key)
  | hasReturn (exit callSite symbol : Key)
  | isCallSiteOfReturn (callSite : Key)
  | connects (source symbol target : Key)

namespace Lookup

def answer (ts : Raw) : Lookup → List Transition
  | internalsFrom p        => (ts.internalsFrom p).map .internal
  | internalsFromOn p a    => (ts.internalsFromOn p a).map .internal
  | internalsTo q          => (ts.internalsTo q).map .internal
  | internalsToOn a q      => (ts.internalsToOn a q).map .internal
  | callsFrom c            => (ts.callsFrom c).map .call
  | callsFromOn c a        => (ts.callsFromOn c a).map .call
  | callsTo e              => (ts.callsTo e).map .call
  | callsToOn a e          => (ts.callsToOn a e).map .call
  | returnsFrom x          => (ts.returnsFrom x).map .ret
  | returnsFromOn x a      => (ts.returnsFromOn x a).map .ret
  | returnsPopping x c     => (ts.returnsPopping x c).map .ret
  | returnsPoppingOn x c a => (ts.returnsPoppingOn x c a).map .ret
  | returnsWithCallSite c  => (ts.returnsWithCallSite c).map .ret
  | returnsTo r            => (ts.returnsTo r).map .ret
  | returnsToOn a r        => (ts.returnsToOn a r).map .ret

def asks : Lookup → Transition → Bool
  | internalsFrom p, .internal t     => t.source = p
  | internalsFromOn p a, .internal t => t.source = p ∧ t.symbol = a
  | internalsTo q, .internal t       => t.target = q
  | internalsToOn a q, .internal t   => t.target = q ∧ t.symbol = a
  | callsFrom c, .call t             => t.callSite = c
  | callsFromOn c a, .call t         => t.callSite = c ∧ t.symbol = a
  | callsTo e, .call t               => t.entry = e
  | callsToOn a e, .call t           => t.entry = e ∧ t.symbol = a
  | returnsFrom x, .ret t            => t.exit = x
  | returnsFromOn x a, .ret t        => t.exit = x ∧ t.symbol = a
  | returnsPopping x c, .ret t       => t.exit = x ∧ t.callSite = c
  | returnsPoppingOn x c a, .ret t   => t.exit = x ∧ t.callSite = c ∧ t.symbol = a
  | returnsWithCallSite c, .ret t    => t.callSite = c
  | returnsTo r, .ret t              => t.returnSite = r
  | returnsToOn a r, .ret t          => t.returnSite = r ∧ t.symbol = a
  | _, _                             => false

end Lookup

namespace Check

def answer (ts : Raw) : Check → Bool
  | hasInternal p a      => ts.hasInternal p a
  | hasCall c a          => ts.hasCall c a
  | hasReturn x c a      => ts.hasReturn x c a
  | isCallSiteOfReturn c => ts.isCallSiteOfReturn c
  | connects p a q       => ts.connects p a q

def asks : Check → Transition → Bool
  | hasInternal p a, .internal t => t.source = p ∧ t.symbol = a
  | hasCall c a, .call t         => t.callSite = c ∧ t.symbol = a
  | hasReturn x c a, .ret t      => t.exit = x ∧ t.callSite = c ∧ t.symbol = a
  | isCallSiteOfReturn c, .ret t => t.callSite = c
  | connects p a q, .internal t  => t = ⟨p, a, q⟩
  | connects p a q, .call t      => t = ⟨p, a, q⟩
  | connects p a q, .ret t       => t.symbol = a ∧ t.returnSite = q ∧ (t.exit = p ∨ t.callSite = p)
  | _, _                         => false

end Check

namespace Raw

variable {ts us : Raw}

theorem nodup_toList : ts.toList.Nodup := by
  have internals := (SortedSet.nodup_toList ts.internals).map fun _ _ => Transition.internal.inj
  have calls := (SortedSet.nodup_toList ts.calls).map fun _ _ => Transition.call.inj
  have returns := (SortedSet.nodup_toList ts.returns).map fun _ _ => Transition.ret.inj
  refine (internals.append calls ?_).append returns ?_ <;>
    simp only [List.disjoint_left, List.mem_append, List.mem_map] <;> grind

theorem Same.toList_eq (h : ts.Same us) : ts.toList = us.toList := by
  obtain ⟨internals, calls, returns⟩ := h
  rw [toList, toList, internals, calls, returns]

theorem filter_toList (p : Transition → Bool) :
    ts.toList.filter p =
      (ts.internals.toList.filter fun t => p (.internal t)).map .internal ++
      (ts.calls.toList.filter fun t => p (.call t)).map .call ++
      (ts.returns.toList.filter fun t => p (.ret t)).map .ret := by
  simp only [toList, List.filter_append, List.filter_map, Function.comp_def]

theorem Consistent.answer_eq (h : ts.Consistent) (l : Lookup) :
    l.answer ts = ts.toList.filter l.asks := by
  rw [filter_toList]
  cases l <;>
    simp [Lookup.answer, Lookup.asks, internalsFrom, internalsFromOn, internalsTo, internalsToOn,
      callsFrom, callsFromOn, callsTo, callsToOn, returnsFrom, returnsFromOn, returnsPopping,
      returnsPoppingOn, returnsWithCallSite, returnsTo, returnsToOn, h.internalsBySource.get_eq,
      h.internalsByTarget.get_eq, h.callsByCallSite.get_eq, h.callsByEntry.get_eq,
      h.returnsByExit.get_eq, h.returnsByCallSite.get_eq, h.returnsByReturnSite.get_eq,
      List.filter_filter, List.filter_false, Bool.and_comm, Bool.and_assoc]

theorem exists_mem {P : Transition → Prop} :
    (∃ t ∈ ts, P t) ↔
      (∃ t ∈ ts.internals, P (.internal t)) ∨ (∃ t ∈ ts.calls, P (.call t)) ∨
      ∃ t ∈ ts.returns, P (.ret t) := by
  constructor
  case mp =>
    rintro ⟨t | t | t, ht, h⟩
    exacts [.inl ⟨t, ht, h⟩, .inr (.inl ⟨t, ht, h⟩), .inr (.inr ⟨t, ht, h⟩)]
  case mpr =>
    rintro (⟨t, ht, h⟩ | ⟨t, ht, h⟩ | ⟨t, ht, h⟩)
    exacts [⟨.internal t, ht, h⟩, ⟨.call t, ht, h⟩, ⟨.ret t, ht, h⟩]

theorem Consistent.check_iff (h : ts.Consistent) (c : Check) :
    c.answer ts ↔ ∃ t ∈ ts, c.asks t := by
  rw [exists_mem]
  cases c with
  | hasInternal p a =>
    simp [Check.answer, Check.asks, hasInternal, internalsFromOn, internalsFrom,
      h.internalsBySource.get_eq, and_comm]
  | hasCall c a =>
    simp [Check.answer, Check.asks, hasCall, callsFromOn, callsFrom, h.callsByCallSite.get_eq,
      and_comm]
  | hasReturn x c a =>
    simp [Check.answer, Check.asks, hasReturn, returnsPoppingOn, returnsPopping, returnsFrom,
      h.returnsByExit.get_eq, and_comm]
  | isCallSiteOfReturn c =>
    simp [Check.answer, Check.asks, isCallSiteOfReturn, h.returnsByCallSite.contains_iff]
  | connects p a q =>
    simp [Check.answer, Check.asks, connects, returnsToOn, returnsTo, h.returnsByReturnSite.get_eq,
      mem_internals, mem_calls, and_assoc]

def edited (es : List Edit) : Raw :=
  es.foldl edit ∅

theorem consistent_edited {es : List Edit} : (edited es).Consistent :=
  List.foldlRecOn es _ .empty fun _ h e _ => h.edit e

theorem lookup_edited (es fs : List Edit) :
    (∀ l : Lookup,
      (l.answer (edited es)).Nodup ∧
      ∀ t, t ∈ l.answer (edited es) ↔ t ∈ edited es ∧ l.asks t) ∧
    (∀ c : Check, c.answer (edited es) ↔ ∃ t ∈ edited es, c.asks t) ∧
    ((edited es).Same (edited fs) →
      (∀ l : Lookup, l.answer (edited es) = l.answer (edited fs)) ∧
      ∀ c : Check, c.answer (edited es) = c.answer (edited fs)) := by
  refine ⟨?_, consistent_edited.check_iff, ?_⟩
  case refine_1 =>
    intro l
    rw [consistent_edited.answer_eq]
    exact ⟨nodup_toList.filter _, fun t => by rw [List.mem_filter, mem_toList]⟩
  case refine_2 =>
    intro same
    constructor
    · intro l
      rw [consistent_edited.answer_eq, consistent_edited.answer_eq, same.toList_eq]
    · intro c
      rw [Bool.eq_iff_iff, consistent_edited.check_iff, consistent_edited.check_iff]
      simp only [← mem_toList, same.toList_eq]

theorem lookup_edited_removeState :
    let es := [.add (.internal ⟨⟨2⟩, ⟨5⟩, ⟨2⟩⟩), .add (.ret ⟨⟨2⟩, ⟨2⟩, ⟨5⟩, ⟨3⟩⟩),
      .add (.ret ⟨⟨3⟩, ⟨4⟩, ⟨5⟩, ⟨3⟩⟩), .removeState ⟨2⟩]
    let fs := [.add (.ret ⟨⟨3⟩, ⟨4⟩, ⟨5⟩, ⟨3⟩⟩)]
    (edited es).Same (edited fs) ∧
      (∀ l : Lookup, l.answer (edited es) = l.answer (edited fs)) ∧
      ∀ c : Check, c.answer (edited es) = c.answer (edited fs) := by
  intro es fs
  have same : (edited es).Same (edited fs) := by decide
  exact ⟨same, (lookup_edited es fs).2.2 same⟩

end Raw

end NestedAutomata.Transitions
