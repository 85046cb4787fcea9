import NestedAutomata.Transitions.Basic

namespace NestedAutomata.Transitions

inductive Edit
  | add (t : Transition)
  | remove (t : Transition)
  | removeState (q : Key)
  | removeSymbol (a : Key)
  | clear

def Raw.edit (ts : Raw) : Edit → Raw
  | .add t          => ts.add t
  | .remove t       => ts.remove t
  | .removeState q  => ts.removeState q
  | .removeSymbol a => ts.removeSymbol a
  | .clear          => ∅

theorem Raw.Consistent.edit {ts : Raw} (h : ts.Consistent) : (e : Edit) → (ts.edit e).Consistent
  | .add _          => h.add
  | .remove _       => h.remove
  | .removeState _  => h.removeState
  | .removeSymbol _ => h.removeSymbol
  | .clear          => .empty

namespace Edit

def apply (ts : Transitions) (e : Edit) : Transitions where
  toRaw      := ts.toRaw.edit e
  consistent := ts.consistent.edit e

def effective (ts : Transitions) : Edit → Bool
  | add t          => t.Labelled ∧ t ∉ ts
  | remove t       => t ∈ ts
  | removeState q  => ts.toList.any (q ∈ ·.states)
  | removeSymbol a => ts.toList.any (·.label = a)
  | clear          => true

end Edit

end NestedAutomata.Transitions
