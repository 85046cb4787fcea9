import NestedAutomata.Transitions.Raw.Lemmas

namespace NestedAutomata

-- The transition relations of an automaton. They know nothing of states and alphabets: any key may stand
-- in any column, except that only internal transitions may be labelled with `ε`. What the indices say
-- can be relied on.
structure Transitions extends Transitions.Raw where
  consistent : toRaw.Consistent

namespace Transitions

instance : EmptyCollection Transitions where
  emptyCollection := ⟨∅, .empty⟩

instance : Inhabited Transitions where
  default := ∅

instance : Membership Transition Transitions where
  mem ts t := t ∈ ts.toRaw

instance (ts : Transitions) (t : Transition) : Decidable (t ∈ ts) :=
  inferInstanceAs (Decidable (t ∈ ts.toRaw))

theorem eq_of_same {ts us : Transitions} (same : ts.Same us.toRaw) : ts = us := by
  have := ts.consistent.eq_of_same us.consistent same
  cases ts; cases us
  simpa using this

instance : DecidableEq Transitions := fun ts us =>
  decidable_of_iff (ts.Same us.toRaw) ⟨eq_of_same, fun h => h ▸ ⟨rfl, rfl, rfl⟩⟩

-- Calls and returns that are labelled with `ε` are turned away.
def add (ts : Transitions) (t : Transition) : Transitions where
  toRaw      := ts.toRaw.add t
  consistent := ts.consistent.add

def addAll (ts : Transitions) (l : List Transition) : Transitions :=
  l.foldr (fun t ts => ts.add t) ts

def remove (ts : Transitions) (t : Transition) : Transitions where
  toRaw      := ts.toRaw.remove t
  consistent := ts.consistent.remove

def removeState (ts : Transitions) (q : Key) : Transitions where
  toRaw      := ts.toRaw.removeState q
  consistent := ts.consistent.removeState

def removeSymbol (ts : Transitions) (a : Key) : Transitions where
  toRaw      := ts.toRaw.removeSymbol a
  consistent := ts.consistent.removeSymbol

end Transitions

end NestedAutomata
