import NestedAutomata.Transition
import NestedAutomata.Transitions.Index

namespace NestedAutomata

-- Transition relations as they are stored: one relation for each kind of transition, with an index for
-- each of its state columns. The relations say which transitions there are. The indices repeat that,
-- and nothing here keeps them from saying something else.
structure Transitions.Raw where
  internals           : SortedSet Internal
  internalsBySource   : Index Internal.source
  internalsByTarget   : Index Internal.target
  calls               : SortedSet Call
  callsByCallSite     : Index Call.callSite
  callsByEntry        : Index Call.entry
  returns             : SortedSet Return
  returnsByExit       : Index Return.exit
  returnsByCallSite   : Index Return.callSite
  returnsByReturnSite : Index Return.returnSite

namespace Transitions.Raw

instance : EmptyCollection Raw where
  emptyCollection := ⟨∅, ∅, ∅, ∅, ∅, ∅, ∅, ∅, ∅, ∅⟩

def toList (ts : Raw) : List Transition :=
  ts.internals.toList.map .internal ++ ts.calls.toList.map .call ++ ts.returns.toList.map .ret

def size (ts : Raw) : Nat :=
  ts.internals.size + ts.calls.size + ts.returns.size

instance : Membership Transition Raw where
  mem ts
    | .internal t => t ∈ ts.internals
    | .call t     => t ∈ ts.calls
    | .ret t      => t ∈ ts.returns

instance (ts : Raw) : (t : Transition) → Decidable (t ∈ ts)
  | .internal t => inferInstanceAs (Decidable (t ∈ ts.internals))
  | .call t     => inferInstanceAs (Decidable (t ∈ ts.calls))
  | .ret t      => inferInstanceAs (Decidable (t ∈ ts.returns))

def Same (ts us : Raw) : Prop :=
  ts.internals = us.internals ∧ ts.calls = us.calls ∧ ts.returns = us.returns

instance (ts us : Raw) : Decidable (ts.Same us) :=
  inferInstanceAs (Decidable (_ ∧ _))

def add (ts : Raw) (t : Transition) : Raw :=
  if t.Labelled ∧ t ∉ ts then
    match t with
    | .internal t =>
      { ts with
        internals         := insert t ts.internals
        internalsBySource := ts.internalsBySource.add t
        internalsByTarget := ts.internalsByTarget.add t }
    | .call t =>
      { ts with
        calls           := insert t ts.calls
        callsByCallSite := ts.callsByCallSite.add t
        callsByEntry    := ts.callsByEntry.add t }
    | .ret t =>
      { ts with
        returns             := insert t ts.returns
        returnsByExit       := ts.returnsByExit.add t
        returnsByCallSite   := ts.returnsByCallSite.add t
        returnsByReturnSite := ts.returnsByReturnSite.add t }
  else
    ts

def remove (ts : Raw) (t : Transition) : Raw :=
  if t ∈ ts then
    match t with
    | .internal t =>
      { ts with
        internals         := ts.internals.erase t
        internalsBySource := ts.internalsBySource.remove t
        internalsByTarget := ts.internalsByTarget.remove t }
    | .call t =>
      { ts with
        calls           := ts.calls.erase t
        callsByCallSite := ts.callsByCallSite.remove t
        callsByEntry    := ts.callsByEntry.remove t }
    | .ret t =>
      { ts with
        returns             := ts.returns.erase t
        returnsByExit       := ts.returnsByExit.remove t
        returnsByCallSite   := ts.returnsByCallSite.remove t
        returnsByReturnSite := ts.returnsByReturnSite.remove t }
  else
    ts

def removeAll (ts : Raw) (l : List Transition) : Raw :=
  l.foldl remove ts

-- The transitions in which the state stands in some column, as the indices have them. One in which it
-- stands in several is listed as many times.
def mentioning (ts : Raw) (q : Key) : List Transition :=
  (ts.internalsBySource.get q ++ ts.internalsByTarget.get q).map .internal ++
  (ts.callsByCallSite.get q ++ ts.callsByEntry.get q).map .call ++
  (ts.returnsByExit.get q ++ ts.returnsByCallSite.get q ++ ts.returnsByReturnSite.get q).map .ret

def removeState (ts : Raw) (q : Key) : Raw :=
  ts.removeAll (ts.mentioning q)

def removeSymbol (ts : Raw) (a : Key) : Raw :=
  ts.removeAll (ts.toList.filter (·.label = a))

end Transitions.Raw

end NestedAutomata
