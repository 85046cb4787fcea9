import NestedAutomata.Automaton.Reachability
import NestedAutomata.Automaton.Update

namespace NestedAutomata.Automaton

inductive Edit (ι : Type)
  | designate (q : Key)
  | addState (q : Key)
  | addStates (l : List Key)
  | removeState (q : Key)
  | clearStates
  | addInitial (q : Key)
  | addInitials (l : List Key)
  | removeInitial (q : Key)
  | clearInitial
  | addFinal (q : Key)
  | addFinals (l : List Key)
  | removeFinal (q : Key)
  | clearFinal
  | setInfo (q : Key) (x : ι)
  | addSymbol (a : Key)
  | addSymbols (l : List Key)
  | removeSymbol (a : Key)
  | clearSymbols
  | add (t : Transition)
  | remove (t : Transition)
  | removeReturns (exit symbol returnSite : Key)
  | clearTransitions
  | clear
  | duplicate (q double : Key)
  | duplicateOutgoing (q double : Key)
  | realize
  | removeSinks
  | pruneForward (sources : SortedSet Key)
  | pruneBackward (targets : SortedSet Key)
  | pruneInitial
  | pruneFinal
  | trim

-- An edit may have nothing to tell, tell whether it took effect, or count what it removed.
inductive Reply
  | done
  | effective (b : Bool)
  | removed (n : Nat)
deriving DecidableEq, Repr

namespace Edit

variable {ι : Type}

def apply (A : Automaton ι) : Edit ι → Except Fault (Automaton ι)
  | designate q           => A.designate q
  | addState q            => .ok (A.addState q)
  | addStates l           => .ok (A.addStates l)
  | removeState q         => .ok (A.removeState q)
  | clearStates           => .ok A.clearStates
  | addInitial q          => .ok (A.addInitial q)
  | addInitials l         => .ok (A.addInitials l)
  | removeInitial q       => .ok (A.removeInitial q)
  | clearInitial          => .ok A.clearInitial
  | addFinal q            => .ok (A.addFinal q)
  | addFinals l           => .ok (A.addFinals l)
  | removeFinal q         => .ok (A.removeFinal q)
  | clearFinal            => .ok A.clearFinal
  | setInfo q x           => .ok (A.setInfo q x)
  | addSymbol a           => .ok (A.addSymbol a)
  | addSymbols l          => .ok (A.addSymbols l)
  | removeSymbol a        => .ok (A.removeSymbol a)
  | clearSymbols          => .ok A.clearSymbols
  | add t                 => .ok (A.add t)
  | remove t              => .ok (A.remove t)
  | removeReturns x a r   => .ok (A.removeReturns x a r)
  | clearTransitions      => .ok A.clearTransitions
  | clear                 => .ok A.clear
  | duplicate q d         => .ok (A.duplicate q d)
  | duplicateOutgoing q d => .ok (A.duplicateOutgoing q d)
  | realize               => A.realize
  | removeSinks           => .ok A.removeSinks
  | pruneForward s        => .ok (A.pruneForward s)
  | pruneBackward s       => .ok (A.pruneBackward s)
  | pruneInitial          => .ok A.pruneInitial
  | pruneFinal            => .ok A.pruneFinal
  | trim                  => .ok A.trim

def reply (A : Automaton ι) : Edit ι → Reply
  | addState q          => .effective (q ∉ A.states)
  | removeState q       => .effective (q ∈ A.states ∧ ¬A.IsStuck q)
  | addInitial q        => .effective (q ∉ A.states.initial)
  | removeInitial q     => .effective (q ∈ A.states.initial)
  | addFinal q          => .effective (q ∉ A.states.final)
  | removeFinal q       => .effective (q ∈ A.states.final)
  | setInfo q _         => .effective (q ∈ A.states)
  | addSymbol a         => .effective (¬a.Reserved ∧ a ∉ A.alphabet)
  | removeSymbol a      => .effective (a ∈ A.alphabet)
  | add t               => .effective (A.Admits t)
  | remove t            => .effective (t ∈ A.transitions)
  | removeReturns x a r => .effective (A.matchingReturns x a r ≠ [])
  | removeSinks         => .removed A.sinks.length
  | _                   => .done

end Edit

variable {ι : Type}

def edited (A : Automaton ι) (es : List (Edit ι)) : Except Fault (Automaton ι) :=
  es.foldlM Edit.apply A

end NestedAutomata.Automaton
