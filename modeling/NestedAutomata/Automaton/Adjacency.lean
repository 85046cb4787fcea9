import NestedAutomata.Automaton.Basic

namespace NestedAutomata.Automaton

variable {ι : Type} (A : Automaton ι)

def predecessors (target : Key) : SortedSet Key :=
  .ofList ((A.transitions.internalsTo target).map (·.source))

def predecessorsOn (symbol target : Key) : SortedSet Key :=
  .ofList ((A.transitions.internalsToOn symbol target).map (·.source))

def successors (source : Key) : SortedSet Key :=
  .ofList ((A.transitions.internalsFrom source).map (·.target))

def successorsOn (source symbol : Key) : SortedSet Key :=
  .ofList ((A.transitions.internalsFromOn source symbol).map (·.target))

def callPredecessors (entry : Key) : SortedSet Key :=
  .ofList ((A.transitions.callsTo entry).map (·.callSite))

def callPredecessorsOn (symbol entry : Key) : SortedSet Key :=
  .ofList ((A.transitions.callsToOn symbol entry).map (·.callSite))

def callSuccessors (callSite : Key) : SortedSet Key :=
  .ofList ((A.transitions.callsFrom callSite).map (·.entry))

def callSuccessorsOn (callSite symbol : Key) : SortedSet Key :=
  .ofList ((A.transitions.callsFromOn callSite symbol).map (·.entry))

def returnSites (exit callSite : Key) : SortedSet Key :=
  .ofList ((A.transitions.returnsPopping exit callSite).map (·.returnSite))

def returnSitesOn (exit callSite symbol : Key) : SortedSet Key :=
  .ofList ((A.transitions.returnsPoppingOn exit callSite symbol).map (·.returnSite))

def callSites (exit returnSite : Key) : SortedSet Key :=
  .ofList (((A.transitions.returnsFrom exit).filter (·.returnSite = returnSite)).map (·.callSite))

def callSitesOn (exit symbol returnSite : Key) : SortedSet Key :=
  .ofList
    (((A.transitions.returnsFromOn exit symbol).filter (·.returnSite = returnSite)).map (·.callSite))

def exits (callSite returnSite : Key) : SortedSet Key :=
  .ofList (((A.transitions.returnsTo returnSite).filter (·.callSite = callSite)).map (·.exit))

def exitsOn (callSite symbol returnSite : Key) : SortedSet Key :=
  .ofList
    (((A.transitions.returnsToOn symbol returnSite).filter (·.callSite = callSite)).map (·.exit))

-- The label of the first transition from one state to the other. Internal transitions come first,
-- then calls, then the returns that have the state as their exit.
def symbolBetween (source target : Key) : Option Key :=
  (((A.transitions.internalsFrom source).filter (·.target = target)).map (·.symbol) ++
   ((A.transitions.callsFrom source).filter (·.entry = target)).map (·.symbol) ++
   ((A.transitions.returnsFrom source).filter (·.returnSite = target)).map (·.symbol)).head?

end NestedAutomata.Automaton
