import NestedAutomata.Transitions.Raw.Basic

namespace NestedAutomata.Transitions.Raw

variable (ts : Raw)

def internalsFrom (source : Key) : List Internal :=
  ts.internalsBySource.get source

def internalsFromOn (source symbol : Key) : List Internal :=
  (ts.internalsFrom source).filter (·.symbol = symbol)

def internalsTo (target : Key) : List Internal :=
  ts.internalsByTarget.get target

def internalsToOn (symbol target : Key) : List Internal :=
  (ts.internalsTo target).filter (·.symbol = symbol)

def callsFrom (callSite : Key) : List Call :=
  ts.callsByCallSite.get callSite

def callsFromOn (callSite symbol : Key) : List Call :=
  (ts.callsFrom callSite).filter (·.symbol = symbol)

def callsTo (entry : Key) : List Call :=
  ts.callsByEntry.get entry

def callsToOn (symbol entry : Key) : List Call :=
  (ts.callsTo entry).filter (·.symbol = symbol)

def returnsFrom (exit : Key) : List Return :=
  ts.returnsByExit.get exit

def returnsFromOn (exit symbol : Key) : List Return :=
  (ts.returnsFrom exit).filter (·.symbol = symbol)

def returnsPopping (exit callSite : Key) : List Return :=
  (ts.returnsFrom exit).filter (·.callSite = callSite)

def returnsPoppingOn (exit callSite symbol : Key) : List Return :=
  (ts.returnsPopping exit callSite).filter (·.symbol = symbol)

def returnsWithCallSite (callSite : Key) : List Return :=
  ts.returnsByCallSite.get callSite

def returnsTo (returnSite : Key) : List Return :=
  ts.returnsByReturnSite.get returnSite

def returnsToOn (symbol returnSite : Key) : List Return :=
  (ts.returnsTo returnSite).filter (·.symbol = symbol)

def hasInternal (source symbol : Key) : Bool :=
  !(ts.internalsFromOn source symbol).isEmpty

def hasCall (callSite symbol : Key) : Bool :=
  !(ts.callsFromOn callSite symbol).isEmpty

def hasReturn (exit callSite symbol : Key) : Bool :=
  !(ts.returnsPoppingOn exit callSite symbol).isEmpty

def isCallSiteOfReturn (callSite : Key) : Bool :=
  ts.returnsByCallSite.contains callSite

-- Whether some transition with this label leads from one state to the other. A return leads to its
-- return site both from its exit and from its call site.
def connects (source symbol target : Key) : Bool :=
  .internal ⟨source, symbol, target⟩ ∈ ts ∨
  .call ⟨source, symbol, target⟩ ∈ ts ∨
  (ts.returnsToOn symbol target).any fun t => t.exit = source ∨ t.callSite = source

end NestedAutomata.Transitions.Raw
