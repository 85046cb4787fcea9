import NestedAutomata.Automaton.Reachability
import NestedAutomata.Membership.Basic
import NestedAutomata.Run

namespace NestedAutomata.Automaton

variable {ι : Type} (A : Automaton ι)

-- Where a run can get to without reading anything. Runs in the stuck state are given up.
def rest (cs : SortedSet Configuration) : SortedSet Configuration :=
  .ofList <| cs.toList.flatMap fun c =>
    ((A.εClosure c.state).toList.filter (¬A.IsStuck ·)).map ({ c with state := · })

def successorsOf (c : Configuration) : Position → List Configuration
  | .internal a => (A.internalTargets c.state a).map ({ c with state := · })
  | .call a     => (A.callEntries c.state a).map (⟨·, c.state :: c.calls⟩)
  | .ret a      =>
    match c.calls with
    | []            => []
    | site :: calls => (A.returnTargets c.state site a).map (⟨·, calls⟩)

def step (cs : SortedSet Configuration) (p : Position) : SortedSet Configuration :=
  .ofList <| (A.rest cs).toList.flatMap (A.successorsOf · p)

def startConfigurations : SortedSet Configuration :=
  .ofList <| A.states.initial.toList.map (⟨·, []⟩)

-- The answer if the runs end in these configurations. A word is accepted if some run on it ends in a
-- final state and no call is open then. If runs end in final states with open calls only, then the word
-- is at fault.
def verdict (cs : SortedSet Configuration) : Except WordError Bool :=
  let final := cs.toList.filter (·.state ∈ A.states.final)
  if final.any (·.calls.isEmpty) then
    .ok true
  else
    match final with
    | []     => .ok false
    | c :: _ => .error (.pendingCalls c.calls.length)

-- Gives the word up as soon as no run is left.
def searchFrom (cs : SortedSet Configuration) : Word → Except WordError Bool
  | []     => A.verdict (A.rest cs)
  | p :: w =>
    let next := A.step cs p
    if next.isEmpty then .ok false else searchFrom next w

def search (w : Word) : Except WordError Bool :=
  A.searchFrom A.startConfigurations w

end NestedAutomata.Automaton
