import NestedAutomata.Automaton.Update

namespace NestedAutomata

section Search

variable {α : Type} [DecidableEq α]

-- Visits the pending nodes, and those found on the way, one per unit of fuel. All of them are among
-- the nodes seen, and each visit adds the neighbours that were not seen before.
def explore (next : α → List α) : (fuel : Nat) → (seen pending : List α) → List α
  | 0, seen, _                     => seen
  | _ + 1, seen, []                => seen
  | fuel + 1, seen, node :: pending =>
    let new := (next node).eraseDups.filter (· ∉ seen)
    explore next fuel (seen ++ new) (pending ++ new)

-- The nodes that can be reached from `start`. As many visits as `nodes` has members suffice
-- if all that can be reached is in there.
def reachable (next : α → List α) (nodes start : List α) : List α :=
  explore next nodes.length start start

end Search

namespace Automaton

variable {ι : Type}

def εTargets (A : Automaton ι) (q : Key) : List Key :=
  (A.transitions.internalsFromOn q .ε).map (·.target)

def εClosure (A : Automaton ι) (q : Key) : SortedSet Key :=
  .ofList (reachable A.εTargets (q :: A.transitions.internals.toList.map (·.target)) [q])

-- States are joined as in the graph of the transitions, whatever the nesting. In that graph a return
-- leads to its return site both from its exit and from its call site.
inductive Joined (A : Automaton ι) : Key → Key → Prop
  | internal {p a q}   : .internal ⟨p, a, q⟩ ∈ A.transitions → Joined A p q
  | call {c a e}       : .call ⟨c, a, e⟩ ∈ A.transitions → Joined A c e
  | exit {x c a r}     : .ret ⟨x, c, a, r⟩ ∈ A.transitions → Joined A x r
  | callSite {x c a r} : .ret ⟨x, c, a, r⟩ ∈ A.transitions → Joined A c r

def forwardNeighbours (A : Automaton ι) (q : Key) : List Key :=
  (A.transitions.internalsFrom q).map (·.target) ++
  (A.transitions.callsFrom q).map (·.entry) ++
  (A.transitions.returnsFrom q).map (·.returnSite) ++
  (A.transitions.returnsWithCallSite q).map (·.returnSite)

def backwardNeighbours (A : Automaton ι) (q : Key) : List Key :=
  (A.transitions.internalsTo q).map (·.source) ++
  (A.transitions.callsTo q).map (·.callSite) ++
  (A.transitions.returnsTo q).flatMap fun t => [t.exit, t.callSite]

def graphReachable (A : Automaton ι) (neighbours : Key → List Key) (start : List Key) : List Key :=
  let start := start.filter (· ∈ A.states)
  reachable neighbours (start ++ A.transitions.toList.flatMap Transition.states) start

-- Removes all other states, except for the stuck state.
def retain (A : Automaton ι) (kept : List Key) : Automaton ι :=
  A.removeStates (A.ordinary.filter (· ∉ kept))

def pruneForward (A : Automaton ι) (sources : SortedSet Key) : Automaton ι :=
  A.retain (A.graphReachable A.forwardNeighbours sources.toList)

def pruneBackward (A : Automaton ι) (targets : SortedSet Key) : Automaton ι :=
  A.retain (A.graphReachable A.backwardNeighbours targets.toList)

def pruneInitial (A : Automaton ι) : Automaton ι :=
  A.pruneForward A.states.initial

def pruneFinal (A : Automaton ι) : Automaton ι :=
  A.pruneBackward A.states.final

def trim (A : Automaton ι) : Automaton ι :=
  A.pruneInitial.pruneFinal

end Automaton

end NestedAutomata
