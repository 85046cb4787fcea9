import NestedAutomata.Automaton.Update
import NestedAutomata.Key.Table

namespace NestedAutomata.Automaton

variable {ι : Type}

-- The stuck state of the result can be no ordinary state of an operand.
def requireFree (A : Automaton ι) (stuck : Key) : Except Fault Unit :=
  if stuck ∈ A.states ∧ ¬A.IsStuck stuck then .error (.stuckInOperand stuck) else .ok ()

-- Copies the ordinary states of `B`, with the information that they carry, and its alphabet.
def copyStates (A B : Automaton ι) : Automaton ι :=
  let A := B.ordinary.foldl (fun A q =>
    (B.states.info? q).elim (A.addState q) ((A.addState q).setInfo q)) A
  A.addSymbols B.alphabet.toList

def copyTransitions (A B : Automaton ι) : Automaton ι :=
  A.addAll B.ordinaryTransitions

-- Adds transitions that read nothing from each source to each target.
def bridge (A : Automaton ι) (sources targets : List Key) : Automaton ι :=
  A.addAll <| sources.flatMap fun p => targets.map fun q => .internal ⟨p, .ε, q⟩

def union (A B : Automaton ι) (mode : Stuck) : Except Fault (Automaton ι) := do
  if A.Overlap B then throw .unionOverlap
  let stuck ← mode.require .union
  A.requireFree stuck
  B.requireFree stuck
  let R := ((ofStuck stuck).copyStates A).copyStates B
  let R := (R.addInitials A.ordinaryInitial).addInitials B.ordinaryInitial
  let R := (R.addFinals A.ordinaryFinal).addFinals B.ordinaryFinal
  return (R.copyTransitions A).copyTransitions B

def concatenation (A B : Automaton ι) (mode : Stuck) : Except Fault (Automaton ι) := do
  if A.Overlap B then throw .concatenationOverlap
  let stuck ← mode.require .concatenation
  A.requireFree stuck
  B.requireFree stuck
  let R := ((ofStuck stuck).copyStates A).copyStates B
  let R := (R.addInitials A.ordinaryInitial).addFinals B.ordinaryFinal
  let R := (R.copyTransitions A).copyTransitions B
  return R.bridge A.ordinaryFinal B.ordinaryInitial

-- A new state is the only initial and final one. Bridges lead from it to the initial states of the
-- operand, and back to it from the final states.
def star (A : Automaton ι) (mode : Stuck) (table : KeyTable) :
    Except Fault (Automaton ι × KeyTable) := do
  let stuck ← mode.require .star
  A.requireFree stuck
  let R := ((ofStuck stuck).copyStates A).copyTransitions A
  let (hub, table) := table.fresh "star-start"
  let R := (R.addInitial hub).addFinal hub
  return ((R.bridge [hub] A.ordinaryInitial).bridge A.ordinaryFinal [hub], table)

-- Reads a return backwards. The return site calls in place of the call site, but has to push which
-- call site that was. So it moves first to a state that stands for both, makes the call from there,
-- and the calls of the call site become the returns that pop that state.
def reverseReturn (A R : Automaton ι) (table : KeyTable) (t : Return) : Automaton ι × KeyTable :=
  let (pushed, table) := table.pair t.returnSite t.callSite
  let R := R.add (.internal ⟨t.returnSite, .ε, pushed⟩)
  let R := R.add (.call ⟨pushed, t.symbol, t.exit⟩)
  let calls := (A.transitions.callsFrom t.callSite).filter (¬A.IsStuck ·.entry)
  (R.addAll <| calls.map fun c => .ret ⟨c.entry, pushed, c.symbol, c.callSite⟩, table)

def reverse (A : Automaton ι) (mode : Stuck) (table : KeyTable) :
    Except Fault (Automaton ι × KeyTable) := do
  let stuck ← mode.require .reverse
  A.requireFree stuck
  let R := (ofStuck stuck).copyStates A
  let R := (R.addInitials A.ordinaryFinal).addFinals A.ordinaryInitial
  let R := A.ordinaryTransitions.foldl (fun R t =>
    match t with
    | .internal t => R.add (.internal ⟨t.target, t.symbol, t.source⟩)
    | _           => R) R
  let returns := A.ordinaryTransitions.filterMap fun
    | .ret t => some t
    | _      => none
  return returns.foldl (fun (R, table) t => A.reverseReturn R table t) (R, table)

def projection (A : Automaton ι) (kept : SortedSet Key) (mode : Stuck) :
    Except Fault (Automaton ι) := do
  let stuck ← mode.require .projection
  A.requireFree stuck
  let R := (ofStuck stuck).copyStates A
  let R := (R.addInitials A.ordinaryInitial).addFinals A.ordinaryFinal
  let R := R.copyTransitions A
  return R.removeStates (R.states.members.toList.filter (· ∉ kept))

end NestedAutomata.Automaton
