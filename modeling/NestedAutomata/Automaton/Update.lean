import NestedAutomata.Automaton.Basic

namespace NestedAutomata.Automaton

variable {ι : Type}

-- The implicit transitions to the stuck state. A return is missing for each pair of an exit and a
-- call site that has none.
def implicit (A : Automaton ι) (stuck : Key) : List Transition :=
  (states.flatMap fun q => symbols.flatMap fun a =>
    if (A.internalTargets q a).isEmpty then [.internal ⟨q, a, stuck⟩] else []) ++
  (states.flatMap fun q => symbols.flatMap fun a =>
    if (A.callEntries q a).isEmpty then [.call ⟨q, a, stuck⟩] else []) ++
  (states.flatMap fun x => states.flatMap fun c => symbols.flatMap fun a =>
    if (A.returnTargets x c a).isEmpty then [.ret ⟨x, c, a, stuck⟩] else [])
where
  states  := A.states.members.toList
  symbols := A.alphabet.toList

-- Adding one of the implicit transitions makes no other one superfluous, so they are added at once.
def complete (A : Automaton ι) (stuck : Key) : Automaton ι :=
  { A with
    states      := { A.states with stuck := .realized }
    transitions := A.transitions.addAll (A.implicit stuck) }

def realize (A : Automaton ι) : Except Fault (Automaton ι) :=
  match A.states.stuck with
  | .designated q => .ok (A.complete q)
  | mode          => .error (.nothingToRealize mode)

def addState (A : Automaton ι) (q : Key) : Automaton ι :=
  { A with states := A.states.add q }

def addStates (A : Automaton ι) (l : List Key) : Automaton ι :=
  l.foldl addState A

def removeState (A : Automaton ι) (q : Key) : Automaton ι :=
  if q ∈ A.states ∧ ¬A.IsStuck q then
    { A with states := A.states.remove q, transitions := A.transitions.removeState q }
  else
    A

def removeStates (A : Automaton ι) (l : List Key) : Automaton ι :=
  l.foldl removeState A

-- Not even the stuck state is left, so that another one can be designated.
def clearStates (A : Automaton ι) : Automaton ι :=
  { A with states := ∅, transitions := ∅ }

def addInitial (A : Automaton ι) (q : Key) : Automaton ι :=
  { A with states := A.states.addInitial q }

def addInitials (A : Automaton ι) (l : List Key) : Automaton ι :=
  l.foldl addInitial A

def removeInitial (A : Automaton ι) (q : Key) : Automaton ι :=
  { A with states := A.states.removeInitial q }

def clearInitial (A : Automaton ι) : Automaton ι :=
  { A with states := A.states.clearInitial }

-- If words may end in the stuck state, then its transitions count, and they are spelled out first.
def addFinal (A : Automaton ι) (q : Key) : Automaton ι :=
  let B := if A.IsStuck q then A.complete q else A
  { B with states := B.states.addFinal q }

def addFinals (A : Automaton ι) (l : List Key) : Automaton ι :=
  l.foldl addFinal A

def removeFinal (A : Automaton ι) (q : Key) : Automaton ι :=
  { A with states := A.states.removeFinal q }

def clearFinal (A : Automaton ι) : Automaton ι :=
  { A with states := A.states.clearFinal }

def setInfo (A : Automaton ι) (q : Key) (x : ι) : Automaton ι :=
  { A with states := A.states.setInfo q x }

def designate (A : Automaton ι) (q : Key) : Except Fault (Automaton ι) := do
  return { A with states := ← A.states.designate q }

def addSymbol (A : Automaton ι) (a : Key) : Automaton ι :=
  { A with alphabet := A.alphabet.add a }

def addSymbols (A : Automaton ι) (l : List Key) : Automaton ι :=
  l.foldl addSymbol A

def removeSymbol (A : Automaton ι) (a : Key) : Automaton ι :=
  if a ∈ A.alphabet then
    { A with alphabet := A.alphabet.remove a, transitions := A.transitions.removeSymbol a }
  else
    A

-- Transitions with a reserved label outlive the alphabet.
def clearSymbols (A : Automaton ι) : Automaton ι :=
  A.alphabet.toList.foldl removeSymbol A

def Leaves (A : Automaton ι) (t : Transition) : Prop :=
  A.IsStuck t.origin ∧ ¬A.IsStuck t.destination

instance (A : Automaton ι) (t : Transition) : Decidable (A.Leaves t) :=
  inferInstanceAs (Decidable (_ ∧ _))

def Admits (A : Automaton ι) (t : Transition) : Prop :=
  t.Labelled ∧ ¬A.Leaves t ∧ t ∉ A.transitions

instance (A : Automaton ι) (t : Transition) : Decidable (A.Admits t) :=
  inferInstanceAs (Decidable (_ ∧ _))

def add (A : Automaton ι) (t : Transition) : Automaton ι :=
  if A.Admits t then {
    states      := A.states.addAll t.states
    alphabet    := A.alphabet.add t.label
    transitions := A.transitions.add t
  }
  else
    A

def addAll (A : Automaton ι) (l : List Transition) : Automaton ι :=
  l.foldl add A

def remove (A : Automaton ι) (t : Transition) : Automaton ι :=
  { A with transitions := A.transitions.remove t }

-- The returns from the exit to the return site on the symbol, whatever their call sites.
def matchingReturns (A : Automaton ι) (exit symbol returnSite : Key) : List Return :=
  (A.transitions.returnsFromOn exit symbol).filter (·.returnSite = returnSite)

def removeReturns (A : Automaton ι) (exit symbol returnSite : Key) : Automaton ι :=
  (A.matchingReturns exit symbol returnSite).foldl (fun A t => A.remove (.ret t)) A

def clearTransitions (A : Automaton ι) : Automaton ι :=
  { A with transitions := ∅ }

def clear (A : Automaton ι) : Automaton ι where
  states      := A.states.clear
  alphabet    := ∅
  transitions := ∅

-- A sink is an inner state that, once entered, is never left.
def sinks (A : Automaton ι) : List Key :=
  A.states.members.toList.filter fun q =>
    q ∉ A.states.initial ∧ q ∉ A.states.final ∧ ¬A.IsStuck q ∧
    (A.transitions.internalsFrom q).all (·.target = q) ∧
    (A.transitions.callsFrom q).all (·.entry = q) ∧
    (A.transitions.returnsFrom q).all (·.returnSite = q)

def removeSinks (A : Automaton ι) : Automaton ι :=
  A.removeStates A.sinks

-- The keys that may stand where `p` stood, once `q` has a double.
def orDouble (q double p : Key) : List Key :=
  if p = q then [q, double] else [p]

-- The double's copies of the transitions that leave the state, or that pop it from the stack.
def outgoingCopies (A : Automaton ι) (q double : Key) : List Transition :=
  (A.transitions.internalsFrom q).map (fun t => .internal { t with source := double }) ++
  (A.transitions.callsFrom q).map (fun t => .call { t with callSite := double }) ++
  (A.transitions.returnsFrom q ++ A.transitions.returnsWithCallSite q).flatMap fun t =>
    (orDouble q double t.exit).flatMap fun x =>
      (orDouble q double t.callSite).map fun c =>
        .ret { t with exit := x, callSite := c }

def incomingCopies (A : Automaton ι) (q double : Key) : List Transition :=
  ((A.transitions.internalsTo q).flatMap fun t =>
    (orDouble q double t.source).map fun p => .internal ⟨p, t.symbol, double⟩) ++
  ((A.transitions.callsTo q).flatMap fun t =>
    (orDouble q double t.callSite).map fun c => .call ⟨c, t.symbol, double⟩) ++
  (A.transitions.returnsTo q).flatMap fun t =>
    (orDouble q double t.exit).flatMap fun x =>
      (orDouble q double t.callSite).map fun c => .ret ⟨x, c, t.symbol, double⟩

def duplicateOutgoing (A : Automaton ι) (q double : Key) : Automaton ι :=
  let B := A.addState double
  let B := (A.states.info? q).elim B (B.setInfo double)
  { B with transitions := B.transitions.addAll (A.outgoingCopies q double) }

def duplicate (A : Automaton ι) (q double : Key) : Automaton ι :=
  let B := A.duplicateOutgoing q double
  let B := if q ∈ B.states.initial then B.addInitial double else B
  let B := if q ∈ B.states.final then B.addFinal double else B
  { B with transitions := B.transitions.addAll (B.incomingCopies q double) }

end NestedAutomata.Automaton
