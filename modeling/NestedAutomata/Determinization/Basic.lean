import NestedAutomata.Automaton.Reachability
import NestedAutomata.Key.Table

namespace NestedAutomata

-- What an automaton can do on a prefix of a word is summed up in a relation. A link from `o` to `q` says
-- that the automaton can be in state `q`, and was in state `o` at the latest call that is still open, or
-- at the start of the word if there is none. No relation mentions the stuck state as a target, and all
-- are closed under reading nothing.
namespace Automaton

variable {ι : Type}

def closeLinks (A : Automaton ι) (l : List Link) : Relation :=
  .ofList <| l.flatMap fun l =>
    ((A.εClosure l.target).toList.filter (¬A.IsStuck ·)).map (Link.mk l.origin)

def startRelation (A : Automaton ι) : Relation :=
  A.closeLinks <| A.ordinaryInitial.map fun q => ⟨q, q⟩

def internalRelation (A : Automaton ι) (r : Relation) (a : Key) : Relation :=
  A.closeLinks <| r.toList.flatMap fun l => (A.internalTargets l.target a).map (Link.mk l.origin)

def callRelation (A : Automaton ι) (r : Relation) (a : Key) : Relation :=
  A.closeLinks <| r.toList.flatMap fun l => (A.callEntries l.target a).map (Link.mk l.target)

-- A return goes back to the origins of the level on which the call was made. A link before the call
-- and a link at the exit fit together where the one ends in the call site that is the other's origin.
def returnRelation (A : Automaton ι) (exit callSite : Relation) (a : Key) : Relation :=
  A.closeLinks <| callSite.toList.flatMap fun c =>
    (exit.toList.filter (·.origin = c.target)).flatMap fun x =>
      (A.returnTargets x.target c.target a).map (Link.mk c.origin)

end Automaton

structure Subset where
  key      : Key
  relation : Relation
deriving DecidableEq

-- A transition of the result, between relations instead of keys.
inductive Subset.Move
  | internal (source : Subset) (symbol : Key) (target : Subset)
  | call (callSite : Subset) (symbol : Key) (entry : Subset)
  | ret (exit callSite : Subset) (symbol : Key) (returnSite : Subset)
deriving DecidableEq

namespace Subset.Move

def destination : Move → Subset
  | internal _ _ t => t
  | call _ _ e     => e
  | ret _ _ _ r    => r

def transition : Move → Transition
  | internal s a t => .internal ⟨s.key, a, t.key⟩
  | call c a e     => .call ⟨c.key, a, e.key⟩
  | ret x c a r    => .ret ⟨x.key, c.key, a, r.key⟩

end Subset.Move

-- The construction as it goes on. All relations found so far are `known`, the latest first, and those
-- that wait to be explored are `pending`. The moves are listed from the latest to the first.
structure Determinization (ι : Type) where
  result   : Automaton ι
  table    : KeyTable
  start    : Subset
  known    : List Subset
  pending  : List Subset
  explored : List Subset
  moves    : List Subset.Move

namespace Determinization

variable {ι : Type} (A : Automaton ι) (stuck : Key) (D : Determinization ι)

-- Looks up the state for a relation. A relation that is new becomes a state of the result, which is
-- final if the relation has a final target.
def reach (r : Relation) : Subset × Determinization ι :=
  if r.isEmpty then
    (⟨stuck, r⟩, D)
  else
    let (k, table) := D.table.relation r
    let s := ⟨k, r⟩
    if D.known.any (·.key = k) then
      (s, { D with table })
    else
      let R := D.result.addState k
      let R := if r.toList.any (·.target ∈ A.states.final) then R.addFinal k else R
      (s, { D with result := R, table, known := s :: D.known, pending := s :: D.pending })

-- Moves to the stuck state remain implicit.
def record (m : Subset.Move) : Determinization ι :=
  if m.destination.key = stuck then
    D
  else
    { D with result := D.result.add m.transition, moves := m :: D.moves }

def internal (s : Subset) (a : Key) : Determinization ι :=
  let (t, D) := D.reach A stuck (A.internalRelation s.relation a)
  D.record stuck (.internal s a t)

def call (s : Subset) (a : Key) : Determinization ι :=
  let (e, D) := D.reach A stuck (A.callRelation s.relation a)
  D.record stuck (.call s a e)

def ret (x c : Subset) (a : Key) : Determinization ι :=
  let (r, D) := D.reach A stuck (A.returnRelation x.relation c.relation a)
  D.record stuck (.ret x c a r)

-- Any two explored states may be the exit and the call site of a return, so a state is paired with
-- all states explored before it, in both roles, and with itself.
def explore (s : Subset) : Determinization ι :=
  let symbols := A.alphabet.toList
  let pairs := D.explored.flatMap (fun o => [(s, o), (o, s)]) ++ [(s, s)]
  let D := symbols.foldl (fun D a => (D.internal A stuck s a).call A stuck s a) D
  let D := { D with explored := D.explored ++ [s] }
  pairs.foldl (fun D (x, c) => symbols.foldl (fun D a => D.ret A stuck x c a) D) D

def saturate : (fuel : Nat) → Determinization ι → Determinization ι
  | 0, D        => D
  | fuel + 1, D =>
    match D.pending with
    | []           => D
    | s :: pending => saturate fuel ({ D with pending }.explore A stuck s)

-- Before the first exploration there is the start, which is the stuck state if the operand has no
-- ordinary initial state.
def initial (table : KeyTable) : Determinization ι :=
  let D : Determinization ι := {
    result   := (Automaton.ofStuck stuck).addSymbols A.alphabet.toList
    table
    start    := ⟨stuck, ∅⟩
    known    := []
    pending  := []
    explored := []
    moves    := []
  }
  let (start, D) := D.reach A stuck A.startRelation
  { D with result := D.result.addInitial start.key, start }

end Determinization

namespace Automaton

variable {ι : Type}

-- Every explored state is another nonempty relation between the ordinary states of the operand, which
-- bounds the number of explorations.
def subsets (A : Automaton ι) (stuck : Key) (table : KeyTable) : Determinization ι :=
  let links := A.ordinary.length * A.ordinary.length
  (Determinization.initial A stuck table).saturate A stuck (Nat.pow 2 links)

def determinize (A : Automaton ι) (mode : Stuck) (table : KeyTable) :
    Except Fault (Determinization ι) := do
  return A.subsets (← mode.require .determinization) table

def complement (A : Automaton ι) (mode : Stuck) (table : KeyTable) :
    Except Fault (Determinization ι) := do
  let D ← A.determinize mode table
  let R ← D.result.realize
  let finals := R.states.members.toList.filter (· ∉ R.states.final)
  return { D with result := R.clearFinal.addFinals finals }

end Automaton

namespace Determinization

variable {ι σ : Type}

-- Asks a client for the information of the result, first at its start and then at each move. What is
-- given replaces the information of the state that the start or the move leads to.
def inform (D : Determinization ι) (onStart : Subset → StateM σ (Option ι))
    (onMove : Subset.Move → StateM σ (Option ι)) : StateM σ (Automaton ι) := do
  let R := give D.result D.start.key (← onStart D.start)
  D.moves.reverse.foldlM (fun R m => return give R m.destination.key (← onMove m)) R
where
  give (R : Automaton ι) (q : Key) (x? : Option ι) : Automaton ι :=
    x?.elim R (R.setInfo q)

end Determinization

end NestedAutomata
