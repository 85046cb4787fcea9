import NestedAutomata.Automaton.Basic

namespace NestedAutomata

-- What an edge of the pushdown system does to the stack.
inductive Edge.Kind
  | intra
  | callToEntry
  | exitToReturn
  | callToReturn
deriving DecidableEq, Repr

structure Place (ι : Type) where
  state : Key
  info? : Option ι

structure Weighing (ι ω : Type) where
  one  : ω
  edge : Place ι → (symbol : Key) → Edge.Kind → Place ι → ω
  -- The weight of leaving a level of nesting from the state.
  exit : Place ι → ω
  -- The weight of an edge with the wild label.
  wild : Place ι → Place ι → ω

def Weighing.constant {ι ω : Type} (one : ω) : Weighing ι ω where
  one      := one
  edge     := fun _ _ _ _ => one
  exit     := fun _ => one
  wild     := fun _ _ => one

def Weighing.reach {ι : Type} : Weighing ι Bool :=
  .constant true

structure Edge (ω : Type) where
  source : Key
  symbol : Key
  kind   : Edge.Kind
  target : Key
  weight : ω
deriving DecidableEq, Repr

namespace Automaton

variable {ι ω : Type} (A : Automaton ι)

def place (q : Key) : Place ι :=
  ⟨q, A.states.info? q⟩

def weigh (W : Weighing ι ω) (source symbol : Key) (kind : Edge.Kind) (target : Key) : Edge ω where
  source
  symbol
  kind
  target
  weight :=
    if symbol = .wild then W.wild (A.place source) (A.place target)
    else W.edge (A.place source) symbol kind (A.place target)

-- A return has an edge from its exit, and one from its call site that weighs nothing.
def edges (W : Weighing ι ω) : List (Edge ω) :=
  A.transitions.internals.toList.map (fun t => A.weigh W t.source t.symbol .intra t.target) ++
  A.transitions.calls.toList.map (fun t => A.weigh W t.callSite t.symbol .callToEntry t.entry) ++
  A.transitions.returns.toList.flatMap fun t => [
    A.weigh W t.exit t.symbol .exitToReturn t.returnSite,
    ⟨t.callSite, t.symbol, .callToReturn, t.returnSite, W.one⟩
  ]

def exitWeights (W : Weighing ι ω) : List (Key × ω) :=
  (A.states.members.toList.filter (A.transitions.returnsFrom · ≠ [])).map fun q =>
    (q, W.exit (A.place q))

end Automaton

end NestedAutomata
