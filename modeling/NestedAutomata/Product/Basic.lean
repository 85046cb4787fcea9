import NestedAutomata.Automaton.Update
import NestedAutomata.Key.Table

namespace NestedAutomata

structure Pair where
  first  : Key
  second : Key
deriving DecidableEq, Repr

namespace Product

-- A transition of the product, from pairs to pairs, with the label that it gets and the state that
-- it leads to.
inductive Move
  | internal (source target : Pair) (symbol state : Key)
  | call (callSite entry : Pair) (symbol state : Key)
  | ret (exit callSite returnSite : Pair) (symbol state : Key)
deriving DecidableEq, Repr

structure Choices (σ ι : Type) where
  -- The key under which the two states are combined, and what the new state carries. The pair is
  -- rejected if there is no key.
  state : Pair → StateM (KeyTable × σ) (Option (Key × Option ι))
  -- The label of a transition that combines transitions with these labels, if they fit together.
  label : Key → Key → StateM σ (Option Key)
  -- What the state that the move leads to carries from now on.
  info  : Move → StateM σ (Option ι)

end Product

-- A label fits itself, and a wild label fits the symbols that it can read.
def Automaton.commonLabel {ι : Type} (A B : Automaton ι) (a b : Key) : Option Key :=
  if a = b then some a
  else if a = .wild ∧ b ∈ A.alphabet then some b
  else if b = .wild ∧ a ∈ B.alphabet then some a
  else none

def Product.Choices.plain {σ ι : Type} (A B : Automaton ι) : Choices σ ι where
  state p := fun (table, client) =>
    let (k, table) := table.pair p.first p.second
    (some (k, none), table, client)
  label a b := pure (A.commonLabel B a b)
  info _ := pure none

structure Product.Node extends Pair where
  key : Key
deriving DecidableEq, Repr

-- The construction as it goes on. Each pair that was offered to the client is kept with the answer,
-- the latest first. The pending states are explored in the order in which they were found.
structure Product (σ ι : Type) where
  result   : Automaton ι
  table    : KeyTable
  client   : σ
  offered  : List (Pair × Option Key)
  pending  : List Product.Node
  explored : List Product.Node

namespace Product

variable {σ ι : Type} (A B : Automaton ι) (choices : Choices σ ι) (P : Product σ ι)

def accept (p : Pair) (k : Key) (x? : Option ι) : Product σ ι :=
  let R := P.result.addState k
  let R := x?.elim R (R.setInfo k)
  let R := if p.first ∈ A.states.initial ∧ p.second ∈ B.states.initial then R.addInitial k else R
  let R := if p.first ∈ A.states.final ∧ p.second ∈ B.states.final then R.addFinal k else R
  { P with result := R, pending := P.pending ++ [⟨p, k⟩] }

-- Looks up the state for a pair. A pair is offered to the client once, and if it is accepted becomes
-- a state of the result. Pairs with a stuck state are not offered at all.
def reach (p : Pair) : Option Key × Product σ ι :=
  if A.IsStuck p.first ∨ B.IsStuck p.second then
    (none, P)
  else
    match P.offered.lookup p with
    | some k? => (k?, P)
    | none    =>
      let (answer, table, client) := choices.state p (P.table, P.client)
      let P := { P with table, client, offered := (p, answer.map Prod.fst) :: P.offered }
      match answer with
      | none         => (none, P)
      | some (k, x?) => (some k, P.accept A B p k x?)

def shift (source : Node) (target : Pair) : Product σ ι :=
  match P.reach A B choices target with
  | (none, P)   => P
  | (some k, P) => { P with result := P.result.add (.internal ⟨source.key, .ε, k⟩) }

def move (a b : Key) (target : Pair) (transition : (symbol state : Key) → Transition)
    (occasion : (symbol state : Key) → Move) : Product σ ι :=
  match choices.label a b P.client with
  | (none, client)        => { P with client }
  | (some symbol, client) =>
    match { P with client }.reach A B choices target with
    | (none, P)   => P
    | (some k, P) =>
      let R := P.result.add (transition symbol k)
      let (x?, client) := choices.info (occasion symbol k) P.client
      { P with result := x?.elim R (R.setInfo k), client }

def internals (s : Node) : Product σ ι :=
  let P := (A.transitions.internalsFromOn s.first .ε).foldl
    (fun P t => P.shift A B choices s ⟨t.target, s.second⟩) P
  let P := (B.transitions.internalsFromOn s.second .ε).foldl
    (fun P t => P.shift A B choices s ⟨s.first, t.target⟩) P
  let reading (C : Automaton ι) (q : Key) := (C.transitions.internalsFrom q).filter (·.symbol ≠ .ε)
  (reading A s.first).foldl (fun P t => (reading B s.second).foldl (fun P u =>
    let target := ⟨t.target, u.target⟩
    P.move A B choices t.symbol u.symbol target (.internal ⟨s.key, ·, ·⟩)
      (.internal s.toPair target · ·)) P) P

def calls (s : Node) : Product σ ι :=
  (A.transitions.callsFrom s.first).foldl (fun P t =>
    (B.transitions.callsFrom s.second).foldl (fun P u =>
      let entry := ⟨t.entry, u.entry⟩
      P.move A B choices t.symbol u.symbol entry (.call ⟨s.key, ·, ·⟩)
        (.call s.toPair entry · ·)) P) P

def returns (x c : Node) : Product σ ι :=
  (A.transitions.returnsPopping x.first c.first).foldl (fun P t =>
    (B.transitions.returnsPopping x.second c.second).foldl (fun P u =>
      let returnSite := ⟨t.returnSite, u.returnSite⟩
      P.move A B choices t.symbol u.symbol returnSite (.ret ⟨x.key, c.key, ·, ·⟩)
        (.ret x.toPair c.toPair returnSite · ·)) P) P

-- A state is paired with all states explored before it, as the exit and, where the keys differ, as
-- the call site of a return, and with itself.
def explore (s : Node) : Product σ ι :=
  let pairs := P.explored.flatMap (fun o => (s, o) :: if o.key ≠ s.key then [(o, s)] else [])
  let P := (P.internals A B choices s).calls A B choices s
  let P := { P with explored := P.explored ++ [s] }
  (pairs ++ [(s, s)]).foldl (fun P (x, c) => P.returns A B choices x c) P

def saturate : (fuel : Nat) → Product σ ι → Product σ ι
  | 0, P        => P
  | fuel + 1, P =>
    match P.pending with
    | []           => P
    | s :: pending => saturate fuel ({ P with pending }.explore A B choices s)

def initial (stuck : Key) (table : KeyTable) (client : σ) : Product σ ι :=
  let P : Product σ ι := {
    result   := (Automaton.ofStuck stuck).addSymbols (A.alphabet.toList.filter (· ∈ B.alphabet))
    table
    client
    offered  := []
    pending  := []
    explored := []
  }
  A.states.initial.toList.foldl (fun P p => B.states.initial.toList.foldl (fun P q =>
    (P.reach A B choices ⟨p, q⟩).2) P) P

end Product

namespace Automaton

variable {σ ι : Type}

-- Combines two automata under the choices of a client. Every explored state stands for another pair
-- of ordinary states, which bounds the number of explorations.
def productWith (A B : Automaton ι) (choices : Product.Choices σ ι) (mode : Stuck) (table : KeyTable)
    (client : σ) : Except Fault (Product σ ι) := do
  let stuck ← mode.require .product
  return (Product.initial A B choices stuck table client).saturate A B choices
    (A.ordinary.length * B.ordinary.length)

def product (A B : Automaton ι) (mode : Stuck) (table : KeyTable) : Except Fault (Product Unit ι) :=
  A.productWith B (.plain A B) mode table ()

end Automaton

end NestedAutomata
