import NestedAutomata.Automaton.Update
import NestedAutomata.Key.Table
import NestedAutomata.Random.Dice
import NestedAutomata.Word

namespace NestedAutomata

variable {σ ι : Type} (d : Dice σ)

def KeyTable.numbered (table : KeyTable) (letter : String) (n : Nat) : List Key × KeyTable :=
  (List.range n).foldl (fun (ks, table) i =>
    let (k, table) := table.name s!"{letter}{i}"
    (ks ++ [k], table)) ([], table)

namespace Automaton

-- Internal transitions read nothing or anything once in a while.
def randomLabel (symbol : Key) : StateM σ Key := do
  match ← d.upTo 9 with
  | 0 => return .ε
  | 1 => return .wild
  | _ => return symbol

def randomTransition (p : Key) (states : List Key) (a : Key) (symbols : List Key) (q : Key) :
    StateM σ Transition := do
  let symbol ← d.pick a symbols
  let target ← d.pick p states
  match ← d.upTo 2 with
  | 0 => return .internal ⟨q, ← randomLabel d symbol, target⟩
  | 1 => return .call ⟨q, symbol, target⟩
  | _ => return .ret ⟨q, ← d.pick p states, symbol, target⟩

def randomOutgoing (p : Key) (states : List Key) (a : Key) (symbols : List Key) (degree : Nat)
    (A : Automaton ι) (q : Key) : StateM σ (Automaton ι) := do
  let A := if ← d.oneInThree then A.addFinal q else A
  let count ← d.upTo degree
  (List.range count).foldlM (fun A _ => return A.add (← randomTransition d p states a symbols q)) A

-- An automaton with the given numbers of states and symbols, and at most `degree` transitions out of
-- each state. The first state is initial, and one in three is final.
def random (states symbols degree : Nat) (table : KeyTable) : StateM σ (Automaton ι × KeyTable) := do
  let (states, table) := table.numbered "s" states
  let (symbols, table) := table.numbered "l" symbols
  let A := ((∅ : Automaton ι).addStates states).addSymbols symbols
  match states, symbols with
  | p :: ps, a :: as =>
    let A ← (p :: ps).foldlM (randomOutgoing d p ps a as degree) (A.addInitial p)
    return (A, table)
  | p :: _, []       => return (A.addInitial p, table)
  | [], _            => return (A, table)

end Automaton

namespace Word

-- The kind of the next position of a word, with `depth` calls open and `remaining` positions to come,
-- this one included. Enough positions are left to close what is open if the word has to match.
def randomPosition (matched : Bool) (depth remaining : Nat) (a : Key) : StateM σ Position := do
  if matched then
    if remaining ≤ depth then
      return .ret a
    match ← d.upTo 2 with
    | 0 => return if depth + 1 < remaining then .call a else .internal a
    | 1 => return .internal a
    | _ => return if 0 < depth then .ret a else .internal a
  else
    match ← d.upTo 2 with
    | 0 => return .call a
    | 1 => return .internal a
    | _ => return .ret a

def randomFrom (matched : Bool) (a : Key) (symbols : List Key) (depth : Nat) :
    (remaining : Nat) → StateM σ Word
  | 0             => return []
  | remaining + 1 => do
    let symbol ← d.pick a symbols
    let position ← randomPosition d matched depth (remaining + 1) symbol
    let depth :=
      match position with
      | .call _     => depth + 1
      | .internal _ => depth
      | .ret _      => depth - 1
    return position :: (← randomFrom matched a symbols depth remaining)

def random (symbols : List Key) (length : Nat) (matched : Bool) : StateM σ Word :=
  match symbols with
  | []           => return []
  | a :: symbols => randomFrom d matched a symbols 0 length

end Word

end NestedAutomata
