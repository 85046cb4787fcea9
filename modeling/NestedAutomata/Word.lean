import NestedAutomata.Key.Table

namespace NestedAutomata

inductive Position
  | call (symbol : Key)
  | internal (symbol : Key)
  | ret (symbol : Key)
deriving DecidableEq

namespace Position

def symbol : Position → Key
  | call a | internal a | ret a => a

def reversed : Position → Position
  | call a     => ret a
  | internal a => internal a
  | ret a      => call a

-- A call is written with a bracket before the name of its symbol, a return with one after it.
def name? (t : KeyTable) : Position → Option String
  | call a     => (t.name? a).map ("<" ++ ·)
  | internal a => t.name? a
  | ret a      => (t.name? a).map (· ++ ">")

end Position

-- A return answers the latest call before it that is still open. Calls and returns that find no
-- partner are pending, and a word without pending positions is well-matched.
abbrev Word :=
  List Position

namespace Word

def reversed (w : Word) : Word :=
  w.reverse.map Position.reversed

-- The index of the first return that finds none of the `depth` calls that were open before the word
-- and none that the word opened itself.
def returnBelow : (depth : Nat) → Word → Option Nat
  | _, []                   => none
  | depth, .call _ :: w     => (returnBelow (depth + 1) w).map (· + 1)
  | depth, .internal _ :: w => (returnBelow depth w).map (· + 1)
  | 0, .ret _ :: _          => some 0
  | depth + 1, .ret _ :: w  => (returnBelow depth w).map (· + 1)

def firstPendingReturn (w : Word) : Option Nat :=
  returnBelow 0 w

def pendingCalls (w : Word) : List Nat :=
  go [] 0 w
where
  -- `opened` holds the open calls before `index`, the latest first. A pending return leaves it empty.
  go (opened : List Nat) (index : Nat) : Word → List Nat
    | []              => opened.reverse
    | .call _ :: w     => go (index :: opened) (index + 1) w
    | .internal _ :: w => go opened (index + 1) w
    | .ret _ :: w      => go opened.tail (index + 1) w

def WellMatched (w : Word) : Prop :=
  w.firstPendingReturn = none ∧ w.pendingCalls = []

instance (w : Word) : Decidable w.WellMatched :=
  inferInstanceAs (Decidable (_ ∧ _))

def name? (t : KeyTable) (w : Word) : Option String :=
  (w.mapM (Position.name? t)).map (" ".intercalate ·)

end Word

end NestedAutomata
