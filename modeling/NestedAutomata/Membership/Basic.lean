import NestedAutomata.Determinization.Basic
import NestedAutomata.Word

namespace NestedAutomata

inductive WordError
  -- Some run accepts, but for the calls that are still open.
  | pendingCalls (count : Nat)
  | unbalanced (position : Nat)
deriving DecidableEq, Repr

def WordError.message : WordError → String
  | pendingCalls n =>
    s!"Nondeterministic simulation ended in a final state with {n} pending call(s)"
  | unbalanced i   => s!"The nested word is not well-matched at position {i}"

namespace Automaton

variable {ι : Type}

def walkFrom (A : Automaton ι) (q : Key) (calls : List Key) : Word → Bool
  | []              => ¬A.IsStuck q ∧ q ∈ A.states.final
  | position :: w =>
    if A.IsStuck q then
      false
    else
      match position, calls with
      | .internal a, _     => ((A.internalTargets q a).head?).any (A.walkFrom · calls w)
      | .call a, _         => ((A.callEntries q a).head?).any (A.walkFrom · (q :: calls) w)
      | .ret _, []         => false
      | .ret a, c :: calls => ((A.returnTargets q c a).head?).any (A.walkFrom · calls w)

-- Walks the word from each initial state. Words that are not well-matched are refused at their first
-- pending return, or else at their first pending call.
def walk (A : Automaton ι) (w : Word) : Except WordError Bool :=
  match w.firstPendingReturn, w.pendingCalls with
  | some i, _      => .error (.unbalanced i)
  | none, i :: _   => .error (.unbalanced i)
  | none, []       => .ok (A.states.initial.toList.any (A.walkFrom · [] w))

-- Decides by a walk, on the determinized automaton where the automaton itself is not deterministic.
def decideMember (A : Automaton ι) (w : Word) (table : KeyTable) : Except WordError Bool × KeyTable :=
  if A.Deterministic then
    (A.walk w, table)
  else
    let (stuck, table) := table.fresh "stuck"
    let D := A.subsets stuck table
    (D.result.walk w, D.table)

def contains (A : Automaton ι) (w : Word) (table : KeyTable) : Bool × KeyTable :=
  match A.decideMember w table with
  | (.ok b, table)    => (b, table)
  | (.error _, table) => (false, table)

end Automaton

end NestedAutomata
