import NestedAutomata.Determinization.Basic
import NestedAutomata.Product.Basic
import NestedAutomata.Word

namespace NestedAutomata

-- How a state is reached from the source of a summary. Each word that is made use of here has a
-- summary that was found earlier.
inductive Derivation
  | empty
  -- A word to the previous state, and an internal transition.
  | internal (previous symbol : Key)
  -- A word to the call site, a call, a word from the entry to the exit, and the return.
  | nested (callSite callSymbol entry exit returnSymbol : Key)
deriving DecidableEq, Repr

structure Summary where
  source     : Key
  target     : Key
  derivation : Derivation
deriving DecidableEq, Repr

def Summary.word? (source target : Key) : List Summary → Option Word
  | []           => none
  | s :: earlier =>
    if s.source = source ∧ s.target = target then
      match s.derivation with
      | .empty              => some []
      | .internal p a       => do
        let w ← word? source p earlier
        return if a = .ε then w else w ++ [.internal a]
      | .nested c a e x b   => do
        let w ← word? source c earlier
        let v ← word? e x earlier
        return w ++ .call a :: v ++ [.ret b]
    else
      word? source target earlier

-- The search for summaries as it goes on. Those found are listed from the latest to the first, and
-- those pending are extended in the order in which they were found.
structure Summaries where
  found   : List Summary
  pending : List (Key × Key)

namespace Summaries

variable {ι : Type} (A : Automaton ι) (S : Summaries)

def targets (source : Key) : List Key :=
  ((S.found.filter (·.source = source)).map (·.target)).reverse

def sources (target : Key) : List Key :=
  ((S.found.filter (·.target = target)).map (·.source)).reverse

-- The first summary between two states is kept. There are none with the stuck state.
def insert (s : Summary) : Summaries :=
  if A.IsStuck s.source ∨ A.IsStuck s.target then
    S
  else if S.found.any fun t => t.source = s.source ∧ t.target = s.target then
    S
  else
    ⟨s :: S.found, S.pending ++ [(s.source, s.target)]⟩

-- A symbol that a transition with this label can read. Wild labels are read by the first symbol of
-- the alphabet, and not at all if there is none.
def reading? (label : Key) : Option Key :=
  if label = .wild then A.alphabet.toList.head? else some label

-- Joins a word from the origin to the call site with one from an entry of the call to an exit.
def nest (origin : Key) (call : Call) (exit : Key) : Summaries :=
  match reading? A call.symbol with
  | none   => S
  | some a =>
    (A.transitions.returnsPopping exit call.callSite).foldl (fun S t =>
      match reading? A t.symbol with
      | none   => S
      | some b =>
        S.insert A ⟨origin, t.returnSite, .nested call.callSite a call.entry exit b⟩) S

-- Extends the summary by an internal transition, by what it can call, and by what can call it.
def extend (source target : Key) : Summaries :=
  let S := (A.transitions.internalsFrom target).foldl (fun S t =>
    match reading? A t.symbol with
    | none   => S
    | some a => S.insert A ⟨source, t.target, .internal target a⟩) S
  let S := (A.transitions.callsFrom target).foldl (fun S call =>
    (S.targets call.entry).foldl (fun S exit => S.nest A source call exit) S) S
  (A.transitions.callsTo source).foldl (fun S call =>
    (S.sources call.callSite).foldl (fun S origin => S.nest A origin call target) S) S

def saturate : (fuel : Nat) → Summaries → Summaries
  | 0, S        => S
  | fuel + 1, S =>
    match S.pending with
    | []                          => S
    | (source, target) :: pending => saturate fuel ({ S with pending }.extend A source target)

end Summaries

namespace Automaton

variable {ι : Type} (A : Automaton ι)

-- All summaries of the automaton. Every pair of ordinary states is pending once at most, which bounds
-- the number of extensions.
def summaries : Summaries :=
  let start : Summaries :=
    A.states.members.toList.foldl (fun S q => S.insert A ⟨q, q, .empty⟩) ⟨[], []⟩
  start.saturate A (A.ordinary.length * A.ordinary.length)

-- The first initial state that is joined to some final state, and the first of those.
def acceptingPair? : Option (Key × Key) :=
  A.states.initial.toList.findSome? fun p =>
    ((A.summaries.targets p).find? (· ∈ A.states.final)).map (p, ·)

def someWord? : Option Word := do
  let (p, q) ← A.acceptingPair?
  Summary.word? p q A.summaries.found

def AcceptsNothing : Prop :=
  A.someWord? = none

instance : Decidable A.AcceptsNothing :=
  inferInstanceAs (Decidable (_ = _))

-- Whether each word of `A` is one of `B`. The complement of `B` is taken over the symbols of both, and
-- has to have no word in common with `A`.
def decideSubset (A B : Automaton ι) (table : KeyTable) : Except Fault (Bool × KeyTable) := do
  let (stuck, table) := table.fresh "stuck"
  let D ← (B.addSymbols A.alphabet.toList).complement (.designated stuck) table
  let (stuck, table) := D.table.fresh "stuck"
  let P ← A.product D.result (.designated stuck) table
  return (P.result.AcceptsNothing, P.table)

def decideEqual (A B : Automaton ι) (table : KeyTable) : Except Fault (Bool × KeyTable) := do
  match ← A.decideSubset B table with
  | (false, table) => return (false, table)
  | (true, table)  => B.decideSubset A table

end Automaton

end NestedAutomata
