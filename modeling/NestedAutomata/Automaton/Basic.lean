import NestedAutomata.Alphabet
import NestedAutomata.States.Basic
import NestedAutomata.Transitions.Basic
import NestedAutomata.Transitions.Lookup

namespace NestedAutomata

-- Nested word automata. The designated stuck state, if there is one, is where a run ends up that
-- finds no transition. The transitions that lead there for want of another are implicit: they are
-- left out, and no run through the stuck state accepts.
structure Automaton (ι : Type) where
  states      : States ι
  alphabet    : Alphabet
  transitions : Transitions
deriving DecidableEq

namespace Automaton

variable {ι : Type}

instance : EmptyCollection (Automaton ι) where
  emptyCollection := ⟨∅, ∅, ∅⟩

instance : Inhabited (Automaton ι) where
  default := ∅

def ofStuck (q : Key) : Automaton ι :=
  { (∅ : Automaton ι) with states := .ofStuck q }

abbrev IsStuck (A : Automaton ι) (q : Key) : Prop :=
  A.states.IsStuck q

-- The states other than the stuck state.
def ordinary (A : Automaton ι) : List Key :=
  A.states.members.toList.filter (¬A.IsStuck ·)

def ordinaryInitial (A : Automaton ι) : List Key :=
  A.states.initial.toList.filter (¬A.IsStuck ·)

def ordinaryFinal (A : Automaton ι) : List Key :=
  A.states.final.toList.filter (¬A.IsStuck ·)

-- The transitions that keep clear of the stuck state in every column.
def ordinaryTransitions (A : Automaton ι) : List Transition :=
  A.transitions.toList.filter (·.states.all (¬A.IsStuck ·))

-- Automata that differ at most in the information that their states carry.
def Alike (A B : Automaton ι) : Prop :=
  A.states.Alike B.states ∧ A.alphabet = B.alphabet ∧ A.transitions = B.transitions

instance (A B : Automaton ι) : Decidable (A.Alike B) :=
  inferInstanceAs (Decidable (_ ∧ _))

-- Sharing a state counts as an overlap unless it is the stuck state of both automata.
def Overlap (A B : Automaton ι) : Prop :=
  ∃ q ∈ A.states.members.toList, q ∈ B.states ∧ ¬(A.IsStuck q ∧ B.IsStuck q)

instance (A B : Automaton ι) : Decidable (A.Overlap B) :=
  inferInstanceAs (Decidable (∃ q ∈ A.states.members.toList, _))

-- Whether a transition with this label can read the symbol. The wild label stands for whatever the
-- alphabet holds at the time of reading.
def Reads (A : Automaton ι) (label symbol : Key) : Prop :=
  label = symbol ∨ label = .wild ∧ symbol ∈ A.alphabet

instance (A : Automaton ι) (label symbol : Key) : Decidable (A.Reads label symbol) :=
  inferInstanceAs (Decidable (_ ∨ _))

def internalTargets (A : Automaton ι) (source symbol : Key) : List Key :=
  ((A.transitions.internalsFrom source).filter (A.Reads ·.symbol symbol)).map (·.target)

def callEntries (A : Automaton ι) (callSite symbol : Key) : List Key :=
  ((A.transitions.callsFrom callSite).filter (A.Reads ·.symbol symbol)).map (·.entry)

def returnTargets (A : Automaton ι) (exit callSite symbol : Key) : List Key :=
  ((A.transitions.returnsPopping exit callSite).filter (A.Reads ·.symbol symbol)).map (·.returnSite)

-- A state may leave by each label once, by no `ε`, and by the wild label only if by no other.
def Unambiguous (labels : List Key) : Prop :=
  labels.Nodup ∧ .ε ∉ labels ∧ (.wild ∈ labels → labels.length ≤ 1)

instance (labels : List Key) : Decidable (Unambiguous labels) :=
  inferInstanceAs (Decidable (_ ∧ _))

-- An automaton is deterministic if it starts in one state only, and from every state goes on in one
-- way at most: for each symbol and kind of transition, and for returns each call site.
structure Deterministic (A : Automaton ι) : Prop where
  start     : A.states.initial.size = 1
  internals : ∀ q ∈ A.states.members.toList,
    Unambiguous ((A.transitions.internalsFrom q).map (·.symbol))
  calls     : ∀ q ∈ A.states.members.toList,
    Unambiguous ((A.transitions.callsFrom q).map (·.symbol))
  returns   : ∀ q ∈ A.states.members.toList, ∀ t ∈ A.transitions.returnsFrom q,
    Unambiguous ((A.transitions.returnsPopping q t.callSite).map (·.symbol))

instance (A : Automaton ι) : Decidable A.Deterministic :=
  decidable_of_iff (_ ∧ _ ∧ _ ∧ _)
    ⟨fun ⟨h₁, h₂, h₃, h₄⟩ => ⟨h₁, h₂, h₃, h₄⟩, fun ⟨h₁, h₂, h₃, h₄⟩ => ⟨h₁, h₂, h₃, h₄⟩⟩

end Automaton

end NestedAutomata
