import NestedAutomata.Key.Basic

namespace NestedAutomata

-- Transitions that are missing may lead implicitly to one designated stuck state. Once they are spelled
-- out that state becomes an ordinary one, and the automaton cannot be given another.
inductive Stuck
  | absent
  | designated (state : Key)
  | realized
deriving DecidableEq, Repr

namespace Stuck

def state? : Stuck → Option Key
  | designated q => some q
  | _            => none

def text : Stuck → String
  | absent       => "Absent"
  | designated q => s!"Designated({q.text})"
  | realized     => "Realized"

end Stuck

inductive Construction
  | union
  | concatenation
  | star
  | reverse
  | determinization
  | product
  | projection
deriving DecidableEq, Repr

def Construction.name : Construction → String
  | union           => "union"
  | concatenation   => "concat"
  | star            => "star"
  | reverse         => "reverse"
  | determinization => "determinize"
  | product         => "intersect"
  | projection      => "project"

inductive Fault
  | designatedTwice (mode : Stuck)
  | designatedOrdinary (state : Key)
  | nothingToRealize (mode : Stuck)
  | noStuckState (construction : Construction) (mode : Stuck)
  | stuckInOperand (state : Key)
  | unionOverlap
  | concatenationOverlap
deriving DecidableEq, Repr

def Fault.message : Fault → String
  | designatedTwice m     => s!"A stuck state can only be set once, current mode is {m.text}"
  | designatedOrdinary q  => s!"The stuck state {q.text} is already an ordinary state"
  | nothingToRealize m    =>
    s!"Implicit transitions can only be realized with a stuck state, current mode is {m.text}"
  | noStuckState c m      => s!"The result of {c.name} requires a stuck state, current mode is {m.text}"
  | stuckInOperand q      =>
    s!"The stuck state {q.text} of the result is an ordinary state of the operand"
  | unionOverlap          => "The operands of a union must not share states"
  | concatenationOverlap  => "The operands of a concatenation must not share states"

def Stuck.require (mode : Stuck) (c : Construction) : Except Fault Key :=
  match mode with
  | .designated q => .ok q
  | _             => .error (.noStuckState c mode)

theorem Fault.exists_of_bind_eq_ok {α β : Type} {x : Except Fault α} {f : α → Except Fault β} {b : β}
    (h : x >>= f = .ok b) : ∃ a, x = .ok a ∧ f a = .ok b := by
  cases x with
  | error => cases h
  | ok a  => exact ⟨a, rfl, h⟩

end NestedAutomata
