import NestedAutomata.States.Basic

namespace NestedAutomata.States

inductive Edit (ι : Type)
  | add (q : Key)
  | remove (q : Key)
  | addInitial (q : Key)
  | removeInitial (q : Key)
  | addFinal (q : Key)
  | removeFinal (q : Key)
  | designate (q : Key)
  | setInfo (q : Key) (x : ι)
  | clear
  | clearInitial
  | clearFinal

namespace Edit

variable {ι : Type}

def apply (qs : States ι) : Edit ι → Except Fault (States ι)
  | add q           => .ok (qs.add q)
  | remove q        => .ok (qs.remove q)
  | addInitial q    => .ok (qs.addInitial q)
  | removeInitial q => .ok (qs.removeInitial q)
  | addFinal q      => .ok (qs.addFinal q)
  | removeFinal q   => .ok (qs.removeFinal q)
  | designate q     => qs.designate q
  | setInfo q x     => .ok (qs.setInfo q x)
  | clear           => .ok qs.clear
  | clearInitial    => .ok qs.clearInitial
  | clearFinal      => .ok qs.clearFinal

-- Whether the edit finds something to do. Designating and clearing always count as a change.
def effective (qs : States ι) : Edit ι → Bool
  | add q           => q ∉ qs
  | remove q        => q ∈ qs ∧ ¬qs.IsStuck q
  | addInitial q    => q ∉ qs.initial
  | removeInitial q => q ∈ qs.initial
  | addFinal q      => q ∉ qs.final
  | removeFinal q   => q ∈ qs.final
  | setInfo q _     => q ∈ qs
  | _               => true

end Edit

end NestedAutomata.States
