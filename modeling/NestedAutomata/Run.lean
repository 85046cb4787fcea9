import NestedAutomata.Automaton.Basic
import NestedAutomata.Word

namespace NestedAutomata

open Std

-- Where a run is: a state, and the call sites of the open calls, the latest first.
@[ext]
structure Configuration where
  state : Key
  calls : List Key
deriving DecidableEq, Repr

namespace Configuration

-- Configurations are ordered by their states, then by how many calls are open, and then by the call
-- sites from the first call to the latest.
instance : Ord Configuration where
  compare :=
    compareLex (compareOn state)
      (compareLex (compareOn (·.calls.length)) (compareOn (·.calls.reverse)))

instance : TransOrd Configuration :=
  inferInstanceAs (TransCmp (compareLex _ (compareLex _ _)))

instance : LawfulEqOrd Configuration where
  eq_of_compare h :=
    have ⟨hs, h⟩ := compareLex_eq_eq.mp h
    have ⟨_, hc⟩ := compareLex_eq_eq.mp h
    Configuration.ext (LawfulEqOrd.eq_of_compare hs)
      (List.reverse_inj.mp (LawfulEqOrd.eq_of_compare hc))

end Configuration

namespace Automaton

variable {ι : Type} (A : Automaton ι)

-- One step of a run reads one position, or nothing. A call pushes its call site, and a return pops
-- the call site that it needs.
inductive Step : Configuration → Word → Configuration → Prop
  | rest {p q s} :
    .internal ⟨p, .ε, q⟩ ∈ A.transitions → Step ⟨p, s⟩ [] ⟨q, s⟩
  | internal {p l q a s} :
    .internal ⟨p, l, q⟩ ∈ A.transitions → A.Reads l a → Step ⟨p, s⟩ [.internal a] ⟨q, s⟩
  | call {p l q a s} :
    .call ⟨p, l, q⟩ ∈ A.transitions → A.Reads l a → Step ⟨p, s⟩ [.call a] ⟨q, p :: s⟩
  | ret {p c l q a s} :
    .ret ⟨p, c, l, q⟩ ∈ A.transitions → A.Reads l a → Step ⟨p, c :: s⟩ [.ret a] ⟨q, s⟩

-- A run never is in the stuck state.
inductive Run : Configuration → Word → Configuration → Prop
  | nil {c} : ¬A.IsStuck c.state → Run c [] c
  | cons {c d e v w} : ¬A.IsStuck c.state → A.Step c v d → Run d w e → Run c (v ++ w) e

def Accepts (w : Word) : Prop :=
  ∃ p ∈ A.states.initial, ∃ q ∈ A.states.final, A.Run ⟨p, []⟩ w ⟨q, []⟩

end Automaton

end NestedAutomata
