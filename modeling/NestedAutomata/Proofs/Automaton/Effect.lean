import NestedAutomata.Proofs.Automaton.Restriction
import NestedAutomata.Proofs.Obtained

namespace NestedAutomata.Automaton

variable {ι : Type} {A B : Automaton ι} {q x a r : Key} {t : Transition}

section Idle

end Idle

section Effective

namespace Alike

theorem refl : A.Alike A :=
  ⟨⟨rfl, rfl, rfl, rfl⟩, rfl, rfl⟩

variable (h : A.Alike B)
include h

theorem mem_final_iff : q ∈ A.states.final ↔ q ∈ B.states.final := by
  rw [h.1.2.2.1]

theorem mem_transitions_iff : t ∈ A.transitions ↔ t ∈ B.transitions := by
  rw [h.2.2]

end Alike

end Effective

end NestedAutomata.Automaton
