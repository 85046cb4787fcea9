import NestedAutomata.Automaton.Reachability
import NestedAutomata.Proofs.Automaton.Update

namespace NestedAutomata.Automaton

-- The one automaton is what the other comes down to on the states that are kept.
structure Restricted {ι : Type} (A : Automaton ι) (keep : Key → Prop) (B : Automaton ι) : Prop where
  mode        : B.states.stuck = A.states.stuck
  members     : ∀ q, q ∈ B.states ↔ q ∈ A.states ∧ keep q
  initial     : ∀ q, q ∈ B.states.initial ↔ q ∈ A.states.initial ∧ keep q
  final       : ∀ q, q ∈ B.states.final ↔ q ∈ A.states.final ∧ keep q
  alphabet    : B.alphabet = A.alphabet
  transitions : ∀ t, t ∈ B.transitions ↔ t ∈ A.transitions ∧ ∀ q ∈ t.states, keep q

variable {ι : Type} {A B C : Automaton ι} {keep keep' : Key → Prop} {p q a : Key} {l kept : List Key}

namespace Restricted

theorem isStuck_iff (h : A.Restricted keep B) : B.IsStuck q ↔ A.IsStuck q :=
  isStuck_congr h.mode

theorem mem_ordinary (h : A.Restricted keep B) : q ∈ B.ordinary ↔ q ∈ A.ordinary ∧ keep q := by
  rw [Automaton.mem_ordinary, Automaton.mem_ordinary, h.members, h.isStuck_iff, and_right_comm]

theorem reads_iff (h : A.Restricted keep B) {label : Key} : B.Reads label a ↔ A.Reads label a := by
  rw [Reads, Reads, h.alphabet]

theorem refl (all : ∀ q, keep q) : A.Restricted keep A := by
  constructor <;> simp [all]

theorem congr (h : A.Restricted keep B) (same : ∀ q, keep q ↔ keep' q) : A.Restricted keep' B := by
  obtain rfl : keep = keep' := funext fun q => propext (same q)
  exact h

theorem trans (h : A.Restricted keep B) (h' : B.Restricted keep' C) :
    A.Restricted (fun q => keep q ∧ keep' q) C where
  mode          := h'.mode.trans h.mode
  members q     := by rw [h'.members, h.members, and_assoc]
  initial q     := by rw [h'.initial, h.initial, and_assoc]
  final q       := by rw [h'.final, h.final, and_assoc]
  alphabet      := h'.alphabet.trans h.alphabet
  transitions t := by simp only [h'.transitions, h.transitions, and_assoc, imp_and, forall_and]

end Restricted

theorem restricted_removeState : A.Restricted (fun p => p ∈ A.ordinary → p ≠ q) (A.removeState q) := by
  by_cases hq : q ∈ A.ordinary
  case neg =>
    have others (p : Key) (hp : p ∈ A.ordinary) : p ≠ q := fun e => hq (e ▸ hp)
    rw [mem_ordinary] at hq
    rw [removeState, if_neg hq]
    exact .refl others
  case pos =>
    have others (p : Key) : p ≠ q ↔ (p ∈ A.ordinary → p ≠ q) :=
      ⟨fun ne _ => ne, fun h e => h (e ▸ hq) e⟩
    rw [mem_ordinary] at hq
    rw [removeState, if_pos hq]
    suffices restricted : A.Restricted (· ≠ q) _ from restricted.congr others
    constructor
    case mode        => simp only [States.remove, if_neg hq.2]
    case members     => simp [States.mem_remove, hq.2]
    case initial     => simp [States.remove, hq.2]
    case final       => simp [States.remove, hq.2]
    case alphabet    => rfl
    case transitions =>
      intro t
      rw [Transitions.mem_removeState, ← List.forall_mem_ne']

theorem restricted_removeStates :
    A.Restricted (fun p => p ∈ A.ordinary → p ∉ l) (A.removeStates l) := by
  induction l generalizing A with
  | nil => exact .refl fun _ _ => List.not_mem_nil
  | cons q l ih =>
    have first := restricted_removeState (A := A) (q := q)
    refine (first.trans ih).congr fun p => ?_
    rw [first.mem_ordinary, List.mem_cons, not_or]
    grind

theorem restricted_retain : A.Restricted (fun p => p ∈ A.ordinary → p ∈ kept) (A.retain kept) := by
  refine restricted_removeStates.congr fun p => forall_congr' fun hp => ?_
  simp [hp]

theorem retain_eq_self (h : ∀ q ∈ A.ordinary, q ∈ kept) : A.retain kept = A := by
  have none : A.ordinary.filter (· ∉ kept) = [] := by simpa [List.filter_eq_nil_iff] using h
  rw [retain, none]
  rfl

end NestedAutomata.Automaton
