import NestedAutomata.Automaton.Update
import NestedAutomata.Proofs.States
import NestedAutomata.Transitions.Lemmas

namespace NestedAutomata

theorem Transition.labelled_of_label_ne {t : Transition} (h : t.label ≠ .ε) : t.Labelled := by
  cases t with
  | internal   => trivial
  | call | ret => exact h

theorem Transition.origin_mem_states {t : Transition} : t.origin ∈ t.states := by
  cases t <;> simp [origin, states]

theorem Transition.destination_mem_states {t : Transition} : t.destination ∈ t.states := by
  cases t <;> simp [destination, states]

namespace Automaton

variable {ι : Type} {A : Automaton ι} {p q a b : Key} {l : List Key} {t u : Transition}

theorem mem_ordinary : q ∈ A.ordinary ↔ q ∈ A.states ∧ ¬A.IsStuck q := by
  simp [ordinary]

theorem addSymbols_eq : A.addSymbols l = { A with alphabet := A.alphabet.addAll l } := by
  induction l generalizing A with
  | nil => rfl
  | cons a l ih => exact ih

@[simp]
theorem states_addSymbols : (A.addSymbols l).states = A.states := by
  rw [addSymbols_eq]

@[simp]
theorem transitions_addSymbols : (A.addSymbols l).transitions = A.transitions := by
  rw [addSymbols_eq]

@[simp]
theorem mem_alphabet_addSymbols :
    a ∈ (A.addSymbols l).alphabet ↔ a ∈ A.alphabet ∨ a ∈ l ∧ ¬a.Reserved := by
  rw [addSymbols_eq, Alphabet.mem_addAll]

theorem mem_states_addFinal : p ∈ (A.addFinal q).states ↔ p = q ∨ p ∈ A.states := by
  simp only [addFinal]
  split <;> exact States.mem_addFinal

@[simp]
theorem initial_addFinal : (A.addFinal q).states.initial = A.states.initial := by
  simp only [addFinal]
  split <;> rfl

theorem addFinal_of_not_isStuck (h : ¬A.IsStuck q) :
    A.addFinal q = { A with states := A.states.addFinal q } := by
  rw [addFinal, if_neg h]

theorem addInitials_eq : A.addInitials l = { A with states := l.foldl States.addInitial A.states } := by
  induction l generalizing A with
  | nil => rfl
  | cons q l ih => exact ih

theorem addFinals_eq (h : ∀ q ∈ l, ¬A.IsStuck q) :
    A.addFinals l = { A with states := l.foldl States.addFinal A.states } := by
  induction l generalizing A with
  | nil => rfl
  | cons q l ih =>
    have ⟨hq, hl⟩ := List.forall_mem_cons.mp h
    have first := addFinal_of_not_isStuck hq
    have rest := ih (A := A.addFinal q) (by rw [first]; exact hl)
    rw [addFinals, List.foldl_cons]
    rw [addFinals] at rest
    rw [rest, first, List.foldl_cons]

-- A state is added, and designated as initial and as final under some conditions.
structure Enters (initial final : Prop) (q : Key) (A B : Automaton ι) : Prop where
  mode        : B.states.stuck = A.states.stuck
  members     : ∀ p, p ∈ B.states ↔ p = q ∨ p ∈ A.states
  initial     : ∀ p, p ∈ B.states.initial ↔ (q = p ∧ initial) ∨ p ∈ A.states.initial
  final       : ∀ p, p ∈ B.states.final ↔ (q = p ∧ final) ∨ p ∈ A.states.final
  alphabet    : B.alphabet = A.alphabet
  transitions : B.transitions = A.transitions

namespace Enters

variable {B : Automaton ι} {i f : Prop}

theorem addState : Enters False False q A (A.addState q) where
  mode        := rfl
  members _   := States.mem_add
  initial     := by simp [Automaton.addState, States.add]
  final       := by simp [Automaton.addState, States.add]
  alphabet    := rfl
  transitions := rfl

theorem withTransitions {ts : Transitions} (h : Enters i f q A B) :
    Enters i f q { A with transitions := ts } { B with transitions := ts } :=
  { h with transitions := rfl }

theorem congr {i' f' : Prop} (h : Enters i f q A B) (hi : i ↔ i') (hf : f ↔ f') :
    Enters i' f' q A B := by
  rwa [← hi, ← hf]

theorem elim {x? : Option ι} (h : Enters i f q A B) : Enters i f q A (x?.elim B (B.setInfo q)) := by
  cases x? with
  | none   => exact h
  | some x =>
    constructor
    case mode        => exact States.stuck_setInfo.trans h.mode
    case members     => exact fun p => States.mem_setInfo.trans (h.members p)
    case initial     => exact fun p => (States.initial_setInfo (x := x) (q := q) ▸ h.initial p :)
    case final       => exact fun p => (States.final_setInfo (x := x) (q := q) ▸ h.final p :)
    case alphabet    => exact h.alphabet
    case transitions => exact h.transitions

theorem addInitial [Decidable i] (h : Enters False f q A B) :
    Enters i f q A (if i then B.addInitial q else B) := by
  split
  case isFalse hi => simpa only [hi] using h
  case isTrue hi  =>
    refine { h with members := fun p => ?_, initial := fun p => ?_ }
    · exact States.mem_addInitial.trans (by simp [h.members])
    · have := h.initial p
      simp [Automaton.addInitial, States.addInitial, States.add, hi, this, eq_comm]

theorem addFinal [Decidable f] (h : Enters i False q A B) (hq : ¬A.IsStuck q) :
    Enters i f q A (if f then B.addFinal q else B) := by
  have hq : ¬B.IsStuck q := fun hs => hq (h.mode.symm.trans hs)
  rw [addFinal_of_not_isStuck hq]
  split
  case isFalse hf => simpa only [hf] using h
  case isTrue hf  =>
    refine { h with members := fun p => ?_, final := fun p => ?_ }
    · exact States.mem_addFinal.trans (by simp [h.members])
    · have := h.final p
      simp [States.addFinal, States.add, hf, this, eq_comm]

end Enters

section Add

theorem mem_transitions_add :
    u ∈ (A.add t).transitions ↔ u ∈ A.transitions ∨ u = t ∧ t.Labelled ∧ ¬A.Leaves t := by
  simp only [add]
  split
  case isTrue h =>
    simp only [Admits] at h
    simp [h]
  case isFalse h =>
    simp only [Admits] at h
    grind

theorem mem_states_add : q ∈ (A.add t).states ↔ q ∈ A.states ∨ q ∈ t.states ∧ A.Admits t := by
  simp only [add]
  split
  case isTrue h  => simp [h, or_comm]
  case isFalse h => simp [h]

theorem mem_alphabet_add :
    a ∈ (A.add t).alphabet ↔ a ∈ A.alphabet ∨ a = t.label ∧ ¬a.Reserved ∧ A.Admits t := by
  simp only [add]
  split
  case isTrue h  =>
    simp only [Alphabet.mem_add, h, and_true]
    exact or_congr_right (and_congr_right fun e => e ▸ .rfl)
  case isFalse h => simp [h]

@[simp]
theorem initial_add : (A.add t).states.initial = A.states.initial := by
  simp only [add]
  split <;> simp

@[simp]
theorem final_add : (A.add t).states.final = A.states.final := by
  simp only [add]
  split <;> simp

@[simp]
theorem stuck_add : (A.add t).states.stuck = A.states.stuck := by
  simp only [add]
  split <;> simp

theorem isStuck_congr {A B : Automaton ι} (h : A.states.stuck = B.states.stuck) :
    A.IsStuck q ↔ B.IsStuck q := by
  simp only [IsStuck, States.IsStuck, h]

theorem leaves_congr {A B : Automaton ι} (h : A.states.stuck = B.states.stuck) :
    A.Leaves t ↔ B.Leaves t := by
  simp only [Leaves, isStuck_congr h]

variable {ts us : List Transition}

theorem addAll_append : A.addAll (ts ++ us) = (A.addAll ts).addAll us :=
  List.foldl_append

@[simp]
theorem initial_addAll : (A.addAll ts).states.initial = A.states.initial := by
  induction ts generalizing A with
  | nil => rfl
  | cons t ts ih => exact ih.trans initial_add

@[simp]
theorem final_addAll : (A.addAll ts).states.final = A.states.final := by
  induction ts generalizing A with
  | nil => rfl
  | cons t ts ih => exact ih.trans final_add

@[simp]
theorem stuck_addAll : (A.addAll ts).states.stuck = A.states.stuck := by
  induction ts generalizing A with
  | nil => rfl
  | cons t ts ih => exact ih.trans stuck_add

theorem mem_transitions_addAll :
    u ∈ (A.addAll ts).transitions ↔ u ∈ A.transitions ∨ u ∈ ts ∧ u.Labelled ∧ ¬A.Leaves u := by
  induction ts generalizing A with
  | nil => simp [addAll]
  | cons t ts ih =>
    have := ih (A := A.add t)
    simp only [addAll, List.foldl_cons] at this ⊢
    rw [this, mem_transitions_add, leaves_congr (B := A) stuck_add, List.mem_cons]
    grind

end Add

section RemoveSymbol

@[simp]
theorem states_removeSymbol : (A.removeSymbol a).states = A.states := by
  unfold removeSymbol
  split <;> rfl

theorem mem_alphabet_removeSymbol : b ∈ (A.removeSymbol a).alphabet ↔ b ∈ A.alphabet ∧ b ≠ a := by
  unfold removeSymbol
  split
  case isTrue     => exact Alphabet.mem_remove
  case isFalse ha => exact (and_iff_left_of_imp fun hb (e : b = a) => ha (e ▸ hb)).symm

theorem mem_transitions_removeSymbol (ha : a ∈ A.alphabet) :
    t ∈ (A.removeSymbol a).transitions ↔ t ∈ A.transitions ∧ t.label ≠ a := by
  rw [removeSymbol, if_pos ha]
  exact Transitions.mem_removeSymbol

end RemoveSymbol

inductive Implicit (A : Automaton ι) (stuck : Key) : Transition → Prop
  | internal {p a : Key} :
    p ∈ A.states → a ∈ A.alphabet → A.internalTargets p a = [] →
      Implicit A stuck (.internal ⟨p, a, stuck⟩)
  | call {p a : Key} :
    p ∈ A.states → a ∈ A.alphabet → A.callEntries p a = [] → Implicit A stuck (.call ⟨p, a, stuck⟩)
  | ret {p c a : Key} :
    p ∈ A.states → c ∈ A.states → a ∈ A.alphabet → A.returnTargets p c a = [] →
      Implicit A stuck (.ret ⟨p, c, a, stuck⟩)

theorem mem_implicit : t ∈ A.implicit q ↔ A.Implicit q t := by
  simp only [implicit, implicit.states, implicit.symbols, List.mem_append, List.mem_flatMap,
    SortedSet.mem_toList, States.mem_members, Alphabet.mem_toList, List.isEmpty_iff,
    List.mem_ite_nil_right, List.mem_singleton]
  constructor
  case mp =>
    rintro ((⟨p, hp, a, ha, h, rfl⟩ | ⟨p, hp, a, ha, h, rfl⟩) | ⟨p, hp, c, hc, a, ha, h, rfl⟩)
    · exact .internal hp ha h
    · exact .call hp ha h
    · exact .ret hp hc ha h
  case mpr =>
    intro h
    cases h with
    | internal hp ha h => exact .inl <| .inl ⟨_, hp, _, ha, h, rfl⟩
    | call hp ha h     => exact .inl <| .inr ⟨_, hp, _, ha, h, rfl⟩
    | ret hp hc ha h   => exact .inr ⟨_, hp, _, hc, _, ha, h, rfl⟩

theorem Implicit.labelled (h : A.Implicit q t) : t.Labelled := by
  cases h with
  | internal => trivial
  | call _ ha | ret _ _ ha => exact fun e => A.alphabet.unreserved _ ha (.inl e)

theorem mem_transitions_complete :
    t ∈ (A.complete q).transitions ↔ t ∈ A.transitions ∨ A.Implicit q t := by
  simp only [complete, Transitions.mem_addAll, mem_implicit]
  exact or_congr_right (and_iff_left_of_imp Implicit.labelled)

theorem mem_transitions_addFinal (h : t ∈ A.transitions) : t ∈ (A.addFinal q).transitions := by
  simp only [addFinal]
  split
  case isTrue  => exact mem_transitions_complete.mpr (.inl h)
  case isFalse => exact h

end Automaton

end NestedAutomata
