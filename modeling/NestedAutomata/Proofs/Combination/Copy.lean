import NestedAutomata.Combination
import NestedAutomata.Proofs.Level

namespace NestedAutomata.Automaton

variable {ι : Type} {A B R : Automaton ι} {p q a stuck : Key} {t : Transition} {l m : List Key}
variable {w : Word}

theorem mem_ordinaryInitial : q ∈ A.ordinaryInitial ↔ q ∈ A.states.initial ∧ ¬A.IsStuck q := by
  simp [ordinaryInitial]

theorem mem_ordinaryFinal : q ∈ A.ordinaryFinal ↔ q ∈ A.states.final ∧ ¬A.IsStuck q := by
  simp [ordinaryFinal]

theorem requireFree_eq_ok (h : stuck ∈ A.states → A.IsStuck stuck) : A.requireFree stuck = .ok () :=
  if_neg fun ⟨hs, ho⟩ => ho (h hs)

structure Copied (A B R : Automaton ι) : Prop where
  members     : ∀ q, q ∈ R.states ↔ q ∈ A.states ∨ q ∈ B.ordinary
  initial     : R.states.initial = A.states.initial
  final       : R.states.final = A.states.final
  mode        : R.states.stuck = A.states.stuck
  alphabet    : ∀ a, a ∈ R.alphabet ↔ a ∈ A.alphabet ∨ a ∈ B.alphabet
  transitions : R.transitions = A.transitions

theorem copied_copyStates : Copied A B (A.copyStates B) := by
  have states (l : List Key) (A : Automaton ι) :
      let C := l.foldl (fun A q => (B.states.info? q).elim (A.addState q) ((A.addState q).setInfo q)) A
      (∀ q, q ∈ C.states ↔ q ∈ A.states ∨ q ∈ l) ∧ C.states.initial = A.states.initial ∧
        C.states.final = A.states.final ∧ C.states.stuck = A.states.stuck ∧ C.alphabet = A.alphabet ∧
        C.transitions = A.transitions := by
    induction l generalizing A with
    | nil => simp
    | cons p l ih =>
      have enters : A.Enters False False p
          ((B.states.info? p).elim (A.addState p) ((A.addState p).setInfo p)) :=
        .elim .addState
      have ⟨members, initial, final, mode, alphabet, transitions⟩ :=
        ih ((B.states.info? p).elim (A.addState p) ((A.addState p).setInfo p))
      refine ⟨fun q => ?_, ?_, ?_, mode.trans enters.mode, alphabet.trans enters.alphabet,
        transitions.trans enters.transitions⟩
      · rw [List.foldl_cons, members, enters.members, List.mem_cons, or_assoc, or_left_comm]
      · refine initial.trans (SortedSet.ext_mem fun q => ?_)
        simp [enters.initial]
      · refine final.trans (SortedSet.ext_mem fun q => ?_)
        simp [enters.final]
  have ⟨members, initial, final, mode, alphabet, transitions⟩ := states B.ordinary A
  constructor
  case members     => exact fun q => by rw [copyStates, states_addSymbols]; exact members q
  case initial     => rw [copyStates, states_addSymbols]; exact initial
  case final       => rw [copyStates, states_addSymbols]; exact final
  case mode        => rw [copyStates, states_addSymbols]; exact mode
  case transitions => rw [copyStates, transitions_addSymbols]; exact transitions
  case alphabet    =>
    intro a
    rw [copyStates, addSymbols_eq, Alphabet.mem_addAll_toList, alphabet]

theorem mem_ordinaryTransitions :
    t ∈ A.ordinaryTransitions ↔ t ∈ A.transitions ∧ ∀ q ∈ t.states, ¬A.IsStuck q := by
  simp [ordinaryTransitions]

theorem internal_mem_ordinaryTransitions {t : Internal} : .internal t ∈ A.ordinaryTransitions ↔
    .internal t ∈ A.transitions ∧ ¬A.IsStuck t.source ∧ ¬A.IsStuck t.target := by
  simp [mem_ordinaryTransitions, Transition.states]

theorem call_mem_ordinaryTransitions {t : Call} : .call t ∈ A.ordinaryTransitions ↔
    .call t ∈ A.transitions ∧ ¬A.IsStuck t.callSite ∧ ¬A.IsStuck t.entry := by
  simp [mem_ordinaryTransitions, Transition.states]

theorem ret_mem_ordinaryTransitions {t : Return} : .ret t ∈ A.ordinaryTransitions ↔
    .ret t ∈ A.transitions ∧ ¬A.IsStuck t.exit ∧ ¬A.IsStuck t.callSite ∧ ¬A.IsStuck t.returnSite := by
  simp [mem_ordinaryTransitions, Transition.states]

theorem mem_alphabet_addAll {ts : List Transition}
    (labels : ∀ t ∈ ts, t.label ∈ A.alphabet ∨ t.label.Reserved) :
    a ∈ (A.addAll ts).alphabet ↔ a ∈ A.alphabet := by
  induction ts generalizing A with
  | nil => rfl
  | cons t ts ih =>
    have ⟨first, rest⟩ := List.forall_mem_cons.mp labels
    have same {b : Key} : b ∈ (A.add t).alphabet ↔ b ∈ A.alphabet := by
      rw [mem_alphabet_add]
      refine or_iff_left_of_imp fun ⟨hb, hr, _⟩ => ?_
      exact hb ▸ first.resolve_right (hb ▸ hr)
    exact (ih fun t ht => (rest t ht).imp_left same.mpr).trans same

section CopyTransitions

variable (hA : A.WellFormed)
include hA

theorem WellFormed.mem_ordinaryTransitions :
    t ∈ A.ordinaryTransitions ↔ t ∈ A.transitions ∧ ∀ q ∈ t.states, q ∈ A.ordinary := by
  rw [Automaton.mem_ordinaryTransitions]
  refine and_congr_right fun ht => forall₂_congr fun q hq => ?_
  rw [mem_ordinary, and_iff_right (hA.columns t ht q hq)]

theorem mem_transitions_copyTransitions (h : ∀ q ∈ A.ordinary, ¬R.IsStuck q) :
    t ∈ (R.copyTransitions A).transitions ↔ t ∈ R.transitions ∨ t ∈ A.ordinaryTransitions := by
  rw [copyTransitions, mem_transitions_addAll]
  refine or_congr_right (and_iff_left_of_imp fun ht => ?_)
  have ⟨ht, ordinary⟩ := hA.mem_ordinaryTransitions.mp ht
  exact ⟨hA.labelled t ht, fun hl => h _ (ordinary _ Transition.origin_mem_states) hl.1⟩

theorem mem_alphabet_copyTransitions (h : ∀ a ∈ A.alphabet, a ∈ R.alphabet) :
    a ∈ (R.copyTransitions A).alphabet ↔ a ∈ R.alphabet := by
  apply mem_alphabet_addAll
  intro t ht
  exact (hA.labels t (mem_ordinaryTransitions.mp ht).1).imp_left (h _)

end CopyTransitions

theorem isStuck_iff (h : A.states.stuck = .designated stuck) : A.IsStuck q ↔ stuck = q :=
  ⟨fun hq => Stuck.designated.inj (h.symm.trans hq), fun e => e ▸ h⟩

theorem not_isStuck_of_free (mode : R.states.stuck = .designated stuck)
    (free : stuck ∈ A.states → A.IsStuck stuck) (hq : q ∈ A.ordinary) : ¬R.IsStuck q := by
  have ⟨hq, ho⟩ := mem_ordinary.mp hq
  rw [isStuck_iff mode]
  rintro rfl
  exact ho (free hq)

-- The result before there are transitions, with the states and the symbols of the operands.
structure Placed (operands : List (Automaton ι)) (stuck : Key) (starts ends : List Key) (R : Automaton ι) :
    Prop where
  mode        : R.states.stuck = .designated stuck
  initial     : ∀ q, q ∈ R.states.initial ↔ q ∈ starts
  final       : ∀ q, q ∈ R.states.final ↔ q ∈ ends
  alphabet    : ∀ a, a ∈ R.alphabet ↔ ∃ A ∈ operands, a ∈ A.alphabet
  transitions : R.transitions = ∅

namespace Placed

variable {operands : List (Automaton ι)} {starts ends : List Key}

theorem ofStuck : Placed [] stuck [] [] (ofStuck stuck : Automaton ι) where
  mode        := rfl
  initial _   := iff_of_false SortedSet.not_mem_empty List.not_mem_nil
  final _     := iff_of_false SortedSet.not_mem_empty List.not_mem_nil
  alphabet _  := iff_of_false SortedSet.not_mem_empty fun ⟨_, h, _⟩ => List.not_mem_nil h
  transitions := rfl

variable (h : Placed operands stuck starts ends R)
include h

theorem copyStates : Placed (operands ++ [A]) stuck starts ends (R.copyStates A) := by
  have copied : Copied R A (R.copyStates A) := copied_copyStates
  constructor
  case mode        => exact copied.mode.trans h.mode
  case initial     => exact copied.initial ▸ h.initial
  case final       => exact copied.final ▸ h.final
  case alphabet    => simp [copied.alphabet, h.alphabet, or_and_right, exists_or]
  case transitions => exact copied.transitions.trans h.transitions

theorem addInitials : Placed operands stuck (starts ++ l) ends (R.addInitials l) := by
  have ⟨final, mode, initial⟩ := @States.foldl_addInitial ι R.states l
  rw [addInitials_eq]
  constructor
  case mode        => exact mode.trans h.mode
  case initial     => exact fun q => (initial q).trans (by rw [h.initial, List.mem_append])
  case final       => exact fun q => final ▸ h.final q
  case alphabet    => exact h.alphabet
  case transitions => exact h.transitions

theorem addFinals (ordinary : ∀ q ∈ l, ¬R.IsStuck q) :
    Placed operands stuck starts (ends ++ l) (R.addFinals l) := by
  have ⟨initial, mode, final⟩ := @States.foldl_addFinal ι R.states l
  rw [addFinals_eq ordinary]
  constructor
  case mode        => exact mode.trans h.mode
  case initial     => exact fun q => initial ▸ h.initial q
  case final       => exact fun q => (final q).trans (by rw [h.final, List.mem_append])
  case alphabet    => exact h.alphabet
  case transitions => exact h.transitions

theorem not_mem_transitions : t ∉ R.transitions := by
  rw [h.transitions]
  exact Transitions.not_mem_empty

end Placed

-- An operand without its stuck state and its designations, next to another stuck state.
structure Kept (A : Automaton ι) (stuck : Key) (R : Automaton ι) : Prop where
  mode        : R.states.stuck = .designated stuck
  initial     : R.states.initial = ∅
  final       : R.states.final = ∅
  alphabet    : ∀ a, a ∈ R.alphabet ↔ a ∈ A.alphabet
  transitions : ∀ t, t ∈ R.transitions ↔ t ∈ A.ordinaryTransitions

theorem kept_copy (hA : A.WellFormed) (free : stuck ∈ A.states → A.IsStuck stuck) :
    Kept A stuck (((ofStuck stuck).copyStates A).copyTransitions A) := by
  have copied : Copied (ofStuck stuck) A ((ofStuck stuck).copyStates A) := copied_copyStates
  generalize (ofStuck stuck).copyStates A = R at *
  have ordinary : ∀ q ∈ A.ordinary, ¬R.IsStuck q := fun _ => not_isStuck_of_free copied.mode free
  constructor
  case mode        => exact stuck_addAll.trans copied.mode
  case initial     => exact initial_addAll.trans copied.initial
  case final       => exact final_addAll.trans copied.final
  case alphabet    =>
    intro a
    rw [mem_alphabet_copyTransitions hA fun a ha => (copied.alphabet a).mpr (.inr ha), copied.alphabet]
    exact or_iff_right SortedSet.not_mem_empty
  case transitions =>
    intro t
    rw [mem_transitions_copyTransitions hA ordinary, copied.transitions]
    exact or_iff_right Transitions.not_mem_empty

theorem mem_transitions_bridge (h : ∀ p ∈ l, ¬A.IsStuck p) :
    t ∈ (A.bridge l m).transitions ↔
      t ∈ A.transitions ∨ ∃ p ∈ l, ∃ q ∈ m, t = .internal ⟨p, .ε, q⟩ := by
  simp only [bridge, mem_transitions_addAll, List.mem_flatMap, List.mem_map]
  constructor
  case mp  =>
    rintro (ht | ⟨⟨p, hp, q, hq, rfl⟩, _⟩)
    · exact .inl ht
    · exact .inr ⟨p, hp, q, hq, rfl⟩
  case mpr =>
    rintro (ht | ⟨p, hp, q, hq, rfl⟩)
    · exact .inl ht
    · exact .inr ⟨⟨p, hp, q, hq, rfl⟩, trivial, fun hl => h p hp hl.1⟩

theorem mem_alphabet_bridge : a ∈ (A.bridge l m).alphabet ↔ a ∈ A.alphabet := by
  apply mem_alphabet_addAll
  intro t ht
  simp only [List.mem_flatMap, List.mem_map] at ht
  obtain ⟨_, _, _, _, rfl⟩ := ht
  exact .inr (.inl rfl)

theorem WellFormed.ordinary_of_initial (hA : A.WellFormed) (hq : q ∈ A.ordinaryInitial) :
    q ∈ A.ordinary :=
  have ⟨hq, ho⟩ := mem_ordinaryInitial.mp hq
  mem_ordinary.mpr ⟨hA.states.initial q hq, ho⟩

theorem WellFormed.ordinary_of_final (hA : A.WellFormed) (hq : q ∈ A.ordinaryFinal) : q ∈ A.ordinary :=
  have ⟨hq, ho⟩ := mem_ordinaryFinal.mp hq
  mem_ordinary.mpr ⟨hA.states.final q hq, ho⟩

section Apart

theorem overlap_symm (h : A.Overlap B) : B.Overlap A :=
  have ⟨q, hA, hB, ho⟩ := h
  ⟨q, hB, hA, fun hs => ho hs.symm⟩

theorem not_mem_of_mem_ordinary (apart : ¬A.Overlap B) (hq : q ∈ A.ordinary) : q ∉ B.ordinary := by
  have ⟨hq, ho⟩ := mem_ordinary.mp hq
  intro hq'
  exact apart ⟨q, hq, (mem_ordinary.mp hq').1, fun hs => ho hs.1⟩

theorem mem_ordinaryTransitions_of_origin (hB : B.WellFormed) (apart : ¬A.Overlap B)
    (ht : t ∈ A.ordinaryTransitions ∨ t ∈ B.ordinaryTransitions) (ho : t.origin ∈ A.ordinary) :
    t ∈ A.ordinaryTransitions := by
  refine ht.resolve_right fun ht => not_mem_of_mem_ordinary apart ho ?_
  exact (hB.mem_ordinaryTransitions.mp ht).2 _ Transition.origin_mem_states

end Apart

section Beside

def beside (A B R : Automaton ι) : Automaton ι :=
  (R.copyTransitions A).copyTransitions B

@[simp]
theorem stuck_beside : (beside A B R).states.stuck = R.states.stuck := by
  simp [beside, copyTransitions]

@[simp]
theorem initial_beside : (beside A B R).states.initial = R.states.initial := by
  simp [beside, copyTransitions]

@[simp]
theorem final_beside : (beside A B R).states.final = R.states.final := by
  simp [beside, copyTransitions]

variable {starts ends : List Key} (h : Placed [A, B] stuck starts ends R)
variable (hA : A.WellFormed) (hB : B.WellFormed)
include h hA hB

theorem mem_alphabet_beside : a ∈ (beside A B R).alphabet ↔ a ∈ A.alphabet ∨ a ∈ B.alphabet := by
  have both {a : Key} : a ∈ R.alphabet ↔ a ∈ A.alphabet ∨ a ∈ B.alphabet := by simp [h.alphabet]
  have first {a : Key} : a ∈ (R.copyTransitions A).alphabet ↔ a ∈ R.alphabet :=
    mem_alphabet_copyTransitions hA fun _ ha => both.mpr (.inl ha)
  have second : a ∈ (beside A B R).alphabet ↔ _ :=
    mem_alphabet_copyTransitions hB fun _ ha => first.mpr (both.mpr (.inr ha))
  rw [second, first, both]

theorem mem_transitions_beside (freeA : stuck ∈ A.states → A.IsStuck stuck)
    (freeB : stuck ∈ B.states → B.IsStuck stuck) :
    t ∈ (beside A B R).transitions ↔ t ∈ A.ordinaryTransitions ∨ t ∈ B.ordinaryTransitions := by
  have mode : (R.copyTransitions A).states.stuck = .designated stuck := stuck_addAll.trans h.mode
  rw [beside, mem_transitions_copyTransitions hB fun _ => not_isStuck_of_free mode freeB,
    mem_transitions_copyTransitions hA fun _ => not_isStuck_of_free h.mode freeA,
    or_iff_right h.not_mem_transitions]

end Beside

-- The operand is part of the result, less its stuck state.
structure Part (A R : Automaton ι) : Prop where
  ordinary    : ∀ q ∈ A.ordinary, ¬R.IsStuck q
  alphabet    : ∀ a, a ∈ R.alphabet ↔ a ∈ A.alphabet
  transitions : ∀ t ∈ A.ordinaryTransitions, t ∈ R.transitions

namespace Part

theorem addSymbols (mode : R.states.stuck = .designated stuck)
    (free : stuck ∈ A.states → A.IsStuck stuck)
    (alphabet : ∀ a, a ∈ R.alphabet ↔ a ∈ A.alphabet ∨ a ∈ B.alphabet)
    (transitions : ∀ t ∈ A.ordinaryTransitions, t ∈ R.transitions) :
    Part (A.addSymbols B.alphabet.toList) R := by
  rw [addSymbols_eq]
  constructor
  case ordinary    => exact fun q => not_isStuck_of_free mode free
  case alphabet    => exact fun a => (alphabet a).trans Alphabet.mem_addAll_toList.symm
  case transitions => exact transitions

variable (h : Part A R) (hA : A.WellFormed)
include h

theorem reads_iff {l : Key} : R.Reads l a ↔ A.Reads l a := by
  simp only [Reads, h.alphabet]

include hA

theorem level (level : A.Level p w q) (hp : p ∈ A.states) : R.Level p w q := by
  have stays {t : Transition} (ht : t ∈ A.transitions) (ho : ¬A.IsStuck t.destination) :
      ¬R.IsStuck t.destination :=
    h.ordinary _ (mem_ordinary.mpr ⟨hA.destination ht, ho⟩)
  induction level with
  | nil hq                                 => exact .nil (h.ordinary _ (mem_ordinary.mpr ⟨hp, hq⟩))
  | rest run ht hr ih                      =>
    have ht' := h.transitions _ (internal_mem_ordinaryTransitions.mpr ⟨ht, run.not_isStuck.2, hr⟩)
    exact (ih hp).rest ht' (stays ht hr)
  | internal run ht hl hr ih               =>
    have ht' := h.transitions _ (internal_mem_ordinaryTransitions.mpr ⟨ht, run.not_isStuck.2, hr⟩)
    exact (ih hp).internal ht' (h.reads_iff.mpr hl) (stays ht hr)
  | nested run hc ha inner ht hm hr ih ih' =>
    obtain ⟨he, hx⟩ := inner.not_isStuck
    have hs := run.not_isStuck.2
    have hc' := h.transitions _ (call_mem_ordinaryTransitions.mpr ⟨hc, hs, he⟩)
    have ht' := h.transitions _ (ret_mem_ordinaryTransitions.mpr ⟨ht, hx, hs, hr⟩)
    exact (ih hp).nested hc' (h.reads_iff.mpr ha) (ih' (hA.destination hc)) ht' (h.reads_iff.mpr hm)
      (stays ht hr)

theorem level_iff (only : ∀ t ∈ R.transitions, t.origin ∈ A.ordinary → t ∈ A.ordinaryTransitions)
    (hp : p ∈ A.ordinary) : R.Level p w q ↔ A.Level p w q := by
  constructor
  case mpr => exact fun level => h.level hA level (mem_ordinary.mp hp).1
  case mp  =>
    intro level
    have old {t : Transition} (ht : t ∈ R.transitions) (ho : t.origin ∈ A.ordinary) :
        t ∈ A.transitions ∧ t.destination ∈ A.ordinary := by
      have ⟨ht, ordinary⟩ := hA.mem_ordinaryTransitions.mp (only t ht ho)
      exact ⟨ht, ordinary _ Transition.destination_mem_states⟩
    have ends {p q : Key} {w : Word} (level : A.Level p w q) (hp : p ∈ A.ordinary) : q ∈ A.ordinary :=
      level.mem_ordinary hA (mem_ordinary.mp hp).1
    induction level with
    | nil                             => exact .nil (mem_ordinary.mp hp).2
    | rest _ ht _ ih                  =>
      have ⟨ht, hr⟩ := old ht (ends (ih hp) hp)
      exact (ih hp).rest ht (mem_ordinary.mp hr).2
    | internal _ ht hl _ ih           =>
      have ⟨ht, hr⟩ := old ht (ends (ih hp) hp)
      exact (ih hp).internal ht (h.reads_iff.mp hl) (mem_ordinary.mp hr).2
    | nested _ hc ha _ ht hm _ ih ih' =>
      have ⟨hc, he⟩ := old hc (ends (ih hp) hp)
      have ⟨ht, hr⟩ := old ht (ends (ih' he) he)
      exact (ih hp).nested hc (h.reads_iff.mp ha) (ih' he) ht (h.reads_iff.mp hm) (mem_ordinary.mp hr).2

end Part

end NestedAutomata.Automaton
