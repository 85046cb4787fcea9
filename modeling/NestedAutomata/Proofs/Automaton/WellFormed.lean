import NestedAutomata.Automaton.Edit
import NestedAutomata.Proofs.Automaton.Update

namespace NestedAutomata.Automaton

structure WellFormed {ι : Type} (A : Automaton ι) : Prop where
  states   : A.states.WellFormed
  columns  : ∀ t ∈ A.transitions, ∀ q ∈ t.states, q ∈ A.states
  labelled : ∀ t ∈ A.transitions, t.Labelled
  labels   : ∀ t ∈ A.transitions, t.label ∈ A.alphabet ∨ t.label.Reserved

variable {ι : Type} {A B : Automaton ι} {p q a : Key} {l : List Key} {t : Transition} {x : ι}

theorem WellFormed.origin (h : A.WellFormed) (ht : t ∈ A.transitions) : t.origin ∈ A.states :=
  h.columns t ht _ Transition.origin_mem_states

theorem WellFormed.destination (h : A.WellFormed) (ht : t ∈ A.transitions) :
    t.destination ∈ A.states :=
  h.columns t ht _ Transition.destination_mem_states

theorem mem_orDouble {r : Key} : r ∈ orDouble p q a ↔ r = a ∨ a = p ∧ r = q := by
  unfold orDouble
  split <;> simp_all

theorem of_mem_orDouble {r : Key} (h : r ∈ orDouble p q a) : r = q ∨ r = a :=
  (mem_orDouble.mp h).symm.imp_left And.right

theorem mem_states_duplicateOutgoing : q ∈ (A.duplicateOutgoing p q).states := by
  simp only [duplicateOutgoing]
  cases A.states.info? p with
  | none   => exact States.mem_add.mpr (.inl rfl)
  | some x => exact States.mem_setInfo.mpr (States.mem_add.mpr (.inl rfl))

theorem exists_of_mem_outgoingCopies (h : t ∈ A.outgoingCopies p q) :
    ∃ u ∈ A.transitions, t.label = u.label ∧ ∀ r ∈ t.states, r = q ∨ r ∈ u.states := by
  simp only [outgoingCopies, List.mem_append, List.mem_map, List.mem_flatMap,
    Transitions.mem_internalsFrom, Transitions.mem_callsFrom, Transitions.mem_returnsFrom,
    Transitions.mem_returnsWithCallSite] at h
  rcases h with (⟨u, ⟨hu, -⟩, rfl⟩ | ⟨u, ⟨hu, -⟩, rfl⟩) | ⟨u, hu, x, hx, c, hc, rfl⟩
  · exact ⟨_, hu, rfl, by simp +contextual [Transition.states]⟩
  · exact ⟨_, hu, rfl, by simp +contextual [Transition.states]⟩
  · have hx := of_mem_orDouble hx
    have hc := of_mem_orDouble hc
    refine ⟨.ret u, hu.elim And.left And.left, rfl, ?_⟩
    simp only [Transition.states, List.mem_cons, List.not_mem_nil, or_false]
    grind

theorem exists_of_mem_incomingCopies (h : t ∈ A.incomingCopies p q) :
    ∃ u ∈ A.transitions, t.label = u.label ∧ ∀ r ∈ t.states, r = q ∨ r ∈ u.states := by
  simp only [incomingCopies, List.mem_append, List.mem_map, List.mem_flatMap,
    Transitions.mem_internalsTo, Transitions.mem_callsTo, Transitions.mem_returnsTo] at h
  rcases h with (⟨u, ⟨hu, -⟩, x, hx, rfl⟩ | ⟨u, ⟨hu, -⟩, x, hx, rfl⟩) | ⟨u, ⟨hu, -⟩, x, hx, c, hc, rfl⟩
  · have hx := of_mem_orDouble hx
    refine ⟨_, hu, rfl, ?_⟩
    simp only [Transition.states, List.mem_cons, List.not_mem_nil, or_false]
    grind
  · have hx := of_mem_orDouble hx
    refine ⟨_, hu, rfl, ?_⟩
    simp only [Transition.states, List.mem_cons, List.not_mem_nil, or_false]
    grind
  · have hx := of_mem_orDouble hx
    have hc := of_mem_orDouble hc
    refine ⟨_, hu, rfl, ?_⟩
    simp only [Transition.states, List.mem_cons, List.not_mem_nil, or_false]
    grind

namespace WellFormed

theorem empty : (∅ : Automaton ι).WellFormed where
  states   := .empty
  columns  := fun _ h => (Transitions.not_mem_empty h).elim
  labelled := fun _ h => (Transitions.not_mem_empty h).elim
  labels   := fun _ h => (Transitions.not_mem_empty h).elim

theorem ofStuck : (Automaton.ofStuck q : Automaton ι).WellFormed where
  states   := .ofStuck
  columns  := fun _ h => (Transitions.not_mem_empty h).elim
  labelled := fun _ h => (Transitions.not_mem_empty h).elim
  labels   := fun _ h => (Transitions.not_mem_empty h).elim

theorem grow (h : A.WellFormed) (states : B.states.WellFormed) (sub : ∀ q ∈ A.states, q ∈ B.states)
    (alphabet : ∀ a ∈ A.alphabet, a ∈ B.alphabet)
    (new : ∀ t ∈ B.transitions, t ∈ A.transitions ∨
      (∀ q ∈ t.states, q ∈ B.states) ∧ t.Labelled ∧ (t.label ∈ B.alphabet ∨ t.label.Reserved)) :
    B.WellFormed where
  states       := states
  columns t ht := (new t ht).elim (fun ht q hq => sub q (h.columns t ht q hq)) And.left
  labelled t ht := (new t ht).elim (h.labelled t) (·.2.1)
  labels t ht   := (new t ht).elim (fun ht => (h.labels t ht).imp_left (alphabet _)) (·.2.2)

theorem withStates (h : A.WellFormed) {qs : States ι} (states : qs.WellFormed)
    (sub : ∀ q ∈ A.states, q ∈ qs) : { A with states := qs }.WellFormed :=
  h.grow states sub (fun _ => id) (fun _ => .inl)

theorem withTransitions (h : A.WellFormed) {ts : Transitions} (sub : ∀ t ∈ ts, t ∈ A.transitions) :
    { A with transitions := ts }.WellFormed :=
  h.grow h.states (fun _ => id) (fun _ => id) (fun t ht => .inl (sub t ht))

theorem addState (h : A.WellFormed) : (A.addState q).WellFormed :=
  h.withStates h.states.add fun _ hp => States.mem_add.mpr (.inr hp)

theorem addInitial (h : A.WellFormed) : (A.addInitial q).WellFormed :=
  h.withStates h.states.addInitial fun _ hp => States.mem_addInitial.mpr (.inr hp)

theorem setInfo (h : A.WellFormed) : (A.setInfo q x).WellFormed :=
  h.withStates h.states.setInfo fun _ => States.mem_setInfo.mpr

theorem addSymbols (h : A.WellFormed) : (A.addSymbols l).WellFormed := by
  apply h.grow <;> simp +contextual [h.states]

theorem add (h : A.WellFormed) : (A.add t).WellFormed := by
  by_cases ht : A.Admits t
  case neg => rwa [Automaton.add, if_neg ht]
  case pos =>
    apply h.grow
    case states   => simpa [Automaton.add, ht] using h.states.addAll
    case sub      => exact fun q hq => mem_states_add.mpr (.inl hq)
    case alphabet => exact fun a ha => mem_alphabet_add.mpr (.inl ha)
    case new      =>
      intro u hu
      cases mem_transitions_add.mp hu with
      | inl hu => exact .inl hu
      | inr hu =>
        obtain ⟨rfl, hl, _⟩ := hu
        refine .inr ⟨fun q hq => mem_states_add.mpr (.inr ⟨hq, ht⟩), hl, ?_⟩
        by_cases hr : u.label.Reserved
        case pos => exact .inr hr
        case neg => exact .inl (mem_alphabet_add.mpr (.inr ⟨rfl, hr, ht⟩))

theorem complete (h : A.WellFormed) (hq : q ∈ A.states) : (A.complete q).WellFormed := by
  apply h.grow
  case states   => exact h.states.realize
  case sub      => exact fun _ => id
  case alphabet => exact fun _ => id
  case new      =>
    intro t ht
    cases mem_transitions_complete.mp ht with
    | inl ht => exact .inl ht
    | inr ht =>
      refine .inr ⟨?_, ht.labelled, ?_⟩
      · cases ht with
        | internal hp | call hp => simpa [Transition.states] using ⟨hp, hq⟩
        | ret hp hc             => simpa [Transition.states] using ⟨hp, hc, hq⟩
      · cases ht with
        | internal _ ha | call _ ha | ret _ _ ha => exact .inl ha

theorem addFinal (h : A.WellFormed) : (A.addFinal q).WellFormed := by
  unfold Automaton.addFinal
  split
  case isTrue hq  =>
    have h := h.complete (h.states.stuck q hq)
    exact h.withStates (h.states.addFinal nofun) fun _ hp => States.mem_addFinal.mpr (.inr hp)
  case isFalse hq =>
    exact h.withStates (h.states.addFinal hq) fun _ hp => States.mem_addFinal.mpr (.inr hp)

theorem addStates (h : A.WellFormed) : (A.addStates l).WellFormed :=
  List.foldlRecOn l _ h fun _ h _ _ => h.addState

theorem addInitials (h : A.WellFormed) : (A.addInitials l).WellFormed :=
  List.foldlRecOn l _ h fun _ h _ _ => h.addInitial

theorem addFinals (h : A.WellFormed) : (A.addFinals l).WellFormed :=
  List.foldlRecOn l _ h fun _ h _ _ => h.addFinal

theorem clearFinal (h : A.WellFormed) : A.clearFinal.WellFormed :=
  h.withStates h.states.clearFinal fun _ => id

theorem realize (h : A.WellFormed) (hB : A.realize = .ok B) : B.WellFormed := by
  unfold Automaton.realize at hB
  split at hB
  case h_1 q hq =>
    cases hB
    exact h.complete (h.states.stuck q hq)
  case h_2 => cases hB

theorem designate (h : A.WellFormed) (hB : A.designate q = .ok B) : B.WellFormed := by
  cases hd : A.states.designate q with
  | error => simp [Automaton.designate, hd, bind, Except.bind] at hB
  | ok qs =>
    simp only [Automaton.designate, hd, bind, Except.bind, pure, Except.pure, Except.ok.injEq] at hB
    subst hB
    exact h.withStates (h.states.designate hd) fun _ => States.mem_of_designate hd

theorem removeState (h : A.WellFormed) : (A.removeState q).WellFormed := by
  simp only [Automaton.removeState]
  split
  case isFalse => exact h
  case isTrue =>
    constructor
    case states => exact h.states.remove
    case columns =>
      intro t ht p hp
      have ⟨ht, hq⟩ := Transitions.mem_removeState.mp ht
      exact States.mem_remove.mpr ⟨h.columns t ht p hp, .inl fun e => hq (e ▸ hp)⟩
    case labelled => exact fun t ht => h.labelled t (Transitions.mem_removeState.mp ht).1
    case labels   => exact fun t ht => h.labels t (Transitions.mem_removeState.mp ht).1

theorem removeStates (h : A.WellFormed) : (A.removeStates l).WellFormed :=
  List.foldlRecOn l _ h fun _ h _ _ => h.removeState

theorem clearStates : A.clearStates.WellFormed where
  states   := .empty
  columns  := fun _ h => (Transitions.not_mem_empty h).elim
  labelled := fun _ h => (Transitions.not_mem_empty h).elim
  labels   := fun _ h => (Transitions.not_mem_empty h).elim

theorem clear : A.clear.WellFormed where
  states   := .clear
  columns  := fun _ h => (Transitions.not_mem_empty h).elim
  labelled := fun _ h => (Transitions.not_mem_empty h).elim
  labels   := fun _ h => (Transitions.not_mem_empty h).elim

theorem removeSymbol (h : A.WellFormed) : (A.removeSymbol a).WellFormed := by
  by_cases ha : a ∈ A.alphabet
  case neg => rwa [Automaton.removeSymbol, if_neg ha]
  case pos =>
    constructor
    case states   => rw [states_removeSymbol]; exact h.states
    case columns  =>
      intro t ht
      rw [states_removeSymbol]
      exact h.columns t (mem_transitions_removeSymbol ha |>.mp ht).1
    case labelled => exact fun t ht => h.labelled t (mem_transitions_removeSymbol ha |>.mp ht).1
    case labels   =>
      intro t ht
      obtain ⟨ht, hl⟩ := mem_transitions_removeSymbol ha |>.mp ht
      exact (h.labels t ht).imp_left fun hm => mem_alphabet_removeSymbol.mpr ⟨hm, hl⟩

theorem clearSymbols (h : A.WellFormed) : A.clearSymbols.WellFormed :=
  List.foldlRecOn _ _ h fun _ h _ _ => h.removeSymbol

theorem remove (h : A.WellFormed) : (A.remove t).WellFormed :=
  h.withTransitions fun _ ht => (Transitions.mem_remove.mp ht).1

theorem removeReturns (h : A.WellFormed) : (A.removeReturns p a q).WellFormed :=
  List.foldlRecOn _ _ h fun _ h _ _ => h.remove

theorem addCopies (h : A.WellFormed) {l : List Transition} (hd : q ∈ A.states)
    (copies : ∀ t ∈ l, ∃ u ∈ A.transitions, t.label = u.label ∧ ∀ p ∈ t.states, p = q ∨ p ∈ u.states) :
    { A with transitions := A.transitions.addAll l }.WellFormed := by
  refine h.grow h.states (fun _ => id) (fun _ => id) ?_
  intro t ht
  cases Transitions.mem_addAll.mp ht with
  | inl ht => exact .inl ht
  | inr ht =>
    have ⟨u, hu, hl, hs⟩ := copies t ht.1
    refine .inr ⟨?_, ht.2, hl ▸ h.labels u hu⟩
    intro p hp
    cases hs p hp with
    | inl hp => exact hp ▸ hd
    | inr hp => exact h.columns u hu p hp

theorem duplicateOutgoing (h : A.WellFormed) : (A.duplicateOutgoing p q).WellFormed := by
  have hB : ((A.states.info? p).elim (A.addState q) ((A.addState q).setInfo q)).WellFormed ∧
      ((A.states.info? p).elim (A.addState q) ((A.addState q).setInfo q)).transitions =
        A.transitions := by
    cases A.states.info? p with
    | none   => exact ⟨h.addState, rfl⟩
    | some x => exact ⟨h.addState.setInfo, rfl⟩
  refine hB.1.addCopies mem_states_duplicateOutgoing fun t ht => ?_
  rw [hB.2]
  exact exists_of_mem_outgoingCopies ht

theorem duplicate (h : A.WellFormed) : (A.duplicate p q).WellFormed := by
  have hB := h.duplicateOutgoing (p := p) (q := q)
  have hq := mem_states_duplicateOutgoing (A := A) (p := p) (q := q)
  simp only [Automaton.duplicate]
  generalize A.duplicateOutgoing p q = B at hB hq ⊢
  have hi : (if p ∈ B.states.initial then B.addInitial q else B).WellFormed ∧
      q ∈ (if p ∈ B.states.initial then B.addInitial q else B).states := by
    split
    case isTrue  => exact ⟨hB.addInitial, States.mem_addInitial.mpr (.inl rfl)⟩
    case isFalse => exact ⟨hB, hq⟩
  generalize (if p ∈ B.states.initial then B.addInitial q else B) = C at hi ⊢
  have hf : (if p ∈ C.states.final then C.addFinal q else C).WellFormed ∧
      q ∈ (if p ∈ C.states.final then C.addFinal q else C).states := by
    split
    case isTrue  => exact ⟨hi.1.addFinal, mem_states_addFinal.mpr (.inl rfl)⟩
    case isFalse => exact hi
  exact hf.1.addCopies hf.2 fun _ => exists_of_mem_incomingCopies

theorem retain (h : A.WellFormed) : (A.retain l).WellFormed :=
  h.removeStates

theorem edit (h : A.WellFormed) {e : Edit ι} (hB : e.apply A = .ok B) : B.WellFormed := by
  cases e with
  | designate           => exact h.designate hB
  | realize             => exact h.realize hB
  | addState            => cases hB; exact h.addState
  | addStates           => cases hB; exact h.addStates
  | removeState         => cases hB; exact h.removeState
  | clearStates         => cases hB; exact .clearStates
  | addInitial          => cases hB; exact h.addInitial
  | addInitials         => cases hB; exact h.addInitials
  | removeInitial       => cases hB; exact h.withStates h.states.removeInitial fun _ => id
  | clearInitial        => cases hB; exact h.withStates h.states.clearInitial fun _ => id
  | addFinal            => cases hB; exact h.addFinal
  | addFinals           => cases hB; exact h.addFinals
  | removeFinal         => cases hB; exact h.withStates h.states.removeFinal fun _ => id
  | clearFinal          => cases hB; exact h.clearFinal
  | setInfo             => cases hB; exact h.setInfo
  | addSymbol a         => cases hB; exact h.addSymbols (l := [a])
  | addSymbols          => cases hB; exact h.addSymbols
  | removeSymbol        => cases hB; exact h.removeSymbol
  | clearSymbols        => cases hB; exact h.clearSymbols
  | add                 => cases hB; exact h.add
  | remove              => cases hB; exact h.remove
  | removeReturns       => cases hB; exact h.removeReturns
  | clearTransitions    => cases hB; exact h.withTransitions fun _ ht => (Transitions.not_mem_empty ht).elim
  | clear               => cases hB; exact .clear
  | duplicate           => cases hB; exact h.duplicate
  | duplicateOutgoing   => cases hB; exact h.duplicateOutgoing
  | removeSinks         => cases hB; exact h.removeStates
  | pruneForward        => cases hB; exact h.retain
  | pruneBackward       => cases hB; exact h.retain
  | pruneInitial        => cases hB; exact h.retain
  | pruneFinal          => cases hB; exact h.retain
  | trim                => cases hB; exact h.retain.retain

theorem mem_alphabet_of_reads (h : A.WellFormed) (ht : t ∈ A.transitions) (hl : A.Reads t.label a)
    (ha : ¬a.Reserved) : a ∈ A.alphabet := by
  cases hl with
  | inl hl => exact (h.labels t ht).elim (hl ▸ ·) fun hr => absurd (hl ▸ hr) ha
  | inr hl => exact hl.2

end WellFormed

end NestedAutomata.Automaton
