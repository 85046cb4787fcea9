import Mathlib.Data.List.Induction
import NestedAutomata.Proofs.Automaton.Growth
import NestedAutomata.Fault

namespace NestedAutomata.Automaton

open Fault

variable {ι : Type} {A B C : Automaton ι} {q d : Key} {l : List Key} {t u : Transition}

section Copies

theorem of_mem_outgoingCopies (h : t ∈ A.outgoingCopies q d) :
    ∃ u ∈ A.transitions, t.destination = u.destination ∧
      (t.origin = u.origin ∨ u.origin = q ∧ t.origin = d) := by
  simp only [outgoingCopies, List.mem_append, List.mem_map, List.mem_flatMap, mem_orDouble,
    Transitions.mem_internalsFrom, Transitions.mem_callsFrom, Transitions.mem_returnsFrom,
    Transitions.mem_returnsWithCallSite] at h
  rcases h with (⟨u, ⟨hu, hq⟩, rfl⟩ | ⟨u, ⟨hu, hq⟩, rfl⟩) | ⟨u, hu, x, hx, c, -, rfl⟩
  · exact ⟨_, hu, rfl, .inr ⟨hq, rfl⟩⟩
  · exact ⟨_, hu, rfl, .inr ⟨hq, rfl⟩⟩
  · exact ⟨_, hu.elim And.left And.left, rfl, hx⟩

theorem exists_mem_outgoingCopies (h : t ∈ A.transitions) (hq : t.origin = q) :
    ∃ u ∈ A.outgoingCopies q d, u.origin = d ∧ u.destination = t.destination ∧
      (t.Labelled → u.Labelled) := by
  simp only [outgoingCopies, List.mem_append, List.mem_map, List.mem_flatMap, mem_orDouble,
    Transitions.mem_internalsFrom, Transitions.mem_callsFrom, Transitions.mem_returnsFrom]
  cases t with
  | internal t => exact ⟨_, .inl (.inl ⟨t, ⟨h, hq⟩, rfl⟩), rfl, rfl, id⟩
  | call t     => exact ⟨_, .inl (.inr ⟨t, ⟨h, hq⟩, rfl⟩), rfl, rfl, id⟩
  | ret t      =>
    exact ⟨_, .inr ⟨t, .inl ⟨h, hq⟩, d, .inr ⟨hq, rfl⟩, t.callSite, .inl rfl, rfl⟩, rfl, rfl, id⟩

theorem of_mem_incomingCopies (h : t ∈ A.incomingCopies q d) :
    t.destination = d ∧ ∃ u ∈ A.transitions, u.destination = q ∧
      (t.origin = u.origin ∨ u.origin = q ∧ t.origin = d) := by
  simp only [incomingCopies, List.mem_append, List.mem_map, List.mem_flatMap, mem_orDouble,
    Transitions.mem_internalsTo, Transitions.mem_callsTo, Transitions.mem_returnsTo] at h
  rcases h with (⟨u, ⟨hu, hq⟩, x, hx, rfl⟩ | ⟨u, ⟨hu, hq⟩, x, hx, rfl⟩) |
    ⟨u, ⟨hu, hq⟩, x, hx, c, -, rfl⟩
  all_goals exact ⟨rfl, _, hu, hq, hx⟩

theorem exists_mem_incomingCopies (h : t ∈ A.transitions) (hq : t.destination = q) :
    ∃ u ∈ A.incomingCopies q d, u.origin = t.origin ∧ u.destination = d ∧
      (t.Labelled → u.Labelled) := by
  simp only [incomingCopies, List.mem_append, List.mem_map, List.mem_flatMap, mem_orDouble,
    Transitions.mem_internalsTo, Transitions.mem_callsTo, Transitions.mem_returnsTo]
  cases t with
  | internal t =>
    exact ⟨_, .inl (.inl ⟨t, ⟨h, hq⟩, t.source, .inl rfl, rfl⟩), rfl, rfl, id⟩
  | call t =>
    exact ⟨_, .inl (.inr ⟨t, ⟨h, hq⟩, t.callSite, .inl rfl, rfl⟩), rfl, rfl, id⟩
  | ret t =>
    exact ⟨_, .inr ⟨t, ⟨h, hq⟩, t.exit, .inl rfl, t.callSite, .inl rfl, rfl⟩, rfl, rfl, id⟩

end Copies

section Duplicate

theorem mem_transitions_duplicateOutgoing :
    t ∈ (A.duplicateOutgoing q d).transitions ↔
      t ∈ A.transitions ∨ t ∈ A.outgoingCopies q d ∧ t.Labelled := by
  cases h : A.states.info? q <;> simp [duplicateOutgoing, h, addState, setInfo]

theorem stuck_duplicateOutgoing : (A.duplicateOutgoing q d).states.stuck = A.states.stuck := by
  cases h : A.states.info? q <;>
    simp [duplicateOutgoing, h, addState, setInfo, States.add, States.stuck_setInfo]

theorem absorbing_duplicateOutgoing_iff (wf : A.WellFormed) (abs : A.Absorbing) :
    (A.duplicateOutgoing q d).Absorbing ↔
      (A.IsStuck d → ∀ t ∈ A.transitions, t.origin = q → A.IsStuck t.destination) := by
  have stuck (p : Key) := isStuck_congr (stuck_duplicateOutgoing (A := A) (q := q) (d := d)) (q := p)
  constructor
  case mp =>
    intro h hd t ht hq
    have ⟨u, hu, origin, destination, labelled⟩ := exists_mem_outgoingCopies (d := d) ht hq
    have hu := mem_transitions_duplicateOutgoing.mpr (.inr ⟨hu, labelled (wf.labelled t ht)⟩)
    rw [← destination, ← stuck]
    exact h.isStuck hu ((stuck _).mpr (origin ▸ hd))
  case mpr =>
    intro h
    refine abs.grow stuck_duplicateOutgoing fun t ht => ?_
    refine (mem_transitions_duplicateOutgoing.mp ht).imp_right fun ⟨ht, _⟩ ⟨ho, hn⟩ => hn ?_
    have ⟨u, hu, destination, origin⟩ := of_mem_outgoingCopies ht
    rw [destination]
    cases origin with
    | inl origin => exact abs.isStuck hu (origin ▸ ho)
    | inr origin => exact h (origin.2 ▸ ho) u hu origin.1

theorem forall_origin_ne_duplicateOutgoing :
    (∀ t ∈ (A.duplicateOutgoing q d).transitions, t.origin ≠ q) ↔
      ∀ t ∈ A.transitions, t.origin ≠ q := by
  constructor
  case mp  => exact fun h t ht => h t (mem_transitions_duplicateOutgoing.mpr (.inl ht))
  case mpr =>
    intro h t ht
    cases mem_transitions_duplicateOutgoing.mp ht with
    | inl ht => exact h t ht
    | inr ht =>
      have ⟨u, hu, _, origin⟩ := of_mem_outgoingCopies ht.1
      cases origin with
      | inl origin => exact origin ▸ h u hu
      | inr origin => exact absurd origin.1 (h u hu)

theorem absorbing_addIncoming_iff (labelled : ∀ t ∈ A.transitions, t.Labelled) :
    { A with transitions := A.transitions.addAll (A.incomingCopies q d) }.Absorbing ↔
      A.Absorbing ∧ (A.IsStuck q → A.IsStuck d ∨ ∀ t ∈ A.transitions, t.origin ≠ q) := by
  constructor
  case mp =>
    intro h
    have abs : A.Absorbing := fun t ht => h t (Transitions.mem_addAll.mpr (.inl ht))
    refine ⟨abs, fun hq => Decidable.or_iff_not_imp_left.mpr fun hd t ht ho => hd ?_⟩
    have loop : t.destination = q := (abs.isStuck ht (ho ▸ hq)).unique hq
    have ⟨u, hu, origin, destination, copied⟩ := exists_mem_incomingCopies (d := d) ht loop
    rw [← destination]
    exact h.isStuck (Transitions.mem_addAll.mpr (.inr ⟨hu, copied (labelled t ht)⟩))
      (origin ▸ ho ▸ hq)
  case mpr =>
    intro ⟨abs, h⟩
    refine abs.grow rfl fun t ht => (Transitions.mem_addAll.mp ht).imp_right ?_
    rintro ⟨ht, _⟩ ⟨ho, hn⟩
    have ⟨destination, u, hu, toward, origin⟩ := of_mem_incomingCopies ht
    rw [destination] at hn
    have ho : A.IsStuck u.origin :=
      origin.elim (fun origin => origin ▸ ho) fun origin => absurd (origin.2 ▸ ho) hn
    have hq : A.IsStuck q := toward ▸ abs.isStuck hu ho
    exact (h hq).elim hn fun left => left u hu (ho.unique hq)

theorem final_duplicateOutgoing : (A.duplicateOutgoing q d).states.final = A.states.final := by
  cases h : A.states.info? q <;>
    simp [duplicateOutgoing, h, addState, setInfo, States.add, States.final_setInfo]

theorem duplicate_eq : ∃ B : Automaton ι,
    B.transitions = (A.duplicateOutgoing q d).transitions ∧
    B.states.stuck = A.states.stuck ∧ B.states.final = A.states.final ∧
    A.duplicate q d =
      let C := if q ∈ B.states.final then B.addFinal d else B
      { C with transitions := C.transitions.addAll (C.incomingCopies q d) } := by
  refine ⟨_, ?_, ?_, ?_, rfl⟩ <;> split
  all_goals first | rfl | exact stuck_duplicateOutgoing | exact final_duplicateOutgoing

theorem not_isStuck_duplicate {p : Key} (hd : A.IsStuck d) (hq : q ∈ A.states.final) :
    ¬(A.duplicate q d).IsStuck p := by
  have ⟨B, _, stuck, final, eq⟩ := duplicate_eq (A := A) (q := q) (d := d)
  rw [eq, if_pos (final ▸ hq), addFinal, if_pos ((isStuck_congr stuck).mpr hd)]
  intro hp
  cases hp

theorem duplicate_eq_of_not (h : ¬(A.IsStuck d ∧ q ∈ A.states.final)) : ∃ B : Automaton ι,
    B.transitions = (A.duplicateOutgoing q d).transitions ∧
    B.states.stuck = A.states.stuck ∧
    A.duplicate q d = { B with transitions := B.transitions.addAll (B.incomingCopies q d) } := by
  have ⟨B, transitions, stuck, final, eq⟩ := duplicate_eq (A := A) (q := q) (d := d)
  by_cases hq : q ∈ B.states.final
  case neg =>
    rw [if_neg hq] at eq
    exact ⟨B, transitions, stuck, eq⟩
  case pos =>
    have hd : ¬B.IsStuck d := fun hd => h ⟨(isStuck_congr stuck).mp hd, final ▸ hq⟩
    rw [if_pos hq, addFinal_of_not_isStuck hd] at eq
    refine ⟨_, ?_, ?_, eq⟩
    · exact transitions
    · exact stuck

theorem absorbing_duplicate_iff (wf : A.WellFormed) (abs : A.Absorbing) :
    (A.duplicate q d).Absorbing ↔
      (A.IsStuck d → q ∈ A.states.final ∨
        ∀ t ∈ A.transitions, t.origin = q → A.IsStuck t.destination) ∧
      (A.IsStuck q → A.IsStuck d ∨ ∀ t ∈ A.transitions, t.origin ≠ q) := by
  by_cases hf : A.IsStuck d ∧ q ∈ A.states.final
  case pos =>
    apply iff_of_true
    · exact .of_realized fun p => not_isStuck_duplicate hf.1 hf.2
    · exact ⟨fun _ => .inl hf.2, fun hq => absurd hf.2 (wf.states.not_final q hq)⟩
  case neg =>
    have ⟨B, transitions, stuck, eq⟩ := duplicate_eq_of_not hf
    have labelled : ∀ t ∈ B.transitions, t.Labelled :=
      transitions ▸ wf.duplicateOutgoing.labelled
    have outgoing : B.Absorbing ↔ (A.duplicateOutgoing q d).Absorbing := by
      have leaves (t : Transition) : B.Leaves t ↔ (A.duplicateOutgoing q d).Leaves t :=
        leaves_congr (stuck.trans stuck_duplicateOutgoing.symm)
      simp only [Absorbing, transitions, leaves]
    rw [eq, absorbing_addIncoming_iff labelled, outgoing, absorbing_duplicateOutgoing_iff wf abs,
      isStuck_congr stuck, isStuck_congr stuck, transitions, forall_origin_ne_duplicateOutgoing]
    exact and_congr_left' (imp_congr_right fun hd => (or_iff_right fun hq => hf ⟨hd, hq⟩).symm)

end Duplicate

-- An edit is harmless if it does not make a transition that leaves the stuck state. This takes some
-- care with doubles. The stuck state may not become the double of a state that can be left, unless it
-- becomes final and thereby an ordinary state. Nor may it be given a double itself once it has a loop.
def Edit.Harmless (A : Automaton ι) : Edit ι → Prop
  | duplicate q d =>
    (A.IsStuck d → q ∈ A.states.final ∨
      ∀ t ∈ A.transitions, t.origin = q → A.IsStuck t.destination) ∧
    (A.IsStuck q → A.IsStuck d ∨ ∀ t ∈ A.transitions, t.origin ≠ q)
  | duplicateOutgoing q d =>
    A.IsStuck d → ∀ t ∈ A.transitions, t.origin = q → A.IsStuck t.destination
  | _ => True

namespace Absorbing

theorem shrink (h : A.Absorbing) (stuck : B.states.stuck = A.states.stuck)
    (sub : ∀ t ∈ B.transitions, t ∈ A.transitions) : B.Absorbing :=
  h.grow stuck fun t ht => .inl (sub t ht)

theorem removeState (h : A.Absorbing) : (A.removeState q).Absorbing := by
  unfold Automaton.removeState
  split
  case isFalse   => exact h
  case isTrue hq =>
    refine h.shrink ?_ fun t ht => (Transitions.mem_removeState.mp ht).1
    simp only [States.remove, if_neg hq.2]

theorem removeStates (h : A.Absorbing) : (A.removeStates l).Absorbing :=
  List.foldlRecOn l _ h fun _ h _ _ => h.removeState

theorem removeSymbol (h : A.Absorbing) {a : Key} : (A.removeSymbol a).Absorbing := by
  unfold Automaton.removeSymbol
  split
  case isFalse => exact h
  case isTrue  => exact h.shrink rfl fun t ht => (Transitions.mem_removeSymbol.mp ht).1

theorem remove (h : A.Absorbing) : (A.remove t).Absorbing :=
  h.shrink rfl fun _ ht => (Transitions.mem_remove.mp ht).1

theorem designate (h : A.designate q = .ok B) (wf : A.WellFormed) : B.Absorbing := by
  have ⟨qs, hqs, h⟩ := exists_of_bind_eq_ok h
  cases h
  unfold States.designate at hqs
  split at hqs
  case isTrue => cases hqs
  case isFalse =>
    split at hqs
    case isTrue => cases hqs
    case isFalse hq =>
      cases hqs
      rintro t ht ⟨ho, _⟩
      exact hq (Stuck.designated.inj ho ▸ wf.origin ht)

theorem realize (h : A.realize = .ok B) : B.Absorbing := by
  unfold Automaton.realize at h
  split at h
  case h_1 => cases h; exact .of_realized nofun
  case h_2 => cases h

theorem apply {e : Edit ι} (abs : A.Absorbing) (wf : A.WellFormed) (harmless : e.Harmless A)
    (h : e.apply A = .ok B) : B.Absorbing := by
  have grown (g : A.Growth B) : B.Absorbing := g.absorbing abs
  cases e with
  | duplicate           => cases h; exact (absorbing_duplicate_iff wf abs).mpr harmless
  | duplicateOutgoing   => cases h; exact (absorbing_duplicateOutgoing_iff wf abs).mpr harmless
  | designate           => exact .designate h wf
  | realize             => exact .realize h
  | addState            => cases h; exact grown (.addState .refl)
  | addStates           => cases h; exact grown (.foldl .refl fun _ _ => .addState .refl)
  | addInitial          => cases h; exact grown (.addInitial .refl)
  | addInitials         => cases h; exact grown (.addInitials .refl)
  | addFinal            => cases h; exact grown (.addFinal .refl)
  | addFinals           => cases h; exact grown (.addFinals .refl)
  | setInfo             => cases h; exact grown (.setInfo .refl)
  | addSymbol a         => cases h; exact grown (.addSymbols (l := [a]) .refl)
  | addSymbols          => cases h; exact grown (.addSymbols .refl)
  | add                 => cases h; exact grown (.add .refl)
  | removeState         => cases h; exact abs.removeState
  | removeInitial       => cases h; exact abs.shrink rfl fun _ => id
  | clearInitial        => cases h; exact abs.shrink rfl fun _ => id
  | removeFinal         => cases h; exact abs.shrink rfl fun _ => id
  | clearFinal          => cases h; exact abs.shrink rfl fun _ => id
  | removeSymbol        => cases h; exact abs.removeSymbol
  | clearSymbols        => cases h; exact List.foldlRecOn _ _ abs fun _ abs _ _ => abs.removeSymbol
  | remove              => cases h; exact abs.remove
  | removeReturns       => cases h; exact List.foldlRecOn _ _ abs fun _ abs _ _ => abs.remove
  | removeSinks         => cases h; exact abs.removeStates
  | pruneForward        => cases h; exact abs.removeStates
  | pruneBackward       => cases h; exact abs.removeStates
  | pruneInitial        => cases h; exact abs.removeStates
  | pruneFinal          => cases h; exact abs.removeStates
  | trim                => cases h; exact abs.removeStates.removeStates
  | clearStates         => cases h; exact fun _ ht => absurd ht Transitions.not_mem_empty
  | clearTransitions    => cases h; exact fun _ ht => absurd ht Transitions.not_mem_empty
  | clear               => cases h; exact fun _ ht => absurd ht Transitions.not_mem_empty

theorem apply_iff {e : Edit ι} (abs : A.Absorbing) (wf : A.WellFormed) (h : e.apply A = .ok B) :
    B.Absorbing ↔ e.Harmless A := by
  constructor
  case mpr => exact fun harmless => abs.apply wf harmless h
  case mp  =>
    intro abs'
    cases e with
    | duplicate         => cases h; exact (absorbing_duplicate_iff wf abs).mp abs'
    | duplicateOutgoing => cases h; exact (absorbing_duplicateOutgoing_iff wf abs).mp abs'
    | _                 => trivial

end Absorbing

section Edited

variable {e : Edit ι} {es : List (Edit ι)}

theorem edited_concat (h : A.edited es = .ok B) : A.edited (es ++ [e]) = e.apply B := by
  rw [edited] at h
  rw [edited, List.foldlM_append, h]
  exact bind_pure (e.apply B)

theorem exists_of_edited_concat (h : A.edited (es ++ [e]) = .ok B) :
    ∃ C, A.edited es = .ok C ∧ e.apply C = .ok B := by
  rw [edited, List.foldlM_append] at h
  have ⟨C, hC, h⟩ := exists_of_bind_eq_ok h
  exact ⟨C, hC, by simpa using h⟩

theorem exists_edited_of_prefix {es₁ : List (Edit ι)} (h : A.edited es = .ok B) (le : es₁ <+: es) :
    ∃ C, A.edited es₁ = .ok C := by
  obtain ⟨es₂, rfl⟩ := le
  rw [edited, List.foldlM_append] at h
  have ⟨C, hC, _⟩ := exists_of_bind_eq_ok h
  exact ⟨C, hC⟩

theorem WellFormed.edited (wf : A.WellFormed) (h : A.edited es = .ok B) : B.WellFormed := by
  induction es using List.reverseRecOn generalizing B with
  | nil => cases h; exact wf
  | append_singleton es e ih =>
    have ⟨C, hC, h⟩ := exists_of_edited_concat h
    exact (ih hC).edit h

theorem absorbing_edited_iff (fresh : A = ∅ ∨ ∃ q, A = ofStuck q) (h : A.edited es = .ok B) :
    (∀ es₁ C, es₁ <+: es → A.edited es₁ = .ok C → C.Absorbing) ↔
      ∀ es₁ e C, es₁ ++ [e] <+: es → A.edited es₁ = .ok C → e.Harmless C := by
  have ⟨wf, abs⟩ : A.WellFormed ∧ A.Absorbing := by
    obtain rfl | ⟨q, rfl⟩ := fresh
    · exact ⟨.empty, .empty⟩
    · exact ⟨.ofStuck, .ofStuck⟩
  constructor
  case mp =>
    intro closed es₁ e C le hC
    have ⟨D, hD⟩ := exists_edited_of_prefix h le
    have ⟨C', hC', he⟩ := exists_of_edited_concat hD
    obtain rfl : C' = C := Except.ok.inj (hC'.symm.trans hC)
    have before : es₁ <+: es := (List.prefix_append ..).trans le
    exact ((closed es₁ C' before hC).apply_iff (wf.edited hC) he).mp (closed _ D le hD)
  case mpr =>
    intro harmless es₁ C le hC
    induction es₁ using List.reverseRecOn generalizing C with
    | nil => cases hC; exact abs
    | append_singleton es₁ e ih =>
      have ⟨D, hD, he⟩ := exists_of_edited_concat hC
      have before : es₁ <+: es := (List.prefix_append ..).trans le
      exact (ih D before hD).apply (wf.edited hD) (harmless es₁ e D le hD) he

theorem absorbing_edited_duplicate :
    let es := [.add (.call ⟨⟨3⟩, ⟨5⟩, ⟨2⟩⟩), .duplicate ⟨3⟩ ⟨4⟩]
    ∀ es₁ C, es₁ <+: es → (ofStuck ⟨2⟩ : Automaton Unit).edited es₁ = .ok C → C.Absorbing := by
  intro es
  refine (absorbing_edited_iff (.inr ⟨_, rfl⟩) (B := _) rfl).mpr fun es₁ e C le hC => ?_
  match es₁ with
  | [] =>
    obtain rfl : e = es[0] := by simpa [es] using le
    trivial
  | [e₁] =>
    obtain ⟨rfl, rfl⟩ : e₁ = es[0] ∧ e = es[1] := by simpa [es] using le
    cases hC
    exact ⟨fun h => absurd h (by decide), fun h => absurd h (by decide)⟩
  | _ :: _ :: _ => simp [es] at le

-- The double of the stuck state gets a copy of its loop that leads there from the stuck state.
theorem not_absorbing_edited_duplicate :
    let es := [.add (.internal ⟨⟨2⟩, ⟨3⟩, ⟨2⟩⟩), .duplicate ⟨2⟩ ⟨4⟩]
    ∃ B, (ofStuck ⟨2⟩ : Automaton Unit).edited es = .ok B ∧ B.IsStuck ⟨2⟩ ∧
      .internal ⟨⟨2⟩, ⟨3⟩, ⟨4⟩⟩ ∈ B.transitions ∧ ¬B.Absorbing := by
  intro es
  let B := ((ofStuck ⟨2⟩ : Automaton Unit).add (.internal ⟨⟨2⟩, ⟨3⟩, ⟨2⟩⟩)).duplicate ⟨2⟩ ⟨4⟩
  have copy : .internal ⟨⟨2⟩, ⟨3⟩, ⟨4⟩⟩ ∈ B.transitions := by decide
  exact ⟨B, rfl, rfl, copy, fun closed => absurd (closed.isStuck copy rfl) (by decide)⟩

end Edited

end NestedAutomata.Automaton
