import NestedAutomata.Proofs.Combination.Copy
import NestedAutomata.Proofs.Membership.Restriction

namespace NestedAutomata.Automaton

-- A run together with the states that it visits, those included in which it rests.
inductive Trail {ι : Type} (A : Automaton ι) : Configuration → Word → List Key → Configuration → Prop
  | nil {c} :
    ¬A.IsStuck c.state → Trail A c [] [c.state] c
  | cons {c d e v w l} :
    ¬A.IsStuck c.state → A.Step c v d → Trail A d w l e → Trail A c (v ++ w) (c.state :: l) e

variable {ι : Type} {A R : Automaton ι} {keep : Key → Prop} {kept : SortedSet Key} {c d : Configuration}
variable {v w : Word} {l : List Key} {p q stuck : Key}

theorem Step.mem_states (hA : A.WellFormed) (st : A.Step c v d) : d.state ∈ A.states := by
  cases st with
  | rest ht | internal ht | call ht | ret ht => exact hA.destination ht

namespace Trail

theorem mem_first (trail : A.Trail c w l d) : c.state ∈ l := by
  cases trail <;> exact .head _

theorem mem_last (trail : A.Trail c w l d) : d.state ∈ l := by
  induction trail with
  | nil           => exact .head _
  | cons _ _ _ ih => exact .tail _ ih

theorem mem_ordinary (trail : A.Trail c w l d) (hA : A.WellFormed) (hc : c.state ∈ A.states) :
    ∀ q ∈ l, q ∈ A.ordinary := by
  induction trail with
  | nil h          => exact List.forall_mem_singleton.mpr (Automaton.mem_ordinary.mpr ⟨hc, h⟩)
  | cons h st _ ih =>
    exact List.forall_mem_cons.mpr ⟨Automaton.mem_ordinary.mpr ⟨hc, h⟩, ih (st.mem_states hA)⟩

end Trail

-- The operand between the states that are kept, next to another stuck state.
structure Projected (A : Automaton ι) (keep : Key → Prop) (R : Automaton ι) : Prop where
  ordinary    : ∀ q, keep q → q ∈ A.ordinary ∧ q ∈ R.ordinary
  initial     : ∀ q, q ∈ R.states.initial ↔ q ∈ A.states.initial ∧ keep q
  final       : ∀ q, q ∈ R.states.final ↔ q ∈ A.states.final ∧ keep q
  alphabet    : ∀ a, a ∈ R.alphabet ↔ a ∈ A.alphabet
  transitions : ∀ t, t ∈ R.transitions ↔ t ∈ A.transitions ∧ ∀ q ∈ t.states, keep q

namespace Projected

variable (h : A.Projected keep R)
include h

theorem not_isStuck (hq : keep q) : ¬A.IsStuck q ∧ ¬R.IsStuck q :=
  (h.ordinary q hq).imp (fun ho => (mem_ordinary.mp ho).2) fun ho => (mem_ordinary.mp ho).2

theorem absorbing : R.Absorbing := fun t ht leaves =>
  (h.not_isStuck (((h.transitions t).mp ht).2 _ Transition.origin_mem_states)).2 leaves.1

theorem step (st : R.Step c v d) : A.Step c v d ∧ keep d.state := by
  have old {t : Transition} (ht : t ∈ R.transitions) := (h.transitions t).mp ht
  refine ⟨st.mono (fun t ht => (old ht).1) fun _ _ => (h.alphabet _).mp, ?_⟩
  cases st with
  | rest ht | internal ht | call ht | ret ht => exact (old ht).2 _ Transition.destination_mem_states

theorem run (trail : A.Trail c w l d) (inside : ∀ q ∈ l, keep q) (calls : ∀ q ∈ c.calls, keep q) :
    R.Run c w d := by
  have reads (l a : Key) : A.Reads l a → R.Reads l a := .imp_right (.imp_right (h.alphabet a).mpr)
  induction trail with
  | nil              => exact .nil (h.not_isStuck (inside _ (.head _))).2
  | cons _ st rest ih =>
    have ⟨hc, later⟩ := List.forall_mem_cons.mp inside
    have st' : R.Step _ _ _ :=
      st.confine (fun t ht within => (h.transitions t).mpr ⟨ht, within⟩) reads hc
        (later _ rest.mem_first) calls
    exact .cons (h.not_isStuck hc).2 st' (ih later (st.calls hc calls))

theorem exists_trail (r : R.Run c w d) (hc : keep c.state) :
    ∃ l, A.Trail c w l d ∧ ∀ q ∈ l, keep q := by
  induction r with
  | nil            => exact ⟨_, .nil (h.not_isStuck hc).1, List.forall_mem_singleton.mpr hc⟩
  | cons _ st _ ih =>
    have ⟨st', hd⟩ := h.step st
    have ⟨l, trail, inside⟩ := ih hd
    exact ⟨_, .cons (h.not_isStuck hc).1 st' trail, List.forall_mem_cons.mpr ⟨hc, inside⟩⟩

theorem accepts_iff :
    R.Accepts w ↔ ∃ p ∈ A.states.initial, ∃ q ∈ A.states.final, ∃ l,
      A.Trail ⟨p, []⟩ w l ⟨q, []⟩ ∧ ∀ r ∈ l, keep r := by
  constructor
  case mp  =>
    intro ⟨p, hp, q, hq, r⟩
    have ⟨hp, kp⟩ := (h.initial p).mp hp
    exact ⟨p, hp, q, ((h.final q).mp hq).1, h.exists_trail r kp⟩
  case mpr =>
    intro ⟨p, hp, q, hq, l, trail, inside⟩
    have hp' := (h.initial p).mpr ⟨hp, inside _ trail.mem_first⟩
    have hq' := (h.final q).mpr ⟨hq, inside _ trail.mem_last⟩
    exact ⟨p, hp', q, hq', h.run trail inside nofun⟩

end Projected

def transplant (A : Automaton ι) (stuck : Key) : Automaton ι :=
  ((((ofStuck stuck).copyStates A).addInitials A.ordinaryInitial).addFinals
    A.ordinaryFinal).copyTransitions A

def within (A : Automaton ι) (kept : SortedSet Key) (stuck : Key) : Automaton ι :=
  let R := A.transplant stuck
  R.removeStates (R.states.members.toList.filter (· ∉ kept))

theorem projection_eq (free : stuck ∈ A.states → A.IsStuck stuck) :
    A.projection kept (.designated stuck) = .ok (A.within kept stuck) := by
  simp only [projection, Stuck.require, requireFree_eq_ok free, bind, Except.bind]
  rfl

theorem mem_states_transplant (hq : q ∈ A.ordinary) : q ∈ (A.transplant stuck).states := by
  have growth : Growth ((ofStuck stuck).copyStates A) (A.transplant stuck) :=
    .addAll <| .addFinals <| .addInitials .refl
  exact growth.mem_states ((copied_copyStates.members q).mpr (.inr hq))

theorem projected_transplant (hA : A.WellFormed) (free : stuck ∈ A.states → A.IsStuck stuck) :
    A.Projected (· ∈ A.ordinary) (A.transplant stuck) := by
  have begun : Placed [A] stuck A.ordinaryInitial [] _ :=
    (Placed.ofStuck.copyStates (A := A)).addInitials (l := A.ordinaryInitial)
  have placed : Placed [A] stuck A.ordinaryInitial A.ordinaryFinal _ :=
    begun.addFinals (l := A.ordinaryFinal) fun q hq =>
      not_isStuck_of_free begun.mode free (hA.ordinary_of_final hq)
  have members (q : Key) (hq : q ∈ A.ordinary) : q ∈ (A.transplant stuck).states :=
    mem_states_transplant hq
  rw [transplant] at members ⊢
  generalize (((ofStuck stuck).copyStates A).addInitials _).addFinals _ = R at *
  have ordinary (q : Key) (hq : q ∈ A.ordinary) : ¬R.IsStuck q := not_isStuck_of_free placed.mode free hq
  have alphabet {a : Key} : a ∈ R.alphabet ↔ a ∈ A.alphabet := by simp [placed.alphabet]
  constructor
  case ordinary    =>
    intro q hq
    exact ⟨hq, mem_ordinary.mpr ⟨members q hq, mt (isStuck_congr stuck_addAll).mp (ordinary q hq)⟩⟩
  case initial     =>
    intro q
    rw [copyTransitions, initial_addAll, placed.initial, mem_ordinaryInitial, mem_ordinary]
    exact and_congr_right fun hq => (and_iff_right (hA.states.initial q hq)).symm
  case final       =>
    intro q
    rw [copyTransitions, final_addAll, placed.final, mem_ordinaryFinal, mem_ordinary]
    exact and_congr_right fun hq => (and_iff_right (hA.states.final q hq)).symm
  case alphabet    =>
    exact fun a => (mem_alphabet_copyTransitions hA fun _ => alphabet.mpr).trans alphabet
  case transitions =>
    intro t
    rw [mem_transitions_copyTransitions hA ordinary, or_iff_right placed.not_mem_transitions,
      hA.mem_ordinaryTransitions]

theorem Projected.restrict {keep' : Key → Prop} (h : A.Projected keep R) {S : Automaton ι}
    (restricted : R.Restricted keep' S) : A.Projected (fun q => keep q ∧ keep' q) S where
  ordinary q hq := ⟨(h.ordinary q hq.1).1, restricted.mem_ordinary.mpr ⟨(h.ordinary q hq.1).2, hq.2⟩⟩
  initial q     := by rw [restricted.initial, h.initial, and_assoc]
  final q       := by rw [restricted.final, h.final, and_assoc]
  alphabet      := restricted.alphabet ▸ h.alphabet
  transitions t := by simp only [restricted.transitions, h.transitions, and_assoc, imp_and, forall_and]

theorem Projected.congr {keep' : Key → Prop} (h : A.Projected keep R) (same : ∀ q, keep q ↔ keep' q) :
    A.Projected keep' R := by
  obtain rfl : keep = keep' := funext fun q => propext (same q)
  exact h

theorem projected_within (hA : A.WellFormed) (free : stuck ∈ A.states → A.IsStuck stuck) :
    A.Projected (fun q => q ∈ A.ordinary ∧ q ∈ kept) (A.within kept stuck) := by
  have copied := projected_transplant hA free
  refine (copied.restrict restricted_removeStates).congr fun q => and_congr_right fun hq => ?_
  have hq' := (copied.ordinary q hq).2
  simp [hq', (mem_ordinary.mp hq').1]

-- The projection is defined, and accepts just the words on which some accepting run visits no states but
-- those that are kept. Its transitions are those between such states.
theorem search_projection_iff (hA : A.Obtained) (free : stuck ∈ A.states → A.IsStuck stuck)
    (kept : SortedSet Key) :
    ∃ R, A.projection kept (.designated stuck) = .ok R ∧
      (∀ w, R.search w = .ok true ↔ ∃ p ∈ A.states.initial, ∃ q ∈ A.states.final, ∃ l,
        A.Trail ⟨p, []⟩ w l ⟨q, []⟩ ∧ ∀ r ∈ l, r ∈ kept) ∧
      ∀ t, t ∈ R.transitions ↔ t ∈ A.transitions ∧ ∀ q ∈ t.states, q ∈ A.ordinary ∧ q ∈ kept := by
  have hA := hA.wellFormed
  have projected : A.Projected (fun q => q ∈ A.ordinary ∧ q ∈ kept) (A.within kept stuck) :=
    projected_within hA free
  refine ⟨A.within kept stuck, projection_eq free, fun w => ?_, projected.transitions⟩
  rw [search_eq_true_iff projected.absorbing, projected.accepts_iff]
  refine exists_congr fun p => and_congr_right fun hp => exists_congr fun q => and_congr_right fun _ =>
    exists_congr fun l => and_congr_right fun trail => forall₂_congr fun r hr => ?_
  exact and_iff_right (trail.mem_ordinary hA (hA.states.initial p hp) r hr)

theorem search_projection_bracketed :
    let A := (brackets ⟨3⟩ [⟨4⟩]).add (.internal ⟨⟨4⟩, ⟨5⟩, ⟨9⟩⟩)
    ∃ R, A.projection (.ofList [⟨2⟩, ⟨3⟩, ⟨4⟩]) (.designated ⟨7⟩) = .ok R ∧
      R.search bracketed = .ok true ∧ .internal ⟨⟨4⟩, ⟨5⟩, ⟨9⟩⟩ ∉ R.transitions := by
  intro A
  have hA : A.Obtained := .edit (e := .add _) obtained_brackets rfl
  have ⟨R, hR, accepts, transitions⟩ :=
    @search_projection_iff _ A ⟨7⟩ hA (by decide) (.ofList [⟨2⟩, ⟨3⟩, ⟨4⟩])
  have trail : A.Trail ⟨⟨2⟩, []⟩ bracketed [⟨2⟩, ⟨3⟩, ⟨4⟩] ⟨⟨4⟩, []⟩ :=
    .cons (by decide) (.call (by decide) (.inl rfl)) <|
      .cons (by decide) (.ret (by decide) (.inl rfl)) <| .nil (by decide)
  refine ⟨R, hR, (accepts _).mpr ⟨_, by decide, _, by decide, _, trail, by decide⟩, ?_⟩
  rw [transitions]
  decide

end NestedAutomata.Automaton
