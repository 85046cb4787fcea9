import NestedAutomata.Proofs.Combination.Copy
import NestedAutomata.Proofs.Membership.Search
import NestedAutomata.Proofs.Obtained

namespace NestedAutomata.Automaton

variable {ι : Type} {A B R : Automaton ι} {p q stuck : Key} {w : Word}

structure United (A B R : Automaton ι) : Prop where
  absorbing   : R.Absorbing
  first       : Part A R
  second      : Part B R
  apart       : ¬A.Overlap B
  initial     : ∀ q, q ∈ R.states.initial ↔ q ∈ A.ordinaryInitial ∨ q ∈ B.ordinaryInitial
  final       : ∀ q, q ∈ R.states.final ↔ q ∈ A.ordinaryFinal ∨ q ∈ B.ordinaryFinal
  transitions : ∀ t, t ∈ R.transitions ↔ t ∈ A.ordinaryTransitions ∨ t ∈ B.ordinaryTransitions

def join (A B : Automaton ι) (stuck : Key) : Automaton ι :=
  let R := ((ofStuck stuck).copyStates A).copyStates B
  let R := (R.addInitials A.ordinaryInitial).addInitials B.ordinaryInitial
  beside A B <| (R.addFinals A.ordinaryFinal).addFinals B.ordinaryFinal

namespace United

theorem symm (h : United A B R) : United B A R where
  absorbing     := h.absorbing
  first         := h.second
  second        := h.first
  apart         := mt overlap_symm h.apart
  initial q     := (h.initial q).trans or_comm
  final q       := (h.final q).trans or_comm
  transitions t := (h.transitions t).trans or_comm

variable (h : United A B R) (hA : A.WellFormed) (hB : B.WellFormed)
include h hA

theorem accepts_of_first (accepts : A.Accepts w) : R.Accepts w := by
  have ⟨p, hp, q, hq, level⟩ := accepts_iff_level.mp accepts
  have ⟨hp', hq'⟩ := level.not_isStuck
  refine accepts_iff_level.mpr ⟨p, ?_, q, ?_, h.first.level hA level (hA.states.initial p hp)⟩
  · exact (h.initial p).mpr (.inl (mem_ordinaryInitial.mpr ⟨hp, hp'⟩))
  · exact (h.final q).mpr (.inl (mem_ordinaryFinal.mpr ⟨hq, hq'⟩))

include hB

theorem level_first_iff (hp : p ∈ A.ordinary) : R.Level p w q ↔ A.Level p w q := by
  refine h.first.level_iff hA (fun t ht ho => ?_) hp
  exact mem_ordinaryTransitions_of_origin hB h.apart ((h.transitions t).mp ht) ho

theorem accepts_of_level (hp : p ∈ A.ordinaryInitial) (hq : q ∈ R.states.final)
    (level : R.Level p w q) : A.Accepts w := by
  have hp' := hA.ordinary_of_initial hp
  have level := (h.level_first_iff hA hB hp').mp level
  have hq' : q ∈ A.ordinary := level.mem_ordinary hA (mem_ordinary.mp hp').1
  have hq := ((h.final q).mp hq).resolve_right fun hq =>
    not_mem_of_mem_ordinary h.apart hq' (hB.ordinary_of_final hq)
  exact accepts_iff_level.mpr
    ⟨p, (mem_ordinaryInitial.mp hp).1, q, (mem_ordinaryFinal.mp hq).1, level⟩

theorem accepts_iff : R.Accepts w ↔ A.Accepts w ∨ B.Accepts w := by
  constructor
  case mp  =>
    intro accepts
    have ⟨p, hp, q, hq, level⟩ := accepts_iff_level.mp accepts
    cases (h.initial p).mp hp with
    | inl hp => exact .inl (h.accepts_of_level hA hB hp hq level)
    | inr hp => exact .inr (h.symm.accepts_of_level hB hA hp hq level)
  case mpr =>
    intro accepts
    cases accepts with
    | inl first  => exact h.accepts_of_first hA first
    | inr second => exact h.symm.accepts_of_first hB second

end United

theorem union_eq (apart : ¬A.Overlap B) (freeA : stuck ∈ A.states → A.IsStuck stuck)
    (freeB : stuck ∈ B.states → B.IsStuck stuck) :
    A.union B (.designated stuck) = .ok (A.join B stuck) := by
  simp only [union, if_neg apart, Stuck.require, requireFree_eq_ok freeA, requireFree_eq_ok freeB, bind,
    Except.bind]
  rfl

theorem united_join (hA : A.WellFormed) (hB : B.WellFormed) (apart : ¬A.Overlap B)
    (freeA : stuck ∈ A.states → A.IsStuck stuck) (freeB : stuck ∈ B.states → B.IsStuck stuck) :
    United (A.addSymbols B.alphabet.toList) (B.addSymbols A.alphabet.toList) (A.join B stuck) := by
  have growth : Growth (ofStuck stuck) (A.join B stuck) :=
    .addAll <| .addAll <| .addFinals <| .addFinals <| .addInitials <| .addInitials <|
      growth_copyStates.trans growth_copyStates
  have absorbing := growth.absorbing .ofStuck
  have copied : Placed [A, B] stuck [] [] _ := Placed.ofStuck.copyStates.copyStates
  have begun : Placed [A, B] stuck (A.ordinaryInitial ++ B.ordinaryInitial) [] _ :=
    (copied.addInitials (l := A.ordinaryInitial)).addInitials (l := B.ordinaryInitial)
  have ended : Placed [A, B] stuck (A.ordinaryInitial ++ B.ordinaryInitial) A.ordinaryFinal _ :=
    begun.addFinals (l := A.ordinaryFinal) fun q hq =>
      not_isStuck_of_free begun.mode freeA (hA.ordinary_of_final hq)
  have placed : Placed [A, B] stuck (A.ordinaryInitial ++ B.ordinaryInitial)
      (A.ordinaryFinal ++ B.ordinaryFinal) _ :=
    ended.addFinals (l := B.ordinaryFinal) fun q hq =>
      not_isStuck_of_free ended.mode freeB (hB.ordinary_of_final hq)
  rw [join] at absorbing ⊢
  generalize ((((((ofStuck stuck).copyStates A).copyStates B).addInitials _).addInitials _).addFinals
    _).addFinals _ = R at *
  have mode : (beside A B R).states.stuck = .designated stuck := stuck_beside.trans placed.mode
  have transitions (t : Transition) : t ∈ (beside A B R).transitions ↔ _ :=
    mem_transitions_beside placed hA hB freeA freeB
  constructor
  case absorbing   => exact absorbing
  case apart       => rw [addSymbols_eq, addSymbols_eq]; exact apart
  case transitions => rw [addSymbols_eq, addSymbols_eq]; exact transitions
  case initial     =>
    rw [addSymbols_eq, addSymbols_eq, initial_beside]
    exact fun q => (placed.initial q).trans List.mem_append
  case final       =>
    rw [addSymbols_eq, addSymbols_eq, final_beside]
    exact fun q => (placed.final q).trans List.mem_append
  case first       =>
    exact .addSymbols mode freeA (fun a => mem_alphabet_beside placed hA hB)
      fun t ht => (transitions t).mpr (.inl ht)
  case second      =>
    exact .addSymbols mode freeB (fun a => (mem_alphabet_beside placed hA hB).trans or_comm)
      fun t ht => (transitions t).mpr (.inr ht)

-- The search in the union succeeds on the words of either operand, where wild labels stand for the symbols
-- of both.
theorem search_union_iff (hA : A.Obtained) (hB : B.Obtained) (absA : A.Absorbing) (absB : B.Absorbing)
    (apart : ¬A.Overlap B) (freeA : stuck ∈ A.states → A.IsStuck stuck)
    (freeB : stuck ∈ B.states → B.IsStuck stuck) :
    ∃ R, A.union B (.designated stuck) = .ok R ∧
      ∀ w : Word, R.search w = .ok true ↔
        (A.addSymbols B.alphabet.toList).search w = .ok true ∨
          (B.addSymbols A.alphabet.toList).search w = .ok true := by
  have united := united_join hA.wellFormed hB.wellFormed apart freeA freeB
  refine ⟨A.join B stuck, union_eq apart freeA freeB, fun w => ?_⟩
  rw [search_eq_true_iff united.absorbing, search_eq_true_iff absA.addSymbols,
    search_eq_true_iff absB.addSymbols,
    united.accepts_iff hA.wellFormed.addSymbols hB.wellFormed.addSymbols]

theorem search_union_bracketed :
    ∃ R, (brackets ⟨3⟩ [⟨4⟩]).union loop (.designated ⟨7⟩) = .ok R ∧ R.search bracketed = .ok true ∧
      R.search [.internal ⟨5⟩] = .ok true ∧ R.search (bracketed ++ [.internal ⟨5⟩]) ≠ .ok true := by
  obtain ⟨R, hR, either⟩ := @search_union_iff _ (brackets ⟨3⟩ [⟨4⟩]) loop ⟨7⟩ obtained_brackets
    obtained_loop absorbing_brackets absorbing_loop (by decide) (by decide) (by decide)
  refine ⟨R, hR, (either _).mpr (.inl (by decide)), (either _).mpr (.inr (by decide)), ?_⟩
  rw [ne_eq, either, not_or]
  exact ⟨by decide, by decide⟩

end NestedAutomata.Automaton
