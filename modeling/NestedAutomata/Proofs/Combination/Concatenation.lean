import NestedAutomata.Proofs.Combination.Copy
import NestedAutomata.Proofs.Membership.Search
import NestedAutomata.Proofs.Obtained

namespace NestedAutomata.Automaton

variable {ι : Type} {A B R : Automaton ι} {p q r a stuck : Key} {u v w : Word}

-- The operands, over the same alphabet, and the bridges from the one to the other.
structure Chained (A B R : Automaton ι) : Prop where
  absorbing   : R.Absorbing
  first       : Part A R
  second      : Part B R
  apart       : ¬A.Overlap B
  initial     : ∀ q, q ∈ R.states.initial ↔ q ∈ A.ordinaryInitial
  final       : ∀ q, q ∈ R.states.final ↔ q ∈ B.ordinaryFinal
  transitions : ∀ t, t ∈ R.transitions ↔ t ∈ A.ordinaryTransitions ∨ t ∈ B.ordinaryTransitions ∨
    ∃ p ∈ A.ordinaryFinal, ∃ q ∈ B.ordinaryInitial, t = .internal ⟨p, .ε, q⟩

def linked (A B R : Automaton ι) : Automaton ι :=
  ((R.copyTransitions A).copyTransitions B).bridge A.ordinaryFinal B.ordinaryInitial

def chain (A B : Automaton ι) (stuck : Key) : Automaton ι :=
  let R := ((ofStuck stuck).copyStates A).copyStates B
  linked A B <| (R.addInitials A.ordinaryInitial).addFinals B.ordinaryFinal

-- A run in the one operand to a final state, and from an initial state of the other whatever the
-- result can do.
def Crosses (A B R : Automaton ι) (p : Key) (w : Word) (q : Key) : Prop :=
  ∃ u v, w = u ++ v ∧ (∃ f ∈ A.ordinaryFinal, A.Level p u f) ∧ ∃ i ∈ B.ordinaryInitial, R.Level i v q

theorem Crosses.extend (h : Crosses A B R p w q) (step : ∀ o v, R.Level o v q → R.Level o (v ++ u) r) :
    Crosses A B R p (w ++ u) r := by
  obtain ⟨w, v, rfl, first, i, hi, second⟩ := h
  exact ⟨w, v ++ u, List.append_assoc .., first, i, hi, step _ _ second⟩

namespace Chained

variable (h : Chained A B R) (hA : A.WellFormed) (hB : B.WellFormed)
include h hA

theorem mem_second {t : Transition} (ht : t ∈ R.transitions) (ho : t.origin ∈ B.ordinary) :
    t ∈ B.ordinaryTransitions := by
  have apart := mt overlap_symm h.apart
  rcases (h.transitions t).mp ht with ht | ht | ⟨f, hf, _, _, rfl⟩
  · exact mem_ordinaryTransitions_of_origin hA apart (.inr ht) ho
  · exact ht
  · exact absurd (hA.ordinary_of_final hf) (not_mem_of_mem_ordinary apart ho)

include hB

theorem of_mem_first {t : Transition} (ht : t ∈ R.transitions) (hq : q ∈ t.states) (ho : q ∈ A.ordinary) :
    (t ∈ A.transitions ∧ ∀ q ∈ t.states, q ∈ A.ordinary) ∨
      ∃ f ∈ A.ordinaryFinal, ∃ i ∈ B.ordinaryInitial, t = .internal ⟨f, .ε, i⟩ := by
  rcases (h.transitions t).mp ht with ht | ht | bridge
  · exact .inl (hA.mem_ordinaryTransitions.mp ht)
  · have ⟨_, ordinary⟩ := hB.mem_ordinaryTransitions.mp ht
    exact absurd (ordinary q hq) (not_mem_of_mem_ordinary h.apart ho)
  · exact .inr bridge

theorem of_internal {l : Key} (ht : .internal ⟨q, l, r⟩ ∈ R.transitions) (hq : q ∈ A.ordinary) :
    .internal ⟨q, l, r⟩ ∈ A.transitions ∧ r ∈ A.ordinary ∨
      l = .ε ∧ q ∈ A.ordinaryFinal ∧ r ∈ B.ordinaryInitial := by
  rcases h.of_mem_first hA hB ht Transition.origin_mem_states hq with ⟨ht, ordinary⟩ | ⟨f, hf, i, hi, bridge⟩
  · exact .inl ⟨ht, ordinary r Transition.destination_mem_states⟩
  · cases bridge
    exact .inr ⟨rfl, hf, hi⟩

theorem of_call {t : Call} (ht : .call t ∈ R.transitions) (hc : t.callSite ∈ A.ordinary) :
    .call t ∈ A.transitions ∧ t.entry ∈ A.ordinary := by
  rcases h.of_mem_first hA hB ht Transition.origin_mem_states hc with ⟨ht, ordinary⟩ | ⟨_, _, _, _, bridge⟩
  · exact ⟨ht, ordinary t.entry Transition.destination_mem_states⟩
  · cases bridge

theorem of_ret {t : Return} (ht : .ret t ∈ R.transitions) (hc : t.callSite ∈ A.ordinary) :
    .ret t ∈ A.transitions ∧ t.exit ∈ A.ordinary ∧ t.returnSite ∈ A.ordinary := by
  have mem : t.callSite ∈ (Transition.ret t).states := by simp [Transition.states]
  rcases h.of_mem_first hA hB ht mem hc with ⟨ht, ordinary⟩ | ⟨_, _, _, _, bridge⟩
  · exact ⟨ht, ordinary _ Transition.origin_mem_states, ordinary _ Transition.destination_mem_states⟩
  · cases bridge

theorem level_second_iff (hp : p ∈ B.ordinary) : R.Level p w q ↔ B.Level p w q :=
  h.second.level_iff hB (fun _ => h.mem_second hA) hp

theorem not_mem_of_crosses (crosses : Crosses A B R p w q) : q ∉ A.ordinary := by
  obtain ⟨_, _, _, _, i, hi, second⟩ := crosses
  intro hq
  have hi := hB.ordinary_of_initial hi
  have level := (h.level_second_iff hA hB hi).mp second
  exact not_mem_of_mem_ordinary h.apart hq (level.mem_ordinary hB (mem_ordinary.mp hi).1)

-- What is called before the crossing cannot be returned from after it.
theorem level_or_crosses (level : R.Level p w q) (hp : p ∈ A.ordinary) (hw : w.Unreserved) :
    A.Level p w q ∨ Crosses A B R p w q := by
  have inside {p q : Key} {w : Word} (level : A.Level p w q) (hp : p ∈ A.ordinary) : q ∈ A.ordinary :=
    level.mem_ordinary hA (mem_ordinary.mp hp).1
  induction level with
  | nil => exact .inl (.nil (mem_ordinary.mp hp).2)
  | @rest p q r w _ ht hr ih =>
    rcases ih hp hw with level | crosses
    · rcases h.of_internal hA hB ht (inside level hp) with ⟨ht, hr⟩ | ⟨_, hf, hi⟩
      · exact .inl (level.rest ht (mem_ordinary.mp hr).2)
      · exact .inr ⟨w, [], (List.append_nil w).symm, ⟨q, hf, level⟩, r, hi, .nil hr⟩
    · rw [← List.append_nil w]
      exact .inr (crosses.extend fun o v second => by simpa using second.rest ht hr)
  | internal _ ht hl hr ih =>
    have ⟨hw, ha⟩ := Word.unreserved_append.mp hw
    rcases ih hp hw with level | crosses
    · rcases h.of_internal hA hB ht (inside level hp) with ⟨ht, hr⟩ | ⟨hε, _⟩
      · exact .inl (level.internal ht (h.first.reads_iff.mp hl) (mem_ordinary.mp hr).2)
      · exact absurd hε (ne_ε_of_reads hl (Word.unreserved_cons.mp ha).1)
    · exact .inr (crosses.extend fun o v second => by simpa using second.internal ht hl hr)
  | nested _ hc ha inner ht hm hr ih ih' =>
    have ⟨hw, _⟩ := Word.unreserved_append.mp hw
    have ⟨hw, hv⟩ := Word.unreserved_append.mp hw
    rcases ih hp hw with level | crosses
    · have hq := inside level hp
      have ⟨hc, he⟩ := h.of_call hA hB hc hq
      have ⟨ht, hx, hr⟩ := h.of_ret hA hB ht hq
      -- The call site belongs to the first operand, and so does the exit. So there was no crossing in between.
      rcases ih' he (Word.unreserved_cons.mp hv).2 with level' | crosses
      · exact .inl (level.nested hc (h.first.reads_iff.mp ha) level' ht (h.first.reads_iff.mp hm)
          (mem_ordinary.mp hr).2)
      · exact absurd hx (h.not_mem_of_crosses hA hB crosses)
    · rw [List.append_assoc]
      exact .inr (crosses.extend fun o u second => by simpa using second.nested hc ha inner ht hm hr)

theorem accepts_of_crosses (hp : p ∈ A.ordinaryInitial) (crosses : Crosses A B R p w q)
    (hq : q ∈ B.ordinaryFinal) : ∃ u v, w = u ++ v ∧ A.Accepts u ∧ B.Accepts v := by
  obtain ⟨u, v, rfl, ⟨f, hf, first⟩, i, hi, second⟩ := crosses
  have second := (h.level_second_iff hA hB (hB.ordinary_of_initial hi)).mp second
  refine ⟨u, v, rfl, accepts_iff_level.mpr ⟨p, ?_, f, ?_, first⟩, accepts_iff_level.mpr ⟨i, ?_, q, ?_, second⟩⟩
  · exact (mem_ordinaryInitial.mp hp).1
  · exact (mem_ordinaryFinal.mp hf).1
  · exact (mem_ordinaryInitial.mp hi).1
  · exact (mem_ordinaryFinal.mp hq).1

theorem accepts_append (first : A.Accepts u) (second : B.Accepts v) : R.Accepts (u ++ v) := by
  have ⟨p, hp, f, hf, first⟩ := accepts_iff_level.mp first
  have ⟨i, hi, q, hq, second⟩ := accepts_iff_level.mp second
  have ⟨hp', hf'⟩ := first.not_isStuck
  have ⟨hi', hq'⟩ := second.not_isStuck
  have hp' := (h.initial p).mpr (mem_ordinaryInitial.mpr ⟨hp, hp'⟩)
  have hq' := (h.final q).mpr (mem_ordinaryFinal.mpr ⟨hq, hq'⟩)
  have bridge : .internal ⟨f, .ε, i⟩ ∈ R.transitions := by
    refine (h.transitions _).mpr (.inr (.inr ⟨f, ?_, i, ?_, rfl⟩))
    · exact mem_ordinaryFinal.mpr ⟨hf, hf'⟩
    · exact mem_ordinaryInitial.mpr ⟨hi, hi'⟩
  have first := h.first.level hA first (hA.states.initial p hp)
  have second := h.second.level hB second (hB.states.initial i hi)
  have joined := (first.rest bridge second.not_isStuck.1).append second
  exact accepts_iff_level.mpr ⟨p, hp', q, hq', joined⟩

theorem accepts_iff (hw : w.Unreserved) :
    R.Accepts w ↔ ∃ u v, w = u ++ v ∧ A.Accepts u ∧ B.Accepts v := by
  constructor
  case mp  =>
    intro accepts
    have ⟨p, hp, q, hq, level⟩ := accepts_iff_level.mp accepts
    have hp := (h.initial p).mp hp
    have hq := (h.final q).mp hq
    have hp' := hA.ordinary_of_initial hp
    rcases h.level_or_crosses hA hB level hp' hw with level | crosses
    · have hq' := level.mem_ordinary hA (mem_ordinary.mp hp').1
      exact absurd (hB.ordinary_of_final hq) (not_mem_of_mem_ordinary h.apart hq')
    · exact h.accepts_of_crosses hA hB hp crosses hq
  case mpr =>
    rintro ⟨u, v, rfl, first, second⟩
    exact h.accepts_append hA hB first second

end Chained

theorem concatenation_eq (apart : ¬A.Overlap B) (freeA : stuck ∈ A.states → A.IsStuck stuck)
    (freeB : stuck ∈ B.states → B.IsStuck stuck) :
    A.concatenation B (.designated stuck) = .ok (A.chain B stuck) := by
  simp only [concatenation, if_neg apart, Stuck.require, requireFree_eq_ok freeA,
    requireFree_eq_ok freeB, bind, Except.bind]
  rfl

section Linked

variable {starts ends : List Key} (h : Placed [A, B] stuck starts ends R)
variable (hA : A.WellFormed) (hB : B.WellFormed)
include h

theorem stuck_linked : (linked A B R).states.stuck = .designated stuck := by
  simp [linked, bridge, copyTransitions, h.mode]

include hA hB

theorem mem_alphabet_linked : a ∈ (linked A B R).alphabet ↔ a ∈ A.alphabet ∨ a ∈ B.alphabet := by
  rw [linked, mem_alphabet_bridge]
  exact mem_alphabet_beside h hA hB

theorem mem_transitions_linked {t : Transition} (freeA : stuck ∈ A.states → A.IsStuck stuck)
    (freeB : stuck ∈ B.states → B.IsStuck stuck) : t ∈ (linked A B R).transitions ↔
      t ∈ A.ordinaryTransitions ∨ t ∈ B.ordinaryTransitions ∨
        ∃ p ∈ A.ordinaryFinal, ∃ q ∈ B.ordinaryInitial, t = .internal ⟨p, .ε, q⟩ := by
  have mode : (beside A B R).states.stuck = .designated stuck := stuck_beside.trans h.mode
  have bridges : t ∈ (linked A B R).transitions ↔ _ := mem_transitions_bridge (A := beside A B R)
    fun _ hq => not_isStuck_of_free mode freeA (hA.ordinary_of_final hq)
  rw [bridges, mem_transitions_beside h hA hB freeA freeB, or_assoc]

end Linked

theorem chained_chain (hA : A.WellFormed) (hB : B.WellFormed) (apart : ¬A.Overlap B)
    (freeA : stuck ∈ A.states → A.IsStuck stuck) (freeB : stuck ∈ B.states → B.IsStuck stuck) :
    Chained (A.addSymbols B.alphabet.toList) (B.addSymbols A.alphabet.toList) (A.chain B stuck) := by
  have growth : Growth (ofStuck stuck) (A.chain B stuck) :=
    .addAll <| .addAll <| .addAll <| .addFinals <| .addInitials <| growth_copyStates.trans growth_copyStates
  have absorbing := growth.absorbing .ofStuck
  have copied : Placed [A, B] stuck [] [] _ := Placed.ofStuck.copyStates.copyStates
  have begun : Placed [A, B] stuck A.ordinaryInitial [] _ := copied.addInitials (l := A.ordinaryInitial)
  have placed : Placed [A, B] stuck A.ordinaryInitial B.ordinaryFinal _ :=
    begun.addFinals (l := B.ordinaryFinal) fun q hq =>
      not_isStuck_of_free begun.mode freeB (hB.ordinary_of_final hq)
  rw [chain] at absorbing ⊢
  generalize ((((ofStuck stuck).copyStates A).copyStates B).addInitials _).addFinals _ = R at *
  have transitions (t : Transition) : t ∈ (linked A B R).transitions ↔ _ :=
    mem_transitions_linked placed hA hB freeA freeB
  constructor
  case absorbing   => exact absorbing
  case apart       => rw [addSymbols_eq, addSymbols_eq]; exact apart
  case transitions => rw [addSymbols_eq, addSymbols_eq]; exact transitions
  case initial     =>
    rw [addSymbols_eq]
    simp only [linked, bridge, copyTransitions, initial_addAll]
    exact placed.initial
  case final       =>
    rw [addSymbols_eq]
    simp only [linked, bridge, copyTransitions, final_addAll]
    exact placed.final
  case first       =>
    exact .addSymbols (stuck_linked placed) freeA (fun a => mem_alphabet_linked placed hA hB)
      fun t ht => (transitions t).mpr (.inl ht)
  case second      =>
    exact .addSymbols (stuck_linked placed) freeB
      (fun a => (mem_alphabet_linked placed hA hB).trans or_comm)
      fun t ht => (transitions t).mpr (.inr (.inl ht))

-- The search in the concatenation succeeds on the words that are made up of one word of each operand,
-- where wild labels stand for the symbols of both.
theorem search_concatenation_iff (hA : A.Obtained) (hB : B.Obtained) (absA : A.Absorbing)
    (absB : B.Absorbing) (apart : ¬A.Overlap B) (freeA : stuck ∈ A.states → A.IsStuck stuck)
    (freeB : stuck ∈ B.states → B.IsStuck stuck) :
    ∃ R, A.concatenation B (.designated stuck) = .ok R ∧
      ∀ w : Word, w.WellMatched → w.Unreserved →
        (R.search w = .ok true ↔ ∃ u v : Word, w = u ++ v ∧
          (A.addSymbols B.alphabet.toList).search u = .ok true ∧
          (B.addSymbols A.alphabet.toList).search v = .ok true) := by
  have chained := chained_chain hA.wellFormed hB.wellFormed apart freeA freeB
  refine ⟨A.chain B stuck, concatenation_eq apart freeA freeB, fun w _ hw => ?_⟩
  rw [search_eq_true_iff chained.absorbing,
    chained.accepts_iff hA.wellFormed.addSymbols hB.wellFormed.addSymbols hw]
  simp only [search_eq_true_iff absA.addSymbols, search_eq_true_iff absB.addSymbols]

theorem search_concatenation_bracketed :
    ∃ R, (brackets ⟨3⟩ [⟨4⟩]).concatenation loop (.designated ⟨7⟩) = .ok R ∧
      R.search (bracketed ++ [.internal ⟨5⟩]) = .ok true := by
  obtain ⟨R, hR, splits⟩ := @search_concatenation_iff _ (brackets ⟨3⟩ [⟨4⟩]) loop ⟨7⟩ obtained_brackets
    obtained_loop absorbing_brackets absorbing_loop (by decide) (by decide) (by decide)
  refine ⟨R, hR, (splits _ (by decide) (by decide)).mpr ⟨bracketed, [.internal ⟨5⟩], rfl, ?_, ?_⟩⟩
  · decide
  · decide

end NestedAutomata.Automaton
