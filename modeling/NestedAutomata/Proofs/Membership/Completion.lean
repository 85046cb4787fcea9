import NestedAutomata.Proofs.Automaton.Completion

namespace NestedAutomata.Automaton

variable {ι : Type} {A : Automaton ι} {c d : Configuration} {w : Word} {p q stuck : Key}

theorem search_complete_eq (hA : A.WellFormed) (abs : A.Absorbing) (hs : A.IsStuck stuck) :
    (A.complete stuck).search w = A.search w := by
  have abs' : (A.complete stuck).Absorbing := .of_realized fun _ => not_isStuck_complete
  refine search_congr (exists_congr fun c => ?_)
  simp only [mem_configurations abs, mem_configurations abs', ← run_complete_iff abs hs]
  -- What is new are configurations in the stuck state, which is not final.
  have ordinary (hc : c.state ∈ A.states.final) : c.state ≠ stuck :=
    fun e => hA.states.not_final stuck hs (e ▸ hc)
  constructor
  case mp  => exact fun ⟨⟨p, hp, r⟩, hc⟩ => ⟨⟨p, hp, r, ordinary hc⟩, hc⟩
  case mpr => exact fun ⟨⟨p, hp, r, _⟩, hc⟩ => ⟨⟨p, hp, r⟩, hc⟩

-- With all implicit transitions spelled out, the automaton is total, and as deterministic as it was. The
-- search tells no difference, although the stuck state may become a call site, which some returns may
-- mention that were there all along.
theorem realize_faithful (hA : A.Obtained) (abs : A.Absorbing) (hs : A.IsStuck stuck) :
    ∃ B, A.realize = .ok B ∧
      (B.states = { A.states with stuck := .realized } ∧ stuck ∈ B.states ∧ B.alphabet = A.alphabet) ∧
      B.Total ∧ (∀ t ∈ A.transitions, t ∈ B.transitions) ∧ (B.Deterministic ↔ A.Deterministic) ∧
      ∀ w, B.search w = A.search w := by
  have hA := hA.wellFormed
  have realize : A.realize = .ok (A.complete stuck) := by rw [Automaton.realize, hs]
  have there := hA.states.stuck stuck hs
  exact ⟨_, realize, ⟨rfl, there, rfl⟩, total_complete, fun _ => mem_complete, deterministic_complete_iff,
    fun _ => search_complete_eq hA abs hs⟩

-- Loops on one of its two symbols, and is at a loss for the other one and for calls. It has a return that
-- pops the stuck state.
def sinking (final : List Key) : Automaton Unit :=
  let A := (((ofStuck ⟨2⟩).addInitial ⟨3⟩).addFinals final).addSymbol ⟨5⟩
  (A.add (.internal ⟨⟨3⟩, ⟨4⟩, ⟨3⟩⟩)).add (.ret ⟨⟨3⟩, ⟨2⟩, ⟨4⟩, ⟨3⟩⟩)

section Sinking

variable {l : List Key}

theorem obtained_sinking : (sinking l).Obtained :=
  have A : ((ofStuck ⟨2⟩ : Automaton Unit).addInitial ⟨3⟩).Obtained :=
    .edit (e := .addInitial _) .ofStuck rfl
  have B : (((ofStuck ⟨2⟩ : Automaton Unit).addInitial ⟨3⟩).addFinals l).Obtained :=
    .edit (e := .addFinals _) A rfl
  .edit (e := .add _) (.edit (e := .add _) (.edit (e := .addSymbol _) B rfl) rfl) rfl

theorem absorbing_sinking : (sinking l).Absorbing :=
  have growth : Growth (ofStuck ⟨2⟩) (sinking l) :=
    .add <| .add <| .addSymbols (l := [⟨5⟩]) <| .addFinals <| .addInitial .refl
  growth.absorbing .ofStuck

end Sinking

theorem realize_sinking :
    ∃ B, (sinking [⟨3⟩]).realize = .ok B ∧ B.Deterministic ∧ B.internalTargets ⟨2⟩ ⟨5⟩ ≠ [] ∧
      B.search [.internal ⟨4⟩] = .ok true ∧ B.search [.call ⟨4⟩, .ret ⟨4⟩] = .ok false := by
  have stuck : (sinking [⟨3⟩]).IsStuck ⟨2⟩ := rfl
  have ⟨B, realize, ⟨_, there, alphabet⟩, total, _, deterministic, same⟩ :=
    realize_faithful obtained_sinking absorbing_sinking stuck
  have symbol : ⟨5⟩ ∈ B.alphabet := alphabet ▸ by decide
  refine ⟨B, realize, deterministic.mpr (by decide), total.internals _ there _ symbol, ?_, ?_⟩
  · rw [same]
    decide
  · rw [same]
    decide

section Stuck

variable (hs : A.IsStuck stuck)
include hs

theorem addFinal_stuck_eq :
    A.addFinal stuck = { A.complete stuck with states := (A.complete stuck).states.addFinal stuck } := by
  rw [addFinal, if_pos hs]

theorem realized_addFinal_stuck (q : Key) : ¬(A.addFinal stuck).IsStuck q := by
  rw [addFinal_stuck_eq hs]
  nofun

theorem run_addFinal_stuck : (A.addFinal stuck).Run c w d ↔ (A.complete stuck).Run c w d := by
  apply run_congr
  case transitions => rw [addFinal_stuck_eq hs]
  case alphabet    => rw [addFinal_stuck_eq hs]
  case stuck       => exact fun q => iff_of_false (realized_addFinal_stuck hs q) not_isStuck_complete

theorem mem_final_addFinal_stuck :
    q ∈ (A.addFinal stuck).states.final ↔ q = stuck ∨ q ∈ A.states.final := by
  rw [addFinal_stuck_eq hs]
  exact SortedSet.mem_insert

end Stuck

-- A run leads from an initial state to one that is not final.
def Misses (A : Automaton ι) (w : Word) : Prop :=
  ∃ p ∈ A.states.initial, ∃ c, A.Run ⟨p, []⟩ w c ∧ c.state ∉ A.states.final

-- The one run in the completion either is explicit, or it ends in the stuck state.
theorem Deterministic.accepts_addFinal_stuck_iff (h : A.Deterministic) (hA : A.WellFormed)
    (abs : A.Absorbing) (hs : A.IsStuck stuck) (hw : w.WellMatched)
    (ha : ∀ x ∈ w, x.symbol ∈ A.alphabet) : (A.addFinal stuck).Accepts w ↔ ¬A.Misses w := by
  have ⟨p, start, q, _, run⟩ := h.exists_run_complete_iff hA (hA.states.stuck stuck hs) hw ha
  have misses : A.Misses w ↔ q ≠ stuck ∧ q ∉ A.states.final := by
    simp [Misses, start, ← run_complete_iff abs hs, run, and_assoc]
  rw [accepts_iff_of_run_iff (initial_addFinal.trans start) fun c => (run_addFinal_stuck hs).trans (run c),
    mem_final_addFinal_stuck hs, misses, not_and_or, not_not, not_not]

-- Once the stuck state is final, the search refuses just the words over the alphabet on which the run stays
-- out of the stuck state and ends in a state that is not final.
theorem search_addFinal_stuck_iff (hA : A.Obtained) (det : A.Deterministic) (abs : A.Absorbing)
    (hs : A.IsStuck stuck) (hw : w.WellMatched) (ha : ∀ x ∈ w, x.symbol ∈ A.alphabet) :
    ((A.addFinal stuck).search w = .ok false ↔ A.Misses w) ∧
      ((A.addFinal stuck).search w = .ok true ↔ ¬A.Misses w) := by
  have abs' : (A.addFinal stuck).Absorbing := abs.addFinal
  have accepts := det.accepts_addFinal_stuck_iff hA.wellFormed abs hs hw ha
  have found := (search_eq_true_iff abs').trans accepts
  refine ⟨?_, found⟩
  have ⟨b, hb⟩ := exists_search_eq (A := A.addFinal stuck) hw
  rw [hb] at found ⊢
  cases b <;> simp_all

theorem search_addFinal_sinking :
    ((sinking []).addFinal ⟨2⟩).search [.internal ⟨4⟩] = .ok false ∧
      (sinking []).Misses [.internal ⟨4⟩] ∧
      ((sinking []).addFinal ⟨2⟩).search [.call ⟨4⟩, .ret ⟨4⟩] = .ok true ∧
      ¬(sinking []).Misses [.call ⟨4⟩, .ret ⟨4⟩] := by
  have deterministic : (sinking []).Deterministic := by decide
  have stuck : (sinking []).IsStuck ⟨2⟩ := rfl
  have verdict {w : Word} (hw : w.WellMatched) (ha : ∀ x ∈ w, x.symbol ∈ (sinking []).alphabet) :=
    search_addFinal_stuck_iff obtained_sinking deterministic absorbing_sinking stuck hw ha
  have refused : ((sinking []).addFinal ⟨2⟩).search [.internal ⟨4⟩] = .ok false := by decide
  have found : ((sinking []).addFinal ⟨2⟩).search [.call ⟨4⟩, .ret ⟨4⟩] = .ok true := by decide
  refine ⟨refused, ?_, found, ?_⟩
  · exact (verdict (by decide) (by decide)).1.mp refused
  · exact (verdict (by decide) (by decide)).2.mp found

end NestedAutomata.Automaton
