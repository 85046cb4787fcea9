import NestedAutomata.Proofs.Automaton.Removal
import NestedAutomata.Proofs.Membership.Search

namespace NestedAutomata.Automaton

variable {ι : Type} {A : Automaton ι} {c d : Configuration} {v w : Word} {a b : Key} {t : Transition}

theorem isStuck_removeSymbol {q : Key} : (A.removeSymbol a).IsStuck q ↔ A.IsStuck q := by
  rw [IsStuck, states_removeSymbol]

section Removed

variable (ha : a ∈ A.alphabet)
include ha

theorem taken_removeSymbol_iff :
    t ∈ (A.removeSymbol a).transitions ∧ (A.removeSymbol a).Reads t.label b ↔
      (t ∈ A.transitions ∧ A.Reads t.label b) ∧ b ≠ a := by
  have wild : .wild ≠ a := fun e => A.alphabet.unreserved a ha (.inr e.symm)
  simp only [mem_transitions_removeSymbol ha, Reads, mem_alphabet_removeSymbol]
  grind

theorem internal_removeSymbol_iff {p q : Key} :
    .internal ⟨p, .ε, q⟩ ∈ (A.removeSymbol a).transitions ↔ .internal ⟨p, .ε, q⟩ ∈ A.transitions := by
  rw [mem_transitions_removeSymbol ha]
  exact and_iff_left fun e => A.alphabet.unreserved a ha (.inl e.symm)

theorem step_removeSymbol_iff : (A.removeSymbol a).Step c v d ↔ A.Step c v d ∧ ∀ x ∈ v, x.symbol ≠ a := by
  constructor
  case mp =>
    intro st
    cases st with
    | rest ht => exact ⟨.rest ((internal_removeSymbol_iff ha).mp ht), nofun⟩
    | internal ht hl | call ht hl | ret ht hl =>
      have ⟨⟨ht, hl⟩, ne⟩ := (taken_removeSymbol_iff ha).mp ⟨ht, hl⟩
      exact ⟨by constructor <;> assumption, List.forall_mem_singleton.mpr ne⟩
  case mpr =>
    intro ⟨st, ne⟩
    cases st with
    | rest ht => exact .rest ((internal_removeSymbol_iff ha).mpr ht)
    | internal ht hl | call ht hl | ret ht hl =>
      have ⟨ht, hl⟩ := (taken_removeSymbol_iff ha).mpr ⟨⟨ht, hl⟩, ne _ (.head _)⟩
      constructor <;> assumption

theorem passes_removeSymbol_iff :
    (A.removeSymbol a).Passes c w d ↔ A.Passes c w d ∧ ∀ x ∈ w, x.symbol ≠ a := by
  constructor
  case mp =>
    intro h
    induction h with
    | nil => exact ⟨.nil, nofun⟩
    | rest st _ ih =>
      exact ⟨.rest ((step_removeSymbol_iff ha).mp st).1 ih.1, ih.2⟩
    | read hs st _ ih =>
      have ⟨st, ne⟩ := (step_removeSymbol_iff ha).mp st
      exact ⟨.read (mt isStuck_removeSymbol.mpr hs) st ih.1,
        List.forall_mem_cons.mpr ⟨ne _ (.head _), ih.2⟩⟩
  case mpr =>
    intro ⟨h, ne⟩
    induction h with
    | nil => exact .nil
    | rest st _ ih => exact .rest ((step_removeSymbol_iff ha).mpr ⟨st, nofun⟩) (ih ne)
    | read hs st _ ih =>
      have ⟨first, later⟩ := List.forall_mem_cons.mp ne
      have st := (step_removeSymbol_iff ha).mpr ⟨st, List.forall_mem_singleton.mpr first⟩
      exact .read (mt isStuck_removeSymbol.mp hs) st (ih later)

theorem mem_configurations_removeSymbol :
    d ∈ (A.removeSymbol a).configurations w ↔ d ∈ A.configurations w ∧ ∀ x ∈ w, x.symbol ≠ a := by
  simp only [mem_configurations_iff_passes, states_removeSymbol, isStuck_removeSymbol,
    passes_removeSymbol_iff ha]
  grind

end Removed

-- The search finds no run on a word with the symbol, and on all other words it answers as before, be it with
-- an error.
theorem search_removeSymbol_eq (ha : a ∈ A.alphabet) (w : Word) :
    (A.removeSymbol a).search w = if ∃ x ∈ w, x.symbol = a then .ok false else A.search w := by
  have left {c : Configuration} : c ∈ (A.removeSymbol a).configurations w ↔ _ :=
    mem_configurations_removeSymbol ha
  split
  case isTrue some =>
    obtain ⟨x, hx, hs⟩ := some
    exact search_eq_false_iff_mem.mpr fun c hc => absurd hs ((left.mp hc).2 x hx)
  case isFalse none =>
    have others : ∀ x ∈ w, x.symbol ≠ a := fun x hx hs => none ⟨x, hx, hs⟩
    refine search_congr (exists_congr fun c => ?_)
    rw [states_removeSymbol, left, and_iff_left others]

theorem search_removeSymbol_loop :
    let A := loop.addSymbols [⟨5⟩, ⟨6⟩]
    ⟨5⟩ ∈ A.alphabet ∧ A.search [.internal ⟨6⟩, .internal ⟨5⟩] = .ok true ∧
      (A.removeSymbol ⟨5⟩).search [.internal ⟨6⟩, .internal ⟨5⟩] = .ok false ∧
      (A.removeSymbol ⟨5⟩).search [.internal ⟨6⟩] = .ok true := by
  intro A
  have ha : ⟨5⟩ ∈ A.alphabet := by decide
  refine ⟨ha, by decide, ?_, ?_⟩
  · rw [search_removeSymbol_eq ha, if_pos (by decide)]
  · rw [search_removeSymbol_eq ha, if_neg (by decide)]
    decide

end NestedAutomata.Automaton
