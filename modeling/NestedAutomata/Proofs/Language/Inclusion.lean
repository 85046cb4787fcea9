import NestedAutomata.Language.Comparison
import NestedAutomata.Proofs.Determinization.Complement
import NestedAutomata.Proofs.Key.Table
import NestedAutomata.Proofs.Language.Summary
import NestedAutomata.Proofs.Product.Language

namespace NestedAutomata.Automaton

variable {ι : Type} {A B : Automaton ι} {w : Word}

theorem decideSubset_spec (hA : A.WellFormed) (hB : B.WellFormed) (absB : B.Absorbing) (table : KeyTable) :
    ∃ b table', A.decideSubset B table = .ok (b, table') ∧
      (b = true ↔ ∀ w : Word, w.Unreserved → A.Accepts w → (B.addSymbols A.alphabet.toList).Accepts w) := by
  have hE := hB.addSymbols (l := A.alphabet.toList)
  have absE := absB.addSymbols (l := A.alphabet.toList)
  have wider (a : Key) (ha : a ∈ A.alphabet) : a ∈ (B.addSymbols A.alphabet.toList).alphabet :=
    mem_alphabet_addSymbols.mpr (.inr ⟨ha, A.alphabet.unreserved a ha⟩)
  simp only [decideSubset]
  generalize B.addSymbols A.alphabet.toList = E at *
  have ⟨_, named⟩ := table.exists_name_fresh "stuck"
  generalize table.fresh "stuck" = fresh at *
  obtain ⟨stuck, table⟩ := fresh
  -- A key with a name stands for no relation, also after more keys were handed out.
  have spares : (E.subsets stuck table).table.Spares stuck := fun r =>
    KeyTable.key?_ne_of_name named Determinization.shapes_prefix_subsets nofun
  have ⟨C, complement, hC⟩ := complement_spec hE absE spares
  have ⟨_, named⟩ := (E.subsets stuck table).table.exists_name_fresh "stuck"
  generalize hfresh : (E.subsets stuck table).table.fresh "stuck" = fresh at *
  obtain ⟨stuck', table'⟩ := fresh
  have free (p q : Key) : (A.combine C stuck' table').table.key? (.pair p q) ≠ some stuck' :=
    KeyTable.key?_ne_of_name named paired_combine.grown nofun
  have plain := plain_combine hA hC.wellFormed free
  refine ⟨decide (A.combine C stuck' table').result.AcceptsNothing,
    (A.combine C stuck' table').table, ?_, ?_⟩
  case refine_1 =>
    simp only [complement, bind, Except.bind, hfresh, product_eq]
    rfl
  case refine_2 =>
    rw [decide_eq_true_iff, acceptsNothing_iff plain.wellFormed]
    constructor
    case mp  =>
      intro none w hw accepts
      by_contra rejects
      have symbols x hx := wider _ (accepts.symbol_mem_alphabet hA hw x hx)
      have rest := (hC.accepts w hw).mpr ⟨accepts.wellMatched, symbols, rejects⟩
      exact none w hw ((plain.accepts_iff hw).mpr ⟨accepts, rest⟩)
    case mpr =>
      intro sub w hw accepts
      have ⟨accepts, rest⟩ := (plain.accepts_iff hw).mp accepts
      have ⟨_, _, rejects⟩ := (hC.accepts w hw).mp rest
      exact rejects (sub w hw accepts)

-- Accepted words are well-matched, and the search finds out which they are.
theorem decideSubset_iff (hA : A.Obtained) (hB : B.Obtained) (absA : A.Absorbing) (absB : B.Absorbing)
    (table : KeyTable) :
    ∃ b table', A.decideSubset B table = .ok (b, table') ∧
      (b = true ↔ ∀ w : Word, w.WellMatched → w.Unreserved →
        A.search w = .ok true → (B.addSymbols A.alphabet.toList).search w = .ok true) := by
  have ⟨b, table', decided, sub⟩ := decideSubset_spec hA.wellFormed hB.wellFormed absB table
  refine ⟨b, table', decided, ?_⟩
  simp only [search_eq_true_iff absA, search_eq_true_iff absB.addSymbols]
  rw [sub]
  constructor
  case mp  => exact fun sub w _ hw accepts => sub w hw accepts
  case mpr => exact fun sub w hw accepts => sub w accepts.wellMatched hw accepts

theorem decideSubset_bracketed :
    ∃ table, (brackets ⟨3⟩ [⟨4⟩]).decideSubset ∅ bracketKeys = .ok (false, table) := by
  have empty : (∅ : Automaton Unit).Absorbing := fun _ ht => absurd ht Transitions.not_mem_empty
  have ⟨b, table, decided, sub⟩ := decideSubset_iff (A := brackets ⟨3⟩ [⟨4⟩]) obtained_brackets
    .empty absorbing_brackets empty bracketKeys
  cases b with
  | false => exact ⟨table, decided⟩
  | true  =>
    have := sub.mp rfl bracketed (by decide) (by decide) (by decide)
    exact absurd this (by decide)

end NestedAutomata.Automaton
