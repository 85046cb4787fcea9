import NestedAutomata.Membership.Basic
import NestedAutomata.Proofs.Determinization.Language

namespace NestedAutomata.Automaton

variable {ι : Type} {A : Automaton ι} {w : Word} {table : KeyTable}

theorem Deterministic.walk_eq_true_iff (h : A.Deterministic) (hA : A.WellFormed) :
    A.walk w = .ok true ↔ A.Accepts w := by
  constructor
  case mp  => exact accepts_of_walk
  case mpr => exact fun accepts => (h.walk_iff_accepts hA accepts.wellMatched).mpr accepts

def freshSubsets (A : Automaton ι) (table : KeyTable) : Determinization ι :=
  A.subsets (table.fresh "stuck").1 (table.fresh "stuck").2

theorem walk_freshSubsets_iff (hA : A.WellFormed) (abs : A.Absorbing) (hw : w.Unreserved) :
    (A.freshSubsets table).result.walk w = .ok true ↔ A.Accepts w := by
  have ⟨_, named⟩ := table.exists_name_fresh "stuck"
  have complete := Determinization.subsets_complete hA (Determinization.spares_subsets named)
  exact (complete.deterministic.walk_eq_true_iff complete.wellFormed).trans
    (complete.accepts_iff hA abs hw)

theorem decideMember_eq_true_iff (hA : A.WellFormed) (abs : A.Absorbing) (hw : w.Unreserved) :
    (A.decideMember w table).1 = .ok true ↔ A.Accepts w := by
  rw [decideMember]
  split
  case isTrue det => exact det.walk_eq_true_iff hA
  case isFalse    => exact walk_freshSubsets_iff hA abs hw

theorem contains_eq_true_iff (hA : A.WellFormed) (abs : A.Absorbing) (hw : w.Unreserved) :
    (A.contains w table).1 = true ↔ A.Accepts w := by
  have member : (A.decideMember w table).1 = .ok true ↔ _ := decideMember_eq_true_iff hA abs hw
  rw [← member, contains]
  split
  case h_1 b _ h => simp [h]
  case h_2 h     => simp [h]

-- The decision and the search agree on all words, also on those with pending calls or returns. Both ways
-- to decide do so, the walk in the automaton where it is deterministic, and the one in its
-- determinization even there.
theorem decideMember_iff_search (hA : A.Obtained) (abs : A.Absorbing) (hw : w.Unreserved)
    (table : KeyTable) :
    ((A.decideMember w table).1 = .ok true ↔ A.search w = .ok true) ∧
      (A.Deterministic → (A.walk w = .ok true ↔ A.search w = .ok true)) ∧
      ((A.freshSubsets table).result.walk w = .ok true ↔ A.search w = .ok true) := by
  rw [search_eq_true_iff abs]
  refine ⟨?_, fun det => ?_, ?_⟩
  · exact decideMember_eq_true_iff hA.wellFormed abs hw
  · exact det.walk_eq_true_iff hA.wellFormed
  · exact walk_freshSubsets_iff hA.wellFormed abs hw

def forked : Automaton Unit :=
  (brackets ⟨3⟩ [⟨4⟩]).addInitial ⟨4⟩

theorem decideMember_forked_search :
    ¬forked.Deterministic ∧ (forked.decideMember bracketed bracketKeys).1 = .ok true ∧
      (forked.decideMember [.call ⟨5⟩] bracketKeys).1 ≠ .ok true := by
  have obtained : forked.Obtained := .edit (e := .addInitial _) obtained_brackets rfl
  have absorbing : forked.Absorbing := (Growth.addInitial .refl).absorbing absorbing_brackets
  have member {w : Word} (hw : w.Unreserved) := (decideMember_iff_search obtained absorbing hw bracketKeys).1
  refine ⟨by decide, (member (by decide)).mpr (by decide), ?_⟩
  exact mt (member (by decide)).mp (by decide)

end NestedAutomata.Automaton
