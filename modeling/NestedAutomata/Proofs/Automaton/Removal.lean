import Mathlib.Data.List.Nodup
import NestedAutomata.Proofs.Automaton.Absorption
import NestedAutomata.Proofs.Automaton.Restriction
import NestedAutomata.Proofs.Obtained

namespace NestedAutomata.Automaton

variable {ι : Type} {A B : Automaton ι} {q a : Key} {e : Edit ι} {done es : List (Edit ι)}

def removals (A : Automaton ι) : List (Edit ι) :=
  A.states.members.toList.map .removeState ++ A.alphabet.toList.map .removeSymbol

theorem nodup_removals : A.removals.Nodup := by
  refine List.nodup_append.mpr ⟨?_, ?_, ?_⟩
  · exact A.states.members.nodup_toList.map fun _ _ => Edit.removeState.inj
  · exact A.alphabet.symbols.nodup_toList.map fun _ _ => Edit.removeSymbol.inj
  · simp

-- What is left after some removals.
structure Stripped (A : Automaton ι) (done : List (Edit ι)) (B : Automaton ι) : Prop where
  mode        : B.states.stuck = A.states.stuck
  members     : ∀ q, q ∈ B.states ↔ q ∈ A.states ∧ .removeState q ∉ done
  alphabet    : ∀ a, a ∈ B.alphabet ↔ a ∈ A.alphabet ∧ .removeSymbol a ∉ done
  transitions : ∀ t, t ∈ B.transitions ↔ t ∈ A.transitions ∧
    (∀ q ∈ t.states, .removeState q ∉ done) ∧ .removeSymbol t.label ∉ done

namespace Stripped

theorem nil : A.Stripped [] A := by
  constructor <;> simp

variable (h : A.Stripped done B)
include h

theorem removeState (hq : q ∈ B.ordinary) :
    A.Stripped (done ++ [.removeState q]) (B.removeState q) := by
  have restricted : B.Restricted (· ≠ q) (B.removeState q) :=
    restricted_removeState.congr fun p => ⟨fun h e => h (e ▸ hq) e, fun h _ => h⟩
  constructor
  case mode        => exact restricted.mode.trans h.mode
  case members     => simp [restricted.members, h.members, and_assoc]
  case alphabet    => simp [restricted.alphabet, h.alphabet]
  case transitions =>
    intro t
    simp only [restricted.transitions, h.transitions, List.mem_append, List.mem_singleton, not_or,
      Edit.removeState.injEq, reduceCtorEq, not_false_eq_true, and_true, imp_and, forall_and]
    tauto

theorem removeSymbol (ha : a ∈ B.alphabet) :
    A.Stripped (done ++ [.removeSymbol a]) (B.removeSymbol a) := by
  constructor
  case mode        => rw [states_removeSymbol, h.mode]
  case members     => simp [h.members]
  case alphabet    => simp [mem_alphabet_removeSymbol, h.alphabet, and_assoc]
  case transitions => simp [mem_transitions_removeSymbol ha, h.transitions, and_assoc]

variable (absent : A.states.stuck = .absent)
include absent

theorem apply (he : e ∈ A.removals) (new : e ∉ done) :
    e.reply B = .effective true ∧ ∃ C, e.apply B = .ok C ∧ A.Stripped (done ++ [e]) C := by
  simp only [removals, List.mem_append, List.mem_map] at he
  obtain ⟨q, hq, rfl⟩ | ⟨a, ha, rfl⟩ := he
  case inl =>
    have ordinary : ¬B.IsStuck q := fun hs => by cases absent.symm.trans (h.mode.symm.trans hs)
    have hq : q ∈ B.states ∧ ¬B.IsStuck q := ⟨(h.members q).mpr ⟨hq, new⟩, ordinary⟩
    exact ⟨by simp [Edit.reply, hq], _, rfl, h.removeState (mem_ordinary.mpr hq)⟩
  case inr =>
    have ha : a ∈ B.alphabet := (h.alphabet a).mpr ⟨ha, new⟩
    exact ⟨by simp [Edit.reply, ha], _, rfl, h.removeSymbol ha⟩

end Stripped

theorem not_mem_of_nodup_concat (h : (es ++ [e]).Nodup) : e ∉ es :=
  fun he => (List.nodup_append.mp h).2.2 e he e (.head _) rfl

theorem exists_stripped (absent : A.states.stuck = .absent) (nodup : es.Nodup)
    (sub : ∀ e ∈ es, e ∈ A.removals) : ∃ B, A.edited es = .ok B ∧ A.Stripped es B := by
  induction es using List.reverseRecOn with
  | nil => exact ⟨A, rfl, .nil⟩
  | append_singleton es e ih =>
    have before := nodup.sublist (List.sublist_append_left es [e])
    have ⟨B, hB, stripped⟩ := ih before fun e he => sub e (List.mem_append_left _ he)
    have ⟨_, C, hC, stripped⟩ := stripped.apply absent (sub e (by simp)) (not_mem_of_nodup_concat nodup)
    exact ⟨C, (edited_concat hB).trans hC, stripped⟩

theorem WellFormed.eq_empty (wf : A.WellFormed) (absent : A.states.stuck = .absent)
    (members : ∀ q, q ∉ A.states) (alphabet : ∀ a, a ∉ A.alphabet) : A = ∅ := by
  obtain ⟨⟨states, initial, final, info, stuck⟩, ⟨symbols, _⟩, transitions⟩ := A
  obtain rfl : states = ∅ := SortedSet.eq_empty members
  obtain rfl : initial = ∅ := SortedSet.eq_empty fun q hq => members q (wf.states.initial q hq)
  obtain rfl : final = ∅ := SortedSet.eq_empty fun q hq => members q (wf.states.final q hq)
  obtain rfl : info = [] := List.eq_nil_iff_forall_not_mem.mpr fun x hx => members x.1 (wf.states.info x hx)
  obtain rfl : stuck = .absent := absent
  obtain rfl : symbols = ∅ := SortedSet.eq_empty alphabet
  obtain rfl : transitions = ∅ := Transitions.eq_empty fun t ht => members _ (wf.origin ht)
  rfl

-- All states and symbols are removed, one after the other, in any order. Each removal takes effect. After
-- each of them just those transitions are left that mention nothing that is gone, and in the end nothing is
-- left at all.
theorem edited_removals (hA : A.Obtained) (absent : A.states.stuck = .absent) (perm : es.Perm A.removals) :
    (∀ done, done <+: es → ∃ B, A.edited done = .ok B ∧
      (∀ t, t ∈ B.transitions ↔ t ∈ A.transitions ∧
        (∀ q ∈ t.states, .removeState q ∉ done) ∧ .removeSymbol t.label ∉ done) ∧
      ∀ e, done ++ [e] <+: es → e.reply B = .effective true) ∧
    A.edited es = .ok ∅ := by
  have nodup : es.Nodup := perm.nodup_iff.mpr nodup_removals
  have sub (e : Edit ι) : e ∈ es ↔ e ∈ A.removals := perm.mem_iff
  have reached {done : List (Edit ι)} (le : done <+: es) : ∃ B, A.edited done = .ok B ∧ A.Stripped done B :=
    exists_stripped absent (nodup.sublist le.sublist) fun e he => (sub e).mp (le.subset he)
  constructor
  case left =>
    intro done le
    have ⟨B, hB, stripped⟩ := reached le
    refine ⟨B, hB, stripped.transitions, fun e le => ?_⟩
    have new : e ∉ done := not_mem_of_nodup_concat (nodup.sublist le.sublist)
    exact (stripped.apply absent ((sub e).mp (le.subset (by simp))) new).1
  case right =>
    have ⟨B, hB, stripped⟩ := reached (List.prefix_refl es)
    have wf : B.WellFormed := hA.wellFormed.edited hB
    have removed {e : Edit ι} (he : e ∈ A.removals) : e ∈ es := (sub e).mpr he
    rw [hB, wf.eq_empty (stripped.mode.trans absent)]
    · intro q hq
      have ⟨hq, left⟩ := (stripped.members q).mp hq
      exact left (removed (List.mem_append_left _ (List.mem_map_of_mem hq)))
    · intro a ha
      have ⟨ha, left⟩ := (stripped.alphabet a).mp ha
      exact left (removed (List.mem_append_right _ (List.mem_map_of_mem ha)))

theorem edited_removals_brackets :
    let A := brackets ⟨3⟩ [⟨4⟩]
    let es := [.removeState ⟨2⟩, .removeSymbol ⟨6⟩, .removeState ⟨4⟩, .removeSymbol ⟨5⟩, .removeState ⟨3⟩]
    es.Perm A.removals ∧ A.edited es = .ok ∅ ∧
      ∃ B, A.edited [.removeState ⟨2⟩] = .ok B ∧ Edit.reply B (.removeSymbol ⟨6⟩) = .effective true ∧
        ∀ t, t ∉ B.transitions := by
  intro A es
  have perm : es.Perm A.removals := by
    refine (List.perm_ext_iff_of_nodup (by simp [es]) nodup_removals).mpr fun e => ?_
    have all : A.removals = [.removeState ⟨2⟩, .removeState ⟨3⟩, .removeState ⟨4⟩, .removeSymbol ⟨5⟩,
      .removeSymbol ⟨6⟩] := rfl
    simp only [all, es, List.mem_cons, List.not_mem_nil]
    tauto
  have ⟨after, last⟩ := edited_removals obtained_brackets rfl perm
  have ⟨B, hB, left, effective⟩ := after [.removeState ⟨2⟩] (by simp [es])
  refine ⟨perm, last, B, hB, effective _ (by simp [es]), fun t ht => ?_⟩
  have ⟨ht, spared, _⟩ := (left t).mp ht
  have both : ∀ t ∈ A.transitions.toList, ⟨2⟩ ∈ t.states := by decide
  exact spared _ (both t (Transitions.mem_toList.mpr ht)) (.head _)

end NestedAutomata.Automaton
