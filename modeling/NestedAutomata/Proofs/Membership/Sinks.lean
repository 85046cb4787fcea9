import Mathlib.Data.List.Basic
import NestedAutomata.Automaton.Edit
import NestedAutomata.Proofs.Membership.Restriction

namespace NestedAutomata.Automaton

variable {ι : Type} {A : Automaton ι} {c d : Configuration} {v w : Word} {q : Key}

theorem mem_sinks :
    q ∈ A.sinks ↔ (q ∈ A.ordinary ∧ q ∉ A.states.initial ∧ q ∉ A.states.final) ∧
      ∀ t ∈ A.transitions, t.origin = q → t.destination = q := by
  have loops : (∀ t ∈ A.transitions, t.origin = q → t.destination = q) ↔
      (∀ t ∈ A.transitions.internalsFrom q, t.target = q) ∧
      (∀ t ∈ A.transitions.callsFrom q, t.entry = q) ∧
      (∀ t ∈ A.transitions.returnsFrom q, t.returnSite = q) := by
    simp only [Transitions.mem_internalsFrom, Transitions.mem_callsFrom, Transitions.mem_returnsFrom,
      and_imp]
    constructor
    case mp  => exact fun h => ⟨fun t => h (.internal t), fun t => h (.call t), fun t => h (.ret t)⟩
    case mpr =>
      rintro ⟨internals, calls, returns⟩ (t | t | t)
      · exact internals t
      · exact calls t
      · exact returns t
  simp only [loops, sinks, List.mem_filter, SortedSet.mem_toList, States.mem_members, List.all_eq_true,
    decide_eq_true_eq, mem_ordinary]
  tauto

-- A sink is never left, not even by a return that pops it, since the exit of that return would be
-- another state.
theorem Passes.state_eq_of_sink (h : A.Passes c w d) (hc : c.state ∈ A.sinks) : d.state = c.state := by
  have stays {c d : Configuration} {v : Word} (st : A.Step c v d) (hc : c.state ∈ A.sinks) :
      d.state = c.state := by
    have loops := (mem_sinks.mp hc).2
    cases st with
    | rest ht | internal ht | call ht | ret ht => exact loops _ ht rfl
  induction h with
  | nil => rfl
  | rest st _ ih | read _ st _ ih =>
    have same := stays st hc
    exact (ih (same ▸ hc)).trans same

theorem search_removeSinks : A.removeSinks.search w = A.search w := by
  refine restricted_removeStates.search_eq_of_passed fun p hp d hd u e v first last _ sink => ?_
  have ⟨⟨_, _, final⟩, _⟩ := mem_sinks.mp sink
  exact final (last.state_eq_of_sink sink ▸ hd)

theorem mem_removeSinks : q ∈ A.removeSinks.states ↔ q ∈ A.states ∧ q ∉ A.sinks := by
  refine (restricted_removeStates.members q).trans (and_congr_right fun _ => ?_)
  exact ⟨fun h sink => h (mem_sinks.mp sink).1.1 sink, fun h _ => h⟩

theorem size_removeSinks :
    A.removeSinks.states.members.size + A.sinks.length = A.states.members.size := by
  have left : A.removeSinks.states.members = A.states.members.filter (fun q => !decide (q ∈ A.sinks)) := by
    refine SortedSet.ext_mem fun q => ?_
    rw [SortedSet.mem_filter, Bool.not_eq_true', decide_eq_false_iff_not]
    exact mem_removeSinks
  have gone : A.states.members.toList.filter (· ∈ A.sinks) = A.sinks := by
    refine List.filter_congr fun q hq => ?_
    simp only [sinks, List.mem_filter, hq, true_and, decide_eq_true_eq]
  calc
    A.removeSinks.states.members.size + A.sinks.length
    _ = (A.states.members.toList.filter (fun q => !decide (q ∈ A.sinks))).length + A.sinks.length := by
      rw [left]; rfl
    _ = (A.states.members.toList.filter (· ∈ A.sinks)).length +
        (A.states.members.toList.filter (fun q => !decide (q ∈ A.sinks))).length := by
      rw [gone, Nat.add_comm]
    _ = A.states.members.size := (List.length_eq_length_filter_add _).symm

-- The ordinary states that are neither initial nor final and are never left are removed, and no others.
-- That changes no answer of the search, and the reply is how many states are gone. It does not matter
-- whether transitions leave the stuck state.
theorem search_removeSinks_eq :
    (∀ q, q ∈ A.removeSinks.states ↔
      q ∈ A.states ∧ ¬((q ∈ A.ordinary ∧ q ∉ A.states.initial ∧ q ∉ A.states.final) ∧
        ∀ t ∈ A.transitions, t.origin = q → t.destination = q)) ∧
    (∀ w, A.removeSinks.search w = A.search w) ∧
    ∃ n, Edit.removeSinks.reply A = .removed n ∧
      A.removeSinks.states.members.size + n = A.states.members.size := by
  refine ⟨fun q => ?states, fun w => search_removeSinks, A.sinks.length, rfl, size_removeSinks⟩
  case states => rw [mem_removeSinks, mem_sinks]

end NestedAutomata.Automaton
