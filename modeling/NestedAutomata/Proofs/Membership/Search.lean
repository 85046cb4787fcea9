import NestedAutomata.Automaton.Reachability.Lemmas
import NestedAutomata.Membership.Search
import NestedAutomata.Proofs.Obtained
import NestedAutomata.Proofs.Passage

namespace NestedAutomata.Automaton

variable {ι : Type} {A : Automaton ι} {c d : Configuration} {cs : SortedSet Configuration} {w : Word}
variable {x : Position} {p q a : Key}

-- The configurations in which the runs on the word end, if it is not given up on the way.
def configurations (A : Automaton ι) (w : Word) : SortedSet Configuration :=
  A.rest (w.foldl A.step A.startConfigurations)

theorem foldl_step_empty : w.foldl A.step ∅ = ∅ := by
  induction w with
  | nil         => rfl
  | cons x w ih => exact ih

-- Where no run is left, reading on would find none either.
theorem searchFrom_eq : A.searchFrom cs w = A.verdict (A.rest (w.foldl A.step cs)) := by
  induction w generalizing cs with
  | nil         => rfl
  | cons x w ih =>
    rw [searchFrom, List.foldl_cons]
    split
    case isTrue none  =>
      rw [SortedSet.isEmpty_iff.mp none, foldl_step_empty]
      rfl
    case isFalse some => exact ih

theorem search_eq : A.search w = A.verdict (A.configurations w) :=
  searchFrom_eq

theorem mem_internalTargets :
    q ∈ A.internalTargets p a ↔ ∃ l, .internal ⟨p, l, q⟩ ∈ A.transitions ∧ A.Reads l a := by
  simp only [internalTargets, List.mem_map, List.mem_filter, Transitions.mem_internalsFrom,
    decide_eq_true_eq]
  constructor
  case mp =>
    rintro ⟨⟨_, l, _⟩, ⟨⟨ht, rfl⟩, hl⟩, rfl⟩
    exact ⟨l, ht, hl⟩
  case mpr =>
    rintro ⟨l, ht, hl⟩
    exact ⟨_, ⟨⟨ht, rfl⟩, hl⟩, rfl⟩

theorem mem_callEntries :
    q ∈ A.callEntries p a ↔ ∃ l, .call ⟨p, l, q⟩ ∈ A.transitions ∧ A.Reads l a := by
  simp only [callEntries, List.mem_map, List.mem_filter, Transitions.mem_callsFrom,
    decide_eq_true_eq]
  constructor
  case mp =>
    rintro ⟨⟨_, l, _⟩, ⟨⟨ht, rfl⟩, hl⟩, rfl⟩
    exact ⟨l, ht, hl⟩
  case mpr =>
    rintro ⟨l, ht, hl⟩
    exact ⟨_, ⟨⟨ht, rfl⟩, hl⟩, rfl⟩

theorem mem_returnTargets {site : Key} :
    q ∈ A.returnTargets p site a ↔ ∃ l, .ret ⟨p, site, l, q⟩ ∈ A.transitions ∧ A.Reads l a := by
  simp only [returnTargets, List.mem_map, List.mem_filter, Transitions.mem_returnsPopping,
    decide_eq_true_eq]
  constructor
  case mp =>
    rintro ⟨⟨_, _, l, _⟩, ⟨⟨ht, rfl, rfl⟩, hl⟩, rfl⟩
    exact ⟨l, ht, hl⟩
  case mpr =>
    rintro ⟨l, ht, hl⟩
    exact ⟨_, ⟨⟨ht, rfl, rfl⟩, hl⟩, rfl⟩

theorem mem_successorsOf : d ∈ A.successorsOf c x ↔ A.Step c [x] d := by
  obtain ⟨p, s⟩ := c
  constructor
  case mp =>
    intro h
    cases x with
    | internal a =>
      obtain ⟨q, hq, rfl⟩ := List.mem_map.mp h
      have ⟨_, ht, hl⟩ := mem_internalTargets.mp hq
      exact .internal ht hl
    | call a =>
      obtain ⟨q, hq, rfl⟩ := List.mem_map.mp h
      have ⟨_, ht, hl⟩ := mem_callEntries.mp hq
      exact .call ht hl
    | ret a =>
      cases s with
      | nil => simp [successorsOf] at h
      | cons site s =>
        obtain ⟨q, hq, rfl⟩ := List.mem_map.mp h
        have ⟨_, ht, hl⟩ := mem_returnTargets.mp hq
        exact .ret ht hl
  case mpr =>
    intro st
    cases st with
    | internal ht hl => exact List.mem_map.mpr ⟨_, mem_internalTargets.mpr ⟨_, ht, hl⟩, rfl⟩
    | call ht hl     => exact List.mem_map.mpr ⟨_, mem_callEntries.mpr ⟨_, ht, hl⟩, rfl⟩
    | ret ht hl      => exact List.mem_map.mpr ⟨_, mem_returnTargets.mpr ⟨_, ht, hl⟩, rfl⟩

theorem mem_rest :
    d ∈ A.rest cs ↔
      ∃ c ∈ cs, A.Rests c.state d.state ∧ ¬A.IsStuck d.state ∧ d.calls = c.calls := by
  simp only [rest, SortedSet.mem_ofList, List.mem_flatMap, List.mem_map, List.mem_filter,
    SortedSet.mem_toList, mem_εClosure, decide_eq_true_eq]
  constructor
  case mp =>
    rintro ⟨c, hc, q, ⟨path, hq⟩, rfl⟩
    exact ⟨c, hc, path, hq, rfl⟩
  case mpr =>
    rintro ⟨c, hc, path, hq, hs⟩
    exact ⟨c, hc, d.state, ⟨path, hq⟩, by cases d; simp_all⟩

theorem mem_step :
    d ∈ A.step cs x ↔ ∃ c ∈ A.rest cs, A.Step c [x] d := by
  simp [step, mem_successorsOf]

theorem mem_startConfigurations :
    c ∈ A.startConfigurations ↔ ∃ p ∈ A.states.initial, ⟨p, []⟩ = c := by
  simp [startConfigurations]

theorem mem_rest_foldl_step :
    d ∈ A.rest (w.foldl A.step cs) ↔ ∃ c ∈ cs, A.Passes c w d ∧ ¬A.IsStuck d.state := by
  have resting {d : Configuration} {cs : SortedSet Configuration} :
      d ∈ A.rest cs ↔ ∃ c ∈ cs, A.Passes c [] d ∧ ¬A.IsStuck d.state := by
    simp only [mem_rest, passes_nil_iff, and_assoc, and_comm (a := ¬A.IsStuck d.state)]
  induction w generalizing cs with
  | nil => exact resting
  | cons x w ih =>
    simp only [List.foldl_cons, ih, mem_step, resting, passes_cons_iff]
    constructor
    case mp =>
      intro ⟨e, ⟨e', ⟨c, hc, first⟩, st⟩, last, hd⟩
      exact ⟨c, hc, ⟨e', e, first, st, last⟩, hd⟩
    case mpr =>
      intro ⟨c, hc, ⟨e', e, first, st, last⟩, hd⟩
      exact ⟨e, ⟨e', ⟨c, hc, first⟩, st⟩, last, hd⟩

theorem mem_configurations_iff_passes :
    d ∈ A.configurations w ↔ ∃ p ∈ A.states.initial, A.Passes ⟨p, []⟩ w d ∧ ¬A.IsStuck d.state := by
  simp [configurations, mem_rest_foldl_step, mem_startConfigurations]

theorem mem_configurations (h : A.Absorbing) :
    d ∈ A.configurations w ↔ ∃ p ∈ A.states.initial, A.Run ⟨p, []⟩ w d := by
  simp only [mem_configurations_iff_passes, h.passes_iff_run]

theorem depth?_of_mem_configurations (h : d ∈ A.configurations w) :
    Word.depth? 0 w = some d.calls.length := by
  have ⟨_, _, passes, _⟩ := mem_configurations_iff_passes.mp h
  exact passes.depth?

theorem length_pendingCalls_of_mem_configurations (h : d ∈ A.configurations w) :
    w.pendingCalls.length = d.calls.length :=
  Word.length_pendingCalls (depth?_of_mem_configurations h)

-- The answer is up to the final states among the configurations. All of these leave the same number of
-- calls open, so it does not matter which of them an error is about.
section Answer

theorem final_any_iff :
    ((A.configurations w).toList.filter (·.state ∈ A.states.final)).any (·.calls.isEmpty) ↔
      ∃ q ∈ A.states.final, ⟨q, []⟩ ∈ A.configurations w := by
  simp only [List.any_filter, List.any_eq_true, SortedSet.mem_toList, Bool.and_eq_true,
    decide_eq_true_eq, List.isEmpty_iff]
  constructor
  case mp =>
    rintro ⟨⟨q, _⟩, hc, hq, rfl⟩
    exact ⟨q, hq, hc⟩
  case mpr =>
    rintro ⟨q, hq, hc⟩
    exact ⟨_, hc, hq, rfl⟩

theorem search_eq_true_iff_mem :
    A.search w = .ok true ↔ ∃ q ∈ A.states.final, ⟨q, []⟩ ∈ A.configurations w := by
  rw [← final_any_iff, search_eq, verdict]
  split
  case isTrue h  => simp [h]
  case isFalse h => split <;> simp [h]

theorem search_eq_false_iff_mem :
    A.search w = .ok false ↔ ∀ c ∈ A.configurations w, c.state ∉ A.states.final := by
  have none_iff : (A.configurations w).toList.filter (·.state ∈ A.states.final) = [] ↔
      ∀ c ∈ A.configurations w, c.state ∉ A.states.final := by
    simp [List.filter_eq_nil_iff]
  rw [← none_iff, search_eq, verdict]
  generalize (A.configurations w).toList.filter (·.state ∈ A.states.final) = final
  cases final with
  | nil      => simp
  | cons c l => split <;> simp

theorem search_eq_error_iff_mem {e : WordError} :
    A.search w = .error e ↔
      (¬∃ q ∈ A.states.final, ⟨q, []⟩ ∈ A.configurations w) ∧
        (∃ c ∈ A.configurations w, c.state ∈ A.states.final) ∧
          e = .pendingCalls w.pendingCalls.length := by
  have mem_final {c : Configuration} :
      c ∈ (A.configurations w).toList.filter (·.state ∈ A.states.final) ↔
        c ∈ A.configurations w ∧ c.state ∈ A.states.final := by
    simp
  rw [← final_any_iff, search_eq, verdict]
  split
  case isTrue some  => simp [some]
  case isFalse none =>
    rw [and_iff_right none]
    split
    case h_1 empty     =>
      simp only [reduceCtorEq, false_iff]
      intro ⟨⟨c, hc, hf⟩, _⟩
      exact List.not_mem_nil (empty ▸ mem_final.mpr ⟨hc, hf⟩)
    case h_2 c _ first =>
      have ⟨hc, hf⟩ := mem_final.mp (first ▸ List.mem_cons_self : c ∈ _)
      rw [and_iff_right ⟨c, hc, hf⟩, length_pendingCalls_of_mem_configurations hc, Except.error.injEq,
        eq_comm]

end Answer

theorem exists_final_nil_iff :
    (∃ q ∈ A.states.final, ⟨q, []⟩ ∈ A.configurations w) ↔
      (∃ c ∈ A.configurations w, c.state ∈ A.states.final) ∧ w.pendingCalls = [] := by
  constructor
  case mp =>
    intro ⟨q, hq, hc⟩
    have closed := length_pendingCalls_of_mem_configurations hc
    exact ⟨⟨_, hc, hq⟩, List.length_eq_zero_iff.mp closed⟩
  case mpr =>
    intro ⟨⟨⟨q, s⟩, hc, hq⟩, closed⟩
    have same := length_pendingCalls_of_mem_configurations hc
    obtain rfl : s = [] := List.length_eq_zero_iff.mp (same.symm.trans (congrArg List.length closed))
    exact ⟨q, hq, hc⟩

theorem search_congr {B : Automaton ι}
    (h : (∃ c ∈ A.configurations w, c.state ∈ A.states.final) ↔
      ∃ c ∈ B.configurations w, c.state ∈ B.states.final) : A.search w = B.search w := by
  cases hs : B.search w with
  | error e =>
    rw [search_eq_error_iff_mem, exists_final_nil_iff] at hs ⊢
    rwa [h]
  | ok b =>
    cases b with
    | true  =>
      rw [search_eq_true_iff_mem, exists_final_nil_iff] at hs ⊢
      rwa [h]
    | false =>
      rw [search_eq_false_iff_mem] at hs ⊢
      have none : ¬∃ c ∈ A.configurations w, c.state ∈ A.states.final :=
        mt h.mp fun ⟨c, hc, hf⟩ => hs c hc hf
      exact fun c hc hf => none ⟨c, hc, hf⟩

theorem search_eq_true_iff (h : A.Absorbing) : A.search w = .ok true ↔ A.Accepts w := by
  simp only [search_eq_true_iff_mem, mem_configurations h]
  constructor
  case mp =>
    intro ⟨q, hq, p, hp, r⟩
    exact ⟨p, hp, q, hq, r⟩
  case mpr =>
    intro ⟨p, hp, q, hq, r⟩
    exact ⟨q, hq, p, hp, r⟩

theorem Accepts.search (h : A.Accepts w) : A.search w = .ok true := by
  have ⟨p, hp, q, hq, r⟩ := h
  exact search_eq_true_iff_mem.mpr
    ⟨q, hq, mem_configurations_iff_passes.mpr ⟨p, hp, r.passes, r.not_isStuck_last⟩⟩

theorem exists_final_iff_arrives (h : A.Absorbing) :
    (∃ c ∈ A.configurations w, c.state ∈ A.states.final) ↔ A.Arrives w := by
  simp only [mem_configurations h]
  constructor
  case mp =>
    intro ⟨c, ⟨p, hp, r⟩, hc⟩
    exact ⟨p, hp, c, hc, r⟩
  case mpr =>
    intro ⟨p, hp, c, hc, r⟩
    exact ⟨c, ⟨p, hp, r⟩, hc⟩

theorem wellMatched_of_search (h : A.search w = .ok true) : w.WellMatched := by
  have ⟨_, _, h⟩ := search_eq_true_iff_mem.mp h
  exact Word.wellMatched_iff.mpr (depth?_of_mem_configurations h)

theorem exists_search_eq (h : w.WellMatched) : ∃ b, A.search w = .ok b := by
  cases hs : A.search w with
  | ok b    => exact ⟨b, rfl⟩
  | error e =>
    have ⟨rejects, final, _⟩ := search_eq_error_iff_mem.mp hs
    exact absurd (exists_final_nil_iff.mpr ⟨final, h.2⟩) rejects

theorem search_eq_of_iff {B : Automaton ι} {v : Word} (hv : v.WellMatched) (hw : w.WellMatched)
    (h : A.search v = .ok true ↔ B.search w = .ok true) : A.search v = B.search w := by
  have ⟨b, hb⟩ := exists_search_eq (A := A) hv
  have ⟨c, hc⟩ := exists_search_eq (A := B) hw
  rw [hb, hc] at h ⊢
  cases b <;> cases c <;> simp_all

-- The answer depends on the runs on the word alone. Where they all leave calls open, the error counts the
-- pending calls of the word, so about words that are well-matched there is never an error.
theorem search_eq_iff_run (h : A.Absorbing) (w : Word) :
    (A.search w = .ok true ↔ A.Accepts w) ∧
      (∀ e, A.search w = .error e ↔
        ¬A.Accepts w ∧ A.Arrives w ∧ e = .pendingCalls w.pendingCalls.length) ∧
      (A.search w = .ok false ↔ ¬A.Accepts w ∧ ¬A.Arrives w) ∧
      (w.WellMatched → ∃ b, A.search w = .ok b) ∧ (A.search w = .ok true → w.WellMatched) := by
  refine ⟨search_eq_true_iff h, fun e => ?_, ?_, exists_search_eq, wellMatched_of_search⟩
  case refine_1 =>
    rw [search_eq_error_iff_mem, ← search_eq_true_iff_mem, search_eq_true_iff h,
      exists_final_iff_arrives h]
  case refine_2 =>
    have rejects : ¬A.Arrives w → ¬A.Accepts w := mt Accepts.arrives
    rw [search_eq_false_iff_mem, and_iff_right_of_imp rejects, ← exists_final_iff_arrives h]
    simp

theorem search_brackets_pending :
    (brackets ⟨3⟩ [⟨3⟩]).search [.call ⟨5⟩] = .error (.pendingCalls 1) ∧
      ¬(brackets ⟨3⟩ [⟨3⟩]).Accepts [.call ⟨5⟩] ∧ (brackets ⟨3⟩ [⟨3⟩]).Arrives [.call ⟨5⟩] := by
  have ⟨_, error, _⟩ := search_eq_iff_run (A := brackets ⟨3⟩ [⟨3⟩]) absorbing_brackets [.call ⟨5⟩]
  have found : (brackets ⟨3⟩ [⟨3⟩]).search [.call ⟨5⟩] = .error (.pendingCalls 1) := by decide
  have ⟨rejects, arrives, _⟩ := (error _).mp found
  exact ⟨found, rejects, arrives⟩

end NestedAutomata.Automaton
