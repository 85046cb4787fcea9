import Mathlib.Data.List.Perm.Subperm
import Mathlib.Logic.Relation
import NestedAutomata.Automaton.Reachability
import NestedAutomata.Transitions.Lemmas

namespace NestedAutomata

open Relation

section Search

variable {α : Type} [DecidableEq α] {next : α → List α} {fuel : Nat} {seen pending nodes : List α}

theorem nodup_eraseDups : (l : List α) → l.eraseDups.Nodup
  | []     => by simp
  | a :: l => by
    have : (l.filter (!· == a)).length < l.length + 1 :=
      Nat.lt_succ_of_le (List.length_filter_le ..)
    rw [List.eraseDups_cons, List.nodup_cons]
    exact ⟨by simp [List.mem_eraseDups], nodup_eraseDups _⟩
termination_by l => l.length

theorem mem_explore_of_mem {a : α} (h : a ∈ seen) : a ∈ explore next fuel seen pending := by
  fun_induction explore next fuel seen pending with
  | case1 => exact h
  | case2 => exact h
  | case3 _ _ _ _ _ ih => exact ih (List.mem_append_left _ h)

theorem exists_path_of_mem_explore {a : α} (hp : pending ⊆ seen)
    (h : a ∈ explore next fuel seen pending) :
    ∃ s ∈ seen, ReflTransGen (fun p q => q ∈ next p) s a := by
  fun_induction explore next fuel seen pending with
  | case1 => exact ⟨a, h, .refl⟩
  | case2 => exact ⟨a, h, .refl⟩
  | case3 fuel seen node pending new ih =>
    have hnew : ∀ b ∈ new, b ∈ next node := fun b hb =>
      List.mem_eraseDups.mp (List.mem_filter.mp hb).1
    have ⟨s, hs, path⟩ := ih (by grind) h
    cases List.mem_append.mp hs with
    | inl hs => exact ⟨s, hs, path⟩
    | inr hs => exact ⟨node, hp List.mem_cons_self, .head (hnew s hs) path⟩

theorem next_mem_explore {a b : α} (hp : pending ⊆ seen)
    (visited : ∀ p ∈ seen, p ∉ pending → next p ⊆ seen)
    (inside : ∀ p ∈ seen, p ∈ nodes) (closed : ∀ p ∈ nodes, next p ⊆ nodes)
    (enough : pending.length + (nodes.filter (· ∉ seen)).length ≤ fuel)
    (ha : a ∈ explore next fuel seen pending) (hb : b ∈ next a) :
    b ∈ explore next fuel seen pending := by
  fun_induction explore next fuel seen pending with
  | case1 pending seen =>
    have : pending = [] := List.length_eq_zero_iff.mp (by omega)
    exact visited a ha (by simp [this]) hb
  | case2 => exact visited a ha (by simp) hb
  | case3 fuel seen node pending new ih =>
    have hnew : ∀ b, b ∈ new ↔ b ∈ next node ∧ b ∉ seen := by simp [new]
    have hnode : next node ⊆ nodes := closed node (inside node (hp List.mem_cons_self))
    have nodup : new.Nodup := (nodup_eraseDups _).sublist List.filter_sublist
    clear_value new
    apply ih
    · grind
    · grind
    · grind
    -- A node that becomes pending was unseen before, so the visit takes one unit off what is needed.
    · have rest : nodes.filter (· ∉ seen ++ new) =
          (nodes.filter (· ∉ seen)).filter fun b => !decide (b ∈ new) := by
        simp [List.filter_filter, Bool.and_comm]
      rw [rest]
      generalize hu : nodes.filter (· ∉ seen) = unseen at enough ⊢
      have sub : new ⊆ unseen.filter (· ∈ new) := by grind
      have le := (List.subperm_of_subset nodup sub).length_le
      have split := List.length_eq_length_filter_add (l := unseen) (· ∈ new)
      simp only [List.length_append, List.length_cons] at enough ⊢
      omega
    · exact ha

-- As many visits as there are nodes suffice, as no node is visited twice.
theorem mem_reachable {start : List α} {a : α} (nodup : start.Nodup) (hs : start ⊆ nodes)
    (closed : ∀ p ∈ nodes, next p ⊆ nodes) :
    a ∈ reachable next nodes start ↔ ∃ s ∈ start, ReflTransGen (fun p q => q ∈ next p) s a where
  mp h := exists_path_of_mem_explore (List.Subset.refl _) h
  mpr := by
    have enough : start.length + (nodes.filter (· ∉ start)).length ≤ nodes.length := by
      have sub : start ⊆ nodes.filter (· ∈ start) := by grind
      have le := (List.subperm_of_subset nodup sub).length_le
      have split := List.length_eq_length_filter_add (l := nodes) (· ∈ start)
      simp only [decide_not]
      omega
    intro ⟨s, hs', path⟩
    induction path with
    | refl => exact mem_explore_of_mem hs'
    | tail _ hb ih =>
      exact next_mem_explore (List.Subset.refl _) (by grind) hs closed enough ih hb

end Search

namespace Automaton

variable {ι : Type} {A : Automaton ι} {p q : Key}

@[simp]
theorem mem_εTargets : q ∈ A.εTargets p ↔ .internal ⟨p, .ε, q⟩ ∈ A.transitions := by
  simp only [εTargets, List.mem_map, Transitions.mem_internalsFromOn]
  constructor
  case mp =>
    rintro ⟨⟨_, _, _⟩, ⟨h, rfl, rfl⟩, rfl⟩
    exact h
  case mpr =>
    intro h
    exact ⟨_, ⟨h, rfl, rfl⟩, rfl⟩

theorem mem_εClosure :
    q ∈ A.εClosure p ↔ ReflTransGen (fun p q => .internal ⟨p, .ε, q⟩ ∈ A.transitions) p q := by
  rw [εClosure, SortedSet.mem_ofList, mem_reachable]
  case nodup => simp
  case hs => simp
  case closed =>
    intro r hr s hs
    simp only [mem_εTargets] at hs
    simp
    exact .inr ⟨_, hs, rfl⟩
  simp

theorem mem_forwardNeighbours : q ∈ A.forwardNeighbours p ↔ A.Joined p q := by
  simp only [forwardNeighbours, List.mem_append, List.mem_map, Transitions.mem_internalsFrom,
    Transitions.mem_callsFrom, Transitions.mem_returnsFrom, Transitions.mem_returnsWithCallSite]
  constructor
  case mp =>
    rintro (((⟨t, ⟨h, rfl⟩, rfl⟩ | ⟨t, ⟨h, rfl⟩, rfl⟩) | ⟨t, ⟨h, rfl⟩, rfl⟩) | ⟨t, ⟨h, rfl⟩, rfl⟩)
    · exact .internal h
    · exact .call h
    · exact .exit h
    · exact .callSite h
  case mpr =>
    intro h
    cases h with
    | internal h => exact .inl <| .inl <| .inl ⟨_, ⟨h, rfl⟩, rfl⟩
    | call h     => exact .inl <| .inl <| .inr ⟨_, ⟨h, rfl⟩, rfl⟩
    | exit h     => exact .inl <| .inr ⟨_, ⟨h, rfl⟩, rfl⟩
    | callSite h => exact .inr ⟨_, ⟨h, rfl⟩, rfl⟩

theorem mem_backwardNeighbours : p ∈ A.backwardNeighbours q ↔ A.Joined p q := by
  simp only [backwardNeighbours, List.mem_append, List.mem_map, List.mem_flatMap, List.mem_cons,
    List.not_mem_nil, or_false, Transitions.mem_internalsTo, Transitions.mem_callsTo,
    Transitions.mem_returnsTo]
  constructor
  case mp =>
    rintro ((⟨t, ⟨h, rfl⟩, rfl⟩ | ⟨t, ⟨h, rfl⟩, rfl⟩) | ⟨t, ⟨h, rfl⟩, rfl | rfl⟩)
    · exact .internal h
    · exact .call h
    · exact .exit h
    · exact .callSite h
  case mpr =>
    intro h
    cases h with
    | internal h => exact .inl <| .inl ⟨_, ⟨h, rfl⟩, rfl⟩
    | call h     => exact .inl <| .inr ⟨_, ⟨h, rfl⟩, rfl⟩
    | exit h     => exact .inr ⟨_, ⟨h, rfl⟩, .inl rfl⟩
    | callSite h => exact .inr ⟨_, ⟨h, rfl⟩, .inr rfl⟩

theorem Joined.mem_columns (h : A.Joined p q) :
    p ∈ A.transitions.toList.flatMap Transition.states ∧
    q ∈ A.transitions.toList.flatMap Transition.states := by
  simp only [List.mem_flatMap, Transitions.mem_toList]
  cases h with
  | internal h | call h | exit h | callSite h =>
    exact ⟨⟨_, h, by simp [Transition.states]⟩, ⟨_, h, by simp [Transition.states]⟩⟩

theorem mem_graphReachable {neighbours : Key → List Key} {start : List Key} (nodup : start.Nodup)
    (columns : ∀ p, neighbours p ⊆ A.transitions.toList.flatMap Transition.states) :
    q ∈ A.graphReachable neighbours start ↔
      ∃ p ∈ start, p ∈ A.states ∧ ReflTransGen (fun p q => q ∈ neighbours p) p q := by
  rw [graphReachable, mem_reachable]
  case nodup  => exact nodup.sublist List.filter_sublist
  case hs     => exact List.subset_append_left ..
  case closed => exact fun p _ => List.Subset.trans (columns p) (List.subset_append_right ..)
  simp [and_assoc]

theorem mem_graphReachable_forward {start : List Key} (nodup : start.Nodup) :
    q ∈ A.graphReachable A.forwardNeighbours start ↔
      ∃ p ∈ start, p ∈ A.states ∧ ReflTransGen A.Joined p q := by
  rw [mem_graphReachable nodup fun p q h => (mem_forwardNeighbours.mp h).mem_columns.2]
  simp only [mem_forwardNeighbours]

theorem mem_graphReachable_backward {start : List Key} (nodup : start.Nodup) :
    p ∈ A.graphReachable A.backwardNeighbours start ↔
      ∃ q ∈ start, q ∈ A.states ∧ ReflTransGen A.Joined p q := by
  rw [mem_graphReachable nodup fun q p h => (mem_backwardNeighbours.mp h).mem_columns.1]
  simp only [mem_backwardNeighbours, ← reflTransGen_swap (r := A.Joined)]

end Automaton

end NestedAutomata
