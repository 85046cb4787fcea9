import NestedAutomata.Proofs.Determinization.Tasks
import NestedAutomata.Proofs.Determinization.Track

namespace NestedAutomata

-- No relation has this key, neither now nor at any time before.
def KeyTable.Spares (t : KeyTable) (k : Key) : Prop :=
  ∀ r, t.key? (.relation r) ≠ some k

theorem KeyTable.Spares.of_grown {t t' : KeyTable} {k : Key} (free : t'.Spares k)
    (h : t.shapes <+: t'.shapes) : t.Spares k :=
  fun r hr => free r (key?_eq_some_iff.mpr (shape?_of_grown h (key?_eq_some_iff.mp hr)))

section Spanning

namespace Automaton

variable {ι : Type} {A : Automaton ι} {r r' : Relation} {o q a : Key}

def Spanning (A : Automaton ι) (r : Relation) : Prop :=
  ∀ o q, ⟨o, q⟩ ∈ r → o ∈ A.ordinary ∧ q ∈ A.ordinary

theorem WellFormed.mem_states_of_rests (h : A.WellFormed) (path : A.Rests o q) (ho : o ∈ A.states) :
    q ∈ A.states := by
  cases path with
  | refl      => exact ho
  | tail _ ht => exact h.destination ht

theorem WellFormed.spanning_startRelation (h : A.WellFormed) : A.Spanning A.startRelation := by
  intro o q hl
  have ⟨ho, rest, hq⟩ := mem_startRelation.mp hl
  simp only [ordinaryInitial, List.mem_filter, SortedSet.mem_toList, decide_eq_true_eq] at ho
  have ho' := h.states.initial o ho.1
  exact ⟨mem_ordinary.mpr ⟨ho', ho.2⟩, mem_ordinary.mpr ⟨h.mem_states_of_rests rest ho', hq⟩⟩

theorem WellFormed.spanning_internalRelation (h : A.WellFormed) (hr : A.Spanning r) :
    A.Spanning (A.internalRelation r a) := by
  intro o q hl
  have ⟨p, hl, s, hs, rest, hq⟩ := mem_internalRelation.mp hl
  have ⟨_, ht, _⟩ := mem_internalTargets.mp hs
  have hs := h.destination ht
  exact ⟨(hr o p hl).1, mem_ordinary.mpr ⟨h.mem_states_of_rests rest hs, hq⟩⟩

theorem WellFormed.spanning_callRelation (h : A.WellFormed) (hr : A.Spanning r) :
    A.Spanning (A.callRelation r a) := by
  intro o q hl
  have ⟨⟨p, hl⟩, s, hs, rest, hq⟩ := mem_callRelation.mp hl
  have ⟨_, ht, _⟩ := mem_callEntries.mp hs
  have hs := h.destination ht
  exact ⟨(hr p o hl).2, mem_ordinary.mpr ⟨h.mem_states_of_rests rest hs, hq⟩⟩

theorem WellFormed.spanning_returnRelation (h : A.WellFormed) (hr : A.Spanning r') :
    A.Spanning (A.returnRelation r r' a) := by
  intro o q hl
  have ⟨site, p, hc, _, s, hs, rest, hq⟩ := mem_returnRelation.mp hl
  have ⟨_, ht, _⟩ := mem_returnTargets.mp hs
  have hs := h.destination ht
  exact ⟨(hr o site hc).1, mem_ordinary.mpr ⟨h.mem_states_of_rests rest hs, hq⟩⟩

end Automaton

end Spanning

theorem Subset.Task.symbol_mem_alphabet {ι : Type} {A : Automaton ι} {task : Task} (hA : A.WellFormed)
    (ha : ¬task.symbol.Reserved) (hr : task.relation A ≠ ∅) : task.symbol ∈ A.alphabet := by
  have ⟨⟨o, q⟩, hl⟩ := SortedSet.exists_mem_of_ne_empty hr
  cases task with
  | internal =>
    have ⟨_, _, _, hs, _⟩ := Automaton.mem_internalRelation.mp hl
    have ⟨_, ht, hr⟩ := Automaton.mem_internalTargets.mp hs
    exact hA.mem_alphabet_of_reads ht hr ha
  | call =>
    have ⟨_, _, hs, _⟩ := Automaton.mem_callRelation.mp hl
    have ⟨_, ht, hr⟩ := Automaton.mem_callEntries.mp hs
    exact hA.mem_alphabet_of_reads ht hr ha
  | ret =>
    have ⟨_, _, _, _, _, hs, _⟩ := Automaton.mem_returnRelation.mp hl
    have ⟨_, ht, hr⟩ := Automaton.mem_returnTargets.mp hs
    exact hA.mem_alphabet_of_reads ht hr ha

namespace Determinization

open Subset (Task)

variable {ι : Type} {A : Automaton ι} {stuck : Key} {D E : Determinization ι} {r : Relation}
variable {s t : Subset} {task : Task}

structure Consistent (A : Automaton ι) (D : Determinization ι) : Prop where
  keys     : ∀ s ∈ D.known, D.table.shape? s.key = some (.relation s.relation)
  spanning : ∀ s ∈ D.known, A.Spanning s.relation
  nonempty : ∀ s ∈ D.known, s.relation ≠ ∅
  nodup    : D.known.Nodup

structure Sensible (A : Automaton ι) (known : List Subset) (task : Task) : Prop where
  sources : ∀ s ∈ task.sources, s ∈ known
  symbol  : task.symbol ∈ A.alphabet

-- The result has the transition that the task is about, unless it leads to the empty relation.
def Done (A : Automaton ι) (D : Determinization ι) (task : Task) : Prop :=
  task.relation A ≠ ∅ →
    ∃ s ∈ D.known, s.relation = task.relation A ∧ (task.move s).transition ∈ D.result.transitions

-- The states and transitions of the result are those of the known relations.
structure Faithful (A : Automaton ι) (stuck : Key) (D : Determinization ι) : Prop where
  mode        : D.result.states.stuck = .designated stuck
  members     : ∀ q, q ∈ D.result.states ↔ q = stuck ∨ ∃ s ∈ D.known, s.key = q
  alphabet    : ∀ a, a ∈ D.result.alphabet ↔ a ∈ A.alphabet
  final       : ∀ q, q ∈ D.result.states.final ↔
    ∃ s ∈ D.known, s.key = q ∧ ∃ l ∈ s.relation, l.target ∈ A.states.final
  transitions : ∀ t ∈ D.result.transitions, ∃ task s, Sensible A D.known task ∧ s ∈ D.known ∧
    s.relation = task.relation A ∧ (task.move s).transition = t

theorem Sensible.mono {k l : List Subset} (h : Sensible A k task) (sub : k ⊆ l) : Sensible A l task where
  sources s hs := sub (h.sources s hs)
  symbol       := h.symbol

theorem Sensible.of_not_mem {l : List Subset} (h : Sensible A (s :: l) task) (hs : s ∉ task.sources) :
    Sensible A l task where
  sources t ht := (List.mem_cons.mp (h.sources t ht)).resolve_left fun e => hs (e ▸ ht)
  symbol       := h.symbol

theorem Done.later (h : Done A D task) (l : Later D E) : Done A E task := by
  intro hr
  have ⟨s, hs, rel, ht⟩ := h hr
  exact ⟨s, l.known hs, rel, l.result.mem_transitions ht⟩

namespace Consistent

theorem eq_of_key (h : Consistent A D) (hs : s ∈ D.known) (ht : t ∈ D.known) (hk : s.key = t.key) :
    s = t := by
  have := (h.keys s hs).symm.trans (hk ▸ h.keys t ht)
  cases s; cases t
  simp_all

theorem eq_of_relation (h : Consistent A D) (hs : s ∈ D.known) (ht : t ∈ D.known)
    (hr : s.relation = t.relation) : s = t := by
  have hs' := KeyTable.key?_eq_some_iff.mpr (h.keys s hs)
  have ht' := KeyTable.key?_eq_some_iff.mpr (h.keys t ht)
  exact h.eq_of_key hs ht (Option.some.inj (hs'.symm.trans (hr ▸ ht')))

theorem key_ne (h : Consistent A D) (free : D.table.Spares stuck) (hs : s ∈ D.known) :
    s.key ≠ stuck :=
  fun hk => free s.relation (KeyTable.key?_eq_some_iff.mpr (hk ▸ h.keys s hs))

end Consistent

theorem Faithful.discover {table : KeyTable} (h : Faithful A stuck D) (hs : s.key ≠ stuck) :
    Faithful A stuck (D.discover A s table) := by
  have hk : ¬D.result.IsStuck s.key :=
    fun hk => hs (Stuck.designated.inj (h.mode.symm.trans hk)).symm
  have enters : D.result.Enters False (s.relation.toList.any (·.target ∈ A.states.final)) s.key
      (D.discover A s table).result :=
    .addFinal .addState hk
  constructor
  case mode => exact enters.mode.trans h.mode
  case members =>
    intro q
    rw [enters.members, h.members, or_left_comm]
    simp only [Determinization.discover, List.exists_mem_cons_iff]
    exact or_congr_right (or_congr_left eq_comm)
  case alphabet => exact fun a => enters.alphabet ▸ h.alphabet a
  case final =>
    intro q
    rw [enters.final, h.final]
    simp [Determinization.discover]
  case transitions =>
    intro t ht
    rw [enters.transitions] at ht
    obtain ⟨task, s', sensible, hs', rest⟩ := h.transitions t ht
    exact ⟨task, s', sensible.mono (List.subset_cons_self ..), List.mem_cons_of_mem _ hs', rest⟩

namespace Reached

theorem relation (h : Reached A stuck D r s E) : s.relation = r := by
  cases h <;> rfl

theorem explored (h : Reached A stuck D r s E) : E.explored = D.explored := by
  cases h <;> rfl

theorem key_of_empty (h : Reached A stuck D r s E) (hr : r = ∅) : s.key = stuck := by
  cases h with
  | empty => rfl
  | old hr' | new hr' => exact absurd hr hr'

theorem keys (h : Reached A stuck D r s E) (hD : Consistent A D) (hr : r ≠ ∅) :
    s ∈ E.known ∧ E.table.shape? s.key = some (.relation r) := by
  have hk : (D.table.relation r).2.shape? (D.table.relation r).1 = some (.relation r) :=
    KeyTable.shape?_intern
  have later := h.later.table
  cases h with
  | empty hr'   => exact absurd hr' hr
  | new         => exact ⟨List.mem_cons_self, hk⟩
  | old _ known =>
    have ⟨⟨k, r'⟩, hs, hs'⟩ := known
    obtain rfl : k = _ := hs'
    have same := (KeyTable.shape?_of_grown later (hD.keys _ hs)).symm.trans hk
    obtain rfl : r' = r := by simpa using same
    exact ⟨hs, hk⟩

theorem consistent (h : Reached A stuck D r s E) (hD : Consistent A D) (hr : A.Spanning r) :
    Consistent A E := by
  have old {t : Subset} (ht : t ∈ D.known) :=
    KeyTable.shape?_of_grown h.later.table (hD.keys t ht)
  have new := h.keys hD
  cases h with
  | empty         => exact hD
  | old           => exact { hD with keys := fun t ht => old ht }
  | new hr' fresh =>
    constructor
    case keys =>
      intro t ht
      cases List.mem_cons.mp ht with
      | inl ht => rw [ht]; exact (new hr').2
      | inr ht => exact old ht
    case spanning =>
      intro t ht
      cases List.mem_cons.mp ht with
      | inl ht => exact ht ▸ hr
      | inr ht => exact hD.spanning t ht
    case nonempty =>
      intro t ht
      cases List.mem_cons.mp ht with
      | inl ht => exact ht ▸ hr'
      | inr ht => exact hD.nonempty t ht
    case nodup => exact List.nodup_cons.mpr ⟨fun ht => fresh _ ht rfl, hD.nodup⟩

theorem faithful (h : Reached A stuck D r s E) (hD : Consistent A D) (hr : A.Spanning r)
    (free : E.table.Spares stuck) (hf : Faithful A stuck D) : Faithful A stuck E := by
  have key := fun hr' => (h.consistent hD hr).key_ne free (h.keys hD hr').1
  cases h with
  | empty   => exact hf
  | old     => exact { hf with }
  | new hr' => exact hf.discover (key hr')

end Reached

theorem Sensible.spanning_relation (hA : A.WellFormed) (hD : Consistent A D)
    (h : Sensible A D.known task) : A.Spanning (task.relation A) := by
  have spanning {s : Subset} (hs : s ∈ task.sources) := hD.spanning s (h.sources s hs)
  cases task with
  | internal => exact hA.spanning_internalRelation (spanning (by simp [Task.sources]))
  | call     => exact hA.spanning_callRelation (spanning (by simp [Task.sources]))
  | ret      => exact hA.spanning_returnRelation (spanning (by simp [Task.sources]))

theorem Consistent.record {m : Subset.Move} (h : Consistent A D) : Consistent A (D.record stuck m) := by
  simp only [Determinization.record]
  split
  case isTrue  => exact h
  case isFalse => exact { h with }

theorem Consistent.perform (hA : A.WellFormed) (h : Consistent A D) (ht : Sensible A D.known task) :
    Consistent A (D.perform A stuck task) :=
  (reached.consistent h (ht.spanning_relation hA h)).record

theorem destination_move : (task.move s).destination = s := by
  cases task <;> rfl

theorem label_move : (task.move s).transition.label = task.symbol := by
  cases task <;> rfl

theorem mem_states_move {q : Key} (h : q ∈ (task.move s).transition.states) :
    ∃ t ∈ s :: task.sources, t.key = q := by
  cases task <;>
    simp_all [Task.move, Task.sources, Subset.Move.transition, Transition.states, eq_comm] <;>
    grind

theorem record_of_key (hk : s.key = stuck) : D.record stuck (task.move s) = D := by
  rw [record, if_pos]
  rwa [destination_move]

theorem record_of_key_ne (hk : s.key ≠ stuck) :
    D.record stuck (task.move s) =
      { D with result := D.result.add (task.move s).transition, moves := task.move s :: D.moves } := by
  rw [record, if_neg]
  rwa [destination_move]

theorem record_move (h : Consistent A D) (free : D.table.Spares stuck) (hf : Faithful A stuck D)
    (ht : Sensible A D.known task) (hs : s ∈ D.known) (hr : s.relation = task.relation A) :
    Faithful A stuck (D.record stuck (task.move s)) ∧
      (task.move s).transition ∈ (D.record stuck (task.move s)).result.transitions := by
  have known {q : Key} (hq : q ∈ (task.move s).transition.states) : ∃ t ∈ D.known, t.key = q := by
    have ⟨t, ht', hq⟩ := mem_states_move hq
    exact ⟨t, (List.mem_cons.mp ht').elim (· ▸ hs) (ht.sources t ·), hq⟩
  have labelled : (task.move s).transition.Labelled := by
    apply Transition.labelled_of_label_ne
    rw [label_move]
    exact fun e => A.alphabet.unreserved _ ht.symbol (.inl e)
  -- The move starts in a known state, which is not the stuck state.
  have stays : ¬D.result.Leaves (task.move s).transition := by
    intro hl
    have ⟨t, ht, hq⟩ := known Transition.origin_mem_states
    exact h.key_ne free ht (hq.trans (Stuck.designated.inj (hf.mode.symm.trans hl.1)).symm)
  rw [record_of_key_ne (h.key_ne free hs)]
  constructor
  case right => exact Automaton.mem_transitions_add.mpr (.inr ⟨rfl, labelled, stays⟩)
  case left =>
    constructor
    case mode => exact Automaton.stuck_add.trans hf.mode
    case members =>
      intro q
      rw [Automaton.mem_states_add, hf.members]
      constructor
      case mpr => exact .inl
      case mp => exact fun hq => hq.elim id fun hq => .inr (known hq.1)
    case alphabet =>
      intro a
      rw [Automaton.mem_alphabet_add, hf.alphabet, label_move]
      constructor
      case mpr => exact .inl
      case mp => exact fun ha => ha.elim id fun ha => ha.1 ▸ ht.symbol
    case final =>
      intro q
      rw [Automaton.final_add]
      exact hf.final q
    case transitions =>
      intro u hu
      cases Automaton.mem_transitions_add.mp hu with
      | inl hu => exact hf.transitions u hu
      | inr hu => exact ⟨task, s, ht, hs, hr, hu.1.symm⟩

theorem perform_faithful (hA : A.WellFormed) (h : Consistent A D) (ht : Sensible A D.known task)
    (free : (D.perform A stuck task).table.Spares stuck) (hf : Faithful A stuck D) :
    Faithful A stuck (D.perform A stuck task) ∧ Done A (D.perform A stuck task) task := by
  have hr := ht.spanning_relation hA h
  have reached := @reached _ A stuck D (task.relation A)
  simp only [Determinization.perform] at free ⊢
  generalize (D.reach A stuck (task.relation A)).1 = s at *
  generalize (D.reach A stuck (task.relation A)).2 = E at *
  have free := free.of_grown later_record.table
  have hf := reached.faithful h hr free hf
  by_cases empty : task.relation A = ∅
  case pos =>
    rw [record_of_key (reached.key_of_empty empty)]
    exact ⟨hf, fun hr => absurd empty hr⟩
  case neg =>
    obtain ⟨hs, _⟩ := reached.keys h empty
    have hE := reached.consistent h hr
    obtain ⟨hf, hm⟩ := record_move hE free hf (ht.mono fun _ => reached.later.known) hs reached.relation
    exact ⟨hf, fun _ => ⟨s, later_record.known hs, reached.relation, hm⟩⟩

end Determinization

end NestedAutomata
