import Mathlib.Data.Finset.Card
import Mathlib.Data.Finset.Powerset
import Mathlib.Data.Finset.Prod
import NestedAutomata.Proofs.Determinization.Invariant
import NestedAutomata.Proofs.Worklist

namespace NestedAutomata.Determinization

open Subset (Task)

variable {ι : Type} {A : Automaton ι} {stuck : Key} {D E : Determinization ι} {s : Subset} {task : Task}
variable {table : KeyTable}

theorem mem_returnTasks :
    task ∈ D.returnTasks A s ↔
      ∃ a ∈ A.alphabet, ∃ o ∈ s :: D.explored, task = .ret s o a ∨ task = .ret o s a := by
  simp only [returnTasks, List.mem_flatMap, List.mem_append, List.mem_cons, List.mem_map,
    Alphabet.mem_toList, List.not_mem_nil, or_false, Prod.exists, Prod.mk.injEq]
  grind

theorem mem_tasks : task ∈ D.tasks A s ↔ Sensible A (s :: D.explored) task ∧ s ∈ task.sources := by
  have alone : task ∈ A.alphabet.toList.flatMap (fun a => [.internal s a, .call s a]) ↔
      ∃ a ∈ A.alphabet, task = .internal s a ∨ task = .call s a := by
    simp
  simp only [tasks, List.mem_append, alone, mem_returnTasks]
  constructor
  case mp =>
    rintro (⟨a, ha, rfl | rfl⟩ | ⟨a, ha, o, ho, rfl | rfl⟩)
    all_goals exact ⟨⟨by simp_all [Task.sources], ha⟩, by simp [Task.sources]⟩
  case mpr =>
    rintro ⟨⟨sources, ha⟩, hs⟩
    cases task with
    | internal u a | call u a =>
      simp only [Task.sources, List.mem_singleton] at hs
      exact .inl ⟨a, ha, by simp [hs]⟩
    | ret x c a =>
      simp only [Task.sources, List.mem_cons, List.not_mem_nil, or_false, forall_eq_or_imp, forall_eq]
        at hs sources
      cases hs with
      | inl hs => exact .inr ⟨a, ha, c, List.mem_cons.mpr sources.2, .inl (hs ▸ rfl)⟩
      | inr hs => exact .inr ⟨a, ha, x, List.mem_cons.mpr sources.1, .inr (hs ▸ rfl)⟩

theorem foldl_perform {l : List Task} (hA : A.WellFormed) (h : Consistent A D)
    (ht : ∀ task ∈ l, Sensible A D.known task) :
    Consistent A (l.foldl (perform A stuck) D) ∧
      ((l.foldl (perform A stuck) D).table.Spares stuck → Faithful A stuck D →
        Faithful A stuck (l.foldl (perform A stuck) D) ∧
          ∀ task ∈ l, Done A (l.foldl (perform A stuck) D) task) := by
  induction l generalizing D with
  | nil => exact ⟨h, fun _ hf => ⟨hf, nofun⟩⟩
  | cons task l ih =>
    have first := ht task List.mem_cons_self
    have consistent : Consistent A (D.perform A stuck task) := h.perform hA first
    have ⟨consistent, rest⟩ := ih consistent fun task' ht' =>
      (ht task' (List.mem_cons_of_mem _ ht')).mono fun _ => later_perform.known
    refine ⟨consistent, fun free hf => ?_⟩
    have ⟨hf, done⟩ := perform_faithful hA h first (free.of_grown later_foldl_perform.table) hf
    have ⟨hf, dones⟩ := rest free hf
    refine ⟨hf, fun task' ht' => ?_⟩
    cases List.mem_cons.mp ht' with
    | inl ht' => rw [ht']; exact done.later later_foldl_perform
    | inr ht' => exact dones task' ht'

structure Invariant (A : Automaton ι) (stuck : Key) (D : Determinization ι) : Prop where
  consistent : Consistent A D
  found      : D.known.Perm (D.pending ++ D.explored)
  faithful   : D.table.Spares stuck → Faithful A stuck D
  done       : D.table.Spares stuck → ∀ task, Sensible A D.explored task → Done A D task

theorem Invariant.explore {pending : List Subset} (hA : A.WellFormed) (h : Invariant A stuck D)
    (hp : D.pending = s :: pending) : Invariant A stuck ({ D with pending }.explore A stuck s) := by
  have mem {t : Subset} (ht : t ∈ s :: D.explored) : t ∈ D.known := by
    rw [h.found.mem_iff, hp]
    grind
  have sensible (task) (ht : task ∈ { D with pending }.tasks A s) : Sensible A D.known task :=
    (mem_tasks.mp ht).1.mono fun _ => mem
  have consistent : Consistent A { D with pending } := { h.consistent with }
  have ⟨consistent, rest⟩ := @foldl_perform _ A stuck { D with pending } _ hA consistent sensible
  have later := @later_foldl_perform _ A stuck { D with pending } ({ D with pending }.tasks A s)
  rw [explore_eq]
  generalize (tasks A { D with pending } s).foldl (perform A stuck) { D with pending } = E at *
  have before (free : E.table.Spares stuck) : D.table.Spares stuck := free.of_grown later.table
  constructor
  case consistent => exact { consistent with }
  case found =>
    have ⟨l, hk, hp'⟩ := later.found
    have moved : (s :: pending ++ D.explored).Perm (pending ++ (D.explored ++ [s])) := by
      rw [← List.append_assoc]
      exact (List.perm_append_singleton s _).symm
    rw [hk, hp', List.append_assoc]
    exact (h.found.trans (hp ▸ moved)).append_left l
  case faithful =>
    intro free
    exact { (rest free { h.faithful (before free) with }).1 with }
  case done =>
    intro free task ht
    have ⟨_, dones⟩ := rest free { h.faithful (before free) with }
    have ht : Sensible A (s :: D.explored) task := ht.mono fun t ht => by simpa [or_comm] using ht
    by_cases hs : s ∈ task.sources
    case pos =>
      have := dones task (mem_tasks.mpr ⟨ht, hs⟩)
      exact this
    case neg =>
      have := (h.done (before free) task (ht.of_not_mem hs)).later (D := { D with pending }) later
      exact this

theorem Consistent.length_known_le (h : Consistent A D) :
    D.known.length ≤ Nat.pow 2 (A.ordinary.length * A.ordinary.length) := by
  classical
  let links : Finset Link := (A.ordinary.toFinset ×ˢ A.ordinary.toFinset).image fun p => ⟨p.1, p.2⟩
  have card : links.card ≤ A.ordinary.length * A.ordinary.length := calc
    links.card ≤ A.ordinary.toFinset.card * A.ordinary.toFinset.card :=
      Finset.card_image_le.trans_eq (Finset.card_product ..)
    _ ≤ A.ordinary.length * A.ordinary.length :=
      Nat.mul_le_mul (List.toFinset_card_le _) (List.toFinset_card_le _)
  -- Different states have different relations, and these are sets of links.
  calc
    D.known.length = D.known.toFinset.card := (List.toFinset_card_of_nodup h.nodup).symm
    _ ≤ links.powerset.card := by
      apply Finset.card_le_card_of_injOn fun s => s.relation.toList.toFinset
      case hf =>
        intro s hs
        rw [Finset.mem_coe, Finset.mem_powerset]
        intro l hl
        have ⟨ho, ht⟩ := h.spanning s (List.mem_toFinset.mp hs) l.origin l.target (by simpa using hl)
        exact Finset.mem_image.mpr ⟨(l.origin, l.target), by simp [ho, ht], rfl⟩
      case f_inj =>
        intro s hs t ht same
        apply h.eq_of_relation (List.mem_toFinset.mp hs) (List.mem_toFinset.mp ht)
        exact SortedSet.ext_mem fun l => by simpa using Finset.ext_iff.mp same l
    _ = 2 ^ links.card := Finset.card_powerset _
    _ ≤ Nat.pow 2 (A.ordinary.length * A.ordinary.length) := Nat.pow_le_pow_right (by decide) card

def worklist (A : Automaton ι) (stuck : Key) : Worklist (Determinization ι) Subset where
  pending             := Determinization.pending
  explore s pending D := { D with pending }.explore A stuck s

theorem drain_worklist {fuel : Nat} : (worklist A stuck).drain fuel D = D.saturate A stuck fuel := by
  fun_induction Determinization.saturate A stuck fuel D with
  | case1                       => rfl
  | case2 fuel D hp             => simp only [Worklist.drain, worklist, hp]
  | case3 fuel D s pending hp ih => simpa only [Worklist.drain, worklist, hp] using ih

theorem Invariant.pops {l : List Subset} (hA : A.WellFormed) (h : Invariant A stuck D)
    (pops : (worklist A stuck).Pops l D E) : Invariant A stuck E ∧ E.explored = D.explored ++ l := by
  apply pops.induction (k := []) (motive := fun l E => Invariant A stuck E ∧ E.explored = D.explored ++ l)
  case start => exact ⟨h, (List.append_nil _).symm⟩
  case step  =>
    intro k E s pending ⟨h, explored⟩ hp
    refine ⟨h.explore hA hp, ?_⟩
    simp only [worklist, explore_eq, explored, List.append_assoc]

theorem Invariant.length_explored_le (h : Invariant A stuck D) :
    D.explored.length ≤ Nat.pow 2 (A.ordinary.length * A.ordinary.length) := by
  have bound := h.consistent.length_known_le
  rw [h.found.length_eq, List.length_append] at bound
  exact (Nat.le_add_left ..).trans bound

section Saturate

variable {fuel : Nat} (hA : A.WellFormed) (h : Invariant A stuck D)
variable (enough : Nat.pow 2 (A.ordinary.length * A.ordinary.length) ≤ D.explored.length + fuel)
include hA h enough

theorem Invariant.exists_pops_saturate :
    ∃ l, (worklist A stuck).Pops l D (D.saturate A stuck fuel) ∧ (D.saturate A stuck fuel).pending = [] := by
  rw [← drain_worklist]
  apply Worklist.exists_finished_drain
  intro l E pops
  have ⟨h, explored⟩ := h.pops hA pops
  have bound := h.length_explored_le
  rw [explored, List.length_append] at bound
  exact Nat.le_of_add_le_add_left (bound.trans enough)

theorem Invariant.saturate :
    Invariant A stuck (D.saturate A stuck fuel) ∧ (D.saturate A stuck fuel).pending = [] := by
  have ⟨_, pops, done⟩ := h.exists_pops_saturate hA enough
  exact ⟨(h.pops hA pops).1, done⟩

end Saturate

theorem consistent_blank : Consistent A (blank A stuck table) where
  keys     := nofun
  spanning := nofun
  nonempty := nofun
  nodup    := .nil

theorem faithful_blank : Faithful A stuck (blank A stuck table) where
  mode             := by simp [blank, Automaton.ofStuck, States.ofStuck]
  members q        := by simp [blank, Automaton.ofStuck, States.ofStuck, ← States.mem_members]
  final q          := by simp [blank, Automaton.ofStuck, States.ofStuck]
  transitions t ht := by
    rw [blank, Automaton.transitions_addSymbols] at ht
    exact absurd ht Transitions.not_mem_empty
  alphabet a       := by
    rw [blank, Automaton.mem_alphabet_addSymbols]
    constructor
    case mp  => exact fun ha => ha.elim (absurd · SortedSet.not_mem_empty) And.left
    case mpr => exact fun ha => .inr ⟨ha, A.alphabet.unreserved a ha⟩

structure Started (A : Automaton ι) (stuck : Key) (D : Determinization ι) : Prop where
  initial  : D.result.states.initial = {D.start.key}
  relation : D.start.relation = A.startRelation
  known    : A.startRelation ≠ ∅ → D.start ∈ D.known
  key      : A.startRelation = ∅ → D.start.key = stuck

theorem Started.later (h : Started A stuck D) (l : Later D E) : Started A stuck E where
  initial    := by rw [l.initial, l.start, h.initial]
  relation   := by rw [l.start, h.relation]
  known r    := l.start ▸ l.known (h.known r)
  key r      := l.start ▸ h.key r

theorem Started.saturate {fuel : Nat} (h : Started A stuck D) :
    Started A stuck (D.saturate A stuck fuel) := by
  fun_induction Determinization.saturate A stuck fuel D with
  | case1 => exact h
  | case2 => exact h
  | case3 fuel D s pending _ ih =>
    apply ih
    rw [explore_eq]
    have h : Started A stuck { D with pending } := { h with }
    exact { h.later (later_foldl_perform (l := { D with pending }.tasks A s)) with }

theorem initial_spec (hA : A.WellFormed) :
    Invariant A stuck (initial A stuck table) ∧ Started A stuck (initial A stuck table) := by
  have reached := @reached _ A stuck (blank A stuck table) A.startRelation
  rw [initial_eq]
  generalize (blank A stuck table).reach A stuck A.startRelation = p at *
  obtain ⟨start, D⟩ := p
  simp only at reached ⊢
  have consistent := reached.consistent consistent_blank hA.spanning_startRelation
  have keys := reached.keys consistent_blank
  constructor
  case right =>
    constructor
    case initial  =>
      have none : D.result.states.initial = ∅ :=
        reached.later.initial.trans (by simp [blank, Automaton.ofStuck, States.ofStuck])
      have one : insert start.key D.result.states.initial = {start.key} := by rw [none]; rfl
      exact one
    case relation => exact reached.relation
    case known    => exact fun r => (keys r).1
    case key      => exact reached.key_of_empty
  case left =>
    constructor
    case consistent => exact { consistent with }
    case found      =>
      have ⟨l, hk, hp⟩ := reached.later.found
      simp only [hk, hp, reached.explored]
      simp [blank]
    case faithful   =>
      intro free
      have hf := reached.faithful consistent_blank hA.spanning_startRelation free faithful_blank
      refine { hf with members := fun q => ?_ }
      -- Where the start relation is empty the stuck state is the start, and otherwise a new state is.
      have found : start.key = stuck ∨ ∃ s ∈ D.known, s.key = start.key := by
        by_cases empty : A.startRelation = ∅
        case pos => exact .inl (reached.key_of_empty empty)
        case neg => exact .inr ⟨_, (keys empty).1, rfl⟩
      have members := @States.mem_addInitial _ D.result.states q start.key
      rw [hf.members] at members
      exact members.trans (by grind)
    case done       =>
      intro _ task ht
      -- Every task has a source, and none is explored yet.
      have ⟨s, hs⟩ := List.exists_mem_of_ne_nil _ task.sources_ne_nil
      have := ht.sources s hs
      rw [show D.explored = [] from reached.explored] at this
      cases this

-- The construction in the end, if the stuck state stands for no relation.
structure Complete (A : Automaton ι) (stuck : Key) (D : Determinization ι) : Prop where
  wellFormed : D.result.WellFormed
  consistent : Consistent A D
  spares     : D.table.Spares stuck
  faithful   : Faithful A stuck D
  done       : ∀ task, Sensible A D.known task → Done A D task
  started    : Started A stuck D

theorem subsets_complete (hA : A.WellFormed) (free : (A.subsets stuck table).table.Spares stuck) :
    Complete A stuck (A.subsets stuck table) := by
  have ⟨invariant, started⟩ := @initial_spec _ A stuck table hA
  have ⟨h, empty⟩ := invariant.saturate hA (Nat.le_add_left ..)
  exact {
    wellFormed := growth_subsets.wellFormed .ofStuck
    consistent := h.consistent
    spares     := free
    faithful   := h.faithful free
    done       := fun task ht => h.done free task <| ht.mono fun s hs => by
      have := h.found.mem_iff.mp hs
      rwa [empty, List.nil_append] at this
    started    := started.saturate
  }

end NestedAutomata.Determinization
