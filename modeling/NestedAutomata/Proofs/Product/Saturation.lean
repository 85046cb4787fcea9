import Mathlib.Data.Finset.Card
import Mathlib.Data.Finset.Prod
import NestedAutomata.Proofs.Product.Invariant
import NestedAutomata.Proofs.Worklist

namespace NestedAutomata.Product

variable {σ ι : Type} {A B : Automaton ι} {choices : Choices σ ι} {P Q : Product σ ι}
variable {s x c : Node} {p : Pair} {stuck : Key} {k? : Option Key} {task : Task} {l : List Task}
variable {common : Key → Key → Option Key} {table : KeyTable} {client : σ}

-- Where the sources are different states with the same key, the exit was explored after the call site.
def Task.Met (explored : List Node) (task : Task) : Prop :=
  ∀ x c, task.sources = [x, c] → x.key = c.key → x = c ∨ [c, x].Sublist explored

theorem Task.Met.mono {explored : List Node} (h : task.Met explored) : task.Met (explored ++ [s]) :=
  fun x c hs same => (h x c hs same).imp_right fun later => later.trans (List.sublist_append_left ..)

theorem mem_reading {C : Automaton ι} {q : Key} {t : Internal} :
    t ∈ reading C q ↔ .internal t ∈ C.transitions ∧ t.source = q ∧ t.symbol ≠ .ε := by
  simp [reading, Transitions.mem_internalsFrom, and_assoc]

theorem mem_loneTasks : task ∈ loneTasks A B s ↔ task.Fits A B ∧ task.sources = [s] := by
  simp only [loneTasks, List.mem_append, List.mem_flatMap, List.mem_map, mem_reading,
    Transitions.mem_internalsFromOn, Transitions.mem_callsFrom]
  constructor
  case mp =>
    rintro (((⟨⟨_, _, _⟩, ⟨ht, rfl, rfl⟩, rfl⟩ | ⟨⟨_, _, _⟩, ⟨ht, rfl, rfl⟩, rfl⟩) |
      ⟨⟨_, _, _⟩, ⟨ht, rfl, ha⟩, ⟨_, _, _⟩, ⟨hu, rfl, hb⟩, rfl⟩) |
      ⟨⟨_, _, _⟩, ⟨ht, rfl⟩, ⟨_, _, _⟩, ⟨hu, rfl⟩, rfl⟩)
    · exact ⟨.first ht, rfl⟩
    · exact ⟨.second ht, rfl⟩
    · exact ⟨.internal ht hu ha hb, rfl⟩
    · exact ⟨.call ht hu, rfl⟩
  case mpr =>
    rintro ⟨fits, hs⟩
    cases fits with
    | first ht  =>
      obtain rfl := List.singleton_inj.mp hs
      exact .inl <| .inl <| .inl ⟨_, ⟨ht, rfl, rfl⟩, rfl⟩
    | second ht =>
      obtain rfl := List.singleton_inj.mp hs
      exact .inl <| .inl <| .inr ⟨_, ⟨ht, rfl, rfl⟩, rfl⟩
    | internal ht hu ha hb =>
      obtain rfl := List.singleton_inj.mp hs
      exact .inl <| .inr ⟨_, ⟨ht, rfl, ha⟩, _, ⟨hu, rfl, hb⟩, rfl⟩
    | call ht hu =>
      obtain rfl := List.singleton_inj.mp hs
      exact .inr ⟨_, ⟨ht, rfl⟩, _, ⟨hu, rfl⟩, rfl⟩
    | ret => cases hs

theorem mem_returnTasks : task ∈ returnTasks A B x c ↔ task.Fits A B ∧ task.sources = [x, c] := by
  simp only [returnTasks, List.mem_flatMap, List.mem_map, Transitions.mem_returnsPopping]
  constructor
  case mp =>
    rintro ⟨⟨_, _, _, _⟩, ⟨ht, rfl, rfl⟩, ⟨_, _, _, _⟩, ⟨hu, rfl, rfl⟩, rfl⟩
    exact ⟨.ret ht hu, rfl⟩
  case mpr =>
    intro ⟨fits, hs⟩
    cases fits with
    | ret ht hu =>
      obtain ⟨rfl, one⟩ := List.cons.inj hs
      obtain rfl := List.singleton_inj.mp one
      exact ⟨_, ⟨ht, rfl, rfl⟩, _, ⟨hu, rfl, rfl⟩, rfl⟩
    | first | second | internal | call => cases hs

theorem Task.sources_cases (task : Task) :
    (∃ s, task.sources = [s]) ∨ ∃ x c, task.sources = [x, c] := by
  cases task <;> simp [sources]

theorem sublist_pair_concat_iff {α : Type} {l : List α} {a b c : α} :
    [a, b].Sublist (l ++ [c]) ↔ [a, b].Sublist l ∨ a ∈ l ∧ b = c := by
  have turned : [a, b].Sublist (l ++ [c]) ↔ [b, a].Sublist (c :: l.reverse) := by
    rw [← List.reverse_sublist]
    simp
  rw [turned, List.cons_sublist_cons', List.singleton_sublist, List.mem_reverse, and_comm]
  refine or_congr_left ?_
  rw [← List.reverse_sublist]
  simp

theorem Task.Met.of_not_mem {explored : List Node} (h : task.Met (explored ++ [s]))
    (hs : s ∉ task.sources) : task.Met explored := by
  intro x c sources same
  refine (h x c sources same).imp_right fun later => ?_
  refine (sublist_pair_concat_iff.mp later).resolve_right fun last => hs ?_
  simp [sources, last.2]

theorem mem_tasks (fresh : s ∉ P.explored) :
    task ∈ P.tasks A B s ↔
      Sensible A B (s :: P.explored) task ∧ s ∈ task.sources ∧ task.Met (P.explored ++ [s]) := by
  simp only [tasks, List.mem_append, List.mem_flatMap, mem_loneTasks, mem_returnTasks, Prod.exists]
  constructor
  case mp =>
    rintro (⟨fits, hs⟩ | ⟨x, c, hp, fits, hs⟩)
    · refine ⟨⟨by simp [hs], fits⟩, by simp [hs], fun x c h => ?_⟩
      simp [hs] at h
    · refine ⟨⟨?sources, fits⟩, ?source, fun y d h same => ?met⟩
      case sources => rw [hs]; grind
      case source  => rw [hs]; grind
      case met     =>
        obtain ⟨rfl, rfl⟩ : x = y ∧ c = d := by simpa [hs] using h
        rw [sublist_pair_concat_iff]
        grind
  case mpr =>
    intro ⟨⟨sources, fits⟩, hs, met⟩
    rcases task.sources_cases with ⟨t, ht⟩ | ⟨x, c, ht⟩
    · rw [ht] at hs
      exact .inl ⟨fits, List.mem_singleton.mp hs ▸ ht⟩
    · refine .inr ⟨x, c, ?_, fits, ht⟩
      have met := met x c ht
      have before : [c, x].Sublist P.explored → c ∈ P.explored := fun h => h.subset List.mem_cons_self
      rw [sublist_pair_concat_iff] at met
      rw [ht] at hs sources
      grind

theorem later_foldl_perform : Later P (l.foldl (perform A B choices) P) :=
  List.foldlRecOn (motive := Later P) l _ .refl fun _ h _ _ => h.trans performed_now.later

section Perform

variable (hA : A.WellFormed) (hB : B.WellFormed) (h : Consistent A B P)
variable (ht : ∀ task ∈ l, Sensible A B P.known task)
include hA hB h ht

theorem consistent_foldl_perform : Consistent A B (l.foldl (perform A B choices) P) := by
  induction l generalizing P with
  | nil => exact h
  | cons task l ih =>
    have performed := @performed_now _ _ A B choices P task
    apply ih (performed.consistent hA hB h (ht task List.mem_cons_self))
    exact fun task' ht' => (ht task' (List.mem_cons_of_mem _ ht')).mono fun _ => performed.later.known

theorem faithful_foldl_perform (labels : ∀ a b s, (choices.label a b s).1 = common a b)
    (free : (l.foldl (perform A B choices) P).Spares stuck) (hf : Faithful A B common stuck P) :
    Faithful A B common stuck (l.foldl (perform A B choices) P) ∧
      ∀ task ∈ l, Done A B common (l.foldl (perform A B choices) P) task := by
  induction l generalizing P with
  | nil => exact ⟨hf, nofun⟩
  | cons task l ih =>
    have first := ht task List.mem_cons_self
    have performed : Performed A B choices common P task (P.perform A B choices task) := performed labels
    have later : Later (P.perform A B choices task) (l.foldl (perform A B choices) _) :=
      later_foldl_perform
    have ⟨hf, done⟩ := performed.faithful hA hB h first (free.of_later later) hf
    have rest (task') (ht' : task' ∈ l) := (ht task' (List.mem_cons_of_mem _ ht')).mono
      fun _ => performed.later.known
    have ⟨hf, dones⟩ := ih (performed.consistent hA hB h first) rest free hf
    refine ⟨hf, fun task' ht' => ?_⟩
    cases List.mem_cons.mp ht' with
    | inl ht' => rw [ht']; exact done.later later
    | inr ht' => exact dones task' ht'

end Perform

-- The pairs that were accepted are explored or wait to be.
structure Booked (A B : Automaton ι) (P : Product σ ι) : Prop where
  consistent : Consistent A B P
  found      : P.known.Perm (P.pending ++ P.explored)

structure Invariant (A B : Automaton ι) (common : Key → Key → Option Key) (stuck : Key)
    (P : Product σ ι) : Prop where
  consistent : Consistent A B P
  found      : P.known.Perm (P.pending ++ P.explored)
  faithful   : P.Spares stuck → Faithful A B common stuck P
  done       : P.Spares stuck → ∀ task, Sensible A B P.explored task → task.Met P.explored →
    Done A B common P task

theorem Consistent.length_offered_le (h : Consistent A B P) :
    P.offered.length ≤ A.ordinary.length * B.ordinary.length := by
  classical
  let pairs := A.ordinary.toFinset ×ˢ B.ordinary.toFinset
  calc
    P.offered.length = (P.offered.map Prod.fst).toFinset.card := by
      rw [List.toFinset_card_of_nodup h.nodup, List.length_map]
    _ ≤ pairs.card := by
      apply Finset.card_le_card_of_injOn fun p => (p.first, p.second)
      case hf =>
        intro p hp
        have ⟨e, he, hp⟩ := List.mem_map.mp (List.mem_toFinset.mp hp)
        have ⟨first, second⟩ := h.ordinary e.1 e.2 he
        simp [pairs, ← hp, first, second]
      case f_inj =>
        rintro ⟨_, _⟩ _ ⟨_, _⟩ _ same
        cases same
        rfl
    _ = A.ordinary.toFinset.card * B.ordinary.toFinset.card := Finset.card_product ..
    _ ≤ A.ordinary.length * B.ordinary.length :=
      Nat.mul_le_mul (List.toFinset_card_le _) (List.toFinset_card_le _)

theorem Booked.unexplored {pending : List Node} (h : Booked A B P) (hp : P.pending = s :: pending) :
    s ∉ P.explored ∧ ∀ t ∈ s :: P.explored, t ∈ P.known := by
  have found := h.found
  rw [hp, List.cons_append] at found
  have fresh := (List.nodup_cons.mp (found.nodup_iff.mp h.consistent.nodup_known)).1
  refine ⟨fun hs => fresh (List.mem_append_right _ hs), fun t ht => found.mem_iff.mpr ?_⟩
  exact List.mem_cons.mpr ((List.mem_cons.mp ht).imp_right (List.mem_append_right _))

theorem Booked.sensible {pending : List Node} (h : Booked A B P) (hp : P.pending = s :: pending) :
    ∀ task ∈ { P with pending }.tasks A B s, Sensible A B P.known task := by
  have ⟨fresh, mem⟩ := h.unexplored hp
  exact fun task ht => ((mem_tasks fresh).mp ht).1.mono mem

theorem Booked.explore {pending : List Node} (hA : A.WellFormed) (hB : B.WellFormed) (h : Booked A B P)
    (hp : P.pending = s :: pending) : Booked A B ({ P with pending }.explore A B choices s) := by
  have before : Consistent A B { P with pending } := { h.consistent with }
  have consistent : Consistent A B
      (({ P with pending }.tasks A B s).foldl (perform A B choices) { P with pending }) :=
    consistent_foldl_perform hA hB before (h.sensible hp)
  have later : Later { P with pending }
      (({ P with pending }.tasks A B s).foldl (perform A B choices) { P with pending }) :=
    later_foldl_perform
  rw [explore_eq]
  generalize (tasks A B { P with pending } s).foldl (perform A B choices) { P with pending } = Q at *
  constructor
  case consistent => exact { consistent with }
  case found =>
    have ⟨l, hk, hp'⟩ := later.found
    have moved : (s :: pending ++ P.explored).Perm (pending ++ (P.explored ++ [s])) := by
      rw [← List.append_assoc]
      exact (List.perm_append_singleton s _).symm
    have found : Q.known.Perm (l ++ pending ++ (P.explored ++ [s])) := by
      rw [hk, List.append_assoc]
      exact (h.found.trans (hp ▸ moved)).append_left l
    exact found.trans (hp'.symm.append_right _)

def worklist (A B : Automaton ι) (choices : Choices σ ι) : Worklist (Product σ ι) Node where
  pending             := Product.pending
  explore s pending P := { P with pending }.explore A B choices s

theorem drain_worklist {fuel : Nat} :
    (worklist A B choices).drain fuel P = P.saturate A B choices fuel := by
  fun_induction Product.saturate A B choices fuel P with
  | case1                       => rfl
  | case2 fuel P hp             => simp only [Worklist.drain, worklist, hp]
  | case3 fuel P s pending hp ih => simpa only [Worklist.drain, worklist, hp] using ih

theorem Booked.pops {l : List Node} (hA : A.WellFormed) (hB : B.WellFormed) (h : Booked A B P)
    (pops : (worklist A B choices).Pops l P Q) : Booked A B Q ∧ Q.explored = P.explored ++ l := by
  apply pops.induction (k := []) (motive := fun l Q => Booked A B Q ∧ Q.explored = P.explored ++ l)
  case start => exact ⟨h, (List.append_nil _).symm⟩
  case step  =>
    intro k Q s pending ⟨h, explored⟩ hp
    refine ⟨h.explore hA hB hp, ?_⟩
    simp only [worklist, explore_eq, explored, List.append_assoc]

theorem Booked.length_explored_le (h : Booked A B P) :
    P.explored.length ≤ A.ordinary.length * B.ordinary.length := by
  have found : P.known.length ≤ P.offered.length := List.length_filterMap_le ..
  rw [h.found.length_eq, List.length_append] at found
  exact (Nat.le_add_left ..).trans (found.trans h.consistent.length_offered_le)

theorem Booked.exists_pops_saturate {fuel : Nat} (choices : Choices σ ι) (hA : A.WellFormed)
    (hB : B.WellFormed) (h : Booked A B P)
    (enough : A.ordinary.length * B.ordinary.length ≤ P.explored.length + fuel) :
    ∃ l, (worklist A B choices).Pops l P (P.saturate A B choices fuel) ∧
      (P.saturate A B choices fuel).pending = [] := by
  rw [← drain_worklist]
  apply Worklist.exists_finished_drain
  intro l Q pops
  have ⟨h, explored⟩ := h.pops hA hB pops
  have bound := h.length_explored_le
  rw [explored, List.length_append] at bound
  exact Nat.le_of_add_le_add_left (bound.trans enough)

theorem Invariant.booked (h : Invariant A B common stuck P) : Booked A B P :=
  ⟨h.consistent, h.found⟩

section Saturate

variable (labels : ∀ a b s, (choices.label a b s).1 = common a b) (hA : A.WellFormed) (hB : B.WellFormed)
include labels hA hB

theorem Invariant.explore {pending : List Node} (h : Invariant A B common stuck P)
    (hp : P.pending = s :: pending) :
    Invariant A B common stuck ({ P with pending }.explore A B choices s) := by
  have ⟨fresh, _⟩ := h.booked.unexplored hp
  have booked : Booked A B ({ P with pending }.explore A B choices s) := h.booked.explore hA hB hp
  have consistent : Consistent A B { P with pending } := { h.consistent with }
  have rest (free : (({ P with pending }.tasks A B s).foldl (perform A B choices) { P with pending }).Spares
      stuck) :=
    faithful_foldl_perform hA hB consistent (h.booked.sensible hp) labels free
  have later : Later { P with pending }
      (({ P with pending }.tasks A B s).foldl (perform A B choices) { P with pending }) :=
    later_foldl_perform
  rw [explore_eq] at booked ⊢
  generalize (tasks A B { P with pending } s).foldl (perform A B choices) { P with pending } = Q at *
  -- A key under which no pair is accepted in the end has not been one before.
  have before (free : Q.Spares stuck) : P.Spares stuck := by
    have := free.of_later later
    exact this
  constructor
  case consistent => exact booked.consistent
  case found      => exact booked.found
  case faithful =>
    intro free
    exact { (rest free { h.faithful (before free) with }).1 with }
  case done =>
    intro free task ht met
    have ⟨_, dones⟩ := rest free { h.faithful (before free) with }
    have ht : Sensible A B (s :: P.explored) task := ht.mono fun t ht => by simpa [or_comm] using ht
    by_cases hs : s ∈ task.sources
    case pos =>
      have := dones task ((mem_tasks fresh).mpr ⟨ht, hs, met⟩)
      exact this
    case neg =>
      have done : Done A B common { P with pending } task :=
        h.done (before free) task (ht.of_not_mem hs) (met.of_not_mem hs)
      have := done.later later
      exact this

theorem Invariant.saturate {fuel : Nat} (h : Invariant A B common stuck P)
    (enough : A.ordinary.length * B.ordinary.length ≤ P.explored.length + fuel) :
    Invariant A B common stuck (P.saturate A B choices fuel) ∧
      (P.saturate A B choices fuel).pending = [] := by
  have ⟨_, pops, done⟩ := h.booked.exists_pops_saturate choices hA hB enough
  refine ⟨?_, done⟩
  apply pops.induction (k := []) (motive := fun _ Q => Invariant A B common stuck Q)
  case start => exact h
  case step  => exact fun _ Q s pending h hp => h.explore labels hA hB hp

end Saturate

theorem not_mem_transitions_blank {t : Transition} :
    t ∉ (blank A B stuck table client).result.transitions := by
  rw [blank, Automaton.transitions_addSymbols]
  exact Transitions.not_mem_empty

theorem faithful_blank : Faithful A B common stuck (blank A B stuck table client) where
  mode             := by simp [blank, Automaton.ofStuck, States.ofStuck]
  members q        := by simp [blank, known, Automaton.ofStuck, States.ofStuck, ← States.mem_members]
  initial q        := by simp [blank, known, Automaton.ofStuck, States.ofStuck]
  final q          := by simp [blank, known, Automaton.ofStuck, States.ofStuck]
  transitions t ht := absurd ht not_mem_transitions_blank
  alphabet a       := by
    rw [or_iff_left fun h => not_mem_transitions_blank h.2.choose_spec.1, blank,
      Automaton.mem_alphabet_addSymbols, List.mem_filter, Alphabet.mem_toList, decide_eq_true_eq]
    constructor
    case mp  => exact fun ha => ha.elim (absurd · SortedSet.not_mem_empty) And.left
    case mpr => exact fun ha => .inr ⟨ha, A.alphabet.unreserved a ha.1⟩

def starts (A B : Automaton ι) : List Pair :=
  A.states.initial.toList.flatMap fun p => B.states.initial.toList.map (⟨p, ·⟩)

theorem initial_eq :
    initial A B choices stuck table client =
      (starts A B).foldl (fun P p => (P.reach A B choices p).2) (blank A B stuck table client) := by
  simp only [starts, List.foldl_flatMap, List.foldl_map]
  rfl

theorem mem_starts : p ∈ starts A B ↔ p.first ∈ A.states.initial ∧ p.second ∈ B.states.initial := by
  simp only [starts, List.mem_flatMap, List.mem_map, SortedSet.mem_toList]
  constructor
  case mp  => rintro ⟨_, hp, _, hq, rfl⟩; exact ⟨hp, hq⟩
  case mpr => exact fun h => ⟨_, h.1, _, h.2, rfl⟩

theorem Reached.explored (h : Reached A B choices P p k? Q) : Q.explored = P.explored := by
  cases h <;> rfl

structure Looked (A B : Automaton ι) (common : Key → Key → Option Key) (l : List Pair)
    (P Q : Product σ ι) : Prop where
  later      : Later P Q
  explored   : Q.explored = P.explored
  consistent : Consistent A B Q
  offered    : ∀ p ∈ l, Ordinary A B p → ∃ k?, (p, k?) ∈ Q.offered
  faithful   : ∀ stuck, Q.Spares stuck → Faithful A B common stuck P →
    Faithful A B common stuck Q ∧ Q.result.transitions = P.result.transitions

theorem looked_foldl_reach {l : List Pair} (h : Consistent A B P)
    (hl : ∀ p ∈ l, p.first ∈ A.states ∧ p.second ∈ B.states) :
    Looked A B common l P (l.foldl (fun P p => (P.reach A B choices p).2) P) := by
  induction l generalizing P with
  | nil => exact ⟨.refl, rfl, h, nofun, fun _ _ hf => ⟨hf, rfl⟩⟩
  | cons p l ih =>
    have ⟨first, second⟩ := hl p List.mem_cons_self
    have reached : Reached A B choices P p _ (P.reach A B choices p).2 := reached
    have rest := ih (reached.consistent h first second) fun p hp => hl p (List.mem_cons_of_mem _ hp)
    constructor
    case later      => exact reached.later.trans rest.later
    case explored   => exact rest.explored.trans reached.explored
    case consistent => exact rest.consistent
    case offered    =>
      intro q hq ho
      cases List.mem_cons.mp hq with
      | inl hq =>
        subst hq
        exact ⟨_, rest.later.offered.subset (reached.offered ho)⟩
      | inr hq => exact rest.offered q hq ho
    case faithful   =>
      intro stuck free hf
      have before := free.of_later rest.later
      have ⟨later, same⟩ := rest.faithful stuck free (reached.faithful before hf)
      exact ⟨later, same.trans (reached.transitions before hf)⟩

theorem looked_initial (hA : A.WellFormed) (hB : B.WellFormed) :
    Looked A B common (starts A B) (blank A B stuck table client)
      (initial A B choices stuck table client) := by
  rw [initial_eq]
  have consistent : Consistent A B (blank A B stuck table client) := ⟨.nil, fun _ _ h => nomatch h⟩
  apply looked_foldl_reach consistent
  intro p hp
  have ⟨first, second⟩ := mem_starts.mp hp
  exact ⟨hA.states.initial _ first, hB.states.initial _ second⟩

theorem invariant_initial (hA : A.WellFormed) (hB : B.WellFormed) :
    Invariant A B common stuck (initial A B choices stuck table client) := by
  have looked : Looked A B common _ (blank A B stuck table client)
      (initial A B choices stuck table client) :=
    looked_initial hA hB
  generalize initial A B choices stuck table client = P at *
  have explored : P.explored = [] := looked.explored
  constructor
  case consistent => exact looked.consistent
  case found      =>
    have ⟨l, hk, hp⟩ := looked.later.found
    rw [hk, explored, List.append_nil]
    exact hp.symm
  case faithful   => exact fun free => (looked.faithful stuck free faithful_blank).1
  case done       =>
    intro _ task ht _
    have ⟨s, hs⟩ := List.exists_mem_of_ne_nil _ task.sources_ne_nil
    have := ht.sources s hs
    rw [explored] at this
    cases this

-- Whatever holds of the pairs that were offered, no matter which one comes next, holds in the end.
section Induction

variable {motive : KeyTable → List (Pair × Option Key) → Prop}
variable (reach : ∀ P p k? Q, Reached A B choices P p k? Q → motive P.table P.offered →
  motive Q.table Q.offered)
include reach

theorem Performed.induction (h : Performed A B choices common P task Q) (hP : motive P.table P.offered) :
    motive Q.table Q.offered := by
  cases h with
  | unlike      => exact hP
  | missed _ hr => exact reach _ _ _ _ hr hP
  | @made a k client client' Q x? _ hr =>
    have := reach { P with client } _ _ Q hr hP
    exact this

theorem saturate_induction (labels : ∀ a b s, (choices.label a b s).1 = common a b) {fuel : Nat}
    (hP : motive P.table P.offered) :
    motive (P.saturate A B choices fuel).table (P.saturate A B choices fuel).offered := by
  fun_induction Product.saturate A B choices fuel P with
  | case1 => exact hP
  | case2 => exact hP
  | case3 fuel P s pending hp ih =>
    apply ih
    rw [explore_eq]
    exact List.foldlRecOn (motive := fun Q : Product σ ι => motive Q.table Q.offered) _ _ hP
      fun Q hQ task _ => (performed labels).induction reach hQ

theorem initial_induction {client : σ} (hP : motive table []) :
    motive (initial A B choices stuck table client).table
      (initial A B choices stuck table client).offered := by
  rw [initial_eq]
  exact List.foldlRecOn (motive := fun Q : Product σ ι => motive Q.table Q.offered) _ _ hP
    fun Q hQ p _ => reach _ _ _ _ reached hQ

end Induction

theorem offered_saturate (labels : ∀ a b s, (choices.label a b s).1 = common a b) {fuel : Nat} :
    P.offered <:+ (P.saturate A B choices fuel).offered :=
  saturate_induction (motive := fun _ offered => P.offered <:+ offered)
    (fun _ _ _ _ hr hP => hP.trans hr.later.offered) labels List.suffix_rfl

-- The construction in the end, if no pair was accepted under the key of the stuck state.
structure Complete (A B : Automaton ι) (common : Key → Key → Option Key) (stuck : Key)
    (P : Product σ ι) : Prop where
  wellFormed : P.result.WellFormed
  absorbing  : P.result.Absorbing
  consistent : Consistent A B P
  spares     : P.Spares stuck
  explored   : ∀ s, s ∈ P.explored ↔ s ∈ P.known
  faithful   : Faithful A B common stuck P
  done       : ∀ task, Sensible A B P.known task → task.Met P.explored → Done A B common P task
  started    : ∀ p ∈ starts A B, Ordinary A B p → ∃ k?, (p, k?) ∈ P.offered

theorem complete_saturate {fuel : Nat} (labels : ∀ a b s, (choices.label a b s).1 = common a b)
    (hA : A.WellFormed) (hB : B.WellFormed) (enough : A.ordinary.length * B.ordinary.length ≤ fuel)
    (free : ((initial A B choices stuck table client).saturate A B choices fuel).Spares stuck) :
    Complete A B common stuck ((initial A B choices stuck table client).saturate A B choices fuel) := by
  have invariant : Invariant A B common stuck (initial A B choices stuck table client) :=
    invariant_initial hA hB
  have looked : Looked A B common _ (blank A B stuck table client)
      (initial A B choices stuck table client) :=
    looked_initial hA hB
  have growth : (Automaton.ofStuck stuck).Growth
      ((initial A B choices stuck table client).saturate A B choices fuel).result :=
    growth_initial.trans growth_saturate
  have later : (initial A B choices stuck table client).offered <:+
      ((initial A B choices stuck table client).saturate A B choices fuel).offered :=
    offered_saturate labels
  have ⟨h, empty⟩ := invariant.saturate labels hA hB (enough.trans (Nat.le_add_left ..))
  have explored (s) := h.found.mem_iff (a := s)
  rw [empty, List.nil_append] at explored
  exact {
    wellFormed := growth.wellFormed .ofStuck
    absorbing  := growth.absorbing .ofStuck
    consistent := h.consistent
    spares     := free
    explored   := fun s => (explored s).symm
    faithful   := h.faithful free
    done       := fun task ht => h.done free task (ht.mono fun s => (explored s).mp)
    started    := fun p hp ho => (looked.offered p hp ho).imp fun _ hk => later.subset hk
  }

end NestedAutomata.Product
