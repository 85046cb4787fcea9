import NestedAutomata.Proofs.Determinization.Language

namespace NestedAutomata

namespace Subset.Move

def task : Move → Task
  | internal s a _ => .internal s a
  | call c a _     => .call c a
  | ret x c a _    => .ret x c a

theorem task_move {task : Task} {s : Subset} : (task.move s).task = task := by
  cases task <;> rfl

theorem move_task {m : Move} : m.task.move m.destination = m := by
  cases m <;> rfl

end Subset.Move

theorem Automaton.Alike.trans {ι : Type} {A B C : Automaton ι} (h₁ : A.Alike B) (h₂ : B.Alike C) :
    A.Alike C := by
  have ⟨⟨members, initial, final, stuck⟩, alphabet, transitions⟩ := h₁
  have ⟨⟨members', initial', final', stuck'⟩, alphabet', transitions'⟩ := h₂
  exact ⟨⟨members.trans members', initial.trans initial', final.trans final', stuck.trans stuck'⟩,
    alphabet.trans alphabet', transitions.trans transitions'⟩

namespace Determinization

open Subset (Task Move)

variable {ι : Type} {A : Automaton ι} {stuck : Key} {D E : Determinization ι} {r : Relation}
variable {s : Subset} {task : Task} {l done : List Task}

theorem Reached.moves (h : Reached A stuck D r s E) : E.moves = D.moves := by
  cases h <;> rfl

structure Recorded (A : Automaton ι) (D : Determinization ι) (done : List Task) : Prop where
  tasks   : D.moves.map Move.task = done.filter (·.relation A ≠ ∅)
  targets : ∀ m ∈ D.moves, m.destination ∈ D.known ∧ m.destination.relation = m.task.relation A

namespace Recorded

theorem perform (h : Recorded A D done) (hA : A.WellFormed) (hD : Consistent A D)
    (ht : Sensible A D.known task) (free : (D.perform A stuck task).table.Spares stuck) :
    Recorded A (D.perform A stuck task) (task :: done) := by
  have hr := ht.spanning_relation hA hD
  have reached := @reached _ A stuck D (task.relation A)
  simp only [Determinization.perform] at free ⊢
  generalize (D.reach A stuck (task.relation A)).1 = s at *
  generalize (D.reach A stuck (task.relation A)).2 = E at *
  have free := free.of_grown later_record.table
  have before : Recorded A E done := {
    tasks       := reached.moves ▸ h.tasks
    targets m hm := (h.targets m (reached.moves ▸ hm)).imp_left fun known => reached.later.known known
  }
  by_cases empty : task.relation A = ∅
  case pos =>
    rw [record_of_key (reached.key_of_empty empty)]
    exact { before with tasks := by simpa [empty] using before.tasks }
  case neg =>
    have hs := (reached.keys hD empty).1
    rw [record_of_key_ne ((reached.consistent hD hr).key_ne free hs)]
    constructor
    case tasks   => simp [empty, before.tasks, Move.task_move]
    case targets =>
      intro m hm
      cases List.mem_cons.mp hm with
      | inl hm => rw [hm, destination_move, Move.task_move]; exact ⟨hs, reached.relation⟩
      | inr hm => exact before.targets m hm

theorem foldl_perform (h : Recorded A D done) (hA : A.WellFormed) (hD : Consistent A D)
    (ht : ∀ task ∈ l, Sensible A D.known task)
    (free : (l.foldl (Determinization.perform A stuck) D).table.Spares stuck) :
    Recorded A (l.foldl (Determinization.perform A stuck) D) (l.reverse ++ done) := by
  induction l generalizing D done with
  | nil => exact h
  | cons task l ih =>
    have first := ht task List.mem_cons_self
    have h := h.perform hA hD first (free.of_grown later_foldl_perform.table)
    rw [List.reverse_cons, List.append_assoc]
    refine ih h (hD.perform hA first) (fun task' ht' => ?_) free
    exact (ht task' (List.mem_cons_of_mem _ ht')).mono fun _ => later_perform.known

end Recorded

section Nodup

theorem nodup_flatMap {α β : Type} {l : List α} {f : α → List β} (hl : l.Nodup)
    (nodup : ∀ x ∈ l, (f x).Nodup) (apart : ∀ x y b, b ∈ f x → b ∈ f y → x = y) :
    (l.flatMap f).Nodup :=
  List.nodup_flatMap.mpr ⟨nodup, hl.imp fun ne b hx hy => ne (apart _ _ b hx hy)⟩

theorem nodup_symbols : A.alphabet.toList.Nodup :=
  A.alphabet.symbols.nodup_toList

theorem nodup_returnTasks (hs : s ∉ D.explored) (hD : D.explored.Nodup) :
    (D.returnTasks A s).Nodup := by
  have pairs : (D.explored.flatMap (fun o => [(s, o), (o, s)]) ++ [(s, s)]).Nodup := by
    refine List.nodup_append.mpr ⟨nodup_flatMap hD ?nodup ?apart, List.nodup_singleton _, ?last⟩
    case nodup =>
      intro o ho
      have ne : s ≠ o := fun e => hs (e ▸ ho)
      simp [ne]
    case apart => simp; grind
    case last  => simp; grind
  apply nodup_flatMap pairs
  case nodup => exact fun (x, c) _ => nodup_symbols.map fun a b same => by cases same; rfl
  case apart =>
    rintro ⟨x, c⟩ ⟨y, d⟩ task hx hy
    have ⟨a, _, hx⟩ := List.mem_map.mp hx
    have ⟨b, _, hy⟩ := List.mem_map.mp hy
    cases hx.trans hy.symm
    rfl

theorem nodup_tasks (hs : s ∉ D.explored) (hD : D.explored.Nodup) : (D.tasks A s).Nodup := by
  refine List.nodup_append.mpr ⟨nodup_flatMap nodup_symbols ?nodup ?apart, nodup_returnTasks hs hD, ?kinds⟩
  case nodup => simp
  case apart => simp
  case kinds =>
    simp only [List.mem_flatMap, mem_returnTasks]
    grind

end Nodup

-- The tasks that are done are those that make sense for explored states, each done once.
structure Exhausted (A : Automaton ι) (D : Determinization ι) (done : List Task) : Prop where
  recorded : Recorded A D done
  nodup    : done.Nodup
  sensible : ∀ task, task ∈ done ↔ Sensible A D.explored task

theorem Exhausted.explore {pending : List Subset} (hA : A.WellFormed) (hD : Invariant A stuck D)
    (hp : D.pending = s :: pending) (h : Exhausted A D done)
    (free : ({ D with pending }.explore A stuck s).table.Spares stuck) :
    Exhausted A ({ D with pending }.explore A stuck s) (({ D with pending }.tasks A s).reverse ++ done) := by
  have found : (s :: (pending ++ D.explored)).Nodup :=
    (hp ▸ hD.found).nodup_iff.mp hD.consistent.nodup
  have ⟨fresh, rest⟩ := List.nodup_cons.mp found
  have unexplored : s ∉ D.explored := fun hs => fresh (List.mem_append_right _ hs)
  have nodup := (List.nodup_append.mp rest).2.1
  have sensible : ∀ task ∈ { D with pending }.tasks A s, Sensible A D.known task := by
    intro task ht
    refine (mem_tasks.mp ht).1.mono fun t ht => ?_
    rw [hD.found.mem_iff, hp]
    exact List.mem_cons.mpr ((List.mem_cons.mp ht).imp_right (List.mem_append_right _))
  rw [explore_eq] at free ⊢
  constructor
  case recorded =>
    have consistent : Consistent A { D with pending } := { hD.consistent with }
    have recorded : Recorded A { D with pending } done := { h.recorded with }
    exact { recorded.foldl_perform hA consistent sensible free with }
  case nodup =>
    refine List.nodup_append.mpr ⟨List.nodup_reverse.mpr (nodup_tasks unexplored nodup), h.nodup, ?_⟩
    -- New tasks are about the state that is explored now, and earlier ones are not.
    rintro task new _ old rfl
    have new := (mem_tasks.mp (List.mem_reverse.mp new)).2
    exact unexplored (((h.sensible task).mp old).sources s new)
  case sensible =>
    intro task
    rw [List.mem_append, List.mem_reverse, mem_tasks, h.sensible]
    have turned : Sensible A (D.explored ++ [s]) task ↔ Sensible A (s :: D.explored) task :=
      have turn {t : Subset} : t ∈ D.explored ++ [s] ↔ t ∈ s :: D.explored := by simp [or_comm]
      ⟨fun h => h.mono fun _ => turn.mp, fun h => h.mono fun _ => turn.mpr⟩
    rw [turned]
    constructor
    case mp  => exact fun ht => ht.elim And.left fun old => old.mono (List.subset_cons_self ..)
    case mpr =>
      intro ht
      by_cases hs : s ∈ task.sources
      case pos => exact .inl ⟨ht, hs⟩
      case neg => exact .inr (ht.of_not_mem hs)

theorem Exhausted.saturate {fuel : Nat} (hA : A.WellFormed) (hD : Invariant A stuck D)
    (h : Exhausted A D done) (free : (D.saturate A stuck fuel).table.Spares stuck) :
    ∃ done, Exhausted A (D.saturate A stuck fuel) done := by
  fun_induction Determinization.saturate A stuck fuel D generalizing done with
  | case1 => exact ⟨done, h⟩
  | case2 => exact ⟨done, h⟩
  | case3 fuel D s pending hp ih =>
    have before := free.of_grown shapes_prefix_saturate
    exact ih (hD.explore hA hp) (h.explore hA hD hp before) free

theorem exhausted_initial {table : KeyTable} : Exhausted A (initial A stuck table) [] := by
  have reached := @reached _ A stuck (blank A stuck table) A.startRelation
  rw [initial_eq]
  generalize (blank A stuck table).reach A stuck A.startRelation = p at *
  obtain ⟨start, D⟩ := p
  have moves : D.moves = [] := reached.moves
  have explored : D.explored = [] := reached.explored
  constructor
  case recorded => exact { tasks := by simp [moves], targets := by simp [moves] }
  case nodup    => exact .nil
  case sensible =>
    intro task
    have ⟨s, hs⟩ := List.exists_mem_of_ne_nil _ task.sources_ne_nil
    simp only [List.not_mem_nil, explored, false_iff]
    exact fun h => List.not_mem_nil (h.sources s hs)

structure Told (A : Automaton ι) (D : Determinization ι) : Prop where
  nodup   : (D.moves.map Move.task).Nodup
  tasks   : ∀ task, task ∈ D.moves.map Move.task ↔ Sensible A D.known task ∧ task.relation A ≠ ∅
  targets : ∀ m ∈ D.moves, m.destination ∈ D.known ∧ m.destination.relation = m.task.relation A

theorem Told.sensible {m : Move} (h : Told A D) (hm : m ∈ D.moves) : Sensible A D.known m.task :=
  ((h.tasks _).mp (List.mem_map_of_mem hm)).1

theorem subsets_told {table : KeyTable} (hA : A.WellFormed)
    (free : (A.subsets stuck table).table.Spares stuck) : Told A (A.subsets stuck table) := by
  have before := (@initial_spec _ A stuck table hA).1
  have ⟨invariant, empty⟩ := before.saturate hA (Nat.le_add_left ..)
  have ⟨done, recorded, nodup, sensible⟩ := exhausted_initial.saturate hA before free
  have known {s : Subset} : s ∈ (A.subsets stuck table).explored ↔ s ∈ (A.subsets stuck table).known := by
    have found := invariant.found.mem_iff (a := s)
    rw [empty, List.nil_append] at found
    exact found.symm
  have all {task : Task} : task ∈ done ↔ Sensible A (A.subsets stuck table).known task :=
    (sensible task).trans ⟨fun h => h.mono fun _ => known.mp, fun h => h.mono fun _ => known.mpr⟩
  constructor
  case nodup   => exact recorded.tasks ▸ nodup.filter _
  case tasks   =>
    intro task
    have tasks : (A.subsets stuck table).moves.map Move.task = done.filter (·.relation A ≠ ∅) :=
      recorded.tasks
    rw [tasks, List.mem_filter, all, decide_eq_true_eq]
  case targets => exact recorded.targets

section Client

variable {σ : Type} {onStart : Subset → StateM σ (Option ι)} {onMove : Move → StateM σ (Option ι)}
variable {R : Automaton ι} {client : σ} {log : List Move}

-- The client, with a list of all moves that it was asked about.
def logged (onMove : Move → StateM σ (Option ι)) (m : Move) : StateM (σ × List Move) (Option ι) :=
  fun (client, log) =>
    let (x?, client) := onMove m client
    (x?, client, log ++ [m])

def unlogged (onStart : Subset → StateM σ (Option ι)) (s : Subset) :
    StateM (σ × List Move) (Option ι) :=
  fun (client, log) =>
    let (x?, client) := onStart s client
    (x?, client, log)

-- What the client says on a move is given to the state that the move leads to.
def hear (onMove : Move → StateM σ (Option ι)) (R : Automaton ι) (m : Move) : StateM σ (Automaton ι) :=
  return inform.give R m.destination.key (← onMove m)

theorem inform_eq :
    D.inform onStart onMove client =
      let (x?, client) := onStart D.start client
      D.moves.reverse.foldlM (hear onMove) (inform.give D.result D.start.key x?) client :=
  rfl

theorem foldlM_hear_logged {l : List Move} :
    l.foldlM (hear (logged onMove)) R (client, log) =
      let (R, client) := l.foldlM (hear onMove) R client
      (R, client, log ++ l) := by
  induction l generalizing R client log with
  | nil => rw [List.append_nil]; rfl
  | cons m l ih =>
    have rest := @ih (hear onMove R m client).1 (hear onMove R m client).2 (log ++ [m])
    rw [List.append_assoc] at rest
    exact rest

-- All moves are asked about, in the order in which they were recorded, whatever the answers are.
theorem inform_logged :
    D.inform (unlogged onStart) (logged onMove) (client, []) =
      let (R, client) := D.inform onStart onMove client
      (R, client, D.moves.reverse) := by
  rw [inform_eq, inform_eq]
  exact foldlM_hear_logged

theorem alike_give {q : Key} {x? : Option ι} : (inform.give R q x?).Alike R := by
  cases x? with
  | none   => exact ⟨⟨rfl, rfl, rfl, rfl⟩, rfl, rfl⟩
  | some x =>
    refine ⟨⟨?_, States.initial_setInfo, States.final_setInfo, States.stuck_setInfo⟩, rfl, rfl⟩
    exact SortedSet.ext_mem fun _ => States.mem_setInfo

theorem alike_foldlM_hear {l : List Move} : (l.foldlM (hear onMove) R client).1.Alike R := by
  induction l generalizing R client with
  | nil => exact ⟨⟨rfl, rfl, rfl, rfl⟩, rfl, rfl⟩
  | cons m l ih =>
    have rest := @ih (hear onMove R m client).1 (hear onMove R m client).2
    exact rest.trans alike_give

theorem alike_inform : (D.inform onStart onMove client).1.Alike D.result :=
  alike_foldlM_hear.trans alike_give

end Client

-- A state of the automaton that stands for a relation.
def IsState (R : Automaton ι) (table : KeyTable) (s : Subset) : Prop :=
  s.key ∈ R.states ∧ table.shape? s.key = some (.relation s.relation)

namespace Complete

variable (h : Complete A stuck D)
include h

theorem isState_iff : IsState D.result D.table s ↔ s ∈ D.known := by
  constructor
  case mp =>
    intro ⟨hs, hk⟩
    cases (h.faithful.members _).mp hs with
    | inl hs => exact absurd (KeyTable.key?_eq_some_iff.mpr (hs ▸ hk)) (h.spares _)
    | inr hs =>
      have ⟨t, ht, same⟩ := hs
      have relation := (h.consistent.keys t ht).symm.trans (same ▸ hk)
      obtain rfl : t = s := by
        cases t; cases s
        simp_all
      exact ht
  case mpr =>
    exact fun hs => ⟨(h.faithful.members _).mpr (.inr ⟨s, hs, rfl⟩), h.consistent.keys s hs⟩

variable (told : Told A D)
include told

theorem eq_of_transition {m n : Move} (hm : m ∈ D.moves) (hn : n ∈ D.moves)
    (same : m.transition = n.transition) : m = n := by
  rw [← m.move_task, ← n.move_task] at same
  have ⟨task, key⟩ := h.consistent.eq_of_move (told.sensible hm).sources (told.sensible hn).sources same
  have target := h.consistent.eq_of_key (told.targets m hm).1 (told.targets n hn).1 key
  rw [← m.move_task, ← n.move_task, task, target]

theorem mem_transitions_iff {t : Transition} :
    t ∈ D.result.transitions ↔ t ∈ D.moves.map Move.transition := by
  rw [List.mem_map]
  constructor
  case mp =>
    intro ht
    obtain ⟨task, s, sensible, known, rel, rfl⟩ := h.faithful.transitions t ht
    have hr : task.relation A ≠ ∅ := rel ▸ h.consistent.nonempty s known
    obtain ⟨m, hm, rfl⟩ := List.mem_map.mp ((told.tasks task).mpr ⟨sensible, hr⟩)
    have ⟨target, rel'⟩ := told.targets m hm
    obtain rfl := h.consistent.eq_of_relation known target (rel.trans rel'.symm)
    exact ⟨m, hm, by rw [m.move_task]⟩
  case mpr =>
    rintro ⟨m, hm, rfl⟩
    have ⟨target, rel⟩ := told.targets m hm
    rw [← m.move_task]
    have sensible := told.sensible hm
    exact (h.mem_move sensible.sources).mpr ⟨sensible.symbol, _, target, rel, rfl⟩

end Complete

end Determinization

namespace Automaton

open Determinization Subset

variable {ι : Type} {A : Automaton ι}

-- A client is asked once for each move between states that stand for relations, be it the same state in
-- both roles of a return, and for no other. The moves are told apart by the transitions that they make,
-- which are those of the result.
theorem asked_determinize_iff (hA : A.Obtained) (stuck : Key) (table : KeyTable) :
    ∃ D, A.determinize (.designated stuck) table = .ok D ∧
      ((∀ r, D.table.key? (.relation r) ≠ some stuck) →
        ∀ {σ : Type} (onStart : Subset → StateM σ (Option ι)) (onMove : Move → StateM σ (Option ι))
          (client : σ),
        let (R, client') := D.inform onStart onMove client
        ∃ asked : List Move,
          D.inform (unlogged onStart) (logged onMove) (client, []) = (R, client', asked) ∧
          (asked.map Move.task).Nodup ∧
          (∀ task, task ∈ asked.map Move.task ↔ (∀ s ∈ task.sources, IsState R D.table s) ∧
            task.symbol ∈ A.alphabet ∧ task.relation A ≠ ∅) ∧
          (∀ m ∈ asked, IsState R D.table m.destination ∧ m.destination.relation = m.task.relation A) ∧
          (asked.map Move.transition).Nodup ∧
          ∀ t, t ∈ asked.map Move.transition ↔ t ∈ R.transitions) := by
  refine ⟨A.subsets stuck table, rfl, fun free _ onStart onMove client => ?_⟩
  have complete := subsets_complete hA.wellFormed free
  have told := subsets_told hA.wellFormed free
  have ⟨⟨members, _⟩, _, transitions⟩ := @alike_inform _ (A.subsets stuck table) _ onStart onMove client
  have logged := @inform_logged _ (A.subsets stuck table) _ onStart onMove client
  generalize (A.subsets stuck table) = D at *
  generalize D.inform onStart onMove client = informed at *
  obtain ⟨R, client'⟩ := informed
  -- The client gives information only, so it leaves the states of the result as they are.
  have isState {s : Subset} : IsState R D.table s ↔ s ∈ D.known := by
    rw [← complete.isState_iff, IsState, IsState, ← States.mem_members, members, States.mem_members]
  refine ⟨D.moves.reverse, logged, ?once, ?tasks, ?targets, ?apart, ?transitions⟩
  case once =>
    rw [List.map_reverse, List.nodup_reverse]
    exact told.nodup
  case tasks =>
    intro task
    rw [List.map_reverse, List.mem_reverse, told.tasks]
    simp only [isState]
    exact ⟨fun ⟨h, hr⟩ => ⟨h.sources, h.symbol, hr⟩, fun ⟨sources, ha, hr⟩ => ⟨⟨sources, ha⟩, hr⟩⟩
  case targets =>
    intro m hm
    rw [isState]
    exact told.targets m (List.mem_reverse.mp hm)
  case apart =>
    have nodup : D.moves.Nodup := told.nodup.of_map
    refine (List.nodup_reverse.mpr nodup).map_on fun m hm n hn same => ?_
    exact complete.eq_of_transition told (List.mem_reverse.mp hm) (List.mem_reverse.mp hn) same
  case transitions =>
    intro t
    rw [List.map_reverse, List.mem_reverse, ← complete.mem_transitions_iff told]
    exact transitions ▸ .rfl

theorem asked_determinize_bracketed :
    ∃ D, (brackets ⟨3⟩ [⟨4⟩]).determinize (.designated ⟨7⟩) bracketKeys = .ok D ∧
      (∀ r, D.table.key? (.relation r) ≠ some ⟨7⟩) ∧ ∃ R, ∃ asked : List Move,
        D.inform (unlogged fun _ => pure none) (logged fun _ => pure none) ((), []) = (R, (), asked) ∧
        (asked.map Move.task).Nodup ∧
        .call ⟨⟨8⟩, ⟨5⟩, ⟨9⟩⟩ ∈ asked.map Move.transition ∧
        .ret ⟨⟨9⟩, ⟨8⟩, ⟨6⟩, ⟨10⟩⟩ ∈ asked.map Move.transition := by
  have ⟨D, hD, spec⟩ := asked_determinize_iff (A := brackets ⟨3⟩ [⟨4⟩]) obtained_brackets ⟨7⟩ bracketKeys
  have free r : D.table.key? (.relation r) ≠ some ⟨7⟩ := by
    obtain rfl := Except.ok.inj hD
    exact KeyTable.key?_ne_of_name (t := bracketKeys) rfl Determinization.shapes_prefix_subsets nofun
  have ⟨asked, eq, once, _, _, _, transitions⟩ := spec free (fun _ => pure none) (fun _ => pure none) ()
  obtain rfl := Except.ok.inj hD
  refine ⟨_, rfl, free, _, asked, eq, once, (transitions _).mpr ?_, (transitions _).mpr ?_⟩
  · decide +kernel
  · decide +kernel

end Automaton

end NestedAutomata
