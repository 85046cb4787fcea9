import NestedAutomata.Determinization.Basic
import NestedAutomata.Key.Table.Lemmas
import NestedAutomata.Proofs.Automaton.Growth

namespace NestedAutomata

namespace Subset

inductive Task
  | internal (source : Subset) (symbol : Key)
  | call (callSite : Subset) (symbol : Key)
  | ret (exit callSite : Subset) (symbol : Key)

namespace Task

def sources : Task → List Subset
  | internal s _ => [s]
  | call c _     => [c]
  | ret x c _    => [x, c]

theorem sources_ne_nil (task : Task) : task.sources ≠ [] := by
  cases task <;> simp [sources]

def symbol : Task → Key
  | internal _ a | call _ a | ret _ _ a => a

def relation {ι : Type} (A : Automaton ι) : Task → Relation
  | internal s a => A.internalRelation s.relation a
  | call c a     => A.callRelation c.relation a
  | ret x c a    => A.returnRelation x.relation c.relation a

def move (target : Subset) : Task → Move
  | internal s a => .internal s a target
  | call c a     => .call c a target
  | ret x c a    => .ret x c a target

end Task

end Subset

namespace Determinization

open Subset (Task)

variable {ι : Type} (A : Automaton ι) (stuck : Key) (D : Determinization ι)

def perform (task : Task) : Determinization ι :=
  let (target, D) := D.reach A stuck (task.relation A)
  D.record stuck (task.move target)

def returnTasks (s : Subset) : List Task :=
  let pairs := D.explored.flatMap (fun o => [(s, o), (o, s)]) ++ [(s, s)]
  pairs.flatMap fun (x, c) => A.alphabet.toList.map (.ret x c)

def tasks (s : Subset) : List Task :=
  A.alphabet.toList.flatMap (fun a => [.internal s a, .call s a]) ++ D.returnTasks A s

def blank (table : KeyTable) : Determinization ι where
  result   := (Automaton.ofStuck stuck).addSymbols A.alphabet.toList
  table
  start    := ⟨stuck, ∅⟩
  known    := []
  pending  := []
  explored := []
  moves    := []

variable {A stuck D}
variable {E F : Determinization ι} {r : Relation} {s : Subset} {task : Task}

theorem initial_eq {table : KeyTable} :
    initial A stuck table =
      let (start, D) := (blank A stuck table).reach A stuck A.startRelation
      { D with result := D.result.addInitial start.key, start } :=
  rfl

theorem perform_withExplored {task : Task} {l : List Subset} :
    { D with explored := l }.perform A stuck task =
      { D.perform A stuck task with explored := l } := by
  have reach (r : Relation) : { D with explored := l }.reach A stuck r =
      ((D.reach A stuck r).1, { (D.reach A stuck r).2 with explored := l }) := by
    unfold reach
    split
    case isTrue  => rfl
    case isFalse => simp only; split <;> rfl
  simp only [perform, reach]
  simp only [record]
  split <;> rfl

theorem foldl_perform_withExplored {l : List Task} {e : List Subset} :
    l.foldl (perform A stuck) { D with explored := e } =
      { l.foldl (perform A stuck) D with explored := e } := by
  induction l generalizing D with
  | nil => rfl
  | cons task l ih => rw [List.foldl_cons, perform_withExplored, ih, List.foldl_cons]

theorem explored_foldl_perform {l : List Task} :
    (l.foldl (perform A stuck) D).explored = D.explored := by
  have same : l.foldl (perform A stuck) D =
      { l.foldl (perform A stuck) D with explored := D.explored } :=
    foldl_perform_withExplored (e := D.explored)
  rw [same]

theorem explore_eq {s : Subset} :
    D.explore A stuck s =
      { (D.tasks A s).foldl (perform A stuck) D with explored := D.explored ++ [s] } := by
  have alone : A.alphabet.toList.foldl (fun D a => (D.internal A stuck s a).call A stuck s a) D =
      (A.alphabet.toList.flatMap fun a => [.internal s a, .call s a]).foldl (perform A stuck) D := by
    rw [List.foldl_flatMap]
    rfl
  have paired (l : List (Subset × Subset)) (D : Determinization ι) :
      l.foldl (fun D (x, c) => A.alphabet.toList.foldl (fun D a => D.ret A stuck x c a) D) D =
        (l.flatMap fun (x, c) => A.alphabet.toList.map (.ret x c)).foldl (perform A stuck) D := by
    simp only [List.foldl_flatMap, List.foldl_map]
    rfl
  simp only [explore]
  rw [alone, explored_foldl_perform, paired, foldl_perform_withExplored, ← List.foldl_append]
  rfl

def discover (A : Automaton ι) (D : Determinization ι) (s : Subset) (table : KeyTable) :
    Determinization ι :=
  let R := D.result.addState s.key
  let R := if s.relation.toList.any (·.target ∈ A.states.final) then R.addFinal s.key else R
  { D with result := R, table, known := s :: D.known, pending := s :: D.pending }

-- What comes of looking up a relation.
inductive Reached (A : Automaton ι) (stuck : Key) (D : Determinization ι) (r : Relation) :
    Subset → Determinization ι → Prop
  | empty : r = ∅ → Reached A stuck D r ⟨stuck, r⟩ D
  | old :
    r ≠ ∅ → (∃ s ∈ D.known, s.key = (D.table.relation r).1) →
      Reached A stuck D r ⟨(D.table.relation r).1, r⟩ { D with table := (D.table.relation r).2 }
  | new :
    r ≠ ∅ → (∀ s ∈ D.known, s.key ≠ (D.table.relation r).1) →
      Reached A stuck D r ⟨(D.table.relation r).1, r⟩
        (D.discover A ⟨(D.table.relation r).1, r⟩ (D.table.relation r).2)

theorem reached : Reached A stuck D r (D.reach A stuck r).1 (D.reach A stuck r).2 := by
  rw [reach]
  split
  case isTrue h  => exact .empty (SortedSet.isEmpty_iff.mp h)
  case isFalse h =>
    have h : r ≠ ∅ := fun e => h (SortedSet.isEmpty_iff.mpr e)
    simp only
    split
    case isTrue hk  => exact .old h (by simpa using hk)
    case isFalse hk => exact .new h (by simpa using hk)

structure Later (D E : Determinization ι) : Prop where
  table   : D.table.shapes <+: E.table.shapes
  found   : ∃ l, E.known = l ++ D.known ∧ E.pending = l ++ D.pending
  result  : D.result.Growth E.result
  initial : E.result.states.initial = D.result.states.initial
  start   : E.start = D.start

namespace Later

theorem refl : Later D D :=
  ⟨List.prefix_rfl, ⟨[], rfl, rfl⟩, .refl, rfl, rfl⟩

theorem trans (h₁ : Later D E) (h₂ : Later E F) : Later D F where
  table   := h₁.table.trans h₂.table
  result  := h₁.result.trans h₂.result
  initial := h₂.initial.trans h₁.initial
  start   := h₂.start.trans h₁.start
  found   := by
    have ⟨l, hk, hp⟩ := h₁.found
    have ⟨m, hk', hp'⟩ := h₂.found
    exact ⟨m ++ l, by simp [hk, hk'], by simp [hp, hp']⟩

theorem known (h : Later D E) (hs : s ∈ D.known) : s ∈ E.known := by
  have ⟨l, hl, _⟩ := h.found
  exact hl ▸ List.mem_append_right l hs

end Later

theorem growth_discover {table : KeyTable} : D.result.Growth (D.discover A s table).result :=
  .ite (.addFinal (.addState .refl)) (.addState .refl)

theorem Reached.later (h : Reached A stuck D r s E) : Later D E := by
  have grown : D.table.shapes <+: (D.table.relation r).2.shapes := KeyTable.shapes_prefix_intern
  cases h with
  | empty => exact .refl
  | old   => exact { Later.refl with table := grown }
  | new   =>
    exact {
      table   := grown
      found   := ⟨[_], rfl, rfl⟩
      result  := growth_discover
      initial := by simp only [discover]; split <;> simp [Automaton.addState, States.add]
      start   := rfl
    }

theorem later_record {m : Subset.Move} : Later D (D.record stuck m) := by
  simp only [record]
  split
  case isTrue  => exact .refl
  case isFalse => exact ⟨List.prefix_rfl, ⟨[], rfl, rfl⟩, .add .refl, Automaton.initial_add, rfl⟩

theorem later_perform : Later D (D.perform A stuck task) :=
  reached.later.trans later_record

theorem later_foldl_perform {l : List Task} : Later D (l.foldl (perform A stuck) D) :=
  List.foldlRecOn (motive := Later D) l _ .refl fun _ h _ _ => h.trans later_perform

theorem growth_explore : D.result.Growth (D.explore A stuck s).result := by
  rw [explore_eq]
  exact later_foldl_perform.result

theorem growth_saturate {fuel : Nat} : D.result.Growth (D.saturate A stuck fuel).result := by
  fun_induction saturate A stuck fuel D with
  | case1 => exact .refl
  | case2 => exact .refl
  | case3 _ D s pending _ ih =>
    have g : D.result.Growth ({ D with pending }.explore A stuck s).result :=
      growth_explore (D := { D with pending })
    exact g.trans ih

theorem growth_subsets {table : KeyTable} :
    (Automaton.ofStuck stuck).Growth (A.subsets stuck table).result := by
  have g : (Automaton.ofStuck stuck).Growth (blank A stuck table).result := .addSymbols .refl
  have g : (Automaton.ofStuck stuck).Growth (initial A stuck table).result :=
    .addInitial (g.trans reached.later.result)
  exact g.trans growth_saturate

theorem shapes_prefix_saturate {fuel : Nat} :
    D.table.shapes <+: (D.saturate A stuck fuel).table.shapes := by
  fun_induction saturate A stuck fuel D with
  | case1 => exact List.prefix_rfl
  | case2 => exact List.prefix_rfl
  | case3 _ D s pending _ ih =>
    refine .trans ?_ ih
    rw [explore_eq]
    exact (later_foldl_perform (D := { D with pending }) (l := { D with pending }.tasks A s)).table

theorem shapes_prefix_subsets {table : KeyTable} :
    table.shapes <+: (A.subsets stuck table).table.shapes := by
  have start : table.shapes <+: (initial A stuck table).table.shapes :=
    (reached (D := blank A stuck table)).later.table
  exact start.trans shapes_prefix_saturate

theorem growth_inform {σ : Type} {onStart onMove} {s : σ} :
    D.result.Growth (D.inform onStart onMove s).1 :=
  .foldlM (.elim .refl) fun _ _ _ => .elim .refl

end Determinization

end NestedAutomata
