import NestedAutomata.Product.Basic
import NestedAutomata.Proofs.Automaton.Growth

namespace NestedAutomata.Product

inductive Task
  | shift (source : Node) (target : Pair)
  | internal (source : Node) (first second : Internal)
  | call (callSite : Node) (first second : Call)
  | ret (exit callSite : Node) (first second : Return)

section

variable {σ ι : Type} (A B : Automaton ι) (choices : Choices σ ι) (P : Product σ ι)

def perform : Task → Product σ ι
  | .shift s p      => P.shift A B choices s p
  | .internal s t u =>
    P.move A B choices t.symbol u.symbol ⟨t.target, u.target⟩ (.internal ⟨s.key, ·, ·⟩)
      (.internal s.toPair ⟨t.target, u.target⟩ · ·)
  | .call c t u     =>
    P.move A B choices t.symbol u.symbol ⟨t.entry, u.entry⟩ (.call ⟨c.key, ·, ·⟩)
      (.call c.toPair ⟨t.entry, u.entry⟩ · ·)
  | .ret x c t u    =>
    P.move A B choices t.symbol u.symbol ⟨t.returnSite, u.returnSite⟩ (.ret ⟨x.key, c.key, ·, ·⟩)
      (.ret x.toPair c.toPair ⟨t.returnSite, u.returnSite⟩ · ·)

def reading (C : Automaton ι) (q : Key) : List Internal :=
  (C.transitions.internalsFrom q).filter (·.symbol ≠ .ε)

def loneTasks (s : Node) : List Task :=
  (A.transitions.internalsFromOn s.first .ε).map (fun t => .shift s ⟨t.target, s.second⟩) ++
  (B.transitions.internalsFromOn s.second .ε).map (fun t => .shift s ⟨s.first, t.target⟩) ++
  (reading A s.first).flatMap (fun t => (reading B s.second).map (.internal s t)) ++
  (A.transitions.callsFrom s.first).flatMap
    (fun t => (B.transitions.callsFrom s.second).map (.call s t))

def returnTasks (x c : Node) : List Task :=
  (A.transitions.returnsPopping x.first c.first).flatMap fun t =>
    (B.transitions.returnsPopping x.second c.second).map (.ret x c t)

def tasks (s : Node) : List Task :=
  let pairs := P.explored.flatMap (fun o => (s, o) :: if o.key ≠ s.key then [(o, s)] else [])
  loneTasks A B s ++ (pairs ++ [(s, s)]).flatMap fun (x, c) => returnTasks A B x c

def blank (stuck : Key) (table : KeyTable) (client : σ) : Product σ ι where
  result   := (Automaton.ofStuck stuck).addSymbols (A.alphabet.toList.filter (· ∈ B.alphabet))
  table
  client
  offered  := []
  pending  := []
  explored := []

end

variable {σ ι : Type} {A B : Automaton ι} {choices : Choices σ ι} {P : Product σ ι}
variable {s x c : Node} {p : Pair} {k a b : Key} {task : Task} {l : List Task} {e : List Node}

theorem reach_withExplored :
    { P with explored := e }.reach A B choices p =
      ((P.reach A B choices p).1, { (P.reach A B choices p).2 with explored := e }) := by
  unfold reach
  split
  case isTrue  => rfl
  case isFalse =>
    simp only
    split
    case h_1 => rfl
    case h_2 =>
      generalize choices.state p (P.table, P.client) = reply
      obtain ⟨_ | ⟨k, x?⟩, table, client⟩ := reply <;> rfl

theorem move_withExplored {transition occasion} :
    { P with explored := e }.move A B choices a b p transition occasion =
      { P.move A B choices a b p transition occasion with explored := e } := by
  unfold move
  simp only
  split
  case h_1 => rfl
  case h_2 symbol client _ =>
    have same : { P with client, explored := e }.reach A B choices p =
        (({ P with client }.reach A B choices p).1,
          { ({ P with client }.reach A B choices p).2 with explored := e }) :=
      reach_withExplored (P := { P with client })
    rw [same]
    generalize { P with client }.reach A B choices p = reached
    obtain ⟨_ | k, Q⟩ := reached <;> rfl

theorem perform_withExplored :
    { P with explored := e }.perform A B choices task =
      { P.perform A B choices task with explored := e } := by
  cases task with
  | internal | call | ret => exact move_withExplored
  | shift s p             =>
    simp only [perform, shift, reach_withExplored]
    generalize P.reach A B choices p = reached
    obtain ⟨_ | k, Q⟩ := reached <;> rfl

theorem foldl_perform_withExplored :
    l.foldl (perform A B choices) { P with explored := e } =
      { l.foldl (perform A B choices) P with explored := e } := by
  induction l generalizing P with
  | nil => rfl
  | cons task l ih => rw [List.foldl_cons, perform_withExplored, ih, List.foldl_cons]

theorem explored_foldl_perform : (l.foldl (perform A B choices) P).explored = P.explored := by
  have same : l.foldl (perform A B choices) P =
      { l.foldl (perform A B choices) P with explored := P.explored } :=
    foldl_perform_withExplored (e := P.explored)
  rw [same]

theorem explore_eq :
    P.explore A B choices s =
      { (P.tasks A B s).foldl (perform A B choices) P with explored := P.explored ++ [s] } := by
  have alone : (P.internals A B choices s).calls A B choices s =
      (loneTasks A B s).foldl (perform A B choices) P := by
    simp only [loneTasks, List.foldl_append, List.foldl_flatMap, List.foldl_map]
    rfl
  have paired (l : List (Node × Node)) (P : Product σ ι) :
      l.foldl (fun P (x, c) => P.returns A B choices x c) P =
        (l.flatMap fun (x, c) => returnTasks A B x c).foldl (perform A B choices) P := by
    simp only [returnTasks, List.foldl_flatMap, List.foldl_map]
    rfl
  simp only [explore]
  rw [alone, explored_foldl_perform, paired, foldl_perform_withExplored, ← List.foldl_append]
  rfl

section Growth

theorem growth_accept {x? : Option ι} : P.result.Growth (P.accept A B p k x?).result :=
  .trans (.elim (.addState .refl)) <| .trans (.ite (.addInitial .refl) .refl) <|
    .ite (.addFinal .refl) .refl

theorem growth_reach : P.result.Growth (P.reach A B choices p).2.result := by
  simp only [reach]
  split
  case isTrue  => exact .refl
  case isFalse =>
    split
    case h_1 => exact .refl
    case h_2 =>
      generalize choices.state p (P.table, P.client) = reply
      obtain ⟨_ | ⟨k, x?⟩, table, client⟩ := reply
      case none => exact .refl
      case some => exact growth_accept (P := { P with table, client, offered := _ })

theorem growth_shift : P.result.Growth (P.shift A B choices s p).result := by
  have g : P.result.Growth (P.reach A B choices p).2.result := growth_reach
  simp only [shift]
  split
  case h_1 h => rw [h] at g; exact g
  case h_2 h => rw [h] at g; exact .add g

theorem growth_move {transition occasion} :
    P.result.Growth (P.move A B choices a b p transition occasion).result := by
  simp only [move]
  split
  case h_1 => exact .refl
  case h_2 symbol client _ =>
    have g : P.result.Growth ({ P with client }.reach A B choices p).2.result :=
      growth_reach (P := { P with client })
    split
    case h_1 h => rw [h] at g; exact g
    case h_2 h => rw [h] at g; exact .elim (.add g)

theorem growth_perform : P.result.Growth (P.perform A B choices task).result := by
  cases task with
  | shift                 => exact growth_shift
  | internal | call | ret => exact growth_move

theorem growth_explore : P.result.Growth (P.explore A B choices s).result := by
  rw [explore_eq]
  exact List.foldlRecOn (motive := fun Q : Product σ ι => P.result.Growth Q.result) _ _ .refl
    fun Q g task _ => g.trans growth_perform

theorem growth_saturate {fuel : Nat} : P.result.Growth (P.saturate A B choices fuel).result := by
  fun_induction saturate A B choices fuel P with
  | case1 => exact .refl
  | case2 => exact .refl
  | case3 _ P s pending _ ih =>
    have g : P.result.Growth ({ P with pending }.explore A B choices s).result :=
      growth_explore (P := { P with pending })
    exact g.trans ih

theorem growth_initial {stuck : Key} {table : KeyTable} {client : σ} :
    (Automaton.ofStuck stuck).Growth (initial A B choices stuck table client).result := by
  have g : (Automaton.ofStuck stuck).Growth (blank A B stuck table client).result :=
    .addSymbols .refl
  refine List.foldlRecOn (motive := fun P : Product σ ι => (Automaton.ofStuck stuck).Growth P.result)
    _ _ g fun P g _ _ => ?_
  exact List.foldlRecOn (motive := fun P : Product σ ι => (Automaton.ofStuck stuck).Growth P.result)
    _ _ g fun P g _ _ => g.trans growth_reach

end Growth

end NestedAutomata.Product
