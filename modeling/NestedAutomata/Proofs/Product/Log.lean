import NestedAutomata.Proofs.Product.Saturation

namespace NestedAutomata

namespace Product

variable {σ ι : Type}

-- The client, with a list of all pairs that it was offered, the latest first.
def Choices.logged (choices : Choices σ ι) : Choices (σ × List Pair) ι where
  state p := fun (table, client, log) =>
    let (answer, table, client) := choices.state p (table, client)
    (answer, table, client, p :: log)
  label a b := fun (client, log) =>
    let (symbol?, client) := choices.label a b client
    (symbol?, client, log)
  info m := fun (client, log) =>
    let (x?, client) := choices.info m client
    (x?, client, log)

def logged (P : Product σ ι) : Product (σ × List Pair) ι where
  result   := P.result
  table    := P.table
  client   := (P.client, P.offered.map Prod.fst)
  offered  := P.offered
  pending  := P.pending
  explored := P.explored

variable {A B : Automaton ι} {choices : Choices σ ι} {P : Product σ ι} {s : Node} {p : Pair} {a b : Key}
variable {task : Task} {stuck : Key} {table : KeyTable} {client : σ} {fuel : Nat}

theorem reach_logged :
    P.logged.reach A B choices.logged p =
      ((P.reach A B choices p).1, (P.reach A B choices p).2.logged) := by
  simp only [reach, logged]
  split
  case isTrue  => rfl
  case isFalse =>
    split
    case h_1 => rfl
    case h_2 =>
      simp only [Choices.logged]
      generalize choices.state p (P.table, P.client) = reply
      obtain ⟨_ | ⟨k, x?⟩, table, client⟩ := reply <;> rfl

theorem move_logged {transition occasion} :
    P.logged.move A B choices.logged a b p transition occasion =
      (P.move A B choices a b p transition occasion).logged := by
  simp only [move]
  have label : choices.logged.label a b P.logged.client =
      ((choices.label a b P.client).1, (choices.label a b P.client).2, P.offered.map Prod.fst) :=
    rfl
  rw [label]
  generalize choices.label a b P.client = reply
  obtain ⟨_ | symbol, client⟩ := reply
  case none => rfl
  case some =>
    have reached : { P.logged with client := (client, P.offered.map Prod.fst) }.reach A B choices.logged p =
        (({ P with client }.reach A B choices p).1, ({ P with client }.reach A B choices p).2.logged) :=
      reach_logged (P := { P with client })
    simp only [reached]
    generalize { P with client }.reach A B choices p = found
    obtain ⟨_ | k, Q⟩ := found <;> rfl

theorem perform_logged :
    P.logged.perform A B choices.logged task = (P.perform A B choices task).logged := by
  cases task with
  | internal | call | ret => exact move_logged
  | shift s p             =>
    simp only [perform, shift, reach_logged]
    generalize P.reach A B choices p = reached
    obtain ⟨_ | k, Q⟩ := reached <;> rfl

theorem explore_logged : P.logged.explore A B choices.logged s = (P.explore A B choices s).logged := by
  rw [explore_eq, explore_eq]
  have tasks : P.logged.tasks A B s = P.tasks A B s := rfl
  rw [tasks, List.foldl_hom logged fun _ _ => perform_logged]
  rfl

theorem saturate_logged :
    P.logged.saturate A B choices.logged fuel = (P.saturate A B choices fuel).logged := by
  fun_induction Product.saturate A B choices fuel P with
  | case1 => rfl
  | case2 fuel P hp =>
    have done : P.logged.pending = [] := hp
    rw [saturate, done]
  | case3 fuel P s pending hp ih =>
    have first : P.logged.pending = s :: pending := hp
    rw [saturate, first, ← ih, ← explore_logged]
    rfl

theorem initial_logged :
    initial A B choices.logged stuck table (client, []) =
      (initial A B choices stuck table client).logged := by
  have step (P : Product σ ι) (p : Pair) :
      (P.logged.reach A B choices.logged p).2 = (P.reach A B choices p).2.logged := by
    rw [reach_logged]
  have start : blank A B stuck table (client, []) = (blank A B stuck table client).logged := rfl
  rw [initial_eq, initial_eq, start]
  exact List.foldl_hom logged step

end Product

-- The log is just added to what is constructed.
theorem Automaton.productWith_logged {σ ι : Type} {A B : Automaton ι} {choices : Product.Choices σ ι}
    {mode : Stuck} {table : KeyTable} {client : σ} :
    A.productWith B choices.logged mode table (client, []) =
      (A.productWith B choices mode table client).map Product.logged := by
  cases hm : mode.require .product with
  | error => simp [productWith, hm]; rfl
  | ok stuck =>
    simp only [productWith, hm, Product.initial_logged]
    exact congrArg Except.ok Product.saturate_logged

end NestedAutomata
