import Mathlib.Data.List.Pairwise
import Mathlib.Order.Bounds.Basic
import NestedAutomata.Proofs.Word.Balance

namespace NestedAutomata.Word

variable {v w : Word} {x : Position} {i k n : Nat}

theorem returnBelow_cons :
    returnBelow n (x :: w) = (depth? n [x]).elim (some 0) fun m => (returnBelow m w).map (· + 1) := by
  cases x <;> cases n <;> rfl

theorem exists_ret_of_returnBelow (h : returnBelow n w = some i) :
    ∃ v a t, w = v ++ .ret a :: t ∧ v.length = i ∧ depth? n v = some 0 := by
  induction w generalizing n i with
  | nil => cases h
  | cons x w ih =>
    rw [returnBelow_cons] at h
    cases hd : depth? n [x] with
    | none   =>
      have here : 0 = i := by simpa [hd] using h
      match x, n, hd with
      | .ret a, 0, _ => exact ⟨[], a, w, rfl, here, rfl⟩
    | some m =>
      have later : ∃ k, returnBelow m w = some k ∧ k + 1 = i := by simpa [hd] using h
      have ⟨k, hk, hi⟩ := later
      have ⟨v, a, t, hw, hv, hm⟩ := ih hk
      exact ⟨x :: v, a, t, by simp [hw], by simp [hv, hi], by simp [depth?_cons, hd, hm]⟩

theorem returnBelow_append_ret {a : Key} {t : Word} (h : depth? n v = some 0) :
    returnBelow n (v ++ .ret a :: t) = some v.length := by
  induction v generalizing n with
  | nil =>
    obtain rfl : n = 0 := Option.some.inj h
    rfl
  | cons x v ih =>
    rw [depth?_cons] at h
    have ⟨m, hm, h⟩ := Option.bind_eq_some_iff.mp h
    simp [returnBelow_cons, hm, ih h]

theorem firstPendingReturn_eq_some_iff :
    w.firstPendingReturn = some i ↔ ∃ v a t, w = v ++ .ret a :: t ∧ v.length = i ∧ Balanced v := by
  simp only [balanced_iff]
  constructor
  case mp  => exact exists_ret_of_returnBelow
  case mpr =>
    intro ⟨v, a, t, hw, hv, h⟩
    exact hw ▸ hv ▸ returnBelow_append_ret h

-- A call of the word, counted from `k` on, that no return after it closes.
def Opens (k : Nat) (w : Word) (i : Nat) : Prop :=
  ∃ u a t, w = u ++ .call a :: t ∧ k + u.length = i ∧ firstPendingReturn t = none

theorem opens_cons :
    Opens k (x :: w) i ↔
      (∃ a, x = .call a) ∧ k = i ∧ w.firstPendingReturn = none ∨ Opens (k + 1) w i := by
  constructor
  case mp =>
    intro ⟨u, a, t, hw, hi, h⟩
    cases u with
    | nil      =>
      cases hw
      exact .inl ⟨⟨a, rfl⟩, hi, h⟩
    | cons y u =>
      cases hw
      exact .inr ⟨u, a, t, rfl, by simpa [Nat.add_assoc, Nat.add_comm 1] using hi, h⟩
  case mpr =>
    intro
    | .inl ⟨⟨a, hx⟩, hi, h⟩     => exact ⟨[], a, w, by simp [hx], hi, h⟩
    | .inr ⟨u, a, t, hw, hi, h⟩ => exact ⟨x :: u, a, t, by simp [hw], by simp; omega, h⟩

-- Of the calls that were open before a word, those stay open that lie deeper than its returns reach.
theorem mem_go_pendingCalls {opened : List Nat} :
    i ∈ pendingCalls.go opened k w ↔
      (∃ n, opened[n]? = some i ∧ returnBelow n w = none) ∨ Opens k w i := by
  induction w generalizing opened k with
  | nil => simp [pendingCalls.go, returnBelow, Opens, ← List.mem_iff_getElem?]
  | cons x w ih =>
    rw [opens_cons]
    cases x with
    | call a     =>
      rw [pendingCalls.go, ih, ← Nat.or_exists_add_one]
      simpa [returnBelow, firstPendingReturn, or_assoc] using or_left_comm
    | internal a => simp [pendingCalls.go, ih, returnBelow]
    | ret a      =>
      rw [← Nat.or_exists_add_one (p := fun n => opened[n]? = some i ∧ _)]
      simp [pendingCalls.go, ih, returnBelow]

theorem mem_pendingCalls_iff_opens : i ∈ w.pendingCalls ↔ Opens 0 w i := by
  simp [pendingCalls, mem_go_pendingCalls]

theorem opens_append : Opens k (v ++ w) (k + v.length + i) ↔ Opens 0 w i := by
  induction v generalizing k with
  | nil => simp [Opens]
  | cons x v ih =>
    have later : k + (x :: v).length + i = k + 1 + v.length + i := by simp; omega
    rw [List.cons_append, opens_cons, later, ih, or_iff_right]
    omega

theorem mem_pendingCalls_append : v.length + i ∈ (v ++ w).pendingCalls ↔ i ∈ w.pendingCalls := by
  simpa [mem_pendingCalls_iff_opens] using opens_append (k := 0)

theorem mem_pendingCalls_append_cons :
    v.length + 1 + i ∈ (v ++ x :: w).pendingCalls ↔ i ∈ w.pendingCalls := by
  simpa using mem_pendingCalls_append (v := v ++ [x])

theorem pairwise_go_pendingCalls {opened : List Nat} (h : opened.Pairwise (· > ·))
    (hk : ∀ j ∈ opened, j < k) : (pendingCalls.go opened k w).Pairwise (· < ·) := by
  induction w generalizing opened k with
  | nil => exact List.pairwise_reverse.mpr h
  | cons x w ih =>
    have later (j) (hj : j ∈ opened) : j < k + 1 := Nat.lt_succ_of_lt (hk j hj)
    cases x with
    | call     => exact ih (h.cons hk) (List.forall_mem_cons.mpr ⟨k.lt_succ_self, later⟩)
    | internal => exact ih h later
    | ret      => exact ih h.tail fun j hj => later j (List.mem_of_mem_tail hj)

theorem pairwise_pendingCalls : w.pendingCalls.Pairwise (· ≤ ·) :=
  (pairwise_go_pendingCalls .nil nofun).imp Nat.le_of_lt

section Ends

variable {l : List Nat} (h : l.Pairwise (· ≤ ·))
include h

theorem head?_eq_some_iff_isLeast : l.head? = some i ↔ IsLeast { j | j ∈ l } i := by
  have least {j} (hj : l.head? = some j) : IsLeast { j | j ∈ l } j :=
    ⟨List.mem_of_head? hj, fun k hk => List.head_of_mem_head? hj ▸ h.rel_head hk⟩
  constructor
  case mp  => exact least
  case mpr =>
    intro hi
    have first := List.head?_eq_some_head (List.ne_nil_of_mem hi.1)
    rw [first, (least first).unique hi]

theorem getLast?_eq_some_iff_isGreatest : l.getLast? = some i ↔ IsGreatest { j | j ∈ l } i := by
  have greatest {j} (hj : l.getLast? = some j) : IsGreatest { j | j ∈ l } j :=
    ⟨List.mem_of_getLast? hj, fun k hk => List.getLast_of_mem_getLast? hj ▸ h.rel_getLast hk⟩
  constructor
  case mp  => exact greatest
  case mpr =>
    intro hi
    have last := List.getLast?_eq_some_getLast (List.ne_nil_of_mem hi.1)
    rw [last, (greatest last).unique hi]

end Ends

theorem getLast?_pendingCalls_eq_some_iff :
    w.pendingCalls.getLast? = some i ↔ ∃ u a t, w = u ++ .call a :: t ∧ u.length = i ∧ Balanced t := by
  rw [getLast?_eq_some_iff_isGreatest pairwise_pendingCalls]
  constructor
  case mp =>
    intro ⟨hi, greatest⟩
    have ⟨u, a, t, hw, hu, ht⟩ := mem_pendingCalls_iff_opens.mp hi
    have closed : pendingCalls t = [] := List.eq_nil_iff_forall_not_mem.mpr fun j hj => by
      have := greatest (hw ▸ mem_pendingCalls_append_cons.mpr hj : u.length + 1 + j ∈ w.pendingCalls)
      omega
    exact ⟨u, a, t, hw, by simpa using hu, WellMatched.balanced ⟨ht, closed⟩⟩
  case mpr =>
    intro ⟨u, a, t, hw, hu, balanced⟩
    have ⟨ht, closed⟩ := balanced.wellMatched
    refine ⟨mem_pendingCalls_iff_opens.mpr ⟨u, a, t, hw, by simpa using hu, ht⟩, fun j hj => ?_⟩
    apply Nat.le_of_not_lt
    intro hlt
    obtain ⟨k, rfl⟩ := Nat.exists_eq_add_of_le hlt
    subst hw hu
    have inside := mem_pendingCalls_append_cons.mp hj
    exact List.not_mem_nil (closed ▸ inside)

end NestedAutomata.Word
