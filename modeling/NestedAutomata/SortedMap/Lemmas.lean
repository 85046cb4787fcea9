import NestedAutomata.SortedMap.Basic

namespace NestedAutomata.SortedMap

open Std

variable {κ ν : Type} [Ord κ] [TransOrd κ] [LawfulEqOrd κ] [DecidableEq κ]
variable {m n : SortedMap κ ν} {j k : κ} {v : ν}

omit [Ord κ] [TransOrd κ] [LawfulEqOrd κ] in
theorem lookup_cons {e : κ × ν} {l : List (κ × ν)} :
    (e :: l).lookup j = if j = e.1 then some e.2 else l.lookup j := by
  obtain ⟨i, u⟩ := e
  simp only [List.lookup_cons]
  split <;> simp_all

@[simp]
theorem find?_insert : (m.insert k v).find? j = if j = k then some v else m.find? j := by
  simp only [find?, insert]
  induction m.entries with
  | nil => exact lookup_cons
  | cons e l ih =>
    simp only [insertSorted]
    split
    case h_1 => exact lookup_cons
    case h_2 hc =>
      rw [lookup_cons, lookup_cons, ← LawfulEqOrd.eq_of_compare hc]
      by_cases hj : j = k <;> simp [hj]
    case h_3 hc =>
      have ne : e.1 ≠ k := fun he => by simp [he, ReflCmp.compare_self] at hc
      rw [lookup_cons, lookup_cons, ih]
      by_cases hj : j = e.1 <;> simp [hj, ne]

omit [TransOrd κ] [LawfulEqOrd κ] in
@[simp]
theorem find?_erase : (m.erase k).find? j = if j = k then none else m.find? j := by
  simp only [find?, erase]
  induction m.entries with
  | nil => simp
  | cons e l ih =>
    by_cases he : e.1 = k
    case pos =>
      rw [List.filter_cons_of_neg (by simpa using he), ih, lookup_cons, he]
      by_cases hj : j = k <;> simp [hj]
    case neg =>
      rw [List.filter_cons_of_pos (by simpa using he), lookup_cons, lookup_cons, ih]
      by_cases hj : j = e.1 <;> simp [hj, he]

omit [TransOrd κ] in
theorem mem_entries : (k, v) ∈ m.entries ↔ m.find? k = some v := by
  obtain ⟨l, h⟩ := m
  simp only [find?]
  induction l with
  | nil => simp
  | cons e l ih =>
    have ⟨he, hl⟩ := List.pairwise_cons.mp h
    rw [List.mem_cons, lookup_cons]
    by_cases hk : k = e.1
    case neg => simp [hk, ih hl, Prod.ext_iff]
    case pos =>
      have later : (k, v) ∉ l := fun hv => by simpa [hk, ReflCmp.compare_self] using he _ hv
      simp [hk ▸ later, hk, Prod.ext_iff, eq_comm]

theorem ext_find? (h : ∀ k, m.find? k = n.find? k) : m = n := by
  have nodup (m : SortedMap κ ν) : m.entries.Nodup :=
    m.ascending.imp fun h e => by simp [e, ReflCmp.compare_self] at h
  have perm : m.entries.Perm n.entries :=
    (List.perm_ext_iff_of_nodup (nodup m) (nodup n)).mpr fun (k, v) => by
      rw [mem_entries, mem_entries, h]
  have asymm (a b : κ × ν) (hab : compare a.1 b.1 = .lt) (hba : compare b.1 a.1 = .lt) : a = b :=
    (OrientedCmp.not_lt_of_lt hab hba).elim
  have := perm.eq_of_pairwise (fun a b _ _ => asymm a b) m.ascending n.ascending
  cases m; cases n
  simpa using this

end NestedAutomata.SortedMap
