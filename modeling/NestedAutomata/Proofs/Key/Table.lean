import Mathlib.Data.List.Nodup
import Mathlib.Data.List.Perm.Subperm
import NestedAutomata.Key.Table.Lemmas

namespace NestedAutomata.KeyTable

variable {t t' : KeyTable} {k : Key} {s : Shape} {text : String} {n : Nat}

def tilded : (tildes : Nat) → String → String
  | 0, text     => text
  | n + 1, text => tilded n (text ++ "~")

theorem length_tilded : (tilded n text).length = text.length + n := by
  induction n generalizing text with
  | zero => rfl
  | succ n ih =>
    rw [tilded, ih, String.length_append]
    exact (Nat.add_assoc ..).trans (congrArg _ (Nat.add_comm ..))

theorem unused_spec (t : KeyTable) (bound : Nat) (text : String) : ∃ n ≤ bound,
    t.unused bound text = tilded n text ∧ (∀ m < n, t.find? (tilded m text) ≠ none) ∧
    (n < bound → t.find? (tilded n text) = none) := by
  induction bound generalizing text with
  | zero => exact ⟨0, Nat.le_refl 0, rfl, nofun, nofun⟩
  | succ bound ih =>
    rw [unused]
    split
    case isFalse free =>
      exact ⟨0, Nat.zero_le _, rfl, nofun, fun _ => Option.not_isSome_iff_eq_none.mp free⟩
    case isTrue taken =>
      have ⟨n, le, eq, used, free⟩ := ih (text ++ "~")
      refine ⟨n + 1, Nat.succ_le_succ le, eq, ?_, fun lt => free (Nat.lt_of_succ_lt_succ lt)⟩
      rintro (_ | m) hm
      · exact Option.isSome_iff_ne_none.mp taken
      · exact used m (Nat.lt_of_succ_lt_succ hm)

theorem exists_find?_tilded (t : KeyTable) (text : String) :
    ∃ n ≤ t.size, t.find? (tilded n text) = none := by
  let names := (List.range (t.size + 1)).map fun n => Shape.name (tilded n text)
  have nodup : names.Nodup := by
    refine List.nodup_range.map fun m n same => ?_
    have := congrArg String.length (Shape.name.inj same)
    simpa only [length_tilded, Nat.add_left_cancel_iff] using this
  apply Decidable.byContradiction
  intro taken
  have sub : names ⊆ t.shapes := by
    intro s hs
    have ⟨n, hn, hs⟩ := List.mem_map.mp hs
    have le := Nat.le_of_lt_succ (List.mem_range.mp hn)
    exact hs ▸ mem_shapes.mpr fun free => taken ⟨n, le, free⟩
  have := (List.subperm_of_subset nodup sub).length_le
  simp only [names, List.length_map, List.length_range, size] at this
  exact absurd this (Nat.not_succ_le_self _)

theorem unused_eq (t : KeyTable) (text : String) : ∃ n,
    t.unused t.size text = tilded n text ∧ t.find? (tilded n text) = none ∧
    ∀ m < n, t.find? (tilded m text) ≠ none := by
  have ⟨n, le, eq, used, free⟩ := t.unused_spec t.size text
  refine ⟨n, eq, ?_, used⟩
  have ⟨m, hm, free'⟩ := t.exists_find?_tilded text
  cases Nat.lt_or_ge m n with
  | inl lt => exact absurd free' (used m lt)
  | inr ge =>
    cases Nat.lt_or_eq_of_le le with
    | inl lt => exact free lt
    | inr e  => exact Nat.le_antisymm (e ▸ hm) ge ▸ free'

theorem shape?_fst_fresh : t.shape? (t.fresh text).1 = none := by
  have ⟨n, eq, free, _⟩ := t.unused_eq text
  rw [fresh, name, eq, (intern_of_key?_eq_none free).1]
  simp [shape?, size]

theorem exists_name_fresh (t : KeyTable) (text : String) :
    ∃ name, (t.fresh text).2.shape? (t.fresh text).1 = some (.name name) :=
  ⟨_, shape?_intern⟩

theorem key?_ne_of_name {name : String} (h : t.shape? k = some (.name name))
    (grown : t.shapes <+: t'.shapes) (hs : ∀ name, s ≠ .name name) : t'.key? s ≠ some k := by
  intro hk
  have := (shape?_of_grown grown h).symm.trans (key?_eq_some_iff.mp hk)
  exact hs name (Option.some.inj this).symm

end NestedAutomata.KeyTable
