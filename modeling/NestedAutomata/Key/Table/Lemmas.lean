import NestedAutomata.Key.Table

namespace NestedAutomata.KeyTable

variable {t : KeyTable} {r s : Shape} {k : Key}

theorem key?_eq_some_iff : t.key? s = some k ↔ t.shape? k = some s :=
  t.inverse s k

theorem mem_shapes : s ∈ t.shapes ↔ t.key? s ≠ none := by
  rw [List.mem_iff_getElem?, Option.ne_none_iff_exists']
  constructor
  case mp  => exact fun ⟨i, h⟩ => ⟨⟨i⟩, key?_eq_some_iff.mpr h⟩
  case mpr => exact fun ⟨k, h⟩ => ⟨k.index, key?_eq_some_iff.mp h⟩

theorem shape?_intern : (t.intern s).2.shape? (t.intern s).1 = some s := by
  simp only [intern]
  split
  case h_1 k h => exact key?_eq_some_iff.mp h
  case h_2     => simp [shape?, size]

theorem shapes_prefix_intern : t.shapes <+: (t.intern s).2.shapes := by
  simp only [intern]
  split
  case h_1 => exact List.prefix_rfl
  case h_2 => exact List.prefix_append ..

theorem shape?_of_grown {t' : KeyTable} (h : t.shapes <+: t'.shapes) (hk : t.shape? k = some r) :
    t'.shape? k = some r := by
  have ⟨l, hl⟩ := h
  have hi := (List.getElem?_eq_some_iff.mp hk).1
  rw [shape?, ← hl, List.getElem?_append_left hi]
  exact hk

theorem intern_of_shape? (h : t.shape? k = some s) : t.intern s = (k, t) := by
  have known : t.key? s = some k := key?_eq_some_iff.mpr h
  simp only [intern]
  split
  case h_1 j hj => rw [Option.some.inj (hj.symm.trans known)]
  case h_2 new  => rw [new] at known; cases known

theorem intern_of_key?_eq_none (h : t.key? s = none) :
    (t.intern s).1 = ⟨t.size⟩ ∧ (t.intern s).2.shapes = t.shapes ++ [s] := by
  simp only [intern]
  split
  case h_1 known => rw [h] at known; cases known
  case h_2       => exact ⟨rfl, rfl⟩

theorem shape?_intern_iff :
    (t.intern s).2.shape? k = some r ↔ t.shape? k = some r ∨ r = s ∧ k = (t.intern s).1 := by
  cases h : t.key? s with
  | some j =>
    have known := key?_eq_some_iff.mp h
    rw [intern_of_shape? known]
    exact (or_iff_left_of_imp fun ⟨hr, hk⟩ => hr ▸ hk ▸ known).symm
  | none =>
    have ⟨next, shapes⟩ := intern_of_key?_eq_none h
    rw [next, shape?, shape?, shapes, getElem?_concat_eq_some_iff, Key.ext_iff]
    rfl

end NestedAutomata.KeyTable
