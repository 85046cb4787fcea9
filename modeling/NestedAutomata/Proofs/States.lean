import NestedAutomata.SortedSet.Lemmas
import NestedAutomata.States.Basic

namespace NestedAutomata.States

variable {ι : Type} {qs rs : States ι} {p q : Key} {l : List Key} {x : ι}

@[simp]
theorem mem_members : q ∈ qs.members ↔ q ∈ qs :=
  .rfl

theorem IsStuck.unique (hp : qs.IsStuck p) (hq : qs.IsStuck q) : p = q :=
  Stuck.designated.inj (hp.symm.trans hq)

section Changes

@[simp]
theorem mem_add : p ∈ qs.add q ↔ p = q ∨ p ∈ qs :=
  SortedSet.mem_insert

@[simp]
theorem mem_addAll : p ∈ qs.addAll l ↔ p ∈ l ∨ p ∈ qs := by
  induction l generalizing qs with
  | nil => simp [addAll]
  | cons q l ih =>
    simp only [addAll, List.foldl_cons] at ih ⊢
    simp [ih, or_left_comm, or_assoc]

theorem addAll_eq : qs.addAll l = { qs with members := (qs.addAll l).members } := by
  induction l generalizing qs with
  | nil => rfl
  | cons q l ih => exact ih

@[simp]
theorem initial_addAll : (qs.addAll l).initial = qs.initial := by
  rw [addAll_eq]

@[simp]
theorem final_addAll : (qs.addAll l).final = qs.final := by
  rw [addAll_eq]

@[simp]
theorem stuck_addAll : (qs.addAll l).stuck = qs.stuck := by
  rw [addAll_eq]

@[simp]
theorem mem_addInitial : p ∈ qs.addInitial q ↔ p = q ∨ p ∈ qs :=
  mem_add

@[simp]
theorem mem_addFinal : p ∈ qs.addFinal q ↔ p = q ∨ p ∈ qs :=
  mem_add

@[simp]
theorem mem_setInfo : p ∈ qs.setInfo q x ↔ p ∈ qs := by
  simp only [setInfo]
  split <;> rfl

@[simp]
theorem initial_setInfo : (qs.setInfo q x).initial = qs.initial := by
  simp only [setInfo]
  split <;> rfl

@[simp]
theorem final_setInfo : (qs.setInfo q x).final = qs.final := by
  simp only [setInfo]
  split <;> rfl

@[simp]
theorem stuck_setInfo : (qs.setInfo q x).stuck = qs.stuck := by
  simp only [setInfo]
  split <;> rfl

theorem mem_remove : p ∈ qs.remove q ↔ p ∈ qs ∧ (p ≠ q ∨ qs.IsStuck q) := by
  simp only [remove]
  split
  case isTrue h  => simp [h]
  case isFalse h => simp [h, ← mem_members]

theorem foldl_addInitial :
    (l.foldl addInitial qs).final = qs.final ∧ (l.foldl addInitial qs).stuck = qs.stuck ∧
      ∀ q, q ∈ (l.foldl addInitial qs).initial ↔ q ∈ qs.initial ∨ q ∈ l := by
  induction l generalizing qs with
  | nil => simp
  | cons p l ih =>
    have ⟨final, stuck, initial⟩ := @ih (qs.addInitial p)
    refine ⟨final, stuck, fun q => (initial q).trans ?_⟩
    simp [addInitial, or_assoc, or_left_comm, or_comm]

theorem foldl_addFinal :
    (l.foldl addFinal qs).initial = qs.initial ∧ (l.foldl addFinal qs).stuck = qs.stuck ∧
      ∀ q, q ∈ (l.foldl addFinal qs).final ↔ q ∈ qs.final ∨ q ∈ l := by
  induction l generalizing qs with
  | nil => simp
  | cons p l ih =>
    have ⟨initial, stuck, final⟩ := @ih (qs.addFinal p)
    refine ⟨initial, stuck, fun q => (final q).trans ?_⟩
    simp [addFinal, or_assoc, or_left_comm, or_comm]

theorem mem_foldl_addFinal : q ∈ l.foldl addFinal qs ↔ q ∈ l ∨ q ∈ qs := by
  induction l generalizing qs with
  | nil => simp
  | cons p l ih => rw [List.foldl_cons, ih, mem_addFinal, List.mem_cons, or_left_comm, or_assoc]

theorem mem_of_designate (h : qs.designate q = .ok rs) (hp : p ∈ qs) : p ∈ rs := by
  unfold designate at h
  split at h
  case isTrue => cases h
  case isFalse =>
    split at h
    case isTrue  => cases h
    case isFalse => cases h; exact mem_add.mpr (.inr hp)

end Changes

structure WellFormed (qs : States ι) : Prop where
  initial   : ∀ q ∈ qs.initial, q ∈ qs
  final     : ∀ q ∈ qs.final, q ∈ qs
  info      : ∀ e ∈ qs.info, e.1 ∈ qs
  stuck     : ∀ q, qs.IsStuck q → q ∈ qs
  not_final : ∀ q, qs.IsStuck q → q ∉ qs.final

namespace WellFormed

theorem empty : (∅ : States ι).WellFormed where
  initial   := fun _ h => (SortedSet.not_mem_empty h).elim
  final     := fun _ h => (SortedSet.not_mem_empty h).elim
  info      := fun _ h => (List.not_mem_nil h).elim
  stuck     := fun _ h => nomatch h
  not_final := fun _ h => nomatch h

theorem ofStuck : (States.ofStuck (ι := ι) q).WellFormed where
  initial   := fun _ h => (SortedSet.not_mem_empty h).elim
  final     := fun _ h => (SortedSet.not_mem_empty h).elim
  info      := fun _ h => (List.not_mem_nil h).elim
  stuck     := fun _ h => SortedSet.mem_singleton.mpr (Stuck.designated.inj h).symm
  not_final := fun _ _ => SortedSet.not_mem_empty

theorem grow (h : qs.WellFormed) (sub : ∀ q ∈ qs, q ∈ rs) (stuck : rs.stuck = qs.stuck)
    (initial : ∀ q ∈ rs.initial, q ∈ qs.initial ∨ q ∈ rs)
    (final : ∀ q ∈ rs.final, q ∈ qs.final ∨ q ∈ rs ∧ ¬qs.IsStuck q)
    (info : ∀ e ∈ rs.info, e ∈ qs.info ∨ e.1 ∈ rs) : rs.WellFormed where
  initial q hq   := (initial q hq).elim (sub q <| h.initial q ·) id
  final q hq     := (final q hq).elim (sub q <| h.final q ·) And.left
  info e he      := (info e he).elim (sub e.1 <| h.info e ·) id
  stuck q hq     := sub q (h.stuck q (stuck.symm.trans hq))
  not_final q hq := by
    have hq : qs.IsStuck q := stuck.symm.trans hq
    intro hf
    cases final q hf with
    | inl hf => exact h.not_final q hq hf
    | inr hf => exact hf.2 hq

theorem shrink (h : qs.WellFormed) (members : rs.members = qs.members) (stuck : rs.stuck = qs.stuck)
    (initial : ∀ q ∈ rs.initial, q ∈ qs.initial) (final : ∀ q ∈ rs.final, q ∈ qs.final)
    (info : ∀ e ∈ rs.info, e ∈ qs.info) : rs.WellFormed :=
  have same : ∀ q, q ∈ qs → q ∈ rs := fun _ hq => (members ▸ hq : _ ∈ rs.members)
  h.grow same stuck (.inl <| initial · ·) (.inl <| final · ·) (.inl <| info · ·)

theorem add (h : qs.WellFormed) : (qs.add q).WellFormed := by
  apply h.grow <;> simp +contextual [States.add, ← mem_members]

theorem addAll (h : qs.WellFormed) : (qs.addAll l).WellFormed :=
  List.foldlRecOn l _ h fun _ h _ _ => h.add

theorem addInitial (h : qs.WellFormed) : (qs.addInitial q).WellFormed := by
  apply h.grow <;> simp +contextual [States.addInitial, States.add, ← mem_members]

theorem addFinal (h : qs.WellFormed) (hq : ¬qs.IsStuck q) : (qs.addFinal q).WellFormed := by
  apply h.grow <;> simp +contextual [States.addFinal, States.add, ← mem_members, hq]

theorem setInfo (h : qs.WellFormed) : (qs.setInfo q x).WellFormed := by
  simp only [States.setInfo]
  split
  case isTrue hq =>
    apply h.grow <;> simp +contextual [← mem_members]
    exact .inr hq
  case isFalse => exact h

theorem removeInitial (h : qs.WellFormed) : (qs.removeInitial q).WellFormed := by
  apply h.shrink <;> simp +contextual [States.removeInitial]

theorem clearInitial (h : qs.WellFormed) : qs.clearInitial.WellFormed := by
  apply h.shrink <;> simp [States.clearInitial]

theorem removeFinal (h : qs.WellFormed) : (qs.removeFinal q).WellFormed := by
  apply h.shrink <;> simp +contextual [States.removeFinal]

theorem clearFinal (h : qs.WellFormed) : qs.clearFinal.WellFormed := by
  apply h.shrink <;> simp [States.clearFinal]

theorem realize (h : qs.WellFormed) : { qs with stuck := .realized }.WellFormed where
  initial   := h.initial
  final     := h.final
  info      := h.info
  stuck     := fun _ h => nomatch h
  not_final := fun _ h => nomatch h

theorem designate (h : qs.WellFormed) (hr : qs.designate q = .ok rs) : rs.WellFormed := by
  unfold States.designate at hr
  split at hr
  case isTrue => cases hr
  case isFalse =>
    split at hr
    case isTrue => cases hr
    case isFalse hq =>
      cases hr
      have mem {p : Key} (hp : p ∈ qs) : p ∈ qs.add q := mem_add.mpr (.inr hp)
      exact {
        initial   := fun p hp => mem (h.initial p hp)
        final     := fun p hp => mem (h.final p hp)
        info      := fun e he => mem (h.info e he)
        stuck     := fun p hp => mem_add.mpr (.inl (Stuck.designated.inj hp).symm)
        not_final := fun p hp hf => hq (Stuck.designated.inj hp ▸ h.final p hf)
      }

theorem remove (h : qs.WellFormed) : (qs.remove q).WellFormed := by
  simp only [States.remove]
  split
  case isTrue => exact h
  case isFalse hq =>
    have mem {p : Key} (hp : p ∈ qs) (hpq : p ≠ q) : p ∈ qs.members.erase q :=
      SortedSet.mem_erase.mpr ⟨hp, hpq⟩
    have ne {p : Key} (hp : qs.IsStuck p) : p ≠ q := fun e => hq (e ▸ hp)
    exact {
      initial   := fun p hp =>
        have ⟨hp, hpq⟩ := SortedSet.mem_erase.mp hp
        mem (h.initial p hp) hpq
      final     := fun p hp =>
        have ⟨hp, hpq⟩ := SortedSet.mem_erase.mp hp
        mem (h.final p hp) hpq
      info      := fun e he =>
        have ⟨he, heq⟩ := List.mem_filter.mp he
        mem (h.info e he) (of_decide_eq_true heq)
      stuck     := fun p hp => mem (h.stuck p hp) (ne hp)
      not_final := fun p hp hf => h.not_final p hp (SortedSet.mem_erase.mp hf).1
    }

theorem clear : qs.clear.WellFormed := by
  simp only [States.clear]
  split
  case h_1 => exact ofStuck
  case h_2 mode hm =>
    exact { empty with stuck := fun q hq => (hm q hq).elim, not_final := fun q hq => (hm q hq).elim }

end WellFormed

end NestedAutomata.States
