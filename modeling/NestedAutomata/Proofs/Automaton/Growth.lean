import NestedAutomata.Proofs.Automaton.WellFormed
import NestedAutomata.Proofs.Run

namespace NestedAutomata.Automaton

inductive Growth {ι : Type} (A : Automaton ι) : Automaton ι → Prop
  | refl             : Growth A A
  | addState {B q}   : Growth A B → Growth A (B.addState q)
  | addInitial {B q} : Growth A B → Growth A (B.addInitial q)
  | addFinal {B q}   : Growth A B → Growth A (B.addFinal q)
  | setInfo {B q x}  : Growth A B → Growth A (B.setInfo q x)
  | addSymbols {B l} : Growth A B → Growth A (B.addSymbols l)
  | add {B t}        : Growth A B → Growth A (B.add t)

variable {ι α : Type} {A B C : Automaton ι} {q : Key} {l : List Key} {c d : Configuration} {w : Word}

theorem Absorbing.empty : (∅ : Automaton ι).Absorbing :=
  fun _ ht => absurd ht Transitions.not_mem_empty

theorem Absorbing.ofStuck : (ofStuck q : Automaton ι).Absorbing :=
  fun _ ht => absurd ht Transitions.not_mem_empty

theorem Absorbing.of_realized (h : ∀ q, ¬A.IsStuck q) : A.Absorbing :=
  fun t _ ht => h t.origin ht.1

theorem Absorbing.grow (h : A.Absorbing) (stuck : B.states.stuck = A.states.stuck)
    (new : ∀ t ∈ B.transitions, t ∈ A.transitions ∨ ¬A.Leaves t) : B.Absorbing := by
  intro t ht
  rw [leaves_congr stuck]
  exact (new t ht).elim (h t) id

theorem Absorbing.addFinal (h : A.Absorbing) : (A.addFinal q).Absorbing := by
  by_cases hq : A.IsStuck q
  case pos =>
    apply Absorbing.of_realized
    intro p hp
    rw [Automaton.addFinal, if_pos hq] at hp
    cases hp
  case neg =>
    rw [addFinal_of_not_isStuck hq]
    exact h.grow rfl fun _ => .inl

namespace Growth

theorem wellFormed (g : Growth A B) (h : A.WellFormed) : B.WellFormed := by
  induction g with
  | refl            => exact h
  | addState _ ih   => exact ih.addState
  | addInitial _ ih => exact ih.addInitial
  | addFinal _ ih   => exact ih.addFinal
  | setInfo _ ih    => exact ih.setInfo
  | addSymbols _ ih => exact ih.addSymbols
  | add _ ih        => exact ih.add

theorem absorbing (g : Growth A B) (h : A.Absorbing) : B.Absorbing := by
  induction g with
  | refl            => exact h
  | addState _ ih   => exact ih.grow rfl fun _ => .inl
  | addInitial _ ih => exact ih.grow rfl fun _ => .inl
  | addFinal _ ih   => exact ih.addFinal
  | setInfo _ ih    => exact ih.grow States.stuck_setInfo fun _ => .inl
  | addSymbols _ ih => exact ih.grow (by simp) (by simp +contextual)
  | add _ ih        =>
    exact ih.grow stuck_add fun _ hu => (mem_transitions_add.mp hu).imp_right fun ⟨e, _, hl⟩ => e ▸ hl

theorem mem_states (g : Growth A B) (h : q ∈ A.states) : q ∈ B.states := by
  induction g with
  | refl            => exact h
  | addState _ ih   => exact States.mem_add.mpr (.inr ih)
  | addInitial _ ih => exact States.mem_addInitial.mpr (.inr ih)
  | addFinal _ ih   => exact mem_states_addFinal.mpr (.inr ih)
  | setInfo _ ih    => exact States.mem_setInfo.mpr ih
  | addSymbols _ ih => rwa [states_addSymbols]
  | add _ ih        => exact mem_states_add.mpr (.inl ih)

theorem mem_transitions (g : Growth A B) {t : Transition} (h : t ∈ A.transitions) :
    t ∈ B.transitions := by
  induction g with
  | refl            => exact h
  | addFinal _ ih   => exact mem_transitions_addFinal ih
  | addSymbols _ ih => simpa using ih
  | add _ ih        => exact mem_transitions_add.mpr (.inl ih)
  | addState _ ih | addInitial _ ih | setInfo _ ih => exact ih

theorem trans (g₁ : Growth A B) (g₂ : Growth B C) : Growth A C := by
  induction g₂ with
  | refl            => exact g₁
  | addState _ ih   => exact ih.addState
  | addInitial _ ih => exact ih.addInitial
  | addFinal _ ih   => exact ih.addFinal
  | setInfo _ ih    => exact ih.setInfo
  | addSymbols _ ih => exact ih.addSymbols
  | add _ ih        => exact ih.add

theorem ite {p : Prop} [Decidable p] (g₁ : Growth A B) (g₂ : Growth A C) :
    Growth A (if p then B else C) := by
  split
  case isTrue  => exact g₁
  case isFalse => exact g₂

theorem elim {x? : Option ι} (g : Growth A B) : Growth A (x?.elim B (B.setInfo q)) := by
  cases x? with
  | none   => exact g
  | some _ => exact g.setInfo

theorem foldl {l : List α} {f : Automaton ι → α → Automaton ι} (g : Growth A B)
    (step : ∀ C a, Growth C (f C a)) : Growth A (l.foldl f B) :=
  List.foldlRecOn l f g fun _ g a _ => g.trans (step _ a)

theorem foldlM {σ : Type} {l : List α} {f : Automaton ι → α → StateM σ (Automaton ι)} {s : σ}
    (g : Growth A B) (step : ∀ C a s, Growth C (f C a s).1) : Growth A (l.foldlM f B s).1 := by
  induction l generalizing B s with
  | nil => exact g
  | cons a l ih => exact ih (g.trans (step B a s))

theorem addAll {ts : List Transition} (g : Growth A B) : Growth A (B.addAll ts) :=
  g.foldl fun _ _ => refl.add

theorem addInitials (g : Growth A B) : Growth A (B.addInitials l) :=
  g.foldl fun _ _ => refl.addInitial

theorem addFinals (g : Growth A B) : Growth A (B.addFinals l) :=
  g.foldl fun _ _ => refl.addFinal

end Growth

theorem Absorbing.addSymbols (h : A.Absorbing) : (A.addSymbols l).Absorbing :=
  (Growth.addSymbols .refl).absorbing h

theorem Run.addSymbols (r : A.Run c w d) : (A.addSymbols l).Run c w d :=
  r.mono (by simp) (fun _ _ ha => mem_alphabet_addSymbols.mpr (.inl ha)) (by simp [IsStuck])

theorem Accepts.addSymbols (h : A.Accepts w) : (A.addSymbols l).Accepts w := by
  have ⟨p, hp, q, hq, r⟩ := h
  refine ⟨p, ?_, q, ?_, r.addSymbols⟩
  · rwa [states_addSymbols]
  · rwa [states_addSymbols]

-- New symbols add words, as wild labels read them, but no words over the symbols that were there.
theorem accepts_of_addSymbols (h : (A.addSymbols l).Accepts w) (hw : ∀ x ∈ w, x.symbol ∈ A.alphabet) :
    A.Accepts w := by
  have ⟨p, hp, q, hq, r⟩ := h
  rw [states_addSymbols] at hp hq
  exact ⟨p, hp, q, hq, r.mono (by simp) (fun x hx _ => hw x hx) (by simp [IsStuck])⟩

end NestedAutomata.Automaton
