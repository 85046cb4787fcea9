namespace NestedAutomata

-- What is pending in a state of the loop, and how the first of it is explored while the rest stays pending.
structure Worklist (σ α : Type) where
  pending : σ → List α
  explore : (first : α) → (rest : List α) → σ → σ

namespace Worklist

variable {σ α : Type}

inductive Pops (W : Worklist σ α) : List α → σ → σ → Prop
  | nil {s} :
    Pops W [] s s
  | cons {a rest l s t} :
    W.pending s = a :: rest → Pops W l (W.explore a rest s) t → Pops W (a :: l) s t

def drain (W : Worklist σ α) : (fuel : Nat) → σ → σ
  | 0, s        => s
  | fuel + 1, s =>
    match W.pending s with
    | []        => s
    | a :: rest => W.drain fuel (W.explore a rest s)

variable {W : Worklist σ α} {a : α} {k l rest : List α} {s t : σ} {fuel : Nat}

namespace Pops

theorem concat (h : W.Pops l s t) (last : W.pending t = a :: rest) :
    W.Pops (l ++ [a]) s (W.explore a rest t) := by
  induction h with
  | nil             => exact .cons last .nil
  | cons first _ ih => exact .cons first (ih last)

-- What holds at the start and is preserved by each pop holds all the time, also if it is about what was
-- taken so far.
theorem induction {motive : List α → σ → Prop}
    (step : ∀ k s a rest, motive k s → W.pending s = a :: rest → motive (k ++ [a]) (W.explore a rest s))
    (h : W.Pops l s t) (start : motive k s) : motive (k ++ l) t := by
  induction h generalizing k with
  | nil                        => rwa [List.append_nil]
  | @cons a rest l s _ first _ ih =>
    have rest := ih (step k s a rest start first)
    rwa [List.append_assoc, List.singleton_append] at rest

end Pops

theorem exists_pops_drain :
    ∃ l, W.Pops l s (W.drain fuel s) ∧ (l.length = fuel ∨ W.pending (W.drain fuel s) = []) := by
  induction fuel generalizing s with
  | zero => exact ⟨[], .nil, .inl rfl⟩
  | succ fuel ih =>
    rw [drain]
    split
    case h_1 done         => exact ⟨[], .nil, .inr done⟩
    case h_2 a rest first =>
      have ⟨l, pops, ends⟩ := @ih (W.explore a rest s)
      exact ⟨a :: l, .cons first pops, ends.imp_left fun hl => by rw [List.length_cons, hl]⟩

theorem exists_finished_drain (bound : ∀ l t, W.Pops l s t → l.length ≤ fuel) :
    ∃ l, W.Pops l s (W.drain fuel s) ∧ W.pending (W.drain fuel s) = [] := by
  have ⟨l, pops, ends⟩ := @exists_pops_drain σ α W s fuel
  refine ⟨l, pops, ends.elim (fun hl => ?_) id⟩
  cases last : W.pending (W.drain fuel s) with
  | nil         => rfl
  | cons a rest =>
    have := bound _ _ (pops.concat last)
    rw [List.length_append, hl] at this
    exact absurd this (Nat.not_succ_le_self fuel)

end Worklist

end NestedAutomata
