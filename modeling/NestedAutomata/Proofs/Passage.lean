import NestedAutomata.Proofs.Run

namespace NestedAutomata.Automaton

open Relation

-- What a search of all runs follows. It may rest on a path through the stuck state, but does not read
-- there. Where the stuck state is never left this makes no difference, as no such path leads out again.
inductive Passes {ι : Type} (A : Automaton ι) : Configuration → Word → Configuration → Prop
  | nil {c} :
    Passes A c [] c
  | rest {c d e w} :
    A.Step c [] d → Passes A d w e → Passes A c w e
  | read {c d e x w} :
    ¬A.IsStuck c.state → A.Step c [x] d → Passes A d w e → Passes A c (x :: w) e

variable {ι : Type} {A B : Automaton ι} {c d e : Configuration} {w : Word} {x : Position} {p q : Key}
variable {s : List Key}

theorem Rests.passes (path : A.Rests p q) : A.Passes ⟨p, s⟩ [] ⟨q, s⟩ := by
  induction path using ReflTransGen.head_induction_on with
  | refl => exact .nil
  | head ht _ r => exact .rest (.rest ht) r

theorem passes_nil_iff : A.Passes c [] d ↔ A.Rests c.state d.state ∧ d.calls = c.calls := by
  constructor
  case mp =>
    intro h
    generalize hw : ([] : Word) = w at h
    induction h with
    | nil => exact ⟨.refl, rfl⟩
    | rest st _ ih =>
      have ⟨path, hs⟩ := ih hw
      cases st with
      | rest ht => exact ⟨.head ht path, hs⟩
    | read => cases hw
  case mpr =>
    intro ⟨path, hs⟩
    obtain ⟨p, s⟩ := c
    obtain ⟨q, s'⟩ := d
    obtain rfl : s' = s := hs
    exact path.passes

theorem passes_cons_iff :
    A.Passes c (x :: w) e ↔
      ∃ d d', (A.Passes c [] d ∧ ¬A.IsStuck d.state) ∧ A.Step d [x] d' ∧ A.Passes d' w e := by
  constructor
  case mp =>
    intro h
    generalize hv : x :: w = v at h
    induction h with
    | nil => cases hv
    | rest st _ ih =>
      have ⟨d, d', ⟨first, hd⟩, st', last⟩ := ih hv
      exact ⟨d, d', ⟨.rest st first, hd⟩, st', last⟩
    | read hc st h =>
      cases hv
      exact ⟨_, _, ⟨.nil, hc⟩, st, h⟩
  case mpr =>
    intro ⟨d, d', ⟨first, hd⟩, st, last⟩
    generalize hv : ([] : Word) = v at first
    induction first with
    | nil => exact .read hd st last
    | rest st' _ ih => exact .rest st' (ih hd st hv)
    | read => cases hv

namespace Passes

theorem depth? (h : A.Passes c w d) : Word.depth? c.calls.length w = some d.calls.length := by
  induction h with
  | nil => rfl
  | rest st _ ih =>
    cases st with
    | rest => exact ih
  | read _ st _ ih =>
    rw [Word.depth?_cons, st.depth?, Option.bind_some, ih]

theorem mono (transitions : ∀ t ∈ A.transitions, t ∈ B.transitions)
    (alphabet : ∀ x ∈ w, x.symbol ∈ A.alphabet → x.symbol ∈ B.alphabet)
    (stuck : ∀ q, B.IsStuck q → A.IsStuck q) (h : A.Passes c w d) : B.Passes c w d := by
  induction h with
  | nil => exact .nil
  | rest st _ ih => exact .rest (st.mono transitions nofun) (ih alphabet)
  | read hc st _ ih =>
    have ⟨hx, hw⟩ := List.forall_mem_cons.mp alphabet
    exact .read (mt (stuck _) hc) (st.mono transitions (List.forall_mem_singleton.mpr hx)) (ih hw)

theorem run (h : A.Passes c w d) (abs : A.Absorbing) (hd : ¬A.IsStuck d.state) : A.Run c w d := by
  induction h with
  | nil => exact .nil hd
  | rest st _ ih =>
    have r := ih hd
    exact .cons (mt (st.isStuck abs) r.not_isStuck) st r
  | read hc st _ ih => exact .cons hc st (ih hd)

end Passes

theorem Run.passes (r : A.Run c w d) : A.Passes c w d := by
  induction r with
  | nil => exact .nil
  | cons hc st _ ih =>
    cases st with
    | rest ht => exact .rest (.rest ht) ih
    | internal ht hl | call ht hl | ret ht hl => exact .read hc (by constructor <;> assumption) ih

theorem Absorbing.passes_iff_run (abs : A.Absorbing) :
    A.Passes c w d ∧ ¬A.IsStuck d.state ↔ A.Run c w d := by
  constructor
  case mp  => exact fun ⟨h, hd⟩ => h.run abs hd
  case mpr => exact fun r => ⟨r.passes, r.not_isStuck_last⟩

end NestedAutomata.Automaton
