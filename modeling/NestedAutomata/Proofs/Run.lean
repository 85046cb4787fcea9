import Mathlib.Logic.Relation
import NestedAutomata.Automaton.Update
import NestedAutomata.Proofs.Word.Depth
import NestedAutomata.Run

namespace NestedAutomata.Automaton

open Relation

variable {ι : Type} {A : Automaton ι} {c d e : Configuration} {v w : Word} {x : Position} {p q : Key}
variable {s : List Key}

theorem ne_ε_of_reads {l a : Key} (hl : A.Reads l a) (ha : ¬a.Reserved) : l ≠ .ε := by
  rintro rfl
  cases hl with
  | inl hl => exact ha (.inl hl.symm)
  | inr hl => exact absurd hl.1 (by decide)

def Absorbing (A : Automaton ι) : Prop :=
  ∀ t ∈ A.transitions, ¬A.Leaves t

theorem Absorbing.isStuck (h : A.Absorbing) {t : Transition} (ht : t ∈ A.transitions)
    (hs : A.IsStuck t.origin) : A.IsStuck t.destination := by
  have := h t ht
  simp only [Leaves, not_and, Decidable.not_not] at this
  exact this hs

-- The states to which a path leads that reads nothing.
def Rests (A : Automaton ι) : Key → Key → Prop :=
  ReflTransGen fun p q => .internal ⟨p, .ε, q⟩ ∈ A.transitions

namespace Step

theorem internal_iff {a : Key} :
    A.Step ⟨p, s⟩ [.internal a] e ↔
      ∃ l q, .internal ⟨p, l, q⟩ ∈ A.transitions ∧ A.Reads l a ∧ e = ⟨q, s⟩ := by
  constructor
  case mp  => intro | .internal ht hl => exact ⟨_, _, ht, hl, rfl⟩
  case mpr => rintro ⟨_, _, ht, hl, rfl⟩; exact .internal ht hl

theorem call_iff {a : Key} :
    A.Step ⟨p, s⟩ [.call a] e ↔
      ∃ l q, .call ⟨p, l, q⟩ ∈ A.transitions ∧ A.Reads l a ∧ e = ⟨q, p :: s⟩ := by
  constructor
  case mp  => intro | .call ht hl => exact ⟨_, _, ht, hl, rfl⟩
  case mpr => rintro ⟨_, _, ht, hl, rfl⟩; exact .call ht hl

theorem ret_iff {a : Key} :
    A.Step ⟨p, s⟩ [.ret a] e ↔
      ∃ c s' l q, s = c :: s' ∧ .ret ⟨p, c, l, q⟩ ∈ A.transitions ∧ A.Reads l a ∧ e = ⟨q, s'⟩ := by
  constructor
  case mp  => intro | .ret ht hl => exact ⟨_, _, _, _, rfl, ht, hl, rfl⟩
  case mpr => rintro ⟨_, _, _, _, rfl, ht, hl, rfl⟩; exact .ret ht hl

theorem isStuck (h : A.Absorbing) (st : A.Step c v d) (hs : A.IsStuck c.state) :
    A.IsStuck d.state := by
  cases st with
  | rest ht | internal ht | call ht | ret ht => exact h.isStuck ht hs

theorem run (st : A.Step c v d) (hc : ¬A.IsStuck c.state) (hd : ¬A.IsStuck d.state) :
    A.Run c v d := by
  have := Run.cons hc st (.nil hd)
  rwa [List.append_nil] at this

theorem depth? (st : A.Step c v d) : Word.depth? c.calls.length v = some d.calls.length := by
  cases st <;> rfl

end Step

namespace Run

theorem not_isStuck (r : A.Run c w d) : ¬A.IsStuck c.state := by
  cases r <;> assumption

theorem not_isStuck_last (r : A.Run c w d) : ¬A.IsStuck d.state := by
  induction r with
  | nil h => exact h
  | cons _ _ _ ih => exact ih

theorem append (r₁ : A.Run c v d) (r₂ : A.Run d w e) : A.Run c (v ++ w) e := by
  induction r₁ with
  | nil => exact r₂
  | cons h st _ ih => exact List.append_assoc .. ▸ .cons h st (ih r₂)

theorem depth? (r : A.Run c w d) : Word.depth? c.calls.length w = some d.calls.length := by
  induction r with
  | nil => rfl
  | cons _ st _ ih => rw [Word.depth?_append, st.depth?, Option.bind_some, ih]

end Run

section Mono

variable {B : Automaton ι} (transitions : ∀ t ∈ A.transitions, t ∈ B.transitions)
include transitions

theorem Step.mono (alphabet : ∀ x ∈ v, x.symbol ∈ A.alphabet → x.symbol ∈ B.alphabet)
    (st : A.Step c v d) : B.Step c v d := by
  have reads {l a : Key} (ha : a ∈ A.alphabet → a ∈ B.alphabet) (h : A.Reads l a) : B.Reads l a :=
    h.imp_right fun ⟨hl, h⟩ => ⟨hl, ha h⟩
  cases st with
  | rest ht        => exact .rest (transitions _ ht)
  | internal ht hl => exact .internal (transitions _ ht) (reads (alphabet _ (.head _)) hl)
  | call ht hl     => exact .call (transitions _ ht) (reads (alphabet _ (.head _)) hl)
  | ret ht hl      => exact .ret (transitions _ ht) (reads (alphabet _ (.head _)) hl)

theorem Run.mono (alphabet : ∀ x ∈ w, x.symbol ∈ A.alphabet → x.symbol ∈ B.alphabet)
    (stuck : ∀ q, B.IsStuck q → A.IsStuck q) (r : A.Run c w d) : B.Run c w d := by
  induction r with
  | nil h          => exact .nil (mt (stuck _) h)
  | cons h st _ ih =>
    have ⟨first, rest⟩ := List.forall_mem_append.mp alphabet
    exact .cons (mt (stuck _) h) (st.mono transitions first) (ih rest)

end Mono

theorem run_congr {B : Automaton ι} (transitions : B.transitions = A.transitions)
    (alphabet : B.alphabet = A.alphabet) (stuck : ∀ q, B.IsStuck q ↔ A.IsStuck q) :
    B.Run c w e ↔ A.Run c w e := by
  constructor
  case mp  =>
    refine Run.mono (fun t ht => ?_) (fun _ _ ha => ?_) fun q => (stuck q).mpr
    · rwa [← transitions]
    · rwa [← alphabet]
  case mpr =>
    refine Run.mono (fun t ht => ?_) (fun _ _ ha => ?_) fun q => (stuck q).mp
    · rwa [transitions]
    · rwa [alphabet]

theorem Rests.run (path : A.Rests p q) (h : A.Absorbing) (hq : ¬A.IsStuck q) :
    A.Run ⟨p, s⟩ [] ⟨q, s⟩ := by
  induction path using ReflTransGen.head_induction_on with
  | refl => exact .nil hq
  | head ht _ r =>
    have st := Step.rest (s := s) ht
    exact .cons (mt (st.isStuck h) r.not_isStuck) st r

theorem run_nil_iff (h : A.Absorbing) :
    A.Run c [] d ↔ A.Rests c.state d.state ∧ ¬A.IsStuck d.state ∧ d.calls = c.calls := by
  constructor
  case mp =>
    intro r
    generalize hw : ([] : Word) = w at r
    induction r with
    | nil hc => exact ⟨.refl, hc, rfl⟩
    | cons hc st r ih =>
      cases st with
      | rest ht =>
        have ⟨path, hd, hs⟩ := ih hw
        exact ⟨.head ht path, hd, hs⟩
      | internal | call | ret => simp at hw
  case mpr =>
    intro ⟨path, hd, hs⟩
    obtain ⟨p, s⟩ := c
    obtain ⟨q, s'⟩ := d
    obtain rfl : s' = s := hs
    exact path.run h hd

theorem run_cons_iff :
    A.Run c (x :: w) e ↔ ∃ d d', A.Run c [] d ∧ A.Step d [x] d' ∧ A.Run d' w e := by
  constructor
  case mp =>
    intro r
    generalize hv : x :: w = v at r
    induction r with
    | nil => simp at hv
    | cons hc st r ih =>
      cases st with
      | rest ht =>
        have ⟨d, d', r', st', r''⟩ := ih hv
        exact ⟨d, d', .cons hc (.rest ht) r', st', r''⟩
      | internal ht hl | call ht hl | ret ht hl =>
        cases hv
        exact ⟨_, _, .nil hc, by constructor <;> assumption, r⟩
  case mpr =>
    intro ⟨d, d', r, st, r'⟩
    exact r.append (.cons r.not_isStuck_last st r')

theorem Accepts.wellMatched (h : A.Accepts w) : w.WellMatched := by
  have ⟨_, _, _, _, r⟩ := h
  exact Word.wellMatched_iff.mpr r.depth?

-- A run leads from an initial to a final state, whatever calls it leaves open.
def Arrives (A : Automaton ι) (w : Word) : Prop :=
  ∃ p ∈ A.states.initial, ∃ c, c.state ∈ A.states.final ∧ A.Run ⟨p, []⟩ w c

theorem Accepts.arrives (h : A.Accepts w) : A.Arrives w :=
  have ⟨p, hp, q, hq, r⟩ := h
  ⟨p, hp, ⟨q, []⟩, hq, r⟩

end NestedAutomata.Automaton
