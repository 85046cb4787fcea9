import NestedAutomata.Proofs.Automaton.WellFormed
import NestedAutomata.Proofs.Run

namespace NestedAutomata.Automaton

-- Runs that start and end on the same level of nesting.
inductive Level {ι : Type} (A : Automaton ι) : Key → Word → Key → Prop
  | nil {q} :
    ¬A.IsStuck q → Level A q [] q
  | rest {p q r w} :
    Level A p w q → .internal ⟨q, .ε, r⟩ ∈ A.transitions → ¬A.IsStuck r → Level A p w r
  | internal {p q r l a w} :
    Level A p w q → .internal ⟨q, l, r⟩ ∈ A.transitions → A.Reads l a → ¬A.IsStuck r →
      Level A p (w ++ [.internal a]) r
  | nested {p q e x r l m a b v w} :
    Level A p w q → .call ⟨q, l, e⟩ ∈ A.transitions → A.Reads l a → Level A e v x →
      .ret ⟨x, q, m, r⟩ ∈ A.transitions → A.Reads m b → ¬A.IsStuck r →
        Level A p (w ++ .call a :: v ++ [.ret b]) r

-- One level below each of the open calls.
inductive Levels {ι : Type} (A : Automaton ι) (p : Key) : Word → Configuration → Prop
  | base {q w} :
    A.Level p w q → Levels A p w ⟨q, []⟩
  | call {c e q l a s v w} :
    Levels A p w ⟨c, s⟩ → .call ⟨c, l, e⟩ ∈ A.transitions → A.Reads l a → A.Level e v q →
      Levels A p (w ++ .call a :: v) ⟨q, c :: s⟩

variable {ι : Type} {A : Automaton ι} {c d : Configuration} {v w : Word} {p q r : Key} {s : List Key}

namespace Level

theorem not_isStuck (h : A.Level p w q) : ¬A.IsStuck p ∧ ¬A.IsStuck q := by
  induction h with
  | nil hq                         => exact ⟨hq, hq⟩
  | rest _ _ hr ih                 => exact ⟨ih.1, hr⟩
  | internal _ _ _ hr ih           => exact ⟨ih.1, hr⟩
  | nested _ _ _ _ _ _ hr ih _     => exact ⟨ih.1, hr⟩

theorem mem_ordinary (h : A.Level p w q) (hA : A.WellFormed) (hp : p ∈ A.states) : q ∈ A.ordinary := by
  refine Automaton.mem_ordinary.mpr ⟨?_, h.not_isStuck.2⟩
  cases h with
  | nil               => exact hp
  | rest _ ht         => exact hA.destination ht
  | internal _ ht     => exact hA.destination ht
  | nested _ _ _ _ ht => exact hA.destination ht

theorem run (h : A.Level p w q) : A.Run ⟨p, s⟩ w ⟨q, s⟩ := by
  induction h generalizing s with
  | nil hq                => exact .nil hq
  | rest _ ht hr ih       =>
    have := (ih (s := s)).append ((Step.rest ht).run ih.not_isStuck_last hr)
    rwa [List.append_nil] at this
  | internal _ ht hl hr ih => exact ih.append ((Step.internal ht hl).run ih.not_isStuck_last hr)
  | @nested p q e x r _ _ a b v w _ hc ha _ ht hb hr ih ih' =>
    have outer : A.Run ⟨p, s⟩ w ⟨q, s⟩ := ih
    have inner : A.Run ⟨e, q :: s⟩ v ⟨x, q :: s⟩ := ih'
    have call := (Step.call (s := s) hc ha).run outer.not_isStuck_last inner.not_isStuck
    have ret := (Step.ret (s := s) ht hb).run inner.not_isStuck_last hr
    have := ((outer.append call).append inner).append ret
    simpa using this

end Level

namespace Levels

theorem extend (h : A.Levels p w ⟨q, s⟩) (step : ∀ o u, A.Level o u q → A.Level o (u ++ v) r) :
    A.Levels p (w ++ v) ⟨r, s⟩ := by
  cases h with
  | base h           => exact .base (step _ _ h)
  | call h ht hl top =>
    rw [List.append_assoc, List.cons_append]
    exact .call h ht hl (step _ _ top)

theorem step (h : A.Levels p w c) (st : A.Step c v d) (hd : ¬A.IsStuck d.state) :
    A.Levels p (w ++ v) d := by
  cases st with
  | rest ht        => exact h.extend fun o u hu => by simpa using hu.rest ht hd
  | internal ht hl => exact h.extend fun o u hu => hu.internal ht hl hd
  | call ht hl     => exact .call h ht hl (.nil hd)
  | ret ht hb      =>
    cases h with
    | call h hc ha top =>
      rw [List.append_assoc]
      exact h.extend fun o u hu => by simpa using hu.nested hc ha top ht hb hd

theorem run (h : A.Levels p v c) (r : A.Run c w d) : A.Levels p (v ++ w) d := by
  induction r generalizing v with
  | nil => simpa using h
  | cons _ st r ih =>
    rw [← List.append_assoc]
    exact ih (h.step st r.not_isStuck)

end Levels

theorem run_iff_level : A.Run ⟨p, []⟩ w ⟨q, []⟩ ↔ A.Level p w q := by
  constructor
  case mpr => exact Level.run
  case mp  =>
    intro r
    have start : A.Levels p [] ⟨p, []⟩ := .base (.nil r.not_isStuck)
    cases start.run r with
    | base h => exact h

theorem accepts_iff_level :
    A.Accepts w ↔ ∃ p ∈ A.states.initial, ∃ q ∈ A.states.final, A.Level p w q := by
  simp only [Accepts, run_iff_level]

theorem Level.append (h : A.Level p v q) (h' : A.Level q w r) : A.Level p (v ++ w) r :=
  run_iff_level.mp (h.run.append h'.run)

end NestedAutomata.Automaton
