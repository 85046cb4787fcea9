import NestedAutomata.Automaton.Adjacency
import NestedAutomata.Proofs.Obtained
import NestedAutomata.Proofs.Transitions.Lookup

namespace NestedAutomata.Automaton

variable {ι : Type} {A : Automaton ι} {p q a : Key}

def labelsBetween (A : Automaton ι) (p q : Key) : List Key :=
  ((A.transitions.internalsFrom p).filter (·.target = q)).map (·.symbol) ++
  ((A.transitions.callsFrom p).filter (·.entry = q)).map (·.symbol) ++
  ((A.transitions.returnsFrom p).filter (·.returnSite = q)).map (·.symbol)

theorem symbolBetween_eq : A.symbolBetween p q = (A.labelsBetween p q).head? :=
  rfl

theorem mem_labelsBetween :
    a ∈ A.labelsBetween p q ↔ ∃ t ∈ A.transitions, t.origin = p ∧ t.destination = q ∧ t.label = a := by
  simp only [labelsBetween, List.mem_append, List.mem_map, List.mem_filter, decide_eq_true_eq,
    Transitions.mem_internalsFrom, Transitions.mem_callsFrom, Transitions.mem_returnsFrom]
  constructor
  case mp =>
    rintro ((⟨t, ⟨⟨ht, hp⟩, hq⟩, ha⟩ | ⟨t, ⟨⟨ht, hp⟩, hq⟩, ha⟩) | ⟨t, ⟨⟨ht, hp⟩, hq⟩, ha⟩)
    all_goals exact ⟨_, ht, hp, hq, ha⟩
  case mpr =>
    rintro ⟨t | t | t, ht, hp, hq, ha⟩
    · exact .inl (.inl ⟨t, ⟨⟨ht, hp⟩, hq⟩, ha⟩)
    · exact .inl (.inr ⟨t, ⟨⟨ht, hp⟩, hq⟩, ha⟩)
    · exact .inr ⟨t, ⟨⟨ht, hp⟩, hq⟩, ha⟩

theorem exists_symbolBetween_iff :
    (∃ a, A.symbolBetween p q = some a) ↔ ∃ t ∈ A.transitions, t.origin = p ∧ t.destination = q := by
  rw [symbolBetween_eq, ← Option.ne_none_iff_exists', ne_eq, List.head?_eq_none_iff,
    List.eq_nil_iff_forall_not_mem]
  simp only [mem_labelsBetween, not_forall, not_not]
  constructor
  case mp  => exact fun ⟨_, t, ht, hp, hq, _⟩ => ⟨t, ht, hp, hq⟩
  case mpr => exact fun ⟨t, ht, hp, hq⟩ => ⟨_, t, ht, hp, hq, rfl⟩

theorem asks_connects_iff {t : Transition} :
    (Transitions.Check.connects p a q).asks t ↔
      (t.origin = p ∧ t.destination = q ∧ t.label = a) ∨ ∃ x, t = .ret ⟨x, p, a, q⟩ := by
  cases t <;>
    simp only [Transitions.Check.asks, Transition.origin, Transition.destination, Transition.label,
      decide_eq_true_eq, Internal.ext_iff, Call.ext_iff, Transition.ret.injEq, Return.ext_iff,
      reduceCtorEq, exists_false, or_false] <;>
    grind

theorem connects_iff :
    A.transitions.connects p a q ↔
      (∃ t ∈ A.transitions, t.origin = p ∧ t.destination = q ∧ t.label = a) ∨
        ∃ x, .ret ⟨x, p, a, q⟩ ∈ A.transitions := by
  have check : A.transitions.connects p a q ↔
      ∃ t ∈ A.transitions, (Transitions.Check.connects p a q).asks t :=
    A.transitions.consistent.check_iff (.connects p a q)
  simp only [check, asks_connects_iff, and_or_left, exists_or]
  refine or_congr_right ?_
  constructor
  case mp  => rintro ⟨_, ht, x, rfl⟩; exact ⟨x, ht⟩
  case mpr => exact fun ⟨x, ht⟩ => ⟨_, ht, x, rfl⟩

theorem exists_connects_iff :
    (∃ a, A.transitions.connects p a q) ↔
      (∃ a, A.symbolBetween p q = some a) ∨ ∃ x a, .ret ⟨x, p, a, q⟩ ∈ A.transitions := by
  simp only [connects_iff, exists_symbolBetween_iff, exists_or]
  refine or_congr ?_ exists_comm
  constructor
  case mp  => exact fun ⟨_, t, ht, hp, hq, _⟩ => ⟨t, ht, hp, hq⟩
  case mpr => exact fun ⟨t, ht, hp, hq⟩ => ⟨_, t, ht, hp, hq, rfl⟩

-- A label that is found is that of a transition. None is found where returns from the one state as their
-- call site are all that leads to the other.
theorem symbolBetween_connects_iff (A : Automaton ι) (p q : Key) :
    (∀ a, A.symbolBetween p q = some a → A.transitions.connects p a q) ∧
      (((∃ a, A.symbolBetween p q = some a) ↔ ∃ a, A.transitions.connects p a q) ↔
        ((∃ x a, .ret ⟨x, p, a, q⟩ ∈ A.transitions) →
          ∃ t ∈ A.transitions, t.origin = p ∧ t.destination = q)) := by
  constructor
  case left  =>
    intro a ha
    exact connects_iff.mpr (.inl (mem_labelsBetween.mp (List.mem_of_head? ha)))
  case right =>
    rw [exists_connects_iff, ← exists_symbolBetween_iff]
    exact ⟨fun agree ret => agree.mpr (.inr ret), fun found => ⟨.inl, fun h => h.elim id found⟩⟩

-- The call site of the return leads to its return site, but by no label.
theorem not_symbolBetween_connects_brackets :
    let A := brackets ⟨3⟩ [⟨4⟩]
    A.Obtained ∧ A.transitions.connects ⟨2⟩ ⟨6⟩ ⟨4⟩ ∧ A.symbolBetween ⟨2⟩ ⟨4⟩ = none ∧
      ¬((∃ a, A.symbolBetween ⟨2⟩ ⟨4⟩ = some a) ↔ ∃ a, A.transitions.connects ⟨2⟩ a ⟨4⟩) := by
  intro A
  have connects : A.transitions.connects ⟨2⟩ ⟨6⟩ ⟨4⟩ := by decide
  have missing : A.symbolBetween ⟨2⟩ ⟨4⟩ = none := by decide
  refine ⟨obtained_brackets, connects, missing, fun agree => ?_⟩
  have ⟨a, ha⟩ := agree.mpr ⟨_, connects⟩
  exact Option.some_ne_none a (ha.symm.trans missing)

theorem symbolBetween_connects_brackets :
    let A := (brackets ⟨3⟩ [⟨4⟩]).add (.internal ⟨⟨2⟩, ⟨7⟩, ⟨4⟩⟩)
    (A.symbolBetween ⟨3⟩ ⟨4⟩ = some ⟨6⟩ ∧ A.transitions.connects ⟨3⟩ ⟨6⟩ ⟨4⟩) ∧
      ((∃ a, A.symbolBetween ⟨2⟩ ⟨4⟩ = some a) ↔ ∃ a, A.transitions.connects ⟨2⟩ a ⟨4⟩) := by
  intro A
  have ⟨connects, _⟩ := symbolBetween_connects_iff A ⟨3⟩ ⟨4⟩
  have ⟨_, agree⟩ := symbolBetween_connects_iff A ⟨2⟩ ⟨4⟩
  have found : A.symbolBetween ⟨3⟩ ⟨4⟩ = some ⟨6⟩ := by decide
  have other : .internal ⟨⟨2⟩, ⟨7⟩, ⟨4⟩⟩ ∈ A.transitions := by decide
  exact ⟨⟨found, connects _ found⟩, agree.mpr fun _ => ⟨_, other, rfl, rfl⟩⟩

end NestedAutomata.Automaton
