import NestedAutomata.Proofs.Automaton.Absorption

namespace NestedAutomata

def Transition.rename (f : Key → Key) : Transition → Transition
  | internal t => .internal ⟨f t.source, t.symbol, f t.target⟩
  | call t     => .call ⟨f t.callSite, t.symbol, f t.entry⟩
  | ret t      => .ret ⟨f t.exit, f t.callSite, t.symbol, f t.returnSite⟩

def Transition.toward (q : Key) : Transition → Transition
  | internal t => .internal { t with target := q }
  | call t     => .call { t with entry := q }
  | ret t      => .ret { t with returnSite := q }

namespace Transition

variable {f : Key → Key} {t : Transition} {q : Key}

theorem labelled_rename : (t.rename f).Labelled ↔ t.Labelled := by
  cases t <;> rfl

theorem destination_rename : (t.rename f).destination = f t.destination := by
  cases t <;> rfl

theorem rename_eq_self (h : ∀ q ∈ t.states, f q = q) : t.rename f = t := by
  cases t <;> simp_all [rename, states]

theorem destination_toward : (t.toward q).destination = q := by
  cases t <;> rfl

theorem toward_destination : t.toward t.destination = t := by
  cases t <;> rfl

theorem rename_toward (h : f q = f t.destination) : (t.toward q).rename f = t.rename f := by
  cases t <;> simp_all [rename, toward, destination]

end Transition

namespace Automaton

-- The one automaton has the transitions and designations of the other, read through `f`.
structure Covers {ι : Type} (f : Key → Key) (B A : Automaton ι) : Prop where
  fixed       : ∀ q ∈ A.states, f q = q
  initial     : ∀ q, q ∈ B.states.initial ↔ f q ∈ A.states.initial
  final       : ∀ q, q ∈ B.states.final ↔ f q ∈ A.states.final
  stuck       : ∀ q, B.IsStuck q ↔ A.IsStuck (f q)
  alphabet    : B.alphabet = A.alphabet
  transitions : ∀ t, t ∈ B.transitions ↔ t.rename f ∈ A.transitions

-- What the key stands for, once `q` has a double.
def original (q double p : Key) : Key :=
  if p = double then q else p

variable {ι : Type} {A B : Automaton ι} {q d p : Key} {t : Transition}

theorem original_double : original q d d = q :=
  if_pos rfl

theorem original_of_ne (h : p ≠ d) : original q d p = p :=
  if_neg h

theorem original_self : original q d q = q :=
  ite_self q

theorem original_of_mem_orDouble {r : Key} (h : r ∈ orDouble q d p) :
    original q d r = original q d p := by
  obtain rfl | ⟨rfl, rfl⟩ := mem_orDouble.mp h
  · rfl
  · exact original_double.trans original_self.symm

theorem mem_orDouble_original : p ∈ orDouble q d (original q d p) := by
  by_cases h : p = d
  case pos => exact mem_orDouble.mpr (.inr ⟨h ▸ original_double, h⟩)
  case neg => exact mem_orDouble.mpr (.inl (original_of_ne h).symm)

theorem mem_outgoingCopies (h : t.rename (original q d) ∈ A.transitions) (hd : t.destination ≠ d) :
    t ∈ A.transitions ∨ t ∈ A.outgoingCopies q d := by
  by_cases ht : d ∈ t.states
  case neg =>
    have same : t.rename (original q d) = t :=
      Transition.rename_eq_self fun p hp => original_of_ne fun e => ht (e ▸ hp)
    exact .inl (same ▸ h)
  case pos =>
    right
    simp only [outgoingCopies, List.mem_append, List.mem_map, List.mem_flatMap,
      Transitions.mem_internalsFrom, Transitions.mem_callsFrom, Transitions.mem_returnsFrom,
      Transitions.mem_returnsWithCallSite]
    cases t with
    | internal t =>
      obtain ⟨p, a, r⟩ := t
      have target : original q d r = r := original_of_ne hd
      obtain rfl : d = p := by simpa [Transition.states, (Ne.symm hd : d ≠ r)] using ht
      simp only [Transition.rename, original_double, target] at h
      exact .inl (.inl ⟨_, ⟨h, rfl⟩, rfl⟩)
    | call t =>
      obtain ⟨p, a, r⟩ := t
      have target : original q d r = r := original_of_ne hd
      obtain rfl : d = p := by simpa [Transition.states, (Ne.symm hd : d ≠ r)] using ht
      simp only [Transition.rename, original_double, target] at h
      exact .inl (.inr ⟨_, ⟨h, rfl⟩, rfl⟩)
    | ret t =>
      obtain ⟨x, c, a, r⟩ := t
      have target : original q d r = r := original_of_ne hd
      simp only [Transition.rename, target] at h
      -- The double may be the exit, the call site, or both.
      have doubled : d = x ∨ d = c := by simpa [Transition.states, (Ne.symm hd : d ≠ r)] using ht
      have site : original q d x = q ∨ original q d c = q := by
        obtain rfl | rfl := doubled
        · exact .inl original_double
        · exact .inr original_double
      exact .inr ⟨⟨_, _, a, r⟩, site.imp (⟨h, ·⟩) (⟨h, ·⟩), x, mem_orDouble_original, c,
        mem_orDouble_original, rfl⟩

section Transitions

variable (hA : A.WellFormed) (fresh : d ∉ A.states)
include hA fresh

theorem rename_original (ht : t ∈ A.transitions) : t.rename (original q d) = t :=
  Transition.rename_eq_self fun p hp => original_of_ne fun e => fresh (e ▸ hA.columns t ht p hp)

theorem rename_of_mem_outgoingCopies (h : t ∈ A.outgoingCopies q d) :
    ∃ u ∈ A.transitions, t.destination = u.destination ∧ t.rename (original q d) = u := by
  have copied {u : Transition} (hu : u ∈ A.transitions) (destination : t.destination = u.destination)
      (same : t.rename (original q d) = u.rename (original q d)) :
      ∃ u ∈ A.transitions, t.destination = u.destination ∧ t.rename (original q d) = u :=
    ⟨u, hu, destination, same.trans (rename_original hA fresh hu)⟩
  simp only [outgoingCopies, List.mem_append, List.mem_map, List.mem_flatMap,
    Transitions.mem_internalsFrom, Transitions.mem_callsFrom, Transitions.mem_returnsFrom,
    Transitions.mem_returnsWithCallSite] at h
  rcases h with (⟨u, ⟨hu, hq⟩, rfl⟩ | ⟨u, ⟨hu, hq⟩, rfl⟩) | ⟨u, hu, x, hx, c, hc, rfl⟩
  case inl.inl => exact copied hu rfl (by simp only [Transition.rename, hq, original_double, original_self])
  case inl.inr => exact copied hu rfl (by simp only [Transition.rename, hq, original_double, original_self])
  case inr     =>
    refine copied (hu.elim And.left And.left) rfl ?_
    simp only [Transition.rename, original_of_mem_orDouble hx, original_of_mem_orDouble hc]

theorem mem_transitions_duplicateOutgoing_iff :
    t ∈ (A.duplicateOutgoing q d).transitions ↔
      t.rename (original q d) ∈ A.transitions ∧ t.destination ≠ d := by
  rw [mem_transitions_duplicateOutgoing]
  have elsewhere {u : Transition} (hu : u ∈ A.transitions) : u.destination ≠ d :=
    fun e => fresh (e ▸ hA.destination hu)
  constructor
  case mp =>
    rintro (ht | ⟨ht, _⟩)
    · exact ⟨(rename_original hA fresh ht).symm ▸ ht, elsewhere ht⟩
    · have ⟨u, hu, destination, same⟩ := rename_of_mem_outgoingCopies hA fresh ht
      exact ⟨same ▸ hu, destination ▸ elsewhere hu⟩
  case mpr =>
    intro ⟨ht, hd⟩
    have labelled := Transition.labelled_rename.mp (hA.labelled _ ht)
    exact (mem_outgoingCopies ht hd).imp_right (⟨·, labelled⟩)

end Transitions

section Incoming

theorem rename_of_mem_incomingCopies (h : t ∈ B.incomingCopies q d) :
    ∃ u ∈ B.transitions, t.rename (original q d) = u.rename (original q d) := by
  simp only [incomingCopies, List.mem_append, List.mem_map, List.mem_flatMap,
    Transitions.mem_internalsTo, Transitions.mem_callsTo, Transitions.mem_returnsTo] at h
  rcases h with (⟨u, ⟨hu, hq⟩, x, hx, rfl⟩ | ⟨u, ⟨hu, hq⟩, x, hx, rfl⟩) |
    ⟨u, ⟨hu, hq⟩, x, hx, c, hc, rfl⟩
  case inl.inl =>
    refine ⟨_, hu, ?_⟩
    simp only [Transition.rename, hq, original_double, original_self, original_of_mem_orDouble hx]
  case inl.inr =>
    refine ⟨_, hu, ?_⟩
    simp only [Transition.rename, hq, original_double, original_self, original_of_mem_orDouble hx]
  case inr     =>
    refine ⟨_, hu, ?_⟩
    simp only [Transition.rename, hq, original_double, original_self, original_of_mem_orDouble hx,
      original_of_mem_orDouble hc]

theorem mem_incomingCopies (h : t.toward q ∈ B.transitions) : t.toward d ∈ B.incomingCopies q d := by
  have self {p : Key} : p ∈ orDouble q d p := mem_orDouble.mpr (.inl rfl)
  simp only [incomingCopies, List.mem_append, List.mem_map, List.mem_flatMap,
    Transitions.mem_internalsTo, Transitions.mem_callsTo, Transitions.mem_returnsTo]
  cases t with
  | internal t => exact .inl (.inl ⟨_, ⟨h, rfl⟩, _, self, rfl⟩)
  | call t     => exact .inl (.inr ⟨_, ⟨h, rfl⟩, _, self, rfl⟩)
  | ret t      => exact .inr ⟨_, ⟨h, rfl⟩, _, self, _, self, rfl⟩

end Incoming

theorem exists_enters_duplicate (hd : ¬A.IsStuck d) : ∃ B : Automaton ι,
    Enters (q ∈ A.states.initial) (q ∈ A.states.final) d
      { A with transitions := (A.duplicateOutgoing q d).transitions } B ∧
    A.duplicate q d = { B with transitions := B.transitions.addAll (B.incomingCopies q d) } := by
  have doubled : Enters False False d { A with transitions := (A.duplicateOutgoing q d).transitions }
      (A.duplicateOutgoing q d) :=
    Enters.addState.elim.withTransitions
  have initial := doubled.addInitial (i := q ∈ (A.duplicateOutgoing q d).states.initial)
  refine ⟨_, (initial.addFinal hd).congr ?_ ?_, rfl⟩
  · simpa using doubled.initial q
  · simpa using initial.final q

theorem original_mem_iff {l : SortedSet Key} (h : d ∉ l) :
    original q d p ∈ l ↔ (d = p ∧ q ∈ l) ∨ p ∈ l := by
  by_cases hp : p = d
  case pos => simp [hp, h, original_double]
  case neg => simp [Ne.symm hp, original_of_ne hp]

theorem covers_duplicate (hA : A.WellFormed) (hq : ¬A.IsStuck q) (fresh : d ∉ A.states) :
    Covers (original q d) (A.duplicate q d) A := by
  have hd : ¬A.IsStuck d := fun h => fresh (hA.states.stuck d h)
  have ⟨B, h, eq⟩ := exists_enters_duplicate (q := q) hd
  have made {t : Transition} :
      t ∈ B.transitions ↔ t.rename (original q d) ∈ A.transitions ∧ t.destination ≠ d :=
    h.transitions ▸ mem_transitions_duplicateOutgoing_iff hA fresh
  rw [eq]
  constructor
  case fixed   => exact fun p hp => original_of_ne fun e => fresh (e ▸ hp)
  case initial =>
    exact fun p => (h.initial p).trans (original_mem_iff fun hd => fresh (hA.states.initial d hd)).symm
  case final   =>
    exact fun p => (h.final p).trans (original_mem_iff fun hd => fresh (hA.states.final d hd)).symm
  case stuck   =>
    intro p
    refine (isStuck_congr (A := B) (B := A) h.mode).trans ?_
    by_cases hp : p = d
    case pos => simp [hp, original_double, hd, hq]
    case neg => rw [original_of_ne hp]
  case alphabet => exact h.alphabet
  case transitions =>
    intro t
    refine Transitions.mem_addAll.trans ?_
    constructor
    case mp =>
      rintro (ht | ⟨ht, _⟩)
      · exact (made.mp ht).1
      · have ⟨u, hu, same⟩ := rename_of_mem_incomingCopies ht
        exact same ▸ (made.mp hu).1
    case mpr =>
      intro ht
      by_cases ht' : t.destination = d
      case neg => exact .inl (made.mpr ⟨ht, ht'⟩)
      case pos =>
        -- What leads to the double is a copy of what leads to the original, which is there already.
        have elsewhere : q ≠ d := by
          rintro rfl
          have target := hA.destination ht
          rw [Transition.destination_rename, ht', original_self] at target
          exact fresh target
        have before : t.toward q ∈ B.transitions := by
          refine made.mpr ⟨?_, Transition.destination_toward ▸ elsewhere⟩
          rwa [Transition.rename_toward]
          rw [ht', original_double, original_self]
        have copy := mem_incomingCopies (d := d) before
        rw [← ht', Transition.toward_destination, ht'] at copy
        exact .inr ⟨copy, Transition.labelled_rename.mp (hA.labelled _ ht)⟩

end Automaton

end NestedAutomata
