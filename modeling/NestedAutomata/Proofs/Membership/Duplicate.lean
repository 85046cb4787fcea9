import NestedAutomata.Proofs.Automaton.Duplicate
import NestedAutomata.Proofs.Membership.Search

namespace NestedAutomata

def Configuration.rename (f : Key → Key) (c : Configuration) : Configuration :=
  ⟨f c.state, c.calls.map f⟩

namespace Automaton

variable {ι : Type} {A B : Automaton ι} {f : Key → Key} {c d c' : Configuration} {v w : Word}
variable {q p : Key}

namespace Covers

variable (h : Covers f B A)
include h

theorem reads_iff {l a : Key} : B.Reads l a ↔ A.Reads l a := by
  simp only [Reads, h.alphabet]

theorem isStuck_rename (hc : c'.rename f = c) : B.IsStuck c'.state ↔ A.IsStuck c.state :=
  hc ▸ h.stuck c'.state

theorem step (st : B.Step c v d) : A.Step (c.rename f) v (d.rename f) := by
  cases st with
  | rest ht        => exact .rest ((h.transitions _).mp ht)
  | internal ht hl => exact .internal ((h.transitions _).mp ht) (h.reads_iff.mp hl)
  | call ht hl     => exact .call ((h.transitions _).mp ht) (h.reads_iff.mp hl)
  | ret ht hl      => exact .ret ((h.transitions _).mp ht) (h.reads_iff.mp hl)

theorem passes (r : B.Passes c w d) : A.Passes (c.rename f) w (d.rename f) := by
  induction r with
  | nil            => exact .nil
  | rest st _ ih   => exact .rest (h.step st) ih
  | read hc st _ ih => exact .read (mt (h.stuck _).mpr hc) (h.step st) ih

-- A step can be followed from whatever stands for where it starts. It ends in the same state.
theorem exists_step (hA : A.WellFormed) (st : A.Step c v d) (hc : c'.rename f = c) :
    ∃ d', d'.rename f = d ∧ B.Step c' v d' := by
  have target {t : Transition} (ht : t ∈ A.transitions) : f t.destination = t.destination :=
    h.fixed _ (hA.destination ht)
  obtain ⟨p', s'⟩ := c'
  cases st with
  | @rest _ q _ ht =>
    obtain ⟨rfl, rfl⟩ := Configuration.mk.inj hc
    have hq : f q = q := target ht
    have ht : .internal ⟨p', .ε, q⟩ ∈ B.transitions := by rwa [h.transitions, Transition.rename, hq]
    exact ⟨⟨q, s'⟩, Configuration.ext hq rfl, .rest ht⟩
  | @internal _ l q _ _ ht hl =>
    obtain ⟨rfl, rfl⟩ := Configuration.mk.inj hc
    have hq : f q = q := target ht
    have ht : .internal ⟨p', l, q⟩ ∈ B.transitions := by rwa [h.transitions, Transition.rename, hq]
    exact ⟨⟨q, s'⟩, Configuration.ext hq rfl, .internal ht (h.reads_iff.mpr hl)⟩
  | @call _ l q _ _ ht hl =>
    obtain ⟨rfl, rfl⟩ := Configuration.mk.inj hc
    have hq : f q = q := target ht
    have ht : .call ⟨p', l, q⟩ ∈ B.transitions := by rwa [h.transitions, Transition.rename, hq]
    exact ⟨⟨q, p' :: s'⟩, Configuration.ext hq rfl, .call ht (h.reads_iff.mpr hl)⟩
  | @ret _ _ l q _ _ ht hl =>
    obtain ⟨rfl, hs⟩ := Configuration.mk.inj hc
    obtain ⟨site, s', rfl, rfl, rfl⟩ := List.map_eq_cons_iff.mp hs
    have hq : f q = q := target ht
    have ht : .ret ⟨p', site, l, q⟩ ∈ B.transitions := by rwa [h.transitions, Transition.rename, hq]
    exact ⟨⟨q, s'⟩, Configuration.ext hq rfl, .ret ht (h.reads_iff.mpr hl)⟩

theorem exists_passes (hA : A.WellFormed) (r : A.Passes c w d) (hc : c'.rename f = c) :
    ∃ d', d'.rename f = d ∧ B.Passes c' w d' := by
  induction r generalizing c' with
  | nil => exact ⟨c', hc, .nil⟩
  | rest st _ ih =>
    have ⟨d', hd, st⟩ := h.exists_step hA st hc
    have ⟨e', he, r⟩ := ih hd
    exact ⟨e', he, .rest st r⟩
  | read hs st _ ih =>
    have ⟨d', hd, st⟩ := h.exists_step hA st hc
    have ⟨e', he, r⟩ := ih hd
    exact ⟨e', he, .read (mt (h.isStuck_rename hc).mp hs) st r⟩

theorem rename_mem_configurations (hc : c ∈ B.configurations w) : c.rename f ∈ A.configurations w := by
  rw [mem_configurations_iff_passes] at hc ⊢
  have ⟨p, hp, r, hs⟩ := hc
  exact ⟨f p, (h.initial p).mp hp, h.passes r, mt (h.stuck _).mpr hs⟩

theorem exists_mem_configurations (hA : A.WellFormed) (hc : c ∈ A.configurations w) :
    ∃ c' ∈ B.configurations w, c'.rename f = c := by
  have ⟨p, hp, r, hs⟩ := mem_configurations_iff_passes.mp hc
  have fixed : f p = p := h.fixed p (hA.states.initial p hp)
  have start : (⟨p, []⟩ : Configuration).rename f = ⟨p, []⟩ := Configuration.ext fixed rfl
  have ⟨c', hc, r⟩ := h.exists_passes hA r start
  have initial : p ∈ B.states.initial := (h.initial p).mpr (fixed.symm ▸ hp)
  have hs := mt (h.isStuck_rename hc).mp hs
  exact ⟨c', mem_configurations_iff_passes.mpr ⟨p, initial, r, hs⟩, hc⟩

theorem search_eq (hA : A.WellFormed) : B.search w = A.search w := by
  apply search_congr
  constructor
  case mp =>
    intro ⟨c, hc, hf⟩
    exact ⟨_, h.rename_mem_configurations hc, (h.final _).mp hf⟩
  case mpr =>
    intro ⟨c, hc, hf⟩
    obtain ⟨c', hc', rfl⟩ := h.exists_mem_configurations hA hc
    exact ⟨c', hc', (h.final _).mpr hf⟩

end Covers

-- After a state got a double, a transition is there just where it was one before with the state in all
-- places of the double. The double is designated as the state is, and nothing else changes, neither the
-- other designations nor what the search answers.
theorem search_duplicate_eq {double : Key} (hA : A.Obtained) (hq : ¬A.IsStuck q)
    (hd : double ∉ A.states) :
    let B := A.duplicate q double
    (∀ t, t ∈ B.transitions ↔ t.rename (original q double) ∈ A.transitions) ∧
    (∀ p, p ∈ B.states ↔ p = double ∨ p ∈ A.states) ∧
    (double ∈ B.states.initial ↔ q ∈ A.states.initial) ∧
    (double ∈ B.states.final ↔ q ∈ A.states.final) ∧
    (∀ p, p ≠ double → (p ∈ B.states.initial ↔ p ∈ A.states.initial) ∧
      (p ∈ B.states.final ↔ p ∈ A.states.final)) ∧
    B.states.stuck = A.states.stuck ∧ ∀ w, B.search w = A.search w := by
  have hA := hA.wellFormed
  have covers := covers_duplicate hA hq hd
  have ⟨C, enters, eq⟩ := exists_enters_duplicate (q := q) fun h => hd (hA.states.stuck double h)
  refine ⟨covers.transitions, ?members, ?initial, ?final, ?others, ?stuck, fun w => covers.search_eq hA⟩
  case members => exact eq ▸ enters.members
  case initial => exact (covers.initial double).trans (by rw [original_double])
  case final   => exact (covers.final double).trans (by rw [original_double])
  case others  =>
    intro p hp
    have same := original_of_ne (q := q) hp
    exact ⟨(covers.initial p).trans (by rw [same]), (covers.final p).trans (by rw [same])⟩
  case stuck   => exact eq ▸ enters.mode

theorem search_duplicate_brackets :
    let A := brackets ⟨3⟩ [⟨4⟩]
    (A.Obtained ∧ ¬A.IsStuck ⟨2⟩ ∧ ⟨7⟩ ∉ A.states) ∧
      .ret ⟨⟨3⟩, ⟨7⟩, ⟨6⟩, ⟨4⟩⟩ ∈ (A.duplicate ⟨2⟩ ⟨7⟩).transitions ∧
      (A.duplicate ⟨2⟩ ⟨7⟩).search bracketed = .ok true := by
  intro A
  have given : A.Obtained ∧ ¬A.IsStuck ⟨2⟩ ∧ ⟨7⟩ ∉ A.states := ⟨obtained_brackets, nofun, by decide⟩
  have ⟨transitions, _, _, _, _, _, same⟩ := search_duplicate_eq given.1 given.2.1 given.2.2
  have before : .ret ⟨⟨3⟩, ⟨2⟩, ⟨6⟩, ⟨4⟩⟩ ∈ A.transitions := by decide
  have accepted : A.search bracketed = .ok true := by decide
  exact ⟨given, (transitions _).mpr before, (same bracketed).trans accepted⟩

end Automaton

end NestedAutomata
