import NestedAutomata.Automaton.Reachability.Lemmas
import NestedAutomata.Proofs.Automaton.Restriction
import NestedAutomata.Proofs.Obtained

namespace NestedAutomata

open Relation

def Transition.sources : Transition → List Key
  | internal t => [t.source]
  | call t     => [t.callSite]
  | ret t      => [t.exit, t.callSite]

theorem Transition.forall_mem_states {t : Transition} {P : Key → Prop} :
    (∀ q ∈ t.states, P q) ↔ (∀ q ∈ t.sources, P q) ∧ P t.destination := by
  cases t <;> simp [states, sources, destination, and_assoc]

namespace Automaton

variable {ι : Type} {A B : Automaton ι} {keep : Key → Prop} {p q r : Key}

section Paths

variable (A)

def Accessible (q : Key) : Prop :=
  ∃ p ∈ A.states.initial, ReflTransGen A.Joined p q

def Coaccessible (q : Key) : Prop :=
  ∃ r ∈ A.states.final, ReflTransGen A.Joined q r

def Useful (q : Key) : Prop :=
  A.Accessible q ∧ A.Coaccessible q

def JoinedWithin (keep : Key → Prop) (p q : Key) : Prop :=
  ∃ t ∈ A.transitions, p ∈ t.sources ∧ t.destination = q ∧ ∀ r ∈ t.states, keep r

-- Joined by a transition that does not rely on states which are not accessible.
def FirmlyJoined : Key → Key → Prop :=
  A.JoinedWithin fun q => q ∈ A.ordinary → A.Accessible q

def FirmlyAccessible (q : Key) : Prop :=
  ∃ p ∈ A.states.initial, ReflTransGen A.FirmlyJoined p q

def FirmlyCoaccessible (q : Key) : Prop :=
  ∃ r ∈ A.states.final, ReflTransGen A.FirmlyJoined q r

end Paths

theorem joined_iff : A.Joined p q ↔ ∃ t ∈ A.transitions, p ∈ t.sources ∧ t.destination = q := by
  constructor
  case mp =>
    intro h
    cases h with
    | internal h | call h | exit h | callSite h => exact ⟨_, h, by simp [Transition.sources], rfl⟩
  case mpr =>
    rintro ⟨t, ht, hp, rfl⟩
    cases t with
    | internal t =>
      obtain rfl := List.mem_singleton.mp hp
      exact .internal ht
    | call t =>
      obtain rfl := List.mem_singleton.mp hp
      exact .call ht
    | ret t =>
      obtain rfl | rfl : p = t.exit ∨ p = t.callSite := by simpa [Transition.sources] using hp
      · exact .exit ht
      · exact .callSite ht

theorem Coaccessible.path (h : A.Coaccessible q) (path : ReflTransGen A.Joined p q) :
    A.Coaccessible p :=
  have ⟨r, hr, path'⟩ := h
  ⟨r, hr, path.trans path'⟩

namespace Restricted

variable (h : A.Restricted keep B)
include h

theorem joined_iff : B.Joined p q ↔ A.JoinedWithin keep p q := by
  simp only [Automaton.joined_iff, JoinedWithin, h.transitions]
  constructor
  case mp  => exact fun ⟨t, ⟨ht, kept⟩, hp, hq⟩ => ⟨t, ht, hp, hq, kept⟩
  case mpr => exact fun ⟨t, ht, hp, hq, kept⟩ => ⟨t, ⟨ht, kept⟩, hp, hq⟩

theorem joined (e : B.Joined p q) : A.Joined p q :=
  have ⟨t, ht, hp, hq, _⟩ := h.joined_iff.mp e
  Automaton.joined_iff.mpr ⟨t, ht, hp, hq⟩

theorem accessible (hq : B.Accessible q) : A.Accessible q :=
  have ⟨p, hp, path⟩ := hq
  ⟨p, ((h.initial p).mp hp).1, ReflTransGen.mono (fun _ _ => h.joined) _ _ path⟩

theorem coaccessible (hq : B.Coaccessible q) : A.Coaccessible q :=
  have ⟨r, hr, path⟩ := hq
  ⟨r, ((h.final r).mp hr).1, ReflTransGen.mono (fun _ _ => h.joined) _ _ path⟩

end Restricted

section Prune

theorem WellFormed.pruneInitial (hA : A.WellFormed) : A.pruneInitial.WellFormed :=
  hA.retain

theorem mem_graphReachable_initial (hA : A.WellFormed) :
    q ∈ A.graphReachable A.forwardNeighbours A.states.initial.toList ↔ A.Accessible q := by
  rw [mem_graphReachable_forward A.states.initial.nodup_toList]
  exact exists_congr fun p => and_congr_right fun hp => and_iff_right (hA.states.initial p hp)

theorem mem_graphReachable_final (hA : A.WellFormed) :
    q ∈ A.graphReachable A.backwardNeighbours A.states.final.toList ↔ A.Coaccessible q := by
  rw [mem_graphReachable_backward A.states.final.nodup_toList]
  exact exists_congr fun r => and_congr_right fun hr => and_iff_right (hA.states.final r hr)

theorem restricted_pruneInitial (hA : A.WellFormed) :
    A.Restricted (fun q => q ∈ A.ordinary → A.Accessible q) A.pruneInitial :=
  restricted_retain.congr fun _ => imp_congr_right fun _ => mem_graphReachable_initial hA

theorem restricted_pruneFinal (hA : A.WellFormed) :
    A.Restricted (fun q => q ∈ A.ordinary → A.Coaccessible q) A.pruneFinal :=
  restricted_retain.congr fun _ => imp_congr_right fun _ => mem_graphReachable_final hA

theorem pruneInitial_eq_self (hA : A.WellFormed) (h : ∀ q ∈ A.ordinary, A.Accessible q) :
    A.pruneInitial = A :=
  retain_eq_self fun q hq => (mem_graphReachable_initial hA).mpr (h q hq)

theorem pruneFinal_eq_self (hA : A.WellFormed) (h : ∀ q ∈ A.ordinary, A.Coaccessible q) :
    A.pruneFinal = A :=
  retain_eq_self fun q hq => (mem_graphReachable_final hA).mpr (h q hq)

theorem mem_ordinary_pruneInitial (hA : A.WellFormed) :
    q ∈ A.pruneInitial.ordinary ↔ q ∈ A.ordinary ∧ A.Accessible q :=
  (restricted_pruneInitial hA).mem_ordinary.trans (and_congr_right forall_prop_of_true)

theorem mem_ordinary_pruneFinal (hA : A.WellFormed) :
    q ∈ A.pruneFinal.ordinary ↔ q ∈ A.ordinary ∧ A.Coaccessible q :=
  (restricted_pruneFinal hA).mem_ordinary.trans (and_congr_right forall_prop_of_true)

-- A return whose return site is coaccessible has a coaccessible exit and a coaccessible call site. So
-- going backward nothing is removed on which a path to a final state relies.
theorem joined_pruneFinal (hA : A.WellFormed) (e : A.Joined p q) (hq : A.Coaccessible q) :
    A.pruneFinal.Joined p q := by
  obtain ⟨t, ht, hp, rfl⟩ := joined_iff.mp e
  refine (restricted_pruneFinal hA).joined_iff.mpr ⟨t, ht, hp, rfl, ?_⟩
  refine Transition.forall_mem_states.mpr ⟨fun s hs _ => ?_, fun _ => hq⟩
  exact hq.path (.single (joined_iff.mpr ⟨t, ht, hs, rfl⟩))

theorem path_pruneFinal (hA : A.WellFormed) (path : ReflTransGen A.Joined p q)
    (hq : A.Coaccessible q) : ReflTransGen A.pruneFinal.Joined p q := by
  induction path with
  | refl => exact .refl
  | tail _ e ih => exact .tail (ih (hq.path (.single e))) (joined_pruneFinal hA e hq)

theorem coaccessible_pruneFinal_iff (hA : A.WellFormed) :
    A.pruneFinal.Coaccessible q ↔ A.Coaccessible q := by
  have restricted := restricted_pruneFinal hA
  constructor
  case mp  => exact restricted.coaccessible
  case mpr =>
    intro ⟨r, hr, path⟩
    have last : A.Coaccessible r := ⟨r, hr, .refl⟩
    exact ⟨r, (restricted.final r).mpr ⟨hr, fun _ => last⟩, path_pruneFinal hA path last⟩

theorem accessible_pruneFinal_iff (hA : A.WellFormed) (hq : A.Coaccessible q) :
    A.pruneFinal.Accessible q ↔ A.Accessible q := by
  have restricted := restricted_pruneFinal hA
  constructor
  case mp  => exact restricted.accessible
  case mpr =>
    intro ⟨p, hp, path⟩
    exact ⟨p, (restricted.initial p).mpr ⟨hp, fun _ => hq.path path⟩, path_pruneFinal hA path hq⟩

theorem joined_pruneInitial (hA : A.WellFormed) : A.pruneInitial.Joined = A.FirmlyJoined :=
  funext₂ fun _ _ => propext (restricted_pruneInitial hA).joined_iff

theorem accessible_pruneInitial_iff (hA : A.WellFormed) :
    A.pruneInitial.Accessible q ↔ A.FirmlyAccessible q := by
  simp only [Accessible, FirmlyAccessible, joined_pruneInitial hA, (restricted_pruneInitial hA).initial]
  refine exists_congr fun p => and_congr_left fun _ => and_iff_left_of_imp fun hp _ => ?_
  exact ⟨p, hp, .refl⟩

theorem coaccessible_pruneInitial_iff (hA : A.WellFormed) (hq : A.Accessible q) :
    A.pruneInitial.Coaccessible q ↔ A.FirmlyCoaccessible q := by
  simp only [Coaccessible, FirmlyCoaccessible, joined_pruneInitial hA, (restricted_pruneInitial hA).final]
  refine exists_congr fun r => and_congr_left fun path => and_iff_left_of_imp fun _ hr => ?_
  cases path with
  | refl => exact hq
  | tail _ e =>
    obtain ⟨t, _, _, rfl, accessible⟩ := e
    exact accessible _ Transition.destination_mem_states hr

end Prune

section Trim

theorem trim_eq_self_iff (hA : A.WellFormed) : A.trim = A ↔ ∀ q ∈ A.ordinary, A.Useful q := by
  constructor
  case mp =>
    intro same q hq
    have kept : q ∈ A.trim.ordinary := same.symm ▸ hq
    have ⟨kept, coaccessible⟩ := (mem_ordinary_pruneFinal hA.pruneInitial).mp kept
    have ⟨_, accessible⟩ := (mem_ordinary_pruneInitial hA).mp kept
    exact ⟨accessible, (restricted_pruneInitial hA).coaccessible coaccessible⟩
  case mpr =>
    intro useful
    rw [trim, pruneInitial_eq_self hA fun q hq => (useful q hq).1]
    exact pruneFinal_eq_self hA fun q hq => (useful q hq).2

variable (hA : A.WellFormed)
include hA

theorem mem_ordinary_trim :
    q ∈ A.trim.ordinary ↔ q ∈ A.ordinary ∧ A.Accessible q ∧ A.FirmlyCoaccessible q := by
  rw [trim, mem_ordinary_pruneFinal hA.pruneInitial, mem_ordinary_pruneInitial hA, and_assoc]
  exact and_congr_right fun _ => and_congr_right fun hq => coaccessible_pruneInitial_iff hA hq

theorem coaccessible_trim (hq : q ∈ A.trim.ordinary) : A.trim.Coaccessible q :=
  (coaccessible_pruneFinal_iff hA.pruneInitial).mpr ((mem_ordinary_pruneFinal hA.pruneInitial).mp hq).2

theorem accessible_trim_iff (hq : q ∈ A.trim.ordinary) :
    A.trim.Accessible q ↔ A.FirmlyAccessible q := by
  have ⟨_, coaccessible⟩ := (mem_ordinary_pruneFinal hA.pruneInitial).mp hq
  exact (accessible_pruneFinal_iff hA.pruneInitial coaccessible).trans (accessible_pruneInitial_iff hA)

theorem forall_useful_trim_iff :
    (∀ q ∈ A.trim.ordinary, A.trim.Useful q) ↔
      ∀ q ∈ A.ordinary, A.Accessible q → A.FirmlyCoaccessible q → A.FirmlyAccessible q := by
  constructor
  case mp  =>
    intro useful q hq accessible coaccessible
    have kept := (mem_ordinary_trim hA).mpr ⟨hq, accessible, coaccessible⟩
    exact (accessible_trim_iff hA kept).mp (useful q kept).1
  case mpr =>
    intro firm q kept
    have ⟨hq, accessible, coaccessible⟩ := (mem_ordinary_trim hA).mp kept
    have firm := firm q hq accessible coaccessible
    exact ⟨(accessible_trim_iff hA kept).mpr firm, coaccessible_trim hA kept⟩

end Trim

-- Trimmed automata lead from all states to final states. They lead to all states from initial states, and
-- there is nothing left to trim, if and only if that needs no returns which rely on states that are not
-- accessible.
theorem useful_trim_iff (hA : A.Obtained) :
    (∀ q ∈ A.trim.ordinary, A.trim.Coaccessible q) ∧
      ((∀ q ∈ A.trim.ordinary, A.trim.Useful q) ↔
        ∀ q ∈ A.ordinary, A.Accessible q → A.FirmlyCoaccessible q → A.FirmlyAccessible q) ∧
      (A.trim.trim = A.trim ↔
        ∀ q ∈ A.ordinary, A.Accessible q → A.FirmlyCoaccessible q → A.FirmlyAccessible q) := by
  have hA := hA.wellFormed
  have useful := forall_useful_trim_iff hA
  exact ⟨fun q => coaccessible_trim hA, useful, (trim_eq_self_iff hA.pruneInitial.retain).trans useful⟩

theorem useful_trim_brackets :
    let A := (brackets ⟨3⟩ [⟨4⟩]).add (.internal ⟨⟨2⟩, ⟨5⟩, ⟨7⟩⟩)
    A.Obtained ∧ A.trim = brackets ⟨3⟩ [⟨4⟩] ∧ A.trim.trim = A.trim ∧
      ∀ q ∈ A.trim.ordinary, A.trim.Useful q := by
  intro A
  have h : A.Obtained := .edit (e := .add _) obtained_brackets rfl
  have ⟨_, useful, trimmed⟩ := useful_trim_iff h
  have same : A.trim.trim = A.trim := by decide
  exact ⟨h, by decide, same, useful.mpr (trimmed.mp same)⟩

-- Leads to the final state by a return whose exit is accessible, but not its call site.
def torn : Automaton Unit :=
  let A := ((∅ : Automaton Unit).addInitial ⟨2⟩).addFinal ⟨3⟩
  (A.add (.internal ⟨⟨2⟩, ⟨4⟩, ⟨5⟩⟩)).add (.ret ⟨⟨5⟩, ⟨6⟩, ⟨7⟩, ⟨3⟩⟩)

theorem obtained_torn : torn.Obtained :=
  have A : ((∅ : Automaton Unit).addInitial ⟨2⟩).Obtained := .edit (e := .addInitial _) .empty rfl
  have B : (((∅ : Automaton Unit).addInitial ⟨2⟩).addFinal ⟨3⟩).Obtained :=
    .edit (e := .addFinal _) A rfl
  .edit (e := .add _) (.edit (e := .add _) B rfl) rfl

-- The return goes with its call site, so that the final state is left on its own.
theorem not_useful_trim_torn :
    torn.Obtained ∧ (⟨3⟩ ∈ torn.trim.ordinary ∧ ¬torn.trim.Useful ⟨3⟩) ∧
      torn.trim.trim ≠ torn.trim := by
  have initial : torn.trim.states.initial = ∅ := by decide
  refine ⟨obtained_torn, ⟨by decide, fun ⟨⟨p, hp, _⟩, _⟩ => ?_⟩, by decide⟩
  rw [initial] at hp
  exact SortedSet.not_mem_empty hp

end Automaton

end NestedAutomata
