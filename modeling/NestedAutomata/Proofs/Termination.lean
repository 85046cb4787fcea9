import NestedAutomata.Proofs.Determinization.Saturation
import NestedAutomata.Proofs.Obtained
import NestedAutomata.Proofs.Product.Log
import NestedAutomata.Proofs.Worklist

namespace NestedAutomata

variable {σ ι : Type} {A B : Automaton ι} {stuck : Key} {table : KeyTable}

namespace Determinization

variable {D : Determinization ι} {l : List Subset}

theorem explored_of_pops (hA : A.WellFormed)
    (h : (worklist A stuck).Pops l (initial A stuck table) D) : Invariant A stuck D ∧ D.explored = l := by
  have reached := @reached _ A stuck (blank A stuck table) A.startRelation
  have ⟨invariant, explored⟩ := (initial_spec hA).1.pops hA h
  have empty : (initial A stuck table).explored = [] := reached.explored
  exact ⟨invariant, by rw [explored, empty, List.nil_append]⟩

theorem Invariant.explored (h : Invariant A stuck D) :
    D.explored.length ≤ 2 ^ (A.ordinary.length * A.ordinary.length) ∧
      (D.explored.map (·.relation)).Nodup ∧
      ∀ s ∈ D.explored, s.relation ≠ ∅ ∧ A.Spanning s.relation := by
  have found : List.Subperm D.explored D.known :=
    (List.sublist_append_right ..).subperm.trans h.found.symm.subperm
  have nodup : D.explored.Nodup := (h.found.nodup_iff.mp h.consistent.nodup).of_append_right
  refine ⟨h.length_explored_le, ?_, fun s hs => ?_⟩
  · refine nodup.map_on fun s hs t ht => ?_
    exact h.consistent.eq_of_relation (found.subset hs) (found.subset ht)
  · have hs := found.subset hs
    exact ⟨h.consistent.nonempty s hs, h.consistent.spanning s hs⟩

end Determinization

namespace Product

variable {choices : Choices σ ι} {client : σ} {P : Product σ ι} {l : List Node}

theorem booked_initial (hA : A.WellFormed) (hB : B.WellFormed) :
    Booked A B (initial A B choices stuck table client) :=
  have invariant : Invariant A B (fun _ _ => none) stuck (initial A B choices stuck table client) :=
    invariant_initial hA hB
  invariant.booked

theorem explored_initial (hA : A.WellFormed) (hB : B.WellFormed) :
    (initial A B choices stuck table client).explored = [] :=
  have looked : Looked A B (fun _ _ => none) _ (blank A B stuck table client)
      (initial A B choices stuck table client) :=
    looked_initial hA hB
  looked.explored

theorem explored_of_pops (hA : A.WellFormed) (hB : B.WellFormed)
    (h : (worklist A B choices).Pops l (initial A B choices stuck table client) P) :
    Booked A B P ∧ P.explored = l := by
  have ⟨booked, explored⟩ := (booked_initial hA hB).pops hA hB h
  exact ⟨booked, by rw [explored, explored_initial hA hB, List.nil_append]⟩

-- Two states that are explored stand for different pairs, even if the client gave them the same key.
theorem Booked.explored (h : Booked A B P) :
    P.explored.length ≤ A.ordinary.length * B.ordinary.length ∧ (P.explored.map (·.toPair)).Nodup := by
  have found : List.Subperm P.explored P.known :=
    (List.sublist_append_right ..).subperm.trans h.found.symm.subperm
  have nodup : P.explored.Nodup := (h.found.nodup_iff.mp h.consistent.nodup_known).of_append_right
  refine ⟨h.length_explored_le, nodup.map_on fun s hs t ht same => ?_⟩
  have offered := mem_known.mp (found.subset hs)
  rw [same] at offered
  have key := h.consistent.unique offered (mem_known.mp (found.subset ht))
  cases s; cases t
  simp_all

end Product

namespace Automaton

theorem length_ordinary_le : A.ordinary.length ≤ A.states.members.size :=
  List.length_filter_le ..

-- The loops end with nothing pending, and on the way there no relation and no pair of states is taken off
-- twice. No pair is offered twice to the client of the product either, whatever that client answers. The
-- client of the determinization has no say in its loop.
theorem constructions_terminate (hA : A.Obtained) (hB : B.Obtained) (stuck : Key) (table : KeyTable) :
    (∃ D l, A.determinize (.designated stuck) table = .ok D ∧
        (Determinization.worklist A stuck).Pops l (.initial A stuck table) D ∧ D.pending = []) ∧
      (∀ l D, (Determinization.worklist A stuck).Pops l (.initial A stuck table) D →
        l.length ≤ 2 ^ (A.ordinary.length * A.ordinary.length) ∧ (l.map (·.relation)).Nodup ∧
        ∀ s ∈ l, s.relation ≠ ∅ ∧ ∀ o q, ⟨o, q⟩ ∈ s.relation → o ∈ A.ordinary ∧ q ∈ A.ordinary) ∧
      ∀ {σ : Type} (choices : Product.Choices σ ι) (client : σ),
        (∃ P l offered, A.productWith B choices (.designated stuck) table client = .ok P ∧
          (Product.worklist A B choices).Pops l (.initial A B choices stuck table client) P ∧
          P.pending = [] ∧
          A.productWith B choices.logged (.designated stuck) table (client, []) =
            .ok { P with client := (P.client, offered) } ∧
          offered.Nodup ∧ ∀ p ∈ offered, p.first ∈ A.ordinary ∧ p.second ∈ B.ordinary) ∧
        ∀ l P, (Product.worklist A B choices).Pops l (.initial A B choices stuck table client) P →
          l.length ≤ A.states.members.size * B.states.members.size ∧ (l.map (·.toPair)).Nodup := by
  have hA := hA.wellFormed
  have hB := hB.wellFormed
  have subsets {l D} (pops : (Determinization.worklist A stuck).Pops l (.initial A stuck table) D) := by
    have ⟨invariant, explored⟩ := Determinization.explored_of_pops hA pops
    exact explored ▸ invariant.explored
  refine ⟨?determinized, fun l D => subsets, fun {σ} choices client => ?_⟩
  case determinized =>
    have ⟨invariant, _⟩ := @Determinization.initial_spec _ A stuck table hA
    have ⟨l, pops, done⟩ := invariant.exists_pops_saturate hA (Nat.le_add_left ..)
    exact ⟨_, l, rfl, pops, done⟩
  have pairs {l P} (pops : (Product.worklist A B choices).Pops l
      (.initial A B choices stuck table client) P) := by
    have ⟨booked, explored⟩ := Product.explored_of_pops hA hB pops
    exact explored ▸ booked.explored
  constructor
  case left  =>
    have start : Product.Booked A B (.initial A B choices stuck table client) :=
      Product.booked_initial hA hB
    have ⟨l, pops, done⟩ := start.exists_pops_saturate choices hA hB (Nat.le_add_left ..)
    have ⟨⟨nodup, ordinary⟩, _⟩ := (Product.explored_of_pops hA hB pops).1
    refine ⟨_, l, _, rfl, pops, done, Automaton.productWith_logged, nodup, fun p hp => ?_⟩
    have ⟨⟨q, k?⟩, hq, same⟩ := List.mem_map.mp hp
    exact same ▸ ordinary q k? hq
  case right =>
    intro l P pops
    have ⟨few, nodup⟩ := pairs pops
    exact ⟨few.trans (Nat.mul_le_mul length_ordinary_le length_ordinary_le), nodup⟩

theorem constructions_terminate_brackets :
    let A := brackets ⟨3⟩ [⟨4⟩]
    let choices := Product.Choices.plain A A
    (∃ D l, A.determinize (.designated ⟨7⟩) bracketKeys = .ok D ∧
      (Determinization.worklist A ⟨7⟩).Pops l (.initial A ⟨7⟩ bracketKeys) D ∧ D.pending = [] ∧
      l.length ≤ 2 ^ 9 ∧ (l.map (·.relation)).Nodup) ∧
    ∃ P l offered, A.productWith A choices (.designated ⟨7⟩) bracketKeys () = .ok P ∧
      (Product.worklist A A choices).Pops l (.initial A A choices ⟨7⟩ bracketKeys ()) P ∧
      P.pending = [] ∧ l.length ≤ 9 ∧
      A.productWith A choices.logged (.designated ⟨7⟩) bracketKeys ((), []) =
        .ok { P with client := ((), offered) } ∧ offered.Nodup := by
  intro A choices
  have ⟨⟨D, l, hD, pops, done⟩, subsets, product⟩ :=
    constructions_terminate (A := A) (B := A) obtained_brackets obtained_brackets ⟨7⟩ bracketKeys
  have ⟨few, nodup, _⟩ := subsets l D pops
  have ⟨⟨P, k, offered, hP, pops', done', logged, once, _⟩, pairs⟩ := product choices ()
  have ⟨few', _⟩ := pairs k P pops'
  exact ⟨⟨D, l, hD, pops, done, few, nodup⟩, P, k, offered, hP, pops', done', few', logged, once⟩

end Automaton

end NestedAutomata
