import NestedAutomata.Combination
import NestedAutomata.Proofs.Determinization.Tasks
import NestedAutomata.Fault
import NestedAutomata.Proofs.Product.Tasks
import NestedAutomata.Random.Generation

namespace NestedAutomata

namespace Automaton

open Fault

-- The automata that can be obtained at all: by edits, by constructions out of others, and at random.
inductive Obtained {ι : Type} : Automaton ι → Prop
  | empty :
    Obtained ∅
  | ofStuck {q} :
    Obtained (.ofStuck q)
  | edit {A B} {e : Edit ι} :
    Obtained A → e.apply A = .ok B → Obtained B
  | union {A B R mode} :
    Obtained A → Obtained B → A.union B mode = .ok R → Obtained R
  | concatenation {A B R mode} :
    Obtained A → Obtained B → A.concatenation B mode = .ok R → Obtained R
  | star {A R mode table table'} :
    Obtained A → A.star mode table = .ok (R, table') → Obtained R
  | reverse {A R mode table table'} :
    Obtained A → A.reverse mode table = .ok (R, table') → Obtained R
  | projection {A R kept mode} :
    Obtained A → A.projection kept mode = .ok R → Obtained R
  | determinization {A D mode table} :
    Obtained A → A.determinize mode table = .ok D → Obtained D.result
  | complement {A D mode table} :
    Obtained A → A.complement mode table = .ok D → Obtained D.result
  | informed {D : Determinization ι} {σ onStart onMove} {s : σ} :
    Obtained D.result → Obtained (D.inform onStart onMove s).1
  | product {A B σ choices mode table} {s : σ} {P : Product σ ι} :
    Obtained A → Obtained B → A.productWith B choices mode table s = .ok P → Obtained P.result
  | random {σ dice states symbols degree table} {s : σ} :
    Obtained (Automaton.random dice states symbols degree table s).1.1

variable {ι : Type} {A B R : Automaton ι} {kept : SortedSet Key} {mode : Stuck}
variable {table table' : KeyTable}

section Growth

theorem growth_copyStates : R.Growth (R.copyStates A) := by
  refine .addSymbols (.foldl .refl fun C q => ?_)
  cases A.states.info? q with
  | none   => exact .addState .refl
  | some x => exact .setInfo (.addState .refl)

theorem growth_union (h : A.union B mode = .ok R) : ∃ stuck, Growth (ofStuck stuck) R := by
  unfold union at h
  split at h
  case isTrue  => cases h
  case isFalse =>
    have ⟨stuck, _, h⟩ := exists_of_bind_eq_ok h
    have ⟨_, _, h⟩ := exists_of_bind_eq_ok h
    have ⟨_, _, h⟩ := exists_of_bind_eq_ok h
    cases h
    exact ⟨stuck, .addAll <| .addAll <| .addFinals <| .addFinals <| .addInitials <| .addInitials <|
      growth_copyStates.trans growth_copyStates⟩

theorem growth_concatenation (h : A.concatenation B mode = .ok R) :
    ∃ stuck, Growth (ofStuck stuck) R := by
  unfold concatenation at h
  split at h
  case isTrue  => cases h
  case isFalse =>
    have ⟨stuck, _, h⟩ := exists_of_bind_eq_ok h
    have ⟨_, _, h⟩ := exists_of_bind_eq_ok h
    have ⟨_, _, h⟩ := exists_of_bind_eq_ok h
    cases h
    exact ⟨stuck, .addAll <| .addAll <| .addAll <| .addFinals <| .addInitials <|
      growth_copyStates.trans growth_copyStates⟩

theorem growth_star (h : A.star mode table = .ok (R, table')) :
    ∃ stuck, Growth (ofStuck stuck) R := by
  have ⟨stuck, _, h⟩ := exists_of_bind_eq_ok h
  have ⟨_, _, h⟩ := exists_of_bind_eq_ok h
  cases h
  exact ⟨stuck, .addAll <| .addAll <| .addFinal <| .addInitial <| .addAll growth_copyStates⟩

theorem growth_reverseReturn {t : Return} : R.Growth (A.reverseReturn R table t).1 :=
  .addAll (.add (.add .refl))

theorem growth_reverse (h : A.reverse mode table = .ok (R, table')) :
    ∃ stuck, Growth (ofStuck stuck) R := by
  have ⟨stuck, _, h⟩ := exists_of_bind_eq_ok h
  have ⟨_, _, h⟩ := exists_of_bind_eq_ok h
  have h := congrArg Prod.fst (Except.ok.inj h)
  subst h
  refine ⟨stuck, List.foldlRecOn (motive := fun p : Automaton ι × KeyTable => Growth (ofStuck stuck) p.1)
    _ _ ?_ fun _ g t _ => g.trans growth_reverseReturn⟩
  refine .foldl (.addFinals <| .addInitials growth_copyStates) fun C t => ?_
  cases t with
  | internal   => exact .add .refl
  | call | ret => exact .refl

theorem growth_determinize {D : Determinization ι} (h : A.determinize mode table = .ok D) :
    ∃ stuck, Growth (ofStuck stuck) D.result := by
  have ⟨stuck, _, h⟩ := exists_of_bind_eq_ok h
  cases h
  exact ⟨stuck, Determinization.growth_subsets⟩

theorem growth_productWith {σ : Type} {choices : Product.Choices σ ι} {s : σ} {P : Product σ ι}
    (h : A.productWith B choices mode table s = .ok P) : ∃ stuck, Growth (ofStuck stuck) P.result := by
  have ⟨stuck, _, h⟩ := exists_of_bind_eq_ok h
  cases h
  exact ⟨stuck, Product.growth_initial.trans Product.growth_saturate⟩

theorem growth_random {σ : Type} {dice : Dice σ} {states symbols degree : Nat} {s : σ} :
    Growth ∅ (Automaton.random (ι := ι) dice states symbols degree table s).1.1 := by
  have outgoing (p ps a as degree) (C : Automaton ι) (q : Key) (s : σ) :
      C.Growth (randomOutgoing dice p ps a as degree C q s).1 := by
    simp only [randomOutgoing]
    refine .foldlM ?_ fun _ _ _ => .add .refl
    exact .ite (.addFinal .refl) .refl
  simp only [Automaton.random]
  have base (l m : List Key) : Growth ∅ (((∅ : Automaton ι).addStates l).addSymbols m) :=
    .addSymbols (.foldl .refl fun _ _ => .addState .refl)
  generalize table.numbered "s" states = numbered
  obtain ⟨_ | ⟨p, ps⟩, table⟩ := numbered
  case nil => exact base ..
  case cons =>
    simp only
    generalize table.numbered "l" symbols = numbered
    obtain ⟨_ | ⟨a, as⟩, table⟩ := numbered
    case nil => exact .addInitial (base ..)
    case cons =>
      let C := ((∅ : Automaton ι).addStates (p :: ps)).addSymbols (a :: as)
      have g : Growth ∅ ((p :: ps).foldlM (randomOutgoing dice p ps a as degree) (C.addInitial p) s).1 :=
        .foldlM (.addInitial (base ..)) fun C q s => outgoing ..
      exact g

end Growth

theorem wellFormed_of_projection (h : A.projection kept mode = .ok R) : R.WellFormed := by
  have ⟨stuck, _, h⟩ := exists_of_bind_eq_ok h
  have ⟨_, _, h⟩ := exists_of_bind_eq_ok h
  cases h
  let C := (((ofStuck stuck).copyStates A).addInitials A.ordinaryInitial).addFinals A.ordinaryFinal
  have g : Growth (ofStuck stuck) (C.copyTransitions A) :=
    .addAll <| .addFinals <| .addInitials growth_copyStates
  exact (g.wellFormed .ofStuck).removeStates

theorem wellFormed_of_complement {D : Determinization ι} (h : A.complement mode table = .ok D) :
    D.result.WellFormed := by
  have ⟨E, hE, h⟩ := exists_of_bind_eq_ok h
  have ⟨R, hR, h⟩ := exists_of_bind_eq_ok h
  cases h
  have ⟨_, g⟩ := growth_determinize hE
  exact ((g.wellFormed .ofStuck).realize hR).clearFinal.addFinals

theorem Obtained.wellFormed (h : A.Obtained) : A.WellFormed := by
  induction h with
  | empty               => exact .empty
  | ofStuck             => exact .ofStuck
  | edit _ he ih        => exact ih.edit he
  | union _ _ h         => have ⟨_, g⟩ := growth_union h; exact g.wellFormed .ofStuck
  | concatenation _ _ h => have ⟨_, g⟩ := growth_concatenation h; exact g.wellFormed .ofStuck
  | star _ h            => have ⟨_, g⟩ := growth_star h; exact g.wellFormed .ofStuck
  | reverse _ h         => have ⟨_, g⟩ := growth_reverse h; exact g.wellFormed .ofStuck
  | projection _ h      => exact wellFormed_of_projection h
  | determinization _ h => have ⟨_, g⟩ := growth_determinize h; exact g.wellFormed .ofStuck
  | complement _ h      => exact wellFormed_of_complement h
  | informed _ ih       => exact Determinization.growth_inform.wellFormed ih
  | product _ _ h       => have ⟨_, g⟩ := growth_productWith h; exact g.wellFormed .ofStuck
  | random              => exact growth_random.wellFormed .empty

-- What well-formedness comes to, in terms of the parts of the automaton.
theorem Obtained.integrity (h : A.Obtained) :
    (∀ q, q ∈ A.states.initial ∨ q ∈ A.states.final ∨ A.states.info? q ≠ none → q ∈ A.states) ∧
    (∀ t ∈ A.transitions, ∀ q ∈ t.states, q ∈ A.states) ∧
    (∀ q, A.IsStuck q → q ∈ A.states ∧ q ∉ A.states.final) ∧
    (.ε ∉ A.alphabet ∧ .wild ∉ A.alphabet) ∧
    ∀ t ∈ A.transitions,
      t.label ∈ A.alphabet ∨ t.label = .wild ∨ t.label = .ε ∧ ∃ u, t = .internal u := by
  have wf := h.wellFormed
  refine ⟨?states, wf.columns, ?stuck, ?alphabet, ?labels⟩
  case states =>
    rintro q (hq | hq | hq)
    · exact wf.states.initial q hq
    · exact wf.states.final q hq
    · have ⟨x, hx⟩ := Option.ne_none_iff_exists'.mp hq
      have ⟨l₁, l₂, hl, _⟩ := List.lookup_eq_some_iff.mp hx
      exact wf.states.info (q, x) (by simp [hl])
  case stuck =>
    exact fun q hq => ⟨wf.states.stuck q hq, wf.states.not_final q hq⟩
  case alphabet =>
    exact ⟨fun h => A.alphabet.unreserved _ h (.inl rfl), fun h => A.alphabet.unreserved _ h (.inr rfl)⟩
  case labels =>
    intro t ht
    rcases wf.labels t ht with hl | hl | hl
    · exact .inl hl
    · cases t with
      | internal u => exact .inr (.inr ⟨hl, u, rfl⟩)
      | call | ret => exact absurd hl (wf.labelled _ ht)
    · exact .inr (.inl hl)

theorem integrity_duplicate_ofStuck :
    let A := ((ofStuck ⟨2⟩ : Automaton Unit).add (.internal ⟨⟨2⟩, ⟨3⟩, ⟨2⟩⟩)).duplicate ⟨2⟩ ⟨4⟩
    A.Obtained ∧ (A.IsStuck ⟨2⟩ ∧ ⟨2⟩ ∈ A.states ∧ ⟨2⟩ ∉ A.states.final) ∧
      ∀ t ∈ A.transitions, ∀ q ∈ t.states, q ∈ A.states := by
  intro A
  have h : A.Obtained :=
    .edit (e := .duplicate _ _) (.edit (e := .add _) .ofStuck rfl) rfl
  have ⟨_, columns, stuck, _⟩ := h.integrity
  exact ⟨h, ⟨rfl, stuck ⟨2⟩ rfl⟩, columns⟩

-- A small automaton that reads a pair of brackets.
section Brackets

def bracketKeys : KeyTable :=
  ["p", "e", "f", "a", "b", "stuck"].foldl (fun t name => (t.name name).2) .base

def bracketed : Word :=
  [.call ⟨5⟩, .ret ⟨6⟩]

def brackets (exit : Key) (final : List Key) : Automaton Unit :=
  let A := ((∅ : Automaton Unit).addInitial ⟨2⟩).addFinals final
  (A.add (.call ⟨⟨2⟩, ⟨5⟩, ⟨3⟩⟩)).add (.ret ⟨exit, ⟨2⟩, ⟨6⟩, ⟨4⟩⟩)

variable {exit : Key} {final : List Key}

theorem obtained_brackets : (brackets exit final).Obtained :=
  have A : ((∅ : Automaton Unit).addInitial ⟨2⟩).Obtained := .edit (e := .addInitial _) .empty rfl
  have B : (((∅ : Automaton Unit).addInitial ⟨2⟩).addFinals final).Obtained :=
    .edit (e := .addFinals _) A rfl
  .edit (e := .add _) (.edit (e := .add _) B rfl) rfl

theorem absorbing_brackets : (brackets exit final).Absorbing :=
  have growth : Growth ∅ (brackets exit final) := .add <| .add <| .addFinals <| .addInitial .refl
  growth.absorbing .empty

end Brackets

section Loop

-- Reads every symbol there is in its alphabet, which is none on its own.
def loop : Automaton Unit :=
  (((∅ : Automaton Unit).addInitial ⟨8⟩).addFinal ⟨8⟩).add (.internal ⟨⟨8⟩, .wild, ⟨8⟩⟩)

theorem obtained_loop : loop.Obtained :=
  have A : ((∅ : Automaton Unit).addInitial ⟨8⟩).Obtained := .edit (e := .addInitial _) .empty rfl
  have B : (((∅ : Automaton Unit).addInitial ⟨8⟩).addFinal ⟨8⟩).Obtained :=
    .edit (e := .addFinal _) A rfl
  .edit (e := .add _) B rfl

theorem absorbing_loop : loop.Absorbing :=
  have growth : Growth ∅ loop := .add <| .addFinal <| .addInitial .refl
  growth.absorbing .empty

end Loop

end Automaton

end NestedAutomata
