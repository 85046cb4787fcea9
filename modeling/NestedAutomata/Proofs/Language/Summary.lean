import Mathlib.Data.Finset.Card
import Mathlib.Data.Finset.Prod
import Mathlib.Data.List.Nodup
import NestedAutomata.Language.Comparison
import NestedAutomata.Proofs.Automaton.WellFormed
import NestedAutomata.Proofs.Level
import NestedAutomata.Proofs.Membership.Search
import NestedAutomata.Proofs.Obtained

namespace NestedAutomata

def Summary.ends (s : Summary) : Key × Key :=
  (s.source, s.target)

namespace Summaries

def Joins (l : List Summary) (p q : Key) : Prop :=
  (p, q) ∈ l.map Summary.ends

inductive Derives {ι : Type} (A : Automaton ι) (l : List Summary) : Summary → Prop
  | empty {q} :
    q ∈ A.states → Derives A l ⟨q, q, .empty⟩
  | internal {p q r label a} :
    Joins l p q → .internal ⟨q, label, r⟩ ∈ A.transitions → reading? A label = some a →
      Derives A l ⟨p, r, .internal q a⟩
  | nested {p c e x r label label' a b} :
    Joins l p c → .call ⟨c, label, e⟩ ∈ A.transitions → reading? A label = some a → Joins l e x →
      .ret ⟨x, c, label', r⟩ ∈ A.transitions → reading? A label' = some b →
        Derives A l ⟨p, r, .nested c a e x b⟩

-- Each summary is made of earlier ones, and the first between two ordinary states.
inductive Grounded {ι : Type} (A : Automaton ι) : List Summary → Prop
  | nil :
    Grounded A []
  | cons {s l} :
    Grounded A l → ¬Joins l s.source s.target → ¬A.IsStuck s.source → ¬A.IsStuck s.target →
      Derives A l s → Grounded A (s :: l)

inductive Extends {ι : Type} (A : Automaton ι) (S : Summaries) : Summaries → Prop
  | refl         : Extends A S S
  | insert {T s} : Extends A S T → Derives A T.found s → Extends A S (T.insert A s)

variable {ι α : Type} {A : Automaton ι} {S T U : Summaries} {s : Summary} {l m : List Summary}
variable {p q r e x a b : Key} {label : Key} {w : Word}

theorem mem_targets : q ∈ S.targets p ↔ Joins S.found p q := by
  simp only [targets, Joins, Summary.ends, List.mem_reverse, List.mem_map, List.mem_filter,
    decide_eq_true_eq, Prod.mk.injEq]
  exact exists_congr fun s => and_assoc

theorem mem_sources : p ∈ S.sources q ↔ Joins S.found p q := by
  simp only [sources, Joins, Summary.ends, List.mem_reverse, List.mem_map, List.mem_filter,
    decide_eq_true_eq, Prod.mk.injEq]
  exact exists_congr fun s => by rw [and_assoc, and_comm (a := s.target = q)]

namespace Extends

theorem trans (h : Extends A S T) (h' : Extends A T U) : Extends A S U := by
  induction h' with
  | refl           => exact h
  | insert _ hs ih => exact ih.insert hs

theorem found (h : Extends A S T) :
    ∃ l, T.found.map Summary.ends = l ++ S.found.map Summary.ends ∧ T.pending.Perm (l ++ S.pending) := by
  induction h with
  | refl => exact ⟨[], rfl, .rfl⟩
  | @insert T s _ _ ih =>
    have ⟨l, hf, hp⟩ := ih
    simp only [Summaries.insert]
    split
    case isTrue  => exact ⟨l, hf, hp⟩
    case isFalse =>
      split
      case isTrue  => exact ⟨l, hf, hp⟩
      case isFalse =>
        refine ⟨s.ends :: l, by simp [hf], ?_⟩
        exact (List.perm_append_singleton ..).trans (hp.cons _)

theorem joins (h : Extends A S T) (hj : Joins S.found p q) : Joins T.found p q := by
  have ⟨l, hf, _⟩ := h.found
  rw [Joins, hf]
  exact List.mem_append_right l hj

theorem grounded (h : Extends A S T) (hS : Grounded A S.found) : Grounded A T.found := by
  induction h with
  | refl => exact hS
  | @insert T s _ hs ih =>
    simp only [Summaries.insert]
    split
    case isTrue  => exact ih
    case isFalse ho =>
      split
      case isTrue     => exact ih
      case isFalse hn =>
        have ⟨hp, hq⟩ := not_or.mp ho
        refine .cons ih ?_ hp hq hs
        simpa [Joins, Summary.ends] using hn

theorem foldl (xs : List α) (f : Summaries → α → Summaries)
    (step : ∀ T x, x ∈ xs → Extends A S T → Extends A T (f T x)) :
    Extends A S (xs.foldl f S) ∧
      ∀ x ∈ xs, ∃ T, Extends A S T ∧ Extends A (f T x) (xs.foldl f S) := by
  induction xs generalizing S with
  | nil => exact ⟨.refl, nofun⟩
  | cons y xs ih =>
    have first := step S y List.mem_cons_self .refl
    have ⟨rest, each⟩ := ih fun T x hx hT => step T x (List.mem_cons_of_mem _ hx) (first.trans hT)
    refine ⟨first.trans rest, fun x hx => ?_⟩
    cases List.mem_cons.mp hx with
    | inl hx => exact ⟨S, .refl, hx ▸ rest⟩
    | inr hx =>
      have ⟨T, hT, hU⟩ := each x hx
      exact ⟨T, first.trans hT, hU⟩

end Extends

theorem joins_insert (hp : ¬A.IsStuck s.source) (hq : ¬A.IsStuck s.target) :
    Joins (S.insert A s).found s.source s.target := by
  simp only [insert]
  split
  case isTrue h  => exact absurd h (not_or.mpr ⟨hp, hq⟩)
  case isFalse =>
    split
    case isTrue h => simpa [Joins, Summary.ends] using h
    case isFalse  => exact List.mem_cons_self

def Moves (A : Automaton ι) (q r : Key) : Prop :=
  ∃ l a, .internal ⟨q, l, r⟩ ∈ A.transitions ∧ reading? A l = some a

def Nests (A : Automaton ι) (c e x r : Key) : Prop :=
  (∃ l a, .call ⟨c, l, e⟩ ∈ A.transitions ∧ reading? A l = some a) ∧
    ∃ m b, .ret ⟨x, c, m, r⟩ ∈ A.transitions ∧ reading? A m = some b

def insertBy (A : Automaton ι) (S : Summaries) (label : Key) (summary : Key → Summary) : Summaries :=
  match reading? A label with
  | none   => S
  | some a => S.insert A (summary a)

theorem extends_insertBy {summary : Key → Summary}
    (h : ∀ a, reading? A label = some a → Derives A S.found (summary a)) :
    Extends A S (S.insertBy A label summary) := by
  rw [insertBy]
  split
  case h_1      => exact .refl
  case h_2 a ha => exact .insert .refl (h a ha)

theorem joins_insertBy {summary : Key → Summary} (ha : reading? A label = some a)
    (hp : ¬A.IsStuck (summary a).source) (hq : ¬A.IsStuck (summary a).target) :
    Joins (S.insertBy A label summary).found (summary a).source (summary a).target := by
  simp only [insertBy, ha]
  exact joins_insert hp hq

theorem nest_eq {c : Call} :
    S.nest A p c x =
      match reading? A c.symbol with
      | none   => S
      | some a => (A.transitions.returnsPopping x c.callSite).foldl (fun S t =>
        S.insertBy A t.symbol fun b => ⟨p, t.returnSite, .nested c.callSite a c.entry x b⟩) S :=
  rfl

theorem nest_spec {c : Call} (hp : Joins S.found p c.callSite) (hc : .call c ∈ A.transitions)
    (hx : Joins S.found c.entry x) :
    Extends A S (S.nest A p c x) ∧
      ∀ r, Nests A c.callSite c.entry x r → reading? A c.symbol ≠ none → ¬A.IsStuck p →
        ¬A.IsStuck r → Joins (S.nest A p c x).found p r := by
  rw [nest_eq]
  split
  case h_1 none => exact ⟨.refl, fun _ _ h => absurd none h⟩
  case h_2 a ha =>
    have step (T : Summaries) (t : Return) (ht : t ∈ A.transitions.returnsPopping x c.callSite)
        (hT : Extends A S T) : Extends A T
          (T.insertBy A t.symbol fun b => ⟨p, t.returnSite, .nested c.callSite a c.entry x b⟩) := by
      obtain ⟨ht', rfl, hs⟩ := Transitions.mem_returnsPopping.mp ht
      have ht' : .ret ⟨t.exit, c.callSite, t.symbol, t.returnSite⟩ ∈ A.transitions := hs ▸ ht'
      exact extends_insertBy fun b hb => .nested (hT.joins hp) hc ha (hT.joins hx) ht' hb
    obtain ⟨later, each⟩ := Extends.foldl _ _ step
    refine ⟨later, fun r nests _ hp hr => ?_⟩
    obtain ⟨_, m, b, ht, hb⟩ := nests
    obtain ⟨T, _, hU⟩ := each _ (Transitions.mem_returnsPopping.mpr ⟨ht, rfl, rfl⟩)
    exact hU.joins (joins_insertBy hb hp hr)

def withMoves (A : Automaton ι) (p q : Key) (S : Summaries) : Summaries :=
  (A.transitions.internalsFrom q).foldl (fun S t =>
    S.insertBy A t.symbol fun a => ⟨p, t.target, .internal q a⟩) S

def withCalls (A : Automaton ι) (p q : Key) (S : Summaries) : Summaries :=
  (A.transitions.callsFrom q).foldl (fun S c =>
    (S.targets c.entry).foldl (fun S x => S.nest A p c x) S) S

def withCallers (A : Automaton ι) (p q : Key) (S : Summaries) : Summaries :=
  (A.transitions.callsTo p).foldl (fun S c =>
    (S.sources c.callSite).foldl (fun S o => S.nest A o c q) S) S

theorem extend_eq : S.extend A p q = withCallers A p q (withCalls A p q (withMoves A p q S)) :=
  rfl

theorem withMoves_spec (h : Joins S.found p q) :
    Extends A S (withMoves A p q S) ∧
      ∀ r, Moves A q r → ¬A.IsStuck p → ¬A.IsStuck r → Joins (withMoves A p q S).found p r := by
  have step (T : Summaries) (t : Internal) (ht : t ∈ A.transitions.internalsFrom q)
      (hT : Extends A S T) :
      Extends A T (T.insertBy A t.symbol fun a => ⟨p, t.target, .internal q a⟩) := by
    obtain ⟨ht', rfl⟩ := Transitions.mem_internalsFrom.mp ht
    exact extends_insertBy fun a ha => .internal (hT.joins h) ht' ha
  have ⟨later, each⟩ := Extends.foldl _ _ step
  refine ⟨later, fun r moves hp hr => ?_⟩
  have ⟨_, a, ht, ha⟩ := moves
  have ⟨T, _, hU⟩ := each _ (Transitions.mem_internalsFrom.mpr ⟨ht, rfl⟩)
  exact hU.joins (joins_insertBy ha hp hr)

theorem withCalls_spec (h : Joins S.found p q) :
    Extends A S (withCalls A p q S) ∧
      ∀ e x r, Joins S.found e x → Nests A q e x r → ¬A.IsStuck p → ¬A.IsStuck r →
        Joins (withCalls A p q S).found p r := by
  have exits (T : Summaries) (c : Call) (hc : .call c ∈ A.transitions)
      (hp : Joins T.found p c.callSite) :=
    Extends.foldl (S := T) (T.targets c.entry) (fun T x => T.nest A p c x) fun U x hx hU =>
      (nest_spec (hU.joins hp) hc (hU.joins (mem_targets.mp hx))).1
  have step (T : Summaries) (c : Call) (hc : c ∈ A.transitions.callsFrom q) (hT : Extends A S T) :
      Extends A T ((T.targets c.entry).foldl (fun T x => T.nest A p c x) T) := by
    obtain ⟨hc', rfl⟩ := Transitions.mem_callsFrom.mp hc
    exact (exits T c hc' (hT.joins h)).1
  have ⟨later, each⟩ := Extends.foldl _ _ step
  refine ⟨later, fun e x r hx nests hp hr => ?_⟩
  have ⟨⟨_, a, hc, ha⟩, _⟩ := nests
  have ⟨T, hT, hU⟩ := each _ (Transitions.mem_callsFrom.mpr ⟨hc, rfl⟩)
  have hq : Joins T.found p q := hT.joins h
  have ⟨_, each⟩ := exits T _ hc hq
  have ⟨V, hV, hW⟩ := each x (mem_targets.mpr (hT.joins hx))
  have readable : reading? A _ ≠ none := ha ▸ Option.some_ne_none a
  apply (hW.trans hU).joins
  exact (nest_spec (hV.joins hq) hc ((hT.trans hV).joins hx)).2 r nests readable hp hr

theorem withCallers_spec (h : Joins S.found p q) :
    Extends A S (withCallers A p q S) ∧
      ∀ o c r, Joins S.found o c → Nests A c p q r → ¬A.IsStuck o → ¬A.IsStuck r →
        Joins (withCallers A p q S).found o r := by
  have origins (T : Summaries) (c : Call) (hc : .call c ∈ A.transitions)
      (hq : Joins T.found c.entry q) :=
    Extends.foldl (S := T) (T.sources c.callSite) (fun T o => T.nest A o c q) fun U o ho hU =>
      (nest_spec (hU.joins (mem_sources.mp ho)) hc (hU.joins hq)).1
  have step (T : Summaries) (c : Call) (hc : c ∈ A.transitions.callsTo p) (hT : Extends A S T) :
      Extends A T ((T.sources c.callSite).foldl (fun T o => T.nest A o c q) T) := by
    obtain ⟨hc', rfl⟩ := Transitions.mem_callsTo.mp hc
    exact (origins T c hc' (hT.joins h)).1
  have ⟨later, each⟩ := Extends.foldl _ _ step
  refine ⟨later, fun o c r ho nests hp hr => ?_⟩
  have ⟨⟨_, a, hc, ha⟩, _⟩ := nests
  have ⟨T, hT, hU⟩ := each _ (Transitions.mem_callsTo.mpr ⟨hc, rfl⟩)
  have hq : Joins T.found p q := hT.joins h
  have ⟨_, each⟩ := origins T _ hc hq
  have ⟨V, hV, hW⟩ := each o (mem_sources.mpr (hT.joins ho))
  have readable : reading? A _ ≠ none := ha ▸ Option.some_ne_none a
  apply (hW.trans hU).joins
  exact (nest_spec ((hT.trans hV).joins ho) hc (hV.joins hq)).2 r nests readable hp hr

-- What comes of extending the summary between two states.
structure Extended (A : Automaton ι) (S : Summaries) (p q : Key) (T : Summaries) : Prop where
  later   : Extends A S T
  moved   : ∀ r, Moves A q r → ¬A.IsStuck p → ¬A.IsStuck r → Joins T.found p r
  calling : ∀ e x r, Joins S.found e x → Nests A q e x r → ¬A.IsStuck p → ¬A.IsStuck r →
    Joins T.found p r
  called  : ∀ o c r, Joins S.found o c → Nests A c p q r → ¬A.IsStuck o → ¬A.IsStuck r →
    Joins T.found o r

theorem extended_extend (h : Joins S.found p q) : Extended A S p q (S.extend A p q) := by
  obtain ⟨first, moved⟩ := withMoves_spec (A := A) h
  obtain ⟨second, calling⟩ := withCalls_spec (A := A) (first.joins h)
  obtain ⟨third, called⟩ := withCallers_spec (A := A) ((first.trans second).joins h)
  rw [extend_eq]
  exact {
    later   := (first.trans second).trans third
    moved   := fun r hm hp hr => (second.trans third).joins (moved r hm hp hr)
    calling := fun e x r hx hn hp hr => third.joins (calling e x r (first.joins hx) hn hp hr)
    called  := fun o c r ho => called o c r ((first.trans second).joins ho)
  }

theorem Derives.mem_states (h : Derives A l s) (hA : A.WellFormed) : s.target ∈ A.states := by
  cases h with
  | empty hq        => exact hq
  | internal _ ht _ => exact hA.destination ht
  | nested _ _ _ _ ht _ => exact hA.destination ht

theorem Derives.source (h : Derives A l s) (sources : ∀ p q, Joins l p q → p ∈ A.states) :
    s.source ∈ A.states := by
  cases h with
  | empty hq           => exact hq
  | internal hj _ _    => exact sources _ _ hj
  | nested hj _ _ _ _ _ => exact sources _ _ hj

theorem Grounded.ordinary (h : Grounded A l) (hA : A.WellFormed) (hj : Joins l p q) :
    p ∈ A.ordinary ∧ q ∈ A.ordinary := by
  induction h generalizing p q with
  | nil => cases hj
  | @cons s l _ _ hp hq hs ih =>
    cases List.mem_cons.mp hj with
    | inr hj => exact ih hj
    | inl hj =>
      cases hj
      have source := hs.source fun p q hj => (Automaton.mem_ordinary.mp (ih hj).1).1
      exact ⟨Automaton.mem_ordinary.mpr ⟨source, hp⟩, Automaton.mem_ordinary.mpr ⟨hs.mem_states hA, hq⟩⟩

theorem Grounded.nodup (h : Grounded A l) : (l.map Summary.ends).Nodup := by
  induction h with
  | nil               => exact .nil
  | cons _ fresh _ _ _ ih => exact List.nodup_cons.mpr ⟨fresh, ih⟩

theorem Grounded.length_le (h : Grounded A l) (hA : A.WellFormed) :
    l.length ≤ A.ordinary.length * A.ordinary.length := by
  classical
  calc
    l.length = (l.map Summary.ends).toFinset.card := by
      rw [List.toFinset_card_of_nodup h.nodup, List.length_map]
    _ ≤ (A.ordinary.toFinset ×ˢ A.ordinary.toFinset).card := by
      apply Finset.card_le_card
      intro ⟨p, q⟩ hj
      have ⟨hp, hq⟩ := h.ordinary hA (List.mem_toFinset.mp hj)
      simp [hp, hq]
    _ = A.ordinary.toFinset.card * A.ordinary.toFinset.card := Finset.card_product ..
    _ ≤ A.ordinary.length * A.ordinary.length :=
      Nat.mul_le_mul (List.toFinset_card_le _) (List.toFinset_card_le _)

-- What follows from the summaries that were extended is found.
structure Invariant (A : Automaton ι) (explored : List (Key × Key)) (S : Summaries) : Prop where
  grounded : Grounded A S.found
  found    : (S.found.map Summary.ends).Perm (S.pending ++ explored)
  moved    : ∀ p q r, (p, q) ∈ explored → Moves A q r → ¬A.IsStuck r → Joins S.found p r
  nested   : ∀ p c e x r, (p, c) ∈ explored → (e, x) ∈ explored → Nests A c e x r → ¬A.IsStuck r →
    Joins S.found p r

theorem Invariant.explore {explored pending : List (Key × Key)} (hA : A.WellFormed)
    (h : Invariant A explored S) (hp : S.pending = (p, q) :: pending) :
    Invariant A ((p, q) :: explored) ({ S with pending }.extend A p q) := by
  have joins {o r : Key} (hj : (o, r) ∈ (p, q) :: explored) : Joins S.found o r := by
    rw [Joins, h.found.mem_iff, hp]
    grind
  have ordinary {o r : Key} (hj : (o, r) ∈ (p, q) :: explored) : ¬A.IsStuck o :=
    (Automaton.mem_ordinary.mp (h.grounded.ordinary hA (joins hj)).1).2
  have ⟨later, moved, calling, called⟩ : Extended A { S with pending } p q _ :=
    extended_extend (joins List.mem_cons_self)
  generalize { S with pending }.extend A p q = T at *
  constructor
  case grounded => exact later.grounded h.grounded
  case found    =>
    have ⟨l, hf, hp'⟩ := later.found
    have turn : (S.pending ++ explored).Perm (pending ++ (p, q) :: explored) := by
      rw [hp]
      exact List.perm_middle.symm
    have found : (T.found.map Summary.ends).Perm (l ++ pending ++ (p, q) :: explored) := by
      rw [hf, List.append_assoc]
      exact (h.found.trans turn).append_left l
    exact found.trans (hp'.symm.append_right _)
  case moved    =>
    intro o s r hj ht hr
    cases List.mem_cons.mp hj with
    | inr hj =>
      have : Extends A { S with pending } T := later
      exact this.joins (h.moved o s r hj ht hr)
    | inl hj =>
      cases hj
      exact moved r ht (ordinary List.mem_cons_self) hr
  case nested   =>
    intro o c e x r hj hj' ht hr
    have ho := ordinary hj
    have outer := joins hj
    have inner := joins hj'
    -- The summary that is explored may be the outer part or the inner one. If it is neither, then both were
    -- explored before.
    cases List.mem_cons.mp hj with
    | inl same =>
      cases same
      exact calling e x r inner ht ho hr
    | inr hj =>
      cases List.mem_cons.mp hj' with
      | inl same =>
        cases same
        exact called o c r outer ht ho hr
      | inr hj' => exact later.joins (h.nested o c e x r hj hj' ht hr)

theorem Invariant.saturate {explored : List (Key × Key)} {fuel : Nat} (hA : A.WellFormed)
    (h : Invariant A explored S)
    (enough : A.ordinary.length * A.ordinary.length ≤ explored.length + fuel) :
    ∃ explored, Invariant A explored (S.saturate A fuel) ∧ (S.saturate A fuel).pending = [] ∧
      ∀ p q, Joins S.found p q → Joins (S.saturate A fuel).found p q := by
  fun_induction Summaries.saturate A fuel S generalizing explored with
  | case1 S =>
    have bound := h.grounded.length_le hA
    have found := h.found.length_eq
    rw [List.length_map, List.length_append] at found
    exact ⟨explored, h, List.length_eq_zero_iff.mp (by omega), fun _ _ => id⟩
  | case2 _ S hp => exact ⟨explored, h, hp, fun _ _ => id⟩
  | case3 fuel S p q pending hp ih =>
    have ⟨explored, h', empty, later⟩ := ih (h.explore hA hp) (by simp only [List.length_cons]; omega)
    refine ⟨explored, h', empty, fun o r hj => later o r ?_⟩
    have joins : Joins { S with pending }.found p q := by
      rw [Joins, h.found.mem_iff, hp]
      exact List.mem_cons_self
    exact (extended_extend joins).later.joins hj

structure Closed (A : Automaton ι) (l : List Summary) : Prop where
  grounded : Grounded A l
  empty    : ∀ q ∈ A.ordinary, Joins l q q
  moved    : ∀ p q r, Joins l p q → Moves A q r → ¬A.IsStuck r → Joins l p r
  nested   : ∀ p c e x r, Joins l p c → Joins l e x → Nests A c e x r → ¬A.IsStuck r → Joins l p r

theorem closed_summaries (hA : A.WellFormed) : Closed A A.summaries.found := by
  have start (T : Summaries) (q : Key) (hq : q ∈ A.states.members.toList) (_ : Extends A ⟨[], []⟩ T) :
      Extends A T (T.insert A ⟨q, q, .empty⟩) :=
    .insert .refl (.empty hq)
  have ⟨later, each⟩ := Extends.foldl _ _ start
  simp only [Automaton.summaries]
  generalize hS : A.states.members.toList.foldl _ _ = S at later each ⊢
  have ⟨l, hf, hp⟩ := later.found
  have invariant : Invariant A [] S := {
    grounded := later.grounded .nil
    found    := by simpa [hf] using hp.symm
    moved    := nofun
    nested   := nofun
  }
  have ⟨explored, h, empty, kept⟩ := invariant.saturate hA (Nat.le_add_left ..)
  have mem {p q : Key} (hj : Joins (S.saturate A (A.ordinary.length * A.ordinary.length)).found p q) :
      (p, q) ∈ explored := by
    have := h.found.mem_iff.mp hj
    rwa [empty, List.nil_append] at this
  constructor
  case grounded => exact h.grounded
  case moved    => exact fun p q r hj => h.moved p q r (mem hj)
  case nested   => exact fun p c e x r hj hj' => h.nested p c e x r (mem hj) (mem hj')
  case empty    =>
    intro q hq
    have ⟨hq, ho⟩ := Automaton.mem_ordinary.mp hq
    have ⟨T, _, hU⟩ := each q hq
    exact kept q q (hU.joins (joins_insert (s := ⟨q, q, .empty⟩) ho ho))

theorem reading?_spec (h : reading? A label = some a) :
    A.Reads label a ∧ a ≠ .wild ∧ (a = .ε → label = .ε) := by
  unfold reading? at h
  split at h
  case isFalse hw =>
    obtain rfl := Option.some.inj h
    exact ⟨.inl rfl, hw, id⟩
  case isTrue hw  =>
    have ha : a ∈ A.alphabet := List.mem_of_head? h
    have unreserved := A.alphabet.unreserved a ha
    exact ⟨.inr ⟨hw, ha⟩, fun e => unreserved (.inr e), fun e => absurd (.inl e) unreserved⟩

theorem exists_reading (h : A.Reads label a) (ha : ¬a.Reserved) : ∃ b, reading? A label = some b := by
  simp only [reading?]
  split
  case isFalse   => exact ⟨_, rfl⟩
  case isTrue hw =>
    have ha : a ∈ A.alphabet.toList := by
      cases h with
      | inl h => exact absurd (.inr (h.symm.trans hw)) ha
      | inr h => exact h.2
    cases hl : A.alphabet.toList with
    | nil      => simp [hl] at ha
    | cons b l => exact ⟨b, rfl⟩

theorem Closed.joins (h : Closed A l) (hA : A.WellFormed) (level : A.Level p w q) (hw : w.Unreserved)
    (hp : p ∈ A.states) : Joins l p q := by
  induction level with
  | nil hq                  => exact h.empty _ (Automaton.mem_ordinary.mpr ⟨hp, hq⟩)
  | rest _ ht hr ih         => exact h.moved _ _ _ (ih hw hp) ⟨_, _, ht, rfl⟩ hr
  | internal _ ht hl hr ih  =>
    have ⟨hw, ha⟩ := Word.unreserved_append.mp hw
    have ⟨b, hb⟩ := exists_reading hl (Word.unreserved_cons.mp ha).1
    exact h.moved _ _ _ (ih hw hp) ⟨_, _, ht, hb⟩ hr
  | nested _ hc ha _ ht hb hr ih ih' =>
    have ⟨hw, hb'⟩ := Word.unreserved_append.mp hw
    have ⟨hw, hv⟩ := Word.unreserved_append.mp hw
    have ⟨ha', hv⟩ := Word.unreserved_cons.mp hv
    have he := hA.destination hc
    have ⟨a, ha⟩ := exists_reading ha ha'
    have ⟨b, hb⟩ := exists_reading hb (Word.unreserved_cons.mp hb').1
    exact h.nested _ _ _ _ _ (ih hw hp) (ih' hv he) ⟨⟨_, a, hc, ha⟩, _, b, ht, hb⟩ hr

theorem Grounded.word (h : Grounded A l) (hA : A.WellFormed) (hj : Joins l p q) :
    ∃ w, Summary.word? p q l = some w ∧ A.Level p w q ∧ w.Unreserved := by
  induction h generalizing p q with
  | nil => cases hj
  | @cons s l _ fresh hp hq hs ih =>
    by_cases same : s.source = p ∧ s.target = q
    case neg =>
      have old : Joins l p q := (List.mem_cons.mp hj).resolve_left fun e =>
        same (Prod.mk.inj (e.symm : s.ends = (p, q)))
      rw [Summary.word?, if_neg same]
      exact ih old
    case pos =>
      rw [Summary.word?, if_pos same]
      obtain ⟨rfl, rfl⟩ := same
      cases hs with
      | empty            => exact ⟨[], rfl, .nil hp, nofun⟩
      | @internal _ _ _ label a first ht ha =>
        have ⟨w, hw, level, unreserved⟩ := ih first
        have ⟨reads, wild, hε⟩ := reading?_spec ha
        -- A label that reads nothing adds nothing to the word.
        by_cases he : a = .ε
        case pos =>
          subst he
          exact ⟨w, by simp [hw], level.rest (hε rfl ▸ ht) hq, unreserved⟩
        case neg =>
          refine ⟨w ++ [.internal a], by simp [hw, he], level.internal ht reads hq, ?_⟩
          have last : Word.Unreserved [.internal a] := by
            simp [Word.Unreserved, Position.symbol, Key.Reserved, he, wild]
          exact Word.unreserved_append.mpr ⟨unreserved, last⟩
      | @nested _ c e x r _ _ a b outer hc ha inner ht hb =>
        have ⟨w, hw, level, unreserved⟩ := ih outer
        have ⟨v, hv, level', unreserved'⟩ := ih inner
        have ⟨reads, wild, hε⟩ := reading?_spec ha
        have ⟨reads', wild', hε'⟩ := reading?_spec hb
        have ha : ¬a.Reserved := not_or.mpr ⟨fun h => hA.labelled _ hc (hε h), wild⟩
        have hb : ¬b.Reserved := not_or.mpr ⟨fun h => hA.labelled _ ht (hε' h), wild'⟩
        have nested := level.nested hc reads level' ht reads' hq
        refine ⟨w ++ .call a :: v ++ [.ret b], by simp [hw, hv], nested, ?_⟩
        rw [Word.unreserved_append, Word.unreserved_append, Word.unreserved_cons]
        exact ⟨⟨unreserved, ha, unreserved'⟩, List.forall_mem_singleton.mpr hb⟩

end Summaries

namespace Automaton

variable {ι : Type} {A : Automaton ι} {p q : Key} {w : Word}

theorem acceptingPair?_spec :
    (∀ p q, A.acceptingPair? = some (p, q) →
      p ∈ A.states.initial ∧ q ∈ A.states.final ∧ Summaries.Joins A.summaries.found p q) ∧
    (A.acceptingPair? = none →
      ∀ p ∈ A.states.initial, ∀ q ∈ A.states.final, ¬Summaries.Joins A.summaries.found p q) := by
  constructor
  case left  =>
    intro p q h
    have ⟨p', hp, h⟩ := List.exists_of_findSome?_eq_some h
    have ⟨q', hq, heq⟩ := Option.map_eq_some_iff.mp h
    obtain ⟨rfl, rfl⟩ := Prod.mk.inj heq
    have final : q' ∈ A.states.final := by simpa using List.find?_some hq
    exact ⟨hp, final, Summaries.mem_targets.mp (List.mem_of_find?_eq_some hq)⟩
  case right =>
    intro h p hp q hq hj
    have none := List.findSome?_eq_none_iff.mp h p hp
    rw [Option.map_eq_none_iff, List.find?_eq_none] at none
    exact none q (Summaries.mem_targets.mpr hj) (by simpa using hq)

theorem exists_someWord? (hA : A.WellFormed) (h : A.acceptingPair? = some (p, q)) :
    ∃ w, A.someWord? = some w ∧ A.Accepts w ∧ w.Unreserved := by
  have ⟨hp, hq, hj⟩ := acceptingPair?_spec.1 p q h
  have ⟨w, word, level, unreserved⟩ := (Summaries.closed_summaries hA).grounded.word hA hj
  refine ⟨w, ?_, accepts_iff_level.mpr ⟨p, hp, q, hq, level⟩, unreserved⟩
  rw [someWord?, h]
  exact word

theorem accepts_of_someWord? (hA : A.WellFormed) (h : A.someWord? = some w) :
    A.Accepts w ∧ w.Unreserved := by
  cases hpair : A.acceptingPair? with
  | none      => simp [someWord?, hpair] at h
  | some pair =>
    have ⟨v, hv, accepted⟩ := exists_someWord? hA hpair
    obtain rfl : v = w := Option.some.inj (hv.symm.trans h)
    exact accepted

theorem acceptsNothing_iff (hA : A.WellFormed) :
    A.AcceptsNothing ↔ ∀ w : Word, w.Unreserved → ¬A.Accepts w := by
  constructor
  case mp  =>
    intro none w hw accepts
    have ⟨p, hp, q, hq, level⟩ := accepts_iff_level.mp accepts
    have joins := (Summaries.closed_summaries hA).joins hA level hw (hA.states.initial p hp)
    cases hpair : A.acceptingPair? with
    | none      => exact acceptingPair?_spec.2 hpair p hp q hq joins
    | some pair =>
      have ⟨v, hv, _⟩ := exists_someWord? hA hpair
      exact Option.some_ne_none v (hv.symm.trans none)
  case mpr =>
    intro rejects
    cases hw : A.someWord? with
    | none   => exact hw
    | some w =>
      have ⟨accepts, unreserved⟩ := accepts_of_someWord? hA hw
      exact absurd accepts (rejects w unreserved)

-- A word that is found is found by the search as well, and if none is found then the search succeeds
-- on no word.
theorem search_of_someWord (hA : A.Obtained) (abs : A.Absorbing) :
    (∀ w, A.someWord? = some w → w.WellMatched ∧ w.Unreserved ∧ A.search w = .ok true) ∧
      (A.someWord? = none → A.AcceptsNothing ∧
        ∀ w : Word, w.WellMatched → w.Unreserved → A.search w ≠ .ok true) := by
  constructor
  case left  =>
    intro w hw
    have ⟨accepts, unreserved⟩ := accepts_of_someWord? hA.wellFormed hw
    exact ⟨accepts.wellMatched, unreserved, (search_eq_true_iff abs).mpr accepts⟩
  case right =>
    intro none
    refine ⟨none, fun w _ hw found => ?_⟩
    exact (acceptsNothing_iff hA.wellFormed).mp none w hw ((search_eq_true_iff abs).mp found)

theorem search_of_someWord_bracketed :
    (brackets ⟨3⟩ [⟨4⟩]).someWord? = some bracketed ∧ bracketed.WellMatched ∧ bracketed.Unreserved ∧
      (brackets ⟨3⟩ [⟨4⟩]).search bracketed = .ok true ∧
      (brackets ⟨2⟩ [⟨4⟩]).someWord? = none ∧ (brackets ⟨2⟩ [⟨4⟩]).search bracketed ≠ .ok true := by
  have found : (brackets ⟨3⟩ [⟨4⟩]).someWord? = some bracketed := by decide +kernel
  have none : (brackets ⟨2⟩ [⟨4⟩]).someWord? = none := by decide +kernel
  have ⟨sound, _⟩ := search_of_someWord (A := brackets ⟨3⟩ [⟨4⟩]) obtained_brackets absorbing_brackets
  have ⟨_, complete⟩ := search_of_someWord (A := brackets ⟨2⟩ [⟨4⟩]) obtained_brackets absorbing_brackets
  have ⟨wellMatched, unreserved, accepted⟩ := sound bracketed found
  have ⟨_, rejects⟩ := complete none
  exact ⟨found, wellMatched, unreserved, accepted, none, rejects bracketed wellMatched unreserved⟩

end Automaton

end NestedAutomata
