import NestedAutomata.Proofs.Combination.Copy
import NestedAutomata.Proofs.Key.Table
import NestedAutomata.Proofs.Membership.Search
import NestedAutomata.Proofs.Obtained
import NestedAutomata.Proofs.Word.Reversal

namespace NestedAutomata.Automaton

-- What stands in the reverse for the transitions of the operand.
inductive Mirrored {ι : Type} (A : Automaton ι) (table : KeyTable) : Transition → Prop
  | internal {p l q} :
    .internal ⟨p, l, q⟩ ∈ A.ordinaryTransitions → Mirrored A table (.internal ⟨q, l, p⟩)
  | turn {x c a r k} :
    .ret ⟨x, c, a, r⟩ ∈ A.ordinaryTransitions → table.shape? k = some (.pair r c) →
      Mirrored A table (.internal ⟨r, .ε, k⟩)
  | call {x c a r k} :
    .ret ⟨x, c, a, r⟩ ∈ A.ordinaryTransitions → table.shape? k = some (.pair r c) →
      Mirrored A table (.call ⟨k, a, x⟩)
  | ret {x c a r k b e} :
    .ret ⟨x, c, a, r⟩ ∈ A.ordinaryTransitions → table.shape? k = some (.pair r c) →
      .call ⟨c, b, e⟩ ∈ A.ordinaryTransitions → Mirrored A table (.ret ⟨e, k, b, c⟩)

-- What a run of the reverse that starts in a state of the operand tells about the operand. In between,
-- the run is in the key that it is about to push.
inductive Backs {ι : Type} (A : Automaton ι) (table : KeyTable) (p : Key) (w : Word) : Key → Prop
  | state {q} :
    q ∈ A.ordinary → A.Level q w.reversed p → Backs A table p w q
  | turned {x c a r k} :
    .ret ⟨x, c, a, r⟩ ∈ A.ordinaryTransitions → table.shape? k = some (.pair r c) →
      A.Level r w.reversed p → Backs A table p w k

variable {ι : Type} {A R : Automaton ι} {p q a stuck : Key} {v w : Word} {table : KeyTable}

structure Reversed (A : Automaton ι) (table : KeyTable) (R : Automaton ι) : Prop where
  absorbing   : R.Absorbing
  initial     : ∀ q, q ∈ R.states.initial ↔ q ∈ A.ordinaryFinal
  final       : ∀ q, q ∈ R.states.final ↔ q ∈ A.ordinaryInitial
  alphabet    : ∀ a, a ∈ R.alphabet ↔ a ∈ A.alphabet
  transitions : ∀ t, t ∈ R.transitions ↔ Mirrored A table t
  ordinary    : ∀ q ∈ A.ordinary, ¬R.IsStuck q
  known       : ∀ t, .ret t ∈ A.ordinaryTransitions →
    ∃ k, table.shape? k = some (.pair t.returnSite t.callSite) ∧ ¬R.IsStuck k
  apart       : ∀ t, .ret t ∈ A.ordinaryTransitions →
    ∀ q ∈ A.ordinary, table.shape? q ≠ some (.pair t.returnSite t.callSite)

namespace Reversed

variable (h : Reversed A table R) (hA : A.WellFormed)
include h

theorem reads_iff {l : Key} : R.Reads l a ↔ A.Reads l a := by
  simp only [Reads, h.alphabet]

theorem level_of_backs (backs : Backs A table p w q) (hq : q ∈ A.ordinary) : A.Level q w.reversed p := by
  cases backs with
  | state _ level => exact level
  | turned ht hk  => exact absurd hk (h.apart _ ht q hq)

include hA

theorem level_reversed (level : A.Level p w q) (hp : p ∈ A.states) : R.Level q w.reversed p := by
  have start {t : Transition} (ht : t ∈ A.transitions) (ho : ¬A.IsStuck t.destination) :
      R.Level t.destination [] t.destination :=
    .nil (h.ordinary _ (mem_ordinary.mpr ⟨hA.destination ht, ho⟩))
  induction level with
  | nil hq => exact .nil (h.ordinary _ (mem_ordinary.mpr ⟨hp, hq⟩))
  | @rest p q r w run ht hr ih =>
    have ht' := internal_mem_ordinaryTransitions.mpr ⟨ht, run.not_isStuck.2, hr⟩
    have back := (h.transitions _).mpr (.internal ht')
    have first : R.Level r [] q := (start ht hr).rest back (ih hp).not_isStuck.1
    exact first.append (ih hp)
  | @internal p q r l a w run ht hl hr ih =>
    have ht' := internal_mem_ordinaryTransitions.mpr ⟨ht, run.not_isStuck.2, hr⟩
    have back := (h.transitions _).mpr (.internal ht')
    have first : R.Level r ([] ++ [.internal a]) q :=
      (start ht hr).internal back (h.reads_iff.mpr hl) (ih hp).not_isStuck.1
    simpa [Position.reversed] using first.append (ih hp)
  | @nested p q e x r l m a b v w run hc ha inner ht hb hr ih ih' =>
    obtain ⟨he, hx⟩ := inner.not_isStuck
    have hs := run.not_isStuck.2
    have hc' := call_mem_ordinaryTransitions.mpr ⟨hc, hs, he⟩
    have ht' := ret_mem_ordinaryTransitions.mpr ⟨ht, hx, hs, hr⟩
    obtain ⟨k, hk, ordinary⟩ := h.known _ ht'
    -- The return becomes the way to the key and the call that pushes it, and the call becomes a return.
    have turn := (h.transitions _).mpr (.turn ht' hk)
    have call := (h.transitions _).mpr (.call ht' hk)
    have ret := (h.transitions _).mpr (.ret ht' hk hc')
    have first : R.Level r [] k := (start ht hr).rest turn ordinary
    have second : R.Level r ([] ++ .call b :: v.reversed ++ [.ret a]) q :=
      first.nested call (h.reads_iff.mpr hb) (ih' (hA.destination hc)) ret (h.reads_iff.mpr ha)
        (ih hp).not_isStuck.1
    simpa [Position.reversed] using second.append (ih hp)

-- A key is entered from a return site only, and left by a call only. So between two states of the operand
-- that the run passes on one level, it has gone back along one transition or along a call and its return.
theorem backs_of_level (level : R.Level p w q) (hp : p ∈ A.ordinary) (hw : w.Unreserved) :
    Backs A table p w q := by
  have old {t : Transition} (ht : t ∈ A.ordinaryTransitions) :
      t ∈ A.transitions ∧ ∀ q ∈ t.states, q ∈ A.ordinary :=
    hA.mem_ordinaryTransitions.mp ht
  induction level with
  | nil => exact .state hp (.nil (mem_ordinary.mp hp).2)
  | @rest p q r w _ ht _ ih =>
    cases (h.transitions _).mp ht with
    | internal ht =>
      obtain ⟨ht, ordinary⟩ := old ht
      obtain ⟨hr, hq⟩ : r ∈ A.ordinary ∧ q ∈ A.ordinary := by simpa [Transition.states] using ordinary
      have first : A.Level r [] q := (Level.nil (mem_ordinary.mp hr).2).rest ht (mem_ordinary.mp hq).2
      exact .state hr (first.append (h.level_of_backs (ih hp hw) hq))
    | turn ht hk =>
      have hq : q ∈ A.ordinary := (old ht).2 q Transition.destination_mem_states
      exact .turned ht hk (h.level_of_backs (ih hp hw) hq)
  | @internal p q r l a w _ ht hl _ ih =>
    obtain ⟨hw, ha⟩ := Word.unreserved_append.mp hw
    cases (h.transitions _).mp ht with
    | internal ht =>
      obtain ⟨ht, ordinary⟩ := old ht
      obtain ⟨hr, hq⟩ : r ∈ A.ordinary ∧ q ∈ A.ordinary := by simpa [Transition.states] using ordinary
      have first : A.Level r ([] ++ [.internal a]) q :=
        (Level.nil (mem_ordinary.mp hr).2).internal ht (h.reads_iff.mp hl) (mem_ordinary.mp hq).2
      have joined := first.append (h.level_of_backs (ih hp hw) hq)
      exact .state hr (by simpa [Position.reversed] using joined)
    | turn        => exact absurd rfl (ne_ε_of_reads hl (Word.unreserved_cons.mp ha).1)
  | @nested p q e x r l m a b v w _ hc ha _ ht hm _ ih ih' =>
    obtain ⟨hw, _⟩ := Word.unreserved_append.mp hw
    obtain ⟨hw, hv⟩ := Word.unreserved_append.mp hw
    have hv := (Word.unreserved_cons.mp hv).2
    cases (h.transitions _).mp hc with
    | @call _ _ _ s _ hc hk =>
    cases (h.transitions _).mp ht with
    | ret _ hk' ht =>
    cases ih hp hw with
    | state hq _           => exact absurd hk (h.apart _ hc q hq)
    | turned _ hk'' level  =>
      -- The keys that are entered, pushed and popped are the same, so they are of the same sites.
      cases Option.some.inj (hk.symm.trans hk')
      cases Option.some.inj (hk.symm.trans hk'')
      obtain ⟨hc, ordinary⟩ := old hc
      obtain ⟨ht, ordinary'⟩ := old ht
      obtain ⟨he, hr, hs⟩ : e ∈ A.ordinary ∧ r ∈ A.ordinary ∧ s ∈ A.ordinary := by
        simpa [Transition.states] using ordinary
      have hx : x ∈ A.ordinary := ordinary' x Transition.destination_mem_states
      have inner : A.Level x v.reversed e := h.level_of_backs (ih' he hv) hx
      have first : A.Level r ([] ++ .call b :: v.reversed ++ [.ret a]) s :=
        (Level.nil (mem_ordinary.mp hr).2).nested ht (h.reads_iff.mp hm) inner hc (h.reads_iff.mp ha)
          (mem_ordinary.mp hs).2
      exact .state hr (by simpa [Position.reversed] using first.append level)

theorem accepts_iff (hw : w.Unreserved) : A.Accepts w ↔ R.Accepts w.reversed := by
  rw [accepts_iff_level, accepts_iff_level]
  constructor
  case mp  =>
    intro ⟨p, hp, q, hq, level⟩
    have ⟨hp', hq'⟩ := level.not_isStuck
    refine ⟨q, ?_, p, ?_, h.level_reversed hA level (hA.states.initial p hp)⟩
    · exact (h.initial q).mpr (mem_ordinaryFinal.mpr ⟨hq, hq'⟩)
    · exact (h.final p).mpr (mem_ordinaryInitial.mpr ⟨hp, hp'⟩)
  case mpr =>
    intro ⟨q, hq, p, hp, level⟩
    have hq := (h.initial q).mp hq
    have hp := (h.final p).mp hp
    have backs := h.backs_of_level hA level (hA.ordinary_of_final hq) (Word.unreserved_reversed.mpr hw)
    have back := h.level_of_backs backs (hA.ordinary_of_initial hp)
    rw [Word.reversed_reversed] at back
    exact ⟨p, (mem_ordinaryInitial.mp hp).1, q, (mem_ordinaryFinal.mp hq).1, back⟩

end Reversed

def turned (A : Automaton ι) (pushed : Key) (t : Return) : List Transition :=
  .internal ⟨t.returnSite, .ε, pushed⟩ :: .call ⟨pushed, t.symbol, t.exit⟩ ::
    ((A.transitions.callsFrom t.callSite).filter (¬A.IsStuck ·.entry)).map
      fun c => .ret ⟨c.entry, pushed, c.symbol, c.callSite⟩

def backward (A : Automaton ι) : List Transition :=
  A.ordinaryTransitions.filterMap fun
    | .internal t => some (.internal ⟨t.target, t.symbol, t.source⟩)
    | _           => none

def returns (A : Automaton ι) : List Return :=
  A.ordinaryTransitions.filterMap fun
    | .ret t => some t
    | _      => none

def paired (table : KeyTable) (ts : List Return) : KeyTable :=
  ts.foldl (fun table t => (table.pair t.returnSite t.callSite).2) table

def turns (A : Automaton ι) (table : KeyTable) (ts : List Return) : List Transition :=
  ts.flatMap fun t => A.turned (table.pair t.returnSite t.callSite).1 t

def mirror (A : Automaton ι) (stuck : Key) (table : KeyTable) : Automaton ι :=
  let R := (ofStuck stuck).copyStates A
  let R := (R.addInitials A.ordinaryFinal).addFinals A.ordinaryInitial
  R.addAll (A.backward ++ A.turns table A.returns)

section Reverse

variable {ts : List Return} {t : Return} {c k r : Key} {u : Transition}

theorem shapes_prefix_paired : table.shapes <+: (paired table ts).shapes :=
  List.foldlRecOn (motive := fun t : KeyTable => table.shapes <+: t.shapes) _ _ List.prefix_rfl
    fun _ grown _ _ => grown.trans KeyTable.shapes_prefix_intern

theorem fst_pair_of_shape? (h : table.shape? k = some (.pair r c)) : (table.pair r c).1 = k :=
  congrArg Prod.fst (KeyTable.intern_of_shape? h)

theorem shape?_paired_cons : (paired table (t :: ts)).shape? (table.pair t.returnSite t.callSite).1 =
    some (.pair t.returnSite t.callSite) :=
  have grown : (table.pair t.returnSite t.callSite).2.shapes <+: (paired table (t :: ts)).shapes :=
    shapes_prefix_paired
  KeyTable.shape?_of_grown grown KeyTable.shape?_intern

theorem exists_shape?_paired (h : t ∈ ts) :
    ∃ k, (paired table ts).shape? k = some (.pair t.returnSite t.callSite) := by
  induction ts generalizing table with
  | nil => cases h
  | cons u ts ih =>
    cases h with
    | head      => exact ⟨_, shape?_paired_cons⟩
    | tail _ ht => exact ih ht

theorem foldl_reverseReturn :
    ts.foldl (fun (R, table) t => A.reverseReturn R table t) (R, table) =
      (R.addAll (A.turns (paired table ts) ts), paired table ts) := by
  induction ts generalizing R table with
  | nil => rfl
  | cons t ts ih =>
    rw [turns, List.flatMap_cons, addAll_append, fst_pair_of_shape? shape?_paired_cons]
    exact ih

theorem reverse_eq (free : stuck ∈ A.states → A.IsStuck stuck) :
    A.reverse (.designated stuck) table =
      .ok (A.mirror stuck (paired table A.returns), paired table A.returns) := by
  simp only [reverse, Stuck.require, requireFree_eq_ok free, bind, Except.bind]
  refine congrArg Except.ok (foldl_reverseReturn.trans (Prod.ext ?_ rfl))
  refine (congrArg (addAll · _) ?_).trans addAll_append.symm
  rw [addAll, backward, List.foldl_filterMap]
  congr
  funext R t
  cases t <;> rfl

theorem mem_backward :
    u ∈ A.backward ↔ ∃ p l q, .internal ⟨p, l, q⟩ ∈ A.ordinaryTransitions ∧ u = .internal ⟨q, l, p⟩ := by
  rw [backward, List.mem_filterMap]
  constructor
  case mp  =>
    rintro ⟨t, ht, hu⟩
    cases t with
    | internal   => exact ⟨_, _, _, ht, (Option.some.inj hu).symm⟩
    | call | ret => cases hu
  case mpr =>
    rintro ⟨p, l, q, ht, rfl⟩
    exact ⟨_, ht, rfl⟩

theorem mem_returns : t ∈ A.returns ↔ .ret t ∈ A.ordinaryTransitions := by
  rw [returns, List.mem_filterMap]
  constructor
  case mp  =>
    rintro ⟨u, hu, ht⟩
    cases u with
    | ret             => exact Option.some.inj ht ▸ hu
    | internal | call => cases ht
  case mpr => exact fun ht => ⟨_, ht, rfl⟩

theorem mem_turned (ht : .ret t ∈ A.ordinaryTransitions) :
    u ∈ A.turned k t ↔ u = .internal ⟨t.returnSite, .ε, k⟩ ∨ u = .call ⟨k, t.symbol, t.exit⟩ ∨
      ∃ b e, .call ⟨t.callSite, b, e⟩ ∈ A.ordinaryTransitions ∧ u = .ret ⟨e, k, b, t.callSite⟩ := by
  simp only [turned, List.mem_cons, List.mem_map, List.mem_filter, Transitions.mem_callsFrom,
    decide_eq_true_eq]
  refine or_congr_right (or_congr_right ?_)
  have site : ¬A.IsStuck t.callSite := (ret_mem_ordinaryTransitions.mp ht).2.2.1
  constructor
  case mp  =>
    rintro ⟨⟨_, b, e⟩, ⟨⟨hc, rfl⟩, he⟩, rfl⟩
    exact ⟨b, e, call_mem_ordinaryTransitions.mpr ⟨hc, site, he⟩, rfl⟩
  case mpr =>
    rintro ⟨b, e, hc, rfl⟩
    obtain ⟨hc, _, he⟩ := call_mem_ordinaryTransitions.mp hc
    exact ⟨_, ⟨⟨hc, rfl⟩, he⟩, rfl⟩

theorem mem_mirrored (known : ∀ t ∈ A.returns, ∃ k, table.shape? k = some (.pair t.returnSite t.callSite)) :
    u ∈ A.backward ++ A.turns table A.returns ↔ Mirrored A table u := by
  rw [List.mem_append, mem_backward, turns, List.mem_flatMap]
  constructor
  case mp  =>
    rintro (⟨p, l, q, ht, rfl⟩ | ⟨t, ht, hu⟩)
    case inl => exact .internal ht
    case inr =>
      have ⟨k, hk⟩ := known t ht
      have ht := mem_returns.mp ht
      rw [fst_pair_of_shape? hk, mem_turned ht] at hu
      rcases hu with rfl | rfl | ⟨b, e, hc, rfl⟩
      · exact .turn ht hk
      · exact .call ht hk
      · exact .ret ht hk hc
  case mpr =>
    intro h
    cases h with
    | internal ht   => exact .inl ⟨_, _, _, ht, rfl⟩
    | turn ht hk    =>
      refine .inr ⟨_, mem_returns.mpr ht, (mem_turned ht).mpr (.inl ?_)⟩
      rw [fst_pair_of_shape? hk]
    | call ht hk    =>
      refine .inr ⟨_, mem_returns.mpr ht, (mem_turned ht).mpr (.inr (.inl ?_))⟩
      rw [fst_pair_of_shape? hk]
    | ret ht hk hc  =>
      refine .inr ⟨_, mem_returns.mpr ht, (mem_turned ht).mpr (.inr (.inr ⟨_, _, hc, ?_⟩))⟩
      rw [fst_pair_of_shape? hk]

section Mirrored

variable (h : Mirrored A table u) (hA : A.WellFormed)
include h hA

theorem Mirrored.labelled : u.Labelled := by
  have old {t : Transition} (ht : t ∈ A.ordinaryTransitions) : t.Labelled :=
    hA.labelled t (mem_ordinaryTransitions.mp ht).1
  cases h with
  | internal | turn => trivial
  | call ht         => exact (old ht :)
  | ret _ _ hc      => exact (old hc :)

theorem Mirrored.label : u.label ∈ A.alphabet ∨ u.label.Reserved := by
  have old {t : Transition} (ht : t ∈ A.ordinaryTransitions) : t.label ∈ A.alphabet ∨ t.label.Reserved :=
    hA.labels t (mem_ordinaryTransitions.mp ht).1
  cases h with
  | turn                  => exact .inr (.inl rfl)
  | internal ht | call ht => exact (old ht :)
  | ret _ _ hc            => exact (old hc :)

theorem Mirrored.origin : u.origin ∈ A.ordinary ∨ ∃ r c, table.shape? u.origin = some (.pair r c) := by
  have old {t : Transition} (ht : t ∈ A.ordinaryTransitions) : t.destination ∈ A.ordinary :=
    (hA.mem_ordinaryTransitions.mp ht).2 _ Transition.destination_mem_states
  cases h with
  | call _ hk             => exact .inr ⟨_, _, hk⟩
  | internal ht | turn ht => exact .inl (old ht)
  | ret _ _ hc            => exact .inl (old hc)

end Mirrored

theorem reversed_mirror (hA : A.WellFormed) (free : stuck ∈ A.states → A.IsStuck stuck)
    (known : ∀ t ∈ A.returns, ∃ k, table.shape? k = some (.pair t.returnSite t.callSite))
    (apart : ∀ t : Return, .ret t ∈ A.transitions →
      ∀ q ∈ A.states, table.key? (.pair t.returnSite t.callSite) ≠ some q)
    (spare : ∀ p q, table.key? (.pair p q) ≠ some stuck) : Reversed A table (A.mirror stuck table) := by
  have growth : Growth (ofStuck stuck) (A.mirror stuck table) :=
    .addAll <| .addFinals <| .addInitials growth_copyStates
  have absorbing := growth.absorbing .ofStuck
  have copied : Placed [A] stuck [] [] _ := Placed.ofStuck.copyStates
  have begun : Placed [A] stuck A.ordinaryFinal [] _ := copied.addInitials (l := A.ordinaryFinal)
  have placed : Placed [A] stuck A.ordinaryFinal A.ordinaryInitial _ :=
    begun.addFinals (l := A.ordinaryInitial) fun q hq =>
      not_isStuck_of_free begun.mode free (hA.ordinary_of_initial hq)
  simp only [mirror] at absorbing ⊢
  generalize (((ofStuck stuck).copyStates A).addInitials _).addFinals _ = R at *
  have not_isStuck {S : Automaton ι} {k r c : Key} (hS : S.states.stuck = .designated stuck)
      (hk : table.shape? k = some (.pair r c)) : ¬S.IsStuck k := by
    rw [isStuck_iff hS]
    rintro rfl
    exact spare r c (KeyTable.key?_eq_some_iff.mpr hk)
  constructor
  case absorbing   => exact absorbing
  case initial     => exact fun q => initial_addAll.symm ▸ placed.initial q
  case final       => exact fun q => final_addAll.symm ▸ placed.final q
  case alphabet    =>
    intro a
    have symbols {a : Key} : a ∈ R.alphabet ↔ a ∈ A.alphabet := by simp [placed.alphabet]
    refine (mem_alphabet_addAll fun t ht => ?_).trans symbols
    exact (((mem_mirrored known).mp ht).label hA).imp_left symbols.mpr
  case transitions =>
    intro t
    rw [mem_transitions_addAll, or_iff_right placed.not_mem_transitions, mem_mirrored known]
    refine and_iff_left_of_imp fun ht => ⟨ht.labelled hA, fun leaves => ?_⟩
    -- What is mirrored starts in an ordinary state or in a key, neither of which is the stuck state.
    rcases ht.origin hA with ordinary | ⟨_, _, hk⟩
    · exact not_isStuck_of_free placed.mode free ordinary leaves.1
    · exact not_isStuck placed.mode hk leaves.1
  case ordinary    => exact fun q => not_isStuck_of_free (stuck_addAll.trans placed.mode) free
  case known       =>
    intro t ht
    have ⟨k, hk⟩ := known t (mem_returns.mpr ht)
    exact ⟨k, hk, not_isStuck (stuck_addAll.trans placed.mode) hk⟩
  case apart       =>
    intro t ht q hq hk
    have mem := (mem_ordinary.mp hq).1
    exact apart t (mem_ordinaryTransitions.mp ht).1 q mem (KeyTable.key?_eq_some_iff.mpr hk)

end Reverse

-- The search in the operand finds about a word what the search in the reverse finds about the word
-- backwards, as long as the keys of the pairs are no states of the operand and not the stuck state of the
-- reverse.
theorem search_reverse_eq (hA : A.Obtained) (abs : A.Absorbing) (table : KeyTable)
    (free : stuck ∈ A.states → A.IsStuck stuck) :
    ∃ R table', A.reverse (.designated stuck) table = .ok (R, table') ∧
      ((∀ t : Return, .ret t ∈ A.transitions →
          ∀ q ∈ A.states, table'.key? (.pair t.returnSite t.callSite) ≠ some q) →
        (∀ p q, table'.key? (.pair p q) ≠ some stuck) →
          ∀ w : Word, w.WellMatched → w.Unreserved → A.search w = R.search w.reversed) := by
  refine ⟨_, _, reverse_eq free, fun apart spare w hm hw => ?_⟩
  have known : ∀ t ∈ A.returns, ∃ k, (paired table A.returns).shape? k = some _ :=
    fun _ => exists_shape?_paired
  have reversed := reversed_mirror hA.wellFormed free known apart spare
  apply search_eq_of_iff hm hm.reversed
  rw [search_eq_true_iff abs, search_eq_true_iff reversed.absorbing, reversed.accepts_iff hA.wellFormed hw]

theorem search_reverse_bracketed :
    ∃ R table', (brackets ⟨3⟩ [⟨4⟩]).reverse (.designated ⟨7⟩) bracketKeys = .ok (R, table') ∧
      R.search bracketed.reversed = .ok true := by
  have ⟨R, table', hR, same⟩ := @search_reverse_eq _ (brackets ⟨3⟩ [⟨4⟩]) ⟨7⟩ obtained_brackets
    absorbing_brackets bracketKeys (by decide)
  refine ⟨R, table', hR, (same ?_ ?_ bracketed (by decide) (by decide)).symm.trans (by decide)⟩
  all_goals
    rw [reverse_eq (by decide)] at hR
    cases hR
  · intro t _ q hq
    have states : ∀ q ∈ (brackets ⟨3⟩ [⟨4⟩]).states.members.toList, q = ⟨2⟩ ∨ q = ⟨3⟩ ∨ q = ⟨4⟩ := by
      decide
    rcases states q hq with rfl | rfl | rfl <;>
      exact KeyTable.key?_ne_of_name rfl shapes_prefix_paired nofun
  · intro p q
    have named : bracketKeys.shape? ⟨7⟩ = some (.name "stuck") := rfl
    exact KeyTable.key?_ne_of_name named shapes_prefix_paired nofun

end NestedAutomata.Automaton
