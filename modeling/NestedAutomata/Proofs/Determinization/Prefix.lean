import NestedAutomata.Proofs.Determinization.Moves

namespace NestedAutomata

namespace Track

variable {o p q : Key} {r : Relation} {rs : List Relation} {s : List Key}

theorem Origin.headD_eq (h : Origin o rs s p) : s.headD o = p := by
  cases h <;> rfl

-- On each level, the levels below it lead up to all origins of its links.
def Rooted : List Relation → Prop
  | []      => True
  | r :: rs => (∀ p q, ⟨p, q⟩ ∈ r → ∃ o s, Origin o rs s p) ∧ Rooted rs

end Track

namespace Automaton

open Track

variable {ι : Type} {A : Automaton ι} {o q : Key} {t : Track} {e : Configuration} {x : Position}
variable {w : Word}

theorem rooted_start : Rooted [A.startRelation] :=
  ⟨fun o _ _ => ⟨o, [], .start⟩, trivial⟩

theorem rooted_advance (h : Rooted (t.current :: t.callers)) :
    Rooted ((A.advance t x).current :: (A.advance t x).callers) := by
  obtain ⟨r, rs⟩ := t
  cases x with
  | internal a =>
    refine ⟨fun o q hl => ?_, h.2⟩
    have ⟨p, hp, _⟩ := mem_internalRelation.mp hl
    exact h.1 o p hp
  | call a =>
    refine ⟨fun o q hl => ?_, h⟩
    have ⟨⟨p, hp⟩, _⟩ := mem_callRelation.mp hl
    have ⟨i, s, org⟩ := h.1 p o hp
    exact ⟨i, o :: s, .call org hp⟩
  | ret a =>
    cases rs with
    | nil       => exact ⟨fun _ _ hl => absurd hl SortedSet.not_mem_empty, trivial⟩
    | cons r' rs =>
      have ⟨_, below, rooted⟩ := h
      refine ⟨fun o q hl => ?_, rooted⟩
      have ⟨site, _, hc, _⟩ := mem_returnRelation.mp hl
      exact below o site hc

theorem rooted_track : Rooted ((A.track w).current :: (A.track w).callers) :=
  List.foldlRecOn (motive := fun t : Track => Rooted (t.current :: t.callers)) w A.advance
    rooted_start fun _ h _ _ => rooted_advance h

-- The relation of the current level tells for all runs on the prefix where they end, and where they were
-- when the level was opened.
theorem mem_current_track (h : A.Absorbing) :
    ⟨o, q⟩ ∈ (A.track w).current ↔
      ∃ i ∈ A.states.initial, ∃ s, A.Run ⟨i, []⟩ w ⟨q, s⟩ ∧ s.headD i = o := by
  constructor
  case mp =>
    intro hl
    have ⟨i, s, org⟩ := (@rooted_track _ A w).1 o q hl
    have ⟨hi, run⟩ := (spans_track (e := ⟨q, s⟩) h).mp ⟨o, org, hl⟩
    exact ⟨i, hi, s, run, org.headD_eq⟩
  case mpr =>
    rintro ⟨i, hi, s, run, rfl⟩
    have ⟨p, org, hl⟩ := (spans_track h).mpr ⟨hi, run⟩
    exact org.headD_eq ▸ hl

theorem current_track_ne_empty_iff (h : A.Absorbing) :
    (A.track w).current ≠ ∅ ↔ ∃ i ∈ A.states.initial, ∃ e, A.Run ⟨i, []⟩ w e := by
  constructor
  case mp =>
    intro hr
    have ⟨⟨o, q⟩, hl⟩ := SortedSet.exists_mem_of_ne_empty hr
    have ⟨i, hi, s, run, _⟩ := (mem_current_track h).mp hl
    exact ⟨i, hi, ⟨q, s⟩, run⟩
  case mpr =>
    intro ⟨i, hi, ⟨q, s⟩, run⟩ empty
    have hl := (mem_current_track h).mpr ⟨i, hi, s, run, rfl⟩
    exact SortedSet.not_mem_empty (empty ▸ hl)

end Automaton

namespace Determinization

variable {ι : Type} {A : Automaton ι} {D : Determinization ι} {stuck : Key} {e : Configuration}
variable {w : Word}

namespace Complete

variable (h : Complete A stuck D) (hA : A.WellFormed) (hw : w.Unreserved)
include h hA hw

theorem follow_eq_some_iff :
    D.result.follow ⟨D.start.key, []⟩ w = some e ↔ D.Shows (A.track w) e :=
  (h.deterministic.follow_eq_some_iff h.wellFormed).trans (h.run_start_iff hA hw)

theorem follow_eq_none_iff :
    D.result.follow ⟨D.start.key, []⟩ w = none ↔ (A.track w).current = ∅ := by
  rw [Option.eq_none_iff_forall_ne_some]
  simp only [ne_eq, h.follow_eq_some_iff hA hw]
  constructor
  case mp  =>
    intro nowhere
    by_contra hr
    have ⟨e, he⟩ := h.exists_shows_track hA hw hr
    exact nowhere e he
  case mpr => exact fun hr e he => h.not_stands_empty (hr ▸ he.state)

theorem exists_isState_of_follow (he : D.result.follow ⟨D.start.key, []⟩ w = some e) :
    ∃ s, IsState D.result D.table s ∧ s.key = e.state ∧ s.relation = (A.track w).current := by
  obtain ⟨s, hs, rel, key⟩ := ((h.follow_eq_some_iff hA hw).mp he).state
  exact ⟨s, h.isState_iff.mpr hs, key, rel⟩

end Complete

end Determinization

namespace Automaton

open Determinization (IsState)

variable {ι : Type} {A : Automaton ι}

-- What the result follows on a word without reserved symbols, such as any word over the alphabet, is its
-- only run. It ends in the state of the relation that links the ends of all runs of the operand to the call
-- sites on top of their stacks, or to where they start if no call is open. It falls out if there is no run.
theorem follow_determinize_spec (hA : A.Obtained) (abs : A.Absorbing) (stuck : Key) (table : KeyTable) :
    ∃ D, A.determinize (.designated stuck) table = .ok D ∧
      ((∀ r, D.table.key? (.relation r) ≠ some stuck) →
        ∃ start, D.result.states.initial = {start} ∧ ∀ w : Word, w.Unreserved →
          (∀ e, D.result.follow ⟨start, []⟩ w = some e ↔ D.result.Run ⟨start, []⟩ w e) ∧
          (∀ e, D.result.follow ⟨start, []⟩ w = some e →
            ∃ s, IsState D.result D.table s ∧ s.key = e.state ∧ ∀ o q, ⟨o, q⟩ ∈ s.relation ↔
              ∃ i ∈ A.states.initial, ∃ calls, A.Run ⟨i, []⟩ w ⟨q, calls⟩ ∧ calls.headD i = o) ∧
          (D.result.follow ⟨start, []⟩ w = none ↔ ¬∃ i ∈ A.states.initial, ∃ e, A.Run ⟨i, []⟩ w e)) := by
  refine ⟨A.subsets stuck table, rfl, fun free => ?_⟩
  have complete := Determinization.subsets_complete hA.wellFormed free
  refine ⟨_, complete.started.initial, fun w hw => ⟨fun e => ?only, fun e he => ?state, ?out⟩⟩
  case only  => exact complete.deterministic.follow_eq_some_iff complete.wellFormed
  case state =>
    have ⟨s, hs, key, rel⟩ := complete.exists_isState_of_follow hA.wellFormed hw he
    exact ⟨s, hs, key, fun o q => rel ▸ mem_current_track abs⟩
  case out =>
    rw [complete.follow_eq_none_iff hA.wellFormed hw, ← current_track_ne_empty_iff abs, not_not]

theorem follow_determinize_bracketed :
    ∃ D, (brackets ⟨3⟩ [⟨4⟩]).determinize (.designated ⟨7⟩) bracketKeys = .ok D ∧
      D.result.follow ⟨⟨8⟩, []⟩ [.call ⟨5⟩] = some ⟨⟨9⟩, [⟨8⟩]⟩ ∧
      (∃ s, IsState D.result D.table s ∧ s.key = ⟨9⟩ ∧ ⟨⟨2⟩, ⟨3⟩⟩ ∈ s.relation) ∧
      D.result.follow ⟨⟨8⟩, []⟩ [.ret ⟨6⟩] = none := by
  have ⟨D, hD, spec⟩ := follow_determinize_spec (A := brackets ⟨3⟩ [⟨4⟩]) obtained_brackets
    absorbing_brackets ⟨7⟩ bracketKeys
  have free r : D.table.key? (.relation r) ≠ some ⟨7⟩ := by
    obtain rfl := Except.ok.inj hD
    exact KeyTable.key?_ne_of_name (t := bracketKeys) rfl Determinization.shapes_prefix_subsets nofun
  have ⟨start, initial, spec⟩ := spec free
  obtain rfl : start = ⟨8⟩ := by
    have mem : start ∈ D.result.states.initial := initial ▸ SortedSet.mem_singleton.mpr rfl
    obtain rfl := Except.ok.inj hD
    exact SortedSet.mem_singleton.mp (mem : start ∈ ({⟨8⟩} : SortedSet Key))
  have followed : D.result.follow ⟨⟨8⟩, []⟩ [.call ⟨5⟩] = some ⟨⟨9⟩, [⟨8⟩]⟩ := by
    obtain rfl := Except.ok.inj hD
    decide +kernel
  have ⟨_, state, _⟩ := spec [.call ⟨5⟩] (by decide)
  have ⟨_, _, out⟩ := spec [.ret ⟨6⟩] (by decide)
  have ⟨s, hs, key, links⟩ := state _ followed
  have run : (brackets ⟨3⟩ [⟨4⟩]).Run ⟨⟨2⟩, []⟩ [.call ⟨5⟩] ⟨⟨3⟩, [⟨2⟩]⟩ :=
    .cons (by decide) (.call (l := ⟨5⟩) (by decide) (.inl rfl)) (.nil (by decide))
  refine ⟨D, hD, followed, ⟨s, hs, key, (links _ _).mpr ⟨⟨2⟩, by decide, _, run, rfl⟩⟩, out.mpr ?_⟩
  rintro ⟨i, hi, e, run⟩
  cases (run.depth? : Word.depth? 0 [.ret ⟨6⟩] = _)

end Automaton

end NestedAutomata
