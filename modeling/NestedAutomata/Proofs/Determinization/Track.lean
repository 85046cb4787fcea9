import NestedAutomata.Determinization.Basic
import NestedAutomata.Proofs.Membership.Search

namespace NestedAutomata

-- A prefix of a word is tracked by the relation of the current level of nesting, and by those that the
-- levels around it had at their calls.
@[ext]
structure Track where
  current : Relation
  callers : List Relation

namespace Automaton

variable {ι : Type} {A : Automaton ι} {r exit callSite : Relation} {o q a : Key} {l : List Link}
variable {t : Track} {c d e : Configuration} {x : Position} {w : Word}

section Links

theorem mem_closeLinks :
    ⟨o, q⟩ ∈ A.closeLinks l ↔ ∃ p, ⟨o, p⟩ ∈ l ∧ A.Rests p q ∧ ¬A.IsStuck q := by
  simp only [closeLinks, SortedSet.mem_ofList, List.mem_flatMap, List.mem_map, List.mem_filter,
    SortedSet.mem_toList, mem_εClosure, decide_eq_true_eq]
  constructor
  case mp =>
    rintro ⟨⟨_, p⟩, hl, _, ⟨path, hq⟩, heq⟩
    cases heq
    exact ⟨p, hl, path, hq⟩
  case mpr =>
    rintro ⟨p, hl, path, hq⟩
    exact ⟨_, hl, q, ⟨path, hq⟩, rfl⟩

theorem mem_startRelation :
    ⟨o, q⟩ ∈ A.startRelation ↔ o ∈ A.ordinaryInitial ∧ A.Rests o q ∧ ¬A.IsStuck q := by
  simp only [startRelation, mem_closeLinks, List.mem_map]
  constructor
  case mp =>
    rintro ⟨p, ⟨_, hp, heq⟩, rest⟩
    cases heq
    exact ⟨hp, rest⟩
  case mpr =>
    intro ⟨ho, rest⟩
    exact ⟨o, ⟨o, ho, rfl⟩, rest⟩

theorem mem_internalRelation :
    ⟨o, q⟩ ∈ A.internalRelation r a ↔
      ∃ p, ⟨o, p⟩ ∈ r ∧ ∃ s ∈ A.internalTargets p a, A.Rests s q ∧ ¬A.IsStuck q := by
  simp only [internalRelation, mem_closeLinks, List.mem_flatMap, List.mem_map, SortedSet.mem_toList]
  constructor
  case mp =>
    rintro ⟨s, ⟨⟨_, p⟩, hl, _, hs, heq⟩, rest⟩
    cases heq
    exact ⟨p, hl, _, hs, rest⟩
  case mpr =>
    rintro ⟨p, hl, s, hs, rest⟩
    exact ⟨s, ⟨_, hl, s, hs, rfl⟩, rest⟩

theorem mem_callRelation :
    ⟨o, q⟩ ∈ A.callRelation r a ↔
      (∃ p, ⟨p, o⟩ ∈ r) ∧ ∃ s ∈ A.callEntries o a, A.Rests s q ∧ ¬A.IsStuck q := by
  simp only [callRelation, mem_closeLinks, List.mem_flatMap, List.mem_map, SortedSet.mem_toList]
  constructor
  case mp =>
    rintro ⟨s, ⟨⟨p, _⟩, hl, _, hs, heq⟩, rest⟩
    cases heq
    exact ⟨⟨p, hl⟩, _, hs, rest⟩
  case mpr =>
    rintro ⟨⟨p, hl⟩, s, hs, rest⟩
    exact ⟨s, ⟨_, hl, s, hs, rfl⟩, rest⟩

theorem mem_returnRelation :
    ⟨o, q⟩ ∈ A.returnRelation exit callSite a ↔
      ∃ site p, ⟨o, site⟩ ∈ callSite ∧ ⟨site, p⟩ ∈ exit ∧
        ∃ s ∈ A.returnTargets p site a, A.Rests s q ∧ ¬A.IsStuck q := by
  simp only [returnRelation, mem_closeLinks, List.mem_flatMap, List.mem_map, List.mem_filter,
    SortedSet.mem_toList, decide_eq_true_eq]
  constructor
  case mp =>
    rintro ⟨s, ⟨⟨_, site⟩, hc, ⟨_, p⟩, ⟨hx, rfl⟩, _, hs, heq⟩, rest⟩
    cases heq
    exact ⟨_, p, hc, hx, _, hs, rest⟩
  case mpr =>
    rintro ⟨site, p, hc, hx, s, hs, rest⟩
    exact ⟨s, ⟨_, hc, _, ⟨hx, rfl⟩, s, hs, rfl⟩, rest⟩

end Links

-- A return without a call leads nowhere.
def advance (A : Automaton ι) (t : Track) : Position → Track
  | .internal a => ⟨A.internalRelation t.current a, t.callers⟩
  | .call a     => ⟨A.callRelation t.current a, t.current :: t.callers⟩
  | .ret a      =>
    match t.callers with
    | []           => ⟨∅, []⟩
    | r :: callers => ⟨A.returnRelation t.current r a, callers⟩

theorem current_advance_of_empty (h : t.current = ∅) : (A.advance t x).current = ∅ := by
  obtain ⟨_, rs⟩ := t
  obtain rfl : _ = ∅ := h
  apply SortedSet.ext_mem
  rintro ⟨o, q⟩
  have none {p p' : Key} : ⟨p, p'⟩ ∉ (∅ : Relation) := SortedSet.not_mem_empty
  cases x with
  | internal a => simp [advance, mem_internalRelation, none]
  | call a     => simp [advance, mem_callRelation, none]
  | ret a      => cases rs <;> simp [advance, mem_returnRelation, none]

theorem current_foldl_advance_of_empty (h : t.current = ∅) : (w.foldl A.advance t).current = ∅ :=
  List.foldlRecOn (motive := fun t : Track => t.current = ∅) w _ h
    fun _ h _ _ => current_advance_of_empty h

def track (A : Automaton ι) (w : Word) : Track :=
  w.foldl A.advance ⟨A.startRelation, []⟩

theorem current_track_of_empty (h : A.startRelation = ∅) : (A.track w).current = ∅ :=
  current_foldl_advance_of_empty h

end Automaton

namespace Track

-- The relations of the callers lead from `o` up to the call site on top of the stack.
inductive Origin (o : Key) : List Relation → List Key → Key → Prop
  | start                : Origin o [] [] o
  | call {r rs p site s} : Origin o rs s p → ⟨p, site⟩ ∈ r → Origin o (r :: rs) (site :: s) site

def Spans (o : Key) (t : Track) (c : Configuration) : Prop :=
  ∃ p, Origin o t.callers c.calls p ∧ ⟨p, c.state⟩ ∈ t.current

end Track

namespace Automaton

open Track

variable {ι : Type} {A : Automaton ι} {o : Key} {t : Track} {c d e : Configuration} {x : Position}
variable {w : Word}

def Rested (A : Automaton ι) (o : Key) (t : Track) : Prop :=
  ∀ e, t.Spans o e ↔ ∃ d, t.Spans o d ∧ A.Run d [] e

theorem length_callers_foldl_advance {m : Nat} (h : Word.depth? t.callers.length w = some m) :
    (w.foldl A.advance t).callers.length = m := by
  induction w generalizing t with
  | nil => exact Option.some.inj h
  | cons x w ih =>
    obtain ⟨r, rs⟩ := t
    cases x with
    | internal | call => exact ih h
    | ret =>
      cases rs with
      | nil  => cases h
      | cons => exact ih h

theorem callers_track (hw : w.WellMatched) : (A.track w).callers = [] :=
  List.length_eq_zero_iff.mp (length_callers_foldl_advance (Word.wellMatched_iff.mp hw))

section Absorbing

variable (h : A.Absorbing)
include h

theorem spans_start :
    Spans o ⟨A.startRelation, []⟩ e ↔ o ∈ A.states.initial ∧ A.Run ⟨o, []⟩ [] e := by
  simp only [Spans, run_nil_iff h, mem_startRelation, ordinaryInitial, List.mem_filter,
    SortedSet.mem_toList, decide_eq_true_eq]
  constructor
  case mp =>
    rintro ⟨p, org, ⟨hp, _⟩, rest, he⟩
    cases hs : e.calls with
    | nil      => rw [hs] at org; cases org; exact ⟨hp, rest, he, rfl⟩
    | cons _ _ => rw [hs] at org; cases org
  case mpr =>
    rintro ⟨ho, rest, he, hs⟩
    have ho' : ¬A.IsStuck o := (rest.run (s := []) h he).not_isStuck
    exact ⟨o, hs ▸ .start, ⟨ho, ho'⟩, rest, he⟩

theorem spans_advance :
    (A.advance t x).Spans o e ↔ ∃ c d, t.Spans o c ∧ A.Step c [x] d ∧ A.Run d [] e := by
  obtain ⟨r, rs⟩ := t
  obtain ⟨q, s⟩ := e
  simp only [Spans, run_nil_iff h]
  cases x with
  | internal a =>
    simp only [advance, mem_internalRelation, mem_internalTargets]
    constructor
    case mp =>
      intro ⟨p, org, p', hl, s', ⟨l, ht, hr⟩, rest, hq⟩
      exact ⟨⟨p', s⟩, ⟨s', s⟩, ⟨p, org, hl⟩, .internal ht hr, rest, hq, rfl⟩
    case mpr =>
      intro ⟨c, d, ⟨p, org, hl⟩, st, rest, hq, hs⟩
      cases st with
      | internal ht hr => exact ⟨p, hs ▸ org, _, hl, _, ⟨_, ht, hr⟩, rest, hq⟩
  | call a =>
    simp only [advance, mem_callRelation, mem_callEntries]
    constructor
    case mp =>
      intro ⟨p, org, _, s', ⟨l, ht, hr⟩, rest, hq⟩
      cases org with
      | call org hl => exact ⟨_, _, ⟨_, org, hl⟩, .call ht hr, rest, hq, rfl⟩
    case mpr =>
      intro ⟨c, d, ⟨p, org, hl⟩, st, rest, hq, hs⟩
      cases st with
      | call ht hr => exact ⟨_, hs ▸ .call org hl, ⟨p, hl⟩, _, ⟨_, ht, hr⟩, rest, hq⟩
  | ret a =>
    cases rs with
    | nil =>
      -- No call is open, so there is nothing to return to on either side.
      constructor
      case mp => intro ⟨_, _, hl⟩; cases hl
      case mpr =>
        intro ⟨c, d, ⟨p, org, hl⟩, st, _⟩
        cases st with
        | ret => cases org
    | cons r' rs =>
      simp only [advance, mem_returnRelation, mem_returnTargets]
      constructor
      case mp =>
        intro ⟨p, org, site, p', hc, hx, s', ⟨l, ht, hr⟩, rest, hq⟩
        exact ⟨⟨p', site :: s⟩, ⟨s', s⟩, ⟨site, .call org hc, hx⟩, .ret ht hr, rest, hq, rfl⟩
      case mpr =>
        intro ⟨c, d, ⟨p, org, hl⟩, st, rest, hq, hs⟩
        cases st with
        | ret ht hr =>
          cases org with
          | call org hc => exact ⟨_, hs ▸ org, _, _, hc, hl, _, ⟨_, ht, hr⟩, rest, hq⟩

theorem rested_start : A.Rested o ⟨A.startRelation, []⟩ := by
  intro e
  simp only [spans_start h]
  constructor
  case mp =>
    intro ⟨ho, r⟩
    exact ⟨e, ⟨ho, r⟩, .nil r.not_isStuck_last⟩
  case mpr =>
    intro ⟨d, ⟨ho, r⟩, r'⟩
    exact ⟨ho, r.append r'⟩

theorem rested_advance : A.Rested o (A.advance t x) := by
  intro e
  simp only [spans_advance h]
  constructor
  case mp =>
    intro ⟨c, d, hc, st, r⟩
    exact ⟨e, ⟨c, d, hc, st, r⟩, .nil r.not_isStuck_last⟩
  case mpr =>
    intro ⟨_, ⟨c, d, hc, st, r⟩, r'⟩
    exact ⟨c, d, hc, st, r.append r'⟩

theorem spans_foldl_advance (ht : A.Rested o t) :
    (w.foldl A.advance t).Spans o e ↔ ∃ d, t.Spans o d ∧ A.Run d w e := by
  induction w generalizing t with
  | nil => exact ht e
  | cons x w ih =>
    simp only [List.foldl_cons, ih (rested_advance h), spans_advance h, run_cons_iff]
    constructor
    case mp =>
      intro ⟨d', ⟨c, d, hc, st, r⟩, r'⟩
      have ⟨b, hb, rb⟩ := (ht c).mp hc
      exact ⟨b, hb, c, d, rb, st, r.append r'⟩
    case mpr =>
      intro ⟨b, hb, c, d, rb, st, r⟩
      exact ⟨d, ⟨c, d, (ht c).mpr ⟨b, hb, rb⟩, st, .nil r.not_isStuck⟩, r⟩

-- A prefix is tracked by what its runs do, each counted under the initial state in which it starts.
theorem spans_track : (A.track w).Spans o e ↔ o ∈ A.states.initial ∧ A.Run ⟨o, []⟩ w e := by
  rw [track, spans_foldl_advance h (rested_start h)]
  simp only [spans_start h]
  constructor
  case mp =>
    intro ⟨d, ⟨ho, r⟩, r'⟩
    exact ⟨ho, r.append r'⟩
  case mpr =>
    intro ⟨ho, r⟩
    exact ⟨⟨o, []⟩, ⟨ho, .nil r.not_isStuck⟩, r⟩

theorem accepts_iff_track (hw : w.WellMatched) :
    A.Accepts w ↔ ∃ l ∈ (A.track w).current, l.target ∈ A.states.final := by
  have spans {o q : Key} : (A.track w).Spans o ⟨q, []⟩ ↔ ⟨o, q⟩ ∈ (A.track w).current := by
    simp only [Spans, callers_track hw]
    constructor
    case mp => intro ⟨_, org, hl⟩; cases org; exact hl
    case mpr => intro hl; exact ⟨o, .start, hl⟩
  simp only [spans_track h] at spans
  constructor
  case mp =>
    intro ⟨o, ho, q, hq, r⟩
    exact ⟨⟨o, q⟩, spans.mp ⟨ho, r⟩, hq⟩
  case mpr =>
    intro ⟨⟨o, q⟩, hl, hq⟩
    have ⟨ho, r⟩ := spans.mpr hl
    exact ⟨o, ho, q, hq, r⟩

end Absorbing

end Automaton

end NestedAutomata
