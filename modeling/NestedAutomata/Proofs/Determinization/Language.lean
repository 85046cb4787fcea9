import NestedAutomata.Proofs.Determinization.Saturation
import NestedAutomata.Proofs.Key.Table
import NestedAutomata.Proofs.Membership.Walk
import NestedAutomata.Proofs.Obtained

namespace NestedAutomata

namespace Determinization

open Subset (Task)

variable {ι : Type} {A : Automaton ι} {D : Determinization ι} {o p q a site stuck : Key}
variable {r r' : Relation} {s t : Subset} {task task' : Task} {k : Track}
variable {c d e : Configuration} {x : Position} {w : Word}

theorem Consistent.eq_of_move (h : Consistent A D) (hs : ∀ s ∈ task.sources, s ∈ D.known)
    (ht : ∀ s ∈ task'.sources, s ∈ D.known)
    (heq : (task.move s).transition = (task'.move t).transition) : task = task' ∧ s.key = t.key := by
  cases task with
  | internal u =>
    cases task' with
    | internal v =>
      obtain ⟨hk, ha, hq⟩ := Internal.mk.inj (Transition.internal.inj heq)
      have hu := h.eq_of_key (hs u List.mem_cons_self) (ht v List.mem_cons_self) hk
      exact ⟨by rw [hu, ha], hq⟩
    | call | ret => cases heq
  | call u =>
    cases task' with
    | call v =>
      obtain ⟨hk, ha, hq⟩ := Call.mk.inj (Transition.call.inj heq)
      have hu := h.eq_of_key (hs u List.mem_cons_self) (ht v List.mem_cons_self) hk
      exact ⟨by rw [hu, ha], hq⟩
    | internal | ret => cases heq
  | ret x c =>
    cases task' with
    | ret y d =>
      obtain ⟨hx, hc, ha, hq⟩ := Return.mk.inj (Transition.ret.inj heq)
      have hx := h.eq_of_key (hs x (by simp [Task.sources])) (ht y (by simp [Task.sources])) hx
      have hc := h.eq_of_key (hs c (by simp [Task.sources])) (ht d (by simp [Task.sources])) hc
      exact ⟨by rw [hx, hc, ha], hq⟩
    | internal | call => cases heq

theorem transition_move_congr (hk : s.key = t.key) :
    (task.move s).transition = (task.move t).transition := by
  cases task <;> simp [Task.move, Subset.Move.transition, hk]

namespace Complete

variable (h : Complete A stuck D)
include h

theorem label_mem_alphabet {t : Transition} (ht : t ∈ D.result.transitions) : t.label ∈ A.alphabet := by
  have ⟨task, s, sensible, _, _, heq⟩ := h.faithful.transitions t ht
  rw [← heq, label_move]
  exact sensible.symbol

theorem mem_move (hs : ∀ s ∈ task.sources, s ∈ D.known) :
    (task.move s).transition ∈ D.result.transitions ↔
      task.symbol ∈ A.alphabet ∧ ∃ t ∈ D.known, t.relation = task.relation A ∧ t.key = s.key := by
  constructor
  case mp =>
    intro ht
    have ⟨task', t, sensible, known, rel, heq⟩ := h.faithful.transitions _ ht
    obtain ⟨rfl, hk⟩ := h.consistent.eq_of_move sensible.sources hs heq
    exact ⟨sensible.symbol, t, known, rel, hk⟩
  case mpr =>
    intro ⟨ha, t, ht, rel, hk⟩
    have ⟨u, hu, rel', mem⟩ := h.done task ⟨hs, ha⟩ (rel ▸ h.consistent.nonempty t ht)
    obtain rfl := h.consistent.eq_of_relation ht hu (rel.trans rel'.symm)
    rwa [← transition_move_congr hk]

theorem reads_iff {t : Transition} (ht : t ∈ D.result.transitions) :
    D.result.Reads t.label a ↔ t.label = a := by
  have : t.label ≠ .wild := fun e => A.alphabet.unreserved _ (h.label_mem_alphabet ht) (.inr e)
  simp [Automaton.Reads, this]

theorem eq_of_mem_move (task : Task) (hs : ∀ s ∈ task.sources, s ∈ D.known)
    (ht : (task.move s).transition ∈ D.result.transitions)
    (hu : (task.move t).transition ∈ D.result.transitions) : s.key = t.key := by
  have ⟨_, s', hs', rel, hk⟩ := (h.mem_move hs).mp ht
  have ⟨_, t', ht', rel', hk'⟩ := (h.mem_move hs).mp hu
  obtain rfl := h.consistent.eq_of_relation hs' ht' (rel.trans rel'.symm)
  exact hk.symm.trans hk'

theorem eq_of_internal (ht : .internal ⟨q, a, o⟩ ∈ D.result.transitions)
    (hu : .internal ⟨q, a, p⟩ ∈ D.result.transitions) : o = p := by
  obtain ⟨task, v, sensible, _, _, heq⟩ := h.faithful.transitions _ ht
  cases task with
  | call | ret   => cases heq
  | internal w b =>
    cases heq
    exact h.eq_of_mem_move (.internal w a) (s := v) (t := ⟨p, ∅⟩) sensible.sources ht hu

theorem eq_of_call (ht : .call ⟨q, a, o⟩ ∈ D.result.transitions)
    (hu : .call ⟨q, a, p⟩ ∈ D.result.transitions) : o = p := by
  obtain ⟨task, v, sensible, _, _, heq⟩ := h.faithful.transitions _ ht
  cases task with
  | internal | ret => cases heq
  | call w b       =>
    cases heq
    exact h.eq_of_mem_move (.call w a) (s := v) (t := ⟨p, ∅⟩) sensible.sources ht hu

theorem eq_of_ret (ht : .ret ⟨q, site, a, o⟩ ∈ D.result.transitions)
    (hu : .ret ⟨q, site, a, p⟩ ∈ D.result.transitions) : o = p := by
  obtain ⟨task, v, sensible, _, _, heq⟩ := h.faithful.transitions _ ht
  cases task with
  | internal | call => cases heq
  | ret x c b       =>
    cases heq
    exact h.eq_of_mem_move (.ret x c a) (s := v) (t := ⟨p, ∅⟩) sensible.sources ht hu

theorem deterministic : D.result.Deterministic := by
  have unreserved {t : Transition} (ht : t ∈ D.result.transitions) : ¬t.label.Reserved :=
    A.alphabet.unreserved _ (h.label_mem_alphabet ht)
  constructor
  case start => rw [h.started.initial]; rfl
  case internals =>
    intro q _
    apply Automaton.Unambiguous.of_unreserved
    case unreserved => exact fun t ht => unreserved (Transitions.mem_internalsFrom.mp ht).1
    case nodup      => exact Index.nodup_get
    case unique     =>
      rintro ⟨_, a, o⟩ ht ⟨_, b, p⟩ hu hl
      obtain ⟨ht', rfl⟩ := Transitions.mem_internalsFrom.mp ht
      obtain ⟨hu', rfl⟩ := Transitions.mem_internalsFrom.mp hu
      obtain rfl : a = b := hl
      rw [h.eq_of_internal ht' hu']
  case calls =>
    intro q _
    apply Automaton.Unambiguous.of_unreserved
    case unreserved => exact fun t ht => unreserved (Transitions.mem_callsFrom.mp ht).1
    case nodup      => exact Index.nodup_get
    case unique     =>
      rintro ⟨_, a, o⟩ ht ⟨_, b, p⟩ hu hl
      obtain ⟨ht', rfl⟩ := Transitions.mem_callsFrom.mp ht
      obtain ⟨hu', rfl⟩ := Transitions.mem_callsFrom.mp hu
      obtain rfl : a = b := hl
      rw [h.eq_of_call ht' hu']
  case returns =>
    intro q _ site _
    apply Automaton.Unambiguous.of_unreserved
    case unreserved => exact fun t ht => unreserved (Transitions.mem_returnsPopping.mp ht).1
    case nodup      => exact Index.nodup_get.filter _
    case unique     =>
      rintro ⟨_, c, a, o⟩ ht ⟨_, d, b, p⟩ hu hl
      obtain ⟨ht', rfl, hc⟩ := Transitions.mem_returnsPopping.mp ht
      obtain ⟨hu', rfl, hd⟩ := Transitions.mem_returnsPopping.mp hu
      obtain rfl : c = d := hc.trans hd.symm
      obtain rfl : a = b := hl
      rw [h.eq_of_ret ht' hu']

end Complete

def Stands (D : Determinization ι) (r : Relation) (q : Key) : Prop :=
  ∃ s ∈ D.known, s.relation = r ∧ s.key = q

structure Shows (D : Determinization ι) (k : Track) (c : Configuration) : Prop where
  state : D.Stands k.current c.state
  calls : List.Forall₂ D.Stands k.callers c.calls

namespace Complete

variable (h : Complete A stuck D)
include h

theorem stands_unique (hp : D.Stands r p) (hq : D.Stands r q) : p = q := by
  obtain ⟨s, hs, rel, rfl⟩ := hp
  obtain ⟨t, ht, rel', rfl⟩ := hq
  rw [h.consistent.eq_of_relation hs ht (rel.trans rel'.symm)]

theorem shows_unique (hc : D.Shows k c) (hd : D.Shows k d) : c = d := by
  have unique : Relator.RightUnique D.Stands := fun _ _ _ => h.stands_unique
  exact Configuration.ext (unique hc.state hd.state) (unique.forall₂ hc.calls hd.calls)

theorem not_stands_empty : ¬D.Stands ∅ q :=
  fun ⟨s, hs, rel, _⟩ => h.consistent.nonempty s hs rel

theorem mem_move_of_unreserved (task : Task) (hA : A.WellFormed) (hs : ∀ s ∈ task.sources, s ∈ D.known)
    (ha : ¬task.symbol.Reserved) :
    (task.move s).transition ∈ D.result.transitions ↔ D.Stands (task.relation A) s.key := by
  rw [h.mem_move hs]
  refine and_iff_right_of_imp fun ⟨t, ht, rel, _⟩ => task.symbol_mem_alphabet hA ha ?_
  exact rel ▸ h.consistent.nonempty t ht

theorem exists_stands (task : Task) (hA : A.WellFormed) (hs : ∀ s ∈ task.sources, s ∈ D.known)
    (ha : ¬task.symbol.Reserved) (hr : task.relation A ≠ ∅) : ∃ q, D.Stands (task.relation A) q := by
  have ⟨t, ht, rel, _⟩ := h.done task ⟨hs, task.symbol_mem_alphabet hA ha hr⟩ hr
  exact ⟨t.key, t, ht, rel, rfl⟩

theorem mem_internal (hA : A.WellFormed) (hp : D.Stands r p) (ha : ¬a.Reserved) :
    .internal ⟨p, a, q⟩ ∈ D.result.transitions ↔ D.Stands (A.internalRelation r a) q := by
  obtain ⟨s, hs, rfl, rfl⟩ := hp
  exact h.mem_move_of_unreserved (.internal s a) (s := ⟨q, ∅⟩) hA (List.forall_mem_singleton.mpr hs) ha

theorem mem_call (hA : A.WellFormed) (hp : D.Stands r p) (ha : ¬a.Reserved) :
    .call ⟨p, a, q⟩ ∈ D.result.transitions ↔ D.Stands (A.callRelation r a) q := by
  obtain ⟨s, hs, rfl, rfl⟩ := hp
  exact h.mem_move_of_unreserved (.call s a) (s := ⟨q, ∅⟩) hA (List.forall_mem_singleton.mpr hs) ha

theorem mem_ret (hA : A.WellFormed) (hx : D.Stands r p) (hc : D.Stands r' site) (ha : ¬a.Reserved) :
    .ret ⟨p, site, a, q⟩ ∈ D.result.transitions ↔ D.Stands (A.returnRelation r r' a) q := by
  obtain ⟨s, hs, rfl, rfl⟩ := hx
  obtain ⟨t, ht, rfl, rfl⟩ := hc
  have sources := List.forall_mem_cons.mpr ⟨hs, List.forall_mem_singleton.mpr ht⟩
  exact h.mem_move_of_unreserved (.ret s t a) (s := ⟨q, ∅⟩) hA sources ha

theorem step_iff (hA : A.WellFormed) (hc : D.Shows k c) (hx : ¬x.symbol.Reserved) :
    D.result.Step c [x] e ↔ D.Shows (A.advance k x) e := by
  -- Labels of the result are symbols, so each position is read by transitions with its own symbol.
  have reads {t : Transition} {a : Key} (ht : t ∈ D.result.transitions) :=
    h.reads_iff (a := a) ht
  obtain ⟨p, s⟩ := c
  obtain ⟨state, calls⟩ := hc
  cases x with
  | internal a =>
    rw [Automaton.Step.internal_iff]
    constructor
    case mp =>
      rintro ⟨b, q, ht, hb, rfl⟩
      obtain rfl : b = a := (reads ht).mp hb
      exact ⟨(h.mem_internal hA state hx).mp ht, calls⟩
    case mpr =>
      intro he
      refine ⟨a, e.state, (h.mem_internal hA state hx).mpr he.state, .inl rfl, ?_⟩
      exact h.shows_unique he ⟨he.state, calls⟩
  | call a =>
    rw [Automaton.Step.call_iff]
    constructor
    case mp =>
      rintro ⟨b, q, ht, hb, rfl⟩
      obtain rfl : b = a := (reads ht).mp hb
      exact ⟨(h.mem_call hA state hx).mp ht, .cons state calls⟩
    case mpr =>
      intro he
      refine ⟨a, e.state, (h.mem_call hA state hx).mpr he.state, .inl rfl, ?_⟩
      exact h.shows_unique he ⟨he.state, .cons state calls⟩
  | ret a =>
    obtain ⟨r, rs⟩ := k
    rw [Automaton.Step.ret_iff]
    cases calls with
    | nil =>
      constructor
      case mp  => rintro ⟨_, _, _, _, hn, _⟩; cases hn
      case mpr => exact fun he => (h.not_stands_empty he.state).elim
    | cons site calls =>
      constructor
      case mp =>
        rintro ⟨_, _, b, q, hn, ht, hb, rfl⟩
        cases hn
        obtain rfl : b = a := (reads ht).mp hb
        exact ⟨(h.mem_ret hA state site hx).mp ht, calls⟩
      case mpr =>
        intro he
        refine ⟨_, _, a, e.state, rfl, (h.mem_ret hA state site hx).mpr he.state, .inl rfl, ?_⟩
        exact h.shows_unique he ⟨he.state, calls⟩

theorem exists_shows (hA : A.WellFormed) (hc : D.Shows k c) (hx : ¬x.symbol.Reserved)
    (hr : (A.advance k x).current ≠ ∅) : ∃ d, D.Shows (A.advance k x) d := by
  obtain ⟨r, rs⟩ := k
  obtain ⟨p, s⟩ := c
  obtain ⟨⟨t, ht, rfl, rfl⟩, calls⟩ := hc
  cases x with
  | internal a =>
    obtain ⟨q, hq⟩ := h.exists_stands (.internal t a) hA (List.forall_mem_singleton.mpr ht) hx hr
    exact ⟨⟨q, s⟩, hq, calls⟩
  | call a =>
    obtain ⟨q, hq⟩ := h.exists_stands (.call t a) hA (List.forall_mem_singleton.mpr ht) hx hr
    exact ⟨⟨q, t.key :: s⟩, hq, .cons ⟨t, ht, rfl, rfl⟩ calls⟩
  | ret a =>
    cases calls with
    | nil => exact absurd rfl hr
    | @cons _ _ _ s site calls =>
      obtain ⟨u, hu, rfl, rfl⟩ := site
      have sources := List.forall_mem_cons.mpr ⟨ht, List.forall_mem_singleton.mpr hu⟩
      obtain ⟨q, hq⟩ := h.exists_stands (.ret t u a) hA sources hx hr
      exact ⟨⟨q, s⟩, hq, calls⟩

theorem not_isStuck (hq : D.Stands r q) : ¬D.result.IsStuck q := by
  obtain ⟨s, hs, _, rfl⟩ := hq
  intro hk
  exact h.consistent.key_ne h.spares hs (Stuck.designated.inj (h.faithful.mode.symm.trans hk)).symm

-- The run of the result goes along with the relations, and is over as soon as there are none.
theorem run_iff (hA : A.WellFormed) (hc : D.Shows k c) (hw : w.Unreserved) :
    D.result.Run c w e ↔ D.Shows (w.foldl A.advance k) e := by
  induction w generalizing k c with
  | nil =>
    constructor
    case mp  => exact fun run => h.deterministic.run_nil h.wellFormed run ▸ hc
    case mpr => exact fun he => h.shows_unique hc he ▸ .nil (h.not_isStuck hc.state)
  | cons x w ih =>
    have ⟨hx, hw⟩ := Word.unreserved_cons.mp hw
    rw [Automaton.run_cons_iff, List.foldl_cons]
    constructor
    case mp =>
      intro ⟨d, d', run, st, run'⟩
      obtain rfl := h.deterministic.run_nil h.wellFormed run
      exact (ih ((h.step_iff hA hc hx).mp st) hw).mp run'
    case mpr =>
      intro he
      have hr : (A.advance k x).current ≠ ∅ := fun hr =>
        h.not_stands_empty (Automaton.current_foldl_advance_of_empty hr ▸ he.state)
      have ⟨d, hd⟩ := h.exists_shows hA hc hx hr
      exact ⟨c, d, .nil (h.not_isStuck hc.state), (h.step_iff hA hc hx).mpr hd, (ih hd hw).mpr he⟩

theorem exists_shows_foldl_advance (hA : A.WellFormed) (hc : D.Shows k c) (hw : w.Unreserved)
    (hr : (w.foldl A.advance k).current ≠ ∅) : ∃ e, D.Shows (w.foldl A.advance k) e := by
  induction w generalizing k c with
  | nil => exact ⟨c, hc⟩
  | cons x w ih =>
    have ⟨hx, hw⟩ := Word.unreserved_cons.mp hw
    have ⟨d, hd⟩ := h.exists_shows hA hc hx (mt Automaton.current_foldl_advance_of_empty hr)
    exact ih hd hw hr

theorem mem_final_iff (hq : D.Stands r q) :
    q ∈ D.result.states.final ↔ ∃ l ∈ r, l.target ∈ A.states.final := by
  obtain ⟨s, hs, rfl, rfl⟩ := hq
  rw [h.faithful.final]
  constructor
  case mp  =>
    intro ⟨t, ht, hk, hl⟩
    exact h.consistent.eq_of_key ht hs hk ▸ hl
  case mpr => exact fun hl => ⟨s, hs, rfl, hl⟩

theorem shows_start (hr : A.startRelation ≠ ∅) :
    D.Shows ⟨A.startRelation, []⟩ ⟨D.start.key, []⟩ :=
  ⟨⟨D.start, h.started.known hr, h.started.relation, rfl⟩, .nil⟩

theorem exists_shows_track (hA : A.WellFormed) (hw : w.Unreserved) (hr : (A.track w).current ≠ ∅) :
    ∃ e, D.Shows (A.track w) e :=
  h.exists_shows_foldl_advance hA (h.shows_start (mt Automaton.current_track_of_empty hr)) hw hr

theorem run_start_iff (hA : A.WellFormed) (hw : w.Unreserved) :
    D.result.Run ⟨D.start.key, []⟩ w e ↔ D.Shows (A.track w) e := by
  constructor
  case mp =>
    intro run
    have hr : A.startRelation ≠ ∅ := fun hr => run.not_isStuck (h.started.key hr ▸ h.faithful.mode)
    exact (h.run_iff hA (h.shows_start hr) hw).mp run
  case mpr =>
    intro he
    have hr : A.startRelation ≠ ∅ := fun hr =>
      h.not_stands_empty (Automaton.current_track_of_empty hr ▸ he.state)
    exact (h.run_iff hA (h.shows_start hr) hw).mpr he

theorem accepts_iff_track (hA : A.WellFormed) (hm : w.WellMatched) (hw : w.Unreserved) :
    D.result.Accepts w ↔ ∃ l ∈ (A.track w).current, l.target ∈ A.states.final := by
  have initial {p : Key} : p ∈ D.result.states.initial ↔ p = D.start.key := by
    rw [h.started.initial, SortedSet.mem_singleton]
  constructor
  case mp =>
    intro ⟨p, hp, q, hq, run⟩
    have he := (h.run_start_iff hA hw).mp (initial.mp hp ▸ run)
    exact (h.mem_final_iff he.state).mp hq
  case mpr =>
    intro ⟨l, hl, hf⟩
    have some : (A.track w).current ≠ ∅ := fun e => SortedSet.not_mem_empty (e ▸ hl)
    have ⟨⟨q, s⟩, he⟩ := h.exists_shows_track hA hw some
    have hs : List.Forall₂ D.Stands [] s := Automaton.callers_track hm ▸ he.calls
    obtain rfl := List.forall₂_nil_left_iff.mp hs
    exact ⟨_, initial.mpr rfl, q, (h.mem_final_iff he.state).mpr ⟨l, hl, hf⟩,
      (h.run_start_iff hA hw).mpr he⟩

theorem accepts_iff (hA : A.WellFormed) (abs : A.Absorbing) (hw : w.Unreserved) :
    D.result.Accepts w ↔ A.Accepts w := by
  by_cases hm : w.WellMatched
  case pos => rw [h.accepts_iff_track hA hm hw, Automaton.accepts_iff_track abs hm]
  case neg =>
    have rejects {A : Automaton ι} : ¬A.Accepts w := mt Automaton.Accepts.wellMatched hm
    exact iff_of_false rejects rejects

end Complete

theorem spares_subsets {table : KeyTable} {name : String} (h : table.shape? stuck = some (.name name)) :
    (A.subsets stuck table).table.Spares stuck :=
  fun _ => KeyTable.key?_ne_of_name h shapes_prefix_subsets nofun

end Determinization

namespace Automaton

variable {ι : Type} {A : Automaton ι}

-- The determinized automaton walks to acceptance just where the search in the operand succeeds, as
-- long as its stuck state stands for no relation.
theorem walk_determinize_iff (hA : A.Obtained) (abs : A.Absorbing) (stuck : Key) (table : KeyTable) :
    ∃ D, A.determinize (.designated stuck) table = .ok D ∧
      ((∀ r, D.table.key? (.relation r) ≠ some stuck) →
        D.result.Deterministic ∧ ∀ w : Word, w.WellMatched → w.Unreserved →
          (D.result.walk w = .ok true ↔ A.search w = .ok true)) := by
  refine ⟨A.subsets stuck table, rfl, fun free => ?_⟩
  have complete := Determinization.subsets_complete hA.wellFormed free
  refine ⟨complete.deterministic, fun w hm hw => ?_⟩
  rw [complete.deterministic.walk_iff_accepts complete.wellFormed hm, search_eq_true_iff abs,
    complete.accepts_iff hA.wellFormed abs hw]

theorem walk_determinize_bracketed :
    ∃ D, (brackets ⟨3⟩ [⟨4⟩]).determinize (.designated ⟨7⟩) bracketKeys = .ok D ∧
      D.result.Deterministic ∧ D.result.walk bracketed = .ok true := by
  have ⟨D, hD, spec⟩ := walk_determinize_iff (A := brackets ⟨3⟩ [⟨4⟩]) obtained_brackets
    absorbing_brackets ⟨7⟩ bracketKeys
  have free r : D.table.key? (.relation r) ≠ some ⟨7⟩ := by
    obtain rfl := Except.ok.inj hD
    exact KeyTable.key?_ne_of_name (t := bracketKeys) rfl Determinization.shapes_prefix_subsets nofun
  have ⟨deterministic, agree⟩ := spec free
  exact ⟨D, hD, deterministic, (agree _ (by decide) (by decide)).mpr (by decide)⟩

end Automaton

end NestedAutomata
