import Mathlib.Computability.Language
import NestedAutomata.Proofs.Combination.Copy
import NestedAutomata.Proofs.Key.Table
import NestedAutomata.Proofs.Membership.Search
import NestedAutomata.Proofs.Obtained

namespace NestedAutomata.Automaton

open Computability

-- Runs on one level that may restart within the calls that they open, and on the level itself if
-- `restarts` tells so.
inductive Restarting {ι : Type} (A : Automaton ι) : (restarts : Bool) → Key → Word → Key → Prop
  | nil {b q} :
    ¬A.IsStuck q → Restarting A b q [] q
  | rest {b p q r w} :
    Restarting A b p w q → .internal ⟨q, .ε, r⟩ ∈ A.transitions → ¬A.IsStuck r → Restarting A b p w r
  | internal {b p q r l a w} :
    Restarting A b p w q → .internal ⟨q, l, r⟩ ∈ A.transitions → A.Reads l a → ¬A.IsStuck r →
      Restarting A b p (w ++ [.internal a]) r
  | nested {b p q e x r l m a c v w} :
    Restarting A b p w q → .call ⟨q, l, e⟩ ∈ A.transitions → A.Reads l a → Restarting A true e v x →
      .ret ⟨x, q, m, r⟩ ∈ A.transitions → A.Reads m c → ¬A.IsStuck r →
        Restarting A b p (w ++ .call a :: v ++ [.ret c]) r
  | restart {p q r w} :
    Restarting A true p w q → q ∈ A.states.final → r ∈ A.states.initial → ¬A.IsStuck r →
      Restarting A true p w r

-- Accepting runs may restart as long as some call is open.
def AcceptsRestarting {ι : Type} (A : Automaton ι) (w : Word) : Prop :=
  ∃ p ∈ A.states.initial, ∃ q ∈ A.states.final, A.Restarting false p w q

def language {ι : Type} (A : Automaton ι) : Language Position :=
  {w : Word | w.Unreserved ∧ A.search w = .ok true}

def restartingLanguage {ι : Type} (A : Automaton ι) : Language Position :=
  {w : Word | w.Unreserved ∧ A.AcceptsRestarting w}

variable {ι : Type} {A R : Automaton ι} {p q r a hub stuck : Key} {v w : Word} {b : Bool}
variable {table : KeyTable}

section Language

variable {L : Language Position}

theorem append_mem_kstar (hv : v ∈ L∗) (hw : w ∈ L) : v ++ w ∈ L∗ :=
  have le : L∗ * L ≤ L∗ := kstar_mul_le_kstar
  le (Language.append_mem_mul hv hw)

theorem exists_prefix_of_mem_kstar (h : w ∈ L∗) (ne : w ≠ []) : ∃ v ∈ w.inits, v ≠ [] ∧ v ∈ L := by
  obtain ⟨ws, rfl, each⟩ := Language.mem_kstar_iff_exists_nonempty.mp h
  cases ws with
  | nil       => exact absurd rfl ne
  | cons v ws =>
    have ⟨hv, nonempty⟩ := each v List.mem_cons_self
    exact ⟨v, (List.mem_inits ..).mpr (List.prefix_append ..), nonempty, hv⟩

end Language

namespace Restarting

theorem not_isStuck (h : A.Restarting b p w q) : ¬A.IsStuck p ∧ ¬A.IsStuck q := by
  induction h with
  | nil hq                          => exact ⟨hq, hq⟩
  | rest _ _ hr ih                  => exact ⟨ih.1, hr⟩
  | internal _ _ _ hr ih            => exact ⟨ih.1, hr⟩
  | nested _ _ _ _ _ _ hr ih _      => exact ⟨ih.1, hr⟩
  | restart _ _ _ hr ih             => exact ⟨ih.1, hr⟩

-- Up to the last restart on the level itself, there are accepting runs.
theorem split (h : A.Restarting true p w q) (hp : p ∈ A.states.initial) (hw : w.Unreserved) :
    ∃ u v : Word, w = u ++ v ∧ u ∈ A.restartingLanguage∗ ∧
      ∃ o ∈ A.states.initial, A.Restarting false o v q := by
  generalize hb : true = b at h
  induction h with
  | nil hq                                   =>
    exact ⟨[], [], rfl, Language.nil_mem_kstar _, _, hp, .nil hq⟩
  | rest _ ht hr ih                          =>
    have ⟨u, v, hv, hu, o, ho, last⟩ := ih hp hw hb
    exact ⟨u, v, hv, hu, o, ho, last.rest ht hr⟩
  | @internal _ _ _ _ _ a _ _ ht hl hr ih    =>
    obtain ⟨u, v, rfl, hu, o, ho, last⟩ := ih hp (Word.unreserved_append.mp hw).1 hb
    exact ⟨u, v ++ [.internal a], by simp, hu, o, ho, last.internal ht hl hr⟩
  | @nested _ _ _ _ _ _ _ _ a c n _ _ hc ha inner ht hm hr ih =>
    have ⟨hw, _⟩ := Word.unreserved_append.mp hw
    obtain ⟨u, v, rfl, hu, o, ho, last⟩ := ih hp (Word.unreserved_append.mp hw).1 hb
    exact ⟨u, v ++ .call a :: n ++ [.ret c], by simp, hu, o, ho, last.nested hc ha inner ht hm hr⟩
  | @restart _ _ r w _ hq hr ho ih           =>
    obtain ⟨u, v, rfl, hu, o, ho', last⟩ := ih hp hw hb
    have hv : v ∈ A.restartingLanguage := ⟨(Word.unreserved_append.mp hw).2, o, ho', _, hq, last⟩
    have all := append_mem_kstar hu hv
    exact ⟨u ++ v, [], by simp, all, r, hr, .nil ho⟩

end Restarting

theorem Level.restarting (h : A.Level p w q) : A.Restarting b p w q := by
  induction h generalizing b with
  | nil hq                           => exact .nil hq
  | rest _ ht hr ih                  => exact .rest ih ht hr
  | internal _ ht hl hr ih           => exact .internal ih ht hl hr
  | nested _ hc ha _ ht hm hr ih ih' => exact .nested ih hc ha ih' ht hm hr

theorem mem_restartingLanguage (abs : A.Absorbing) (h : w ∈ A.language) : w ∈ A.restartingLanguage := by
  have ⟨hw, hs⟩ := h
  have ⟨p, hp, q, hq, level⟩ := accepts_iff_level.mp ((search_eq_true_iff abs).mp hs)
  exact ⟨hw, p, hp, q, hq, level.restarting⟩

-- The bridges can be crossed at every depth of nesting: a run of the star may leave the operand in a final
-- state while calls are open, enter it again in an initial state, and close these calls from there.
structure Starred (A : Automaton ι) (stuck hub : Key) (R : Automaton ι) : Prop where
  absorbing   : R.Absorbing
  mode        : R.states.stuck = .designated stuck
  initial     : R.states.initial = {hub}
  final       : R.states.final = {hub}
  alphabet    : ∀ a, a ∈ R.alphabet ↔ a ∈ A.alphabet
  transitions : ∀ t, t ∈ R.transitions ↔ (t ∈ A.transitions ∧ ∀ q ∈ t.states, ¬A.IsStuck q) ∨
    (∃ q ∈ A.ordinaryInitial, t = .internal ⟨hub, .ε, q⟩) ∨
    ∃ q ∈ A.ordinaryFinal, t = .internal ⟨q, .ε, hub⟩
  fresh       : hub ∉ A.states
  ne          : hub ≠ stuck
  free        : stuck ∈ A.states → A.IsStuck stuck

def around (A : Automaton ι) (stuck hub : Key) : Automaton ι :=
  let R := ((ofStuck stuck).copyStates A).copyTransitions A
  let R := (R.addInitial hub).addFinal hub
  (R.bridge [hub] A.ordinaryInitial).bridge A.ordinaryFinal [hub]

theorem star_eq (free : stuck ∈ A.states → A.IsStuck stuck) :
    A.star (.designated stuck) table =
      .ok (A.around stuck (table.fresh "star-start").1, (table.fresh "star-start").2) := by
  simp only [Automaton.star, Stuck.require, requireFree_eq_ok free, bind, Except.bind]
  rfl

theorem starred_around (hA : A.WellFormed) (fresh : hub ∉ A.states) (ne : hub ≠ stuck)
    (free : stuck ∈ A.states → A.IsStuck stuck) : Starred A stuck hub (A.around stuck hub) := by
  have growth : Growth (ofStuck stuck) (A.around stuck hub) :=
    .addAll <| .addAll <| .addFinal <| .addInitial <| .addAll growth_copyStates
  have absorbing := growth.absorbing .ofStuck
  have kept := kept_copy hA free
  simp only [around] at absorbing ⊢
  -- From here on `kept` is all that is known about the copy of the operand.
  generalize ((ofStuck stuck).copyStates A).copyTransitions A = C at *
  have hub_ne : ¬(C.addInitial hub).IsStuck hub :=
    (isStuck_iff (A := C.addInitial hub) kept.mode).not.mpr ne.symm
  rw [addFinal_of_not_isStuck hub_ne] at absorbing ⊢
  generalize hB : ({ C.addInitial hub with states := _ } : Automaton ι) = B at *
  have mode : B.states.stuck = .designated stuck := hB ▸ kept.mode
  have mode' : (B.bridge [hub] A.ordinaryInitial).states.stuck = .designated stuck :=
    stuck_addAll.trans mode
  constructor
  case absorbing   => exact absorbing
  case mode        => exact stuck_addAll.trans mode'
  case initial     =>
    refine initial_addAll.trans (initial_addAll.trans ?_)
    have one : insert hub C.states.initial = {hub} := by rw [kept.initial]; rfl
    exact hB ▸ one
  case final       =>
    refine final_addAll.trans (final_addAll.trans ?_)
    have one : insert hub C.states.final = {hub} := by rw [kept.final]; rfl
    exact hB ▸ one
  case alphabet    =>
    intro a
    rw [mem_alphabet_bridge, mem_alphabet_bridge]
    exact hB ▸ kept.alphabet a
  case transitions =>
    intro t
    have final : ∀ q ∈ A.ordinaryFinal, ¬(B.bridge [hub] A.ordinaryInitial).IsStuck q := by
      intro q hq
      have ⟨hq, ho⟩ := mem_ordinaryFinal.mp hq
      rw [isStuck_iff mode']
      rintro rfl
      exact ho (free (hA.states.final _ hq))
    have start : ∀ q ∈ [hub], ¬B.IsStuck q :=
      List.forall_mem_singleton.mpr ((isStuck_iff mode).not.mpr ne.symm)
    have kept : t ∈ B.transitions ↔ t ∈ A.ordinaryTransitions := hB ▸ kept.transitions t
    rw [mem_transitions_bridge final, mem_transitions_bridge start, kept, mem_ordinaryTransitions,
      or_assoc]
    simp
  case fresh       => exact fresh
  case ne          => exact ne
  case free        => exact free

-- A state of the operand for a state of the star. The new state stands for all initial states where a
-- run starts, and for all final states where it ends.
def Stands (states : List Key) (hub q o : Key) : Prop :=
  q = hub ∧ o ∈ states ∨ q ≠ hub ∧ o = q

-- What a run of the star does in the operand.
inductive Traced (A : Automaton ι) (hub : Key) : Key → Word → Key → Prop
  | stays : Traced A hub hub [] hub
  | runs {p q o f w} :
    Stands A.ordinaryInitial hub p o → Stands A.ordinaryFinal hub q f → A.Restarting true o w f →
      Traced A hub p w q

namespace Traced

theorem restarting (h : Traced A hub p w q) (hp : p ≠ hub) (hq : q ≠ hub) : A.Restarting true p w q := by
  cases h with
  | stays                  => exact absurd rfl hq
  | runs opens closes run  =>
    obtain ⟨e, _⟩ | ⟨_, rfl⟩ := opens
    · exact absurd e hp
    obtain ⟨e, _⟩ | ⟨_, rfl⟩ := closes
    · exact absurd e hq
    exact run

theorem go {u : Word} (h : Traced A hub p w q) (hq : q ≠ hub) (hr : r ≠ hub)
    (step : ∀ o, A.Restarting true o w q → A.Restarting true o u r) : Traced A hub p u r := by
  cases h with
  | stays                  => exact absurd rfl hq
  | runs opens closes run  =>
    obtain ⟨e, _⟩ | ⟨_, rfl⟩ := closes
    · exact absurd e hq
    · exact .runs opens (.inr ⟨hr, rfl⟩) (step _ run)

theorem enter (h : Traced A hub p w hub) (hr : r ∈ A.ordinaryInitial) (ne : r ≠ hub) :
    Traced A hub p w r := by
  have ⟨hi, ho⟩ := mem_ordinaryInitial.mp hr
  have closes : Stands A.ordinaryFinal hub r r := .inr ⟨ne, rfl⟩
  cases h with
  | stays                  => exact .runs (.inl ⟨rfl, hr⟩) closes (.nil ho)
  | runs opens closes' run =>
    obtain ⟨_, hf⟩ | ⟨e, _⟩ := closes'
    · exact .runs opens closes (run.restart (mem_ordinaryFinal.mp hf).1 hi ho)
    · exact absurd rfl e

theorem leave (h : Traced A hub p w q) (hq : q ∈ A.ordinaryFinal) (ne : q ≠ hub) :
    Traced A hub p w hub := by
  cases h with
  | stays                 => exact absurd rfl ne
  | runs opens closes run =>
    obtain ⟨e, _⟩ | ⟨_, rfl⟩ := closes
    · exact absurd e ne
    · exact .runs opens (.inl ⟨rfl, hq⟩) run

end Traced

namespace Starred

variable (h : Starred A stuck hub R)
include h

theorem reads_iff {l : Key} : R.Reads l a ↔ A.Reads l a := by
  simp only [Reads, h.alphabet]

theorem not_isStuck_hub : ¬R.IsStuck hub :=
  (isStuck_iff h.mode).not.mpr h.ne.symm

theorem not_isStuck (hq : q ∈ A.states) (ho : ¬A.IsStuck q) : ¬R.IsStuck q := by
  rw [isStuck_iff h.mode]
  rintro rfl
  exact ho (h.free hq)

theorem level_of_restarting (hA : A.WellFormed) (r : A.Restarting b p w q) (hp : p ∈ A.states) :
    R.Level p w q := by
  have kept {t : Transition} (ht : t ∈ A.transitions) (ordinary : ∀ q ∈ t.states, ¬A.IsStuck q) :
      t ∈ R.transitions :=
    (h.transitions t).mpr (.inl ⟨ht, ordinary⟩)
  induction r with
  | nil hq                             => exact .nil (h.not_isStuck hp hq)
  | rest r ht hr ih                    =>
    have ht' := kept ht (by simpa [Transition.states] using ⟨r.not_isStuck.2, hr⟩)
    exact (ih hp).rest ht' (h.not_isStuck (hA.destination ht) hr)
  | internal r ht hl hr ih             =>
    have ht' := kept ht (by simpa [Transition.states] using ⟨r.not_isStuck.2, hr⟩)
    exact (ih hp).internal ht' (h.reads_iff.mpr hl) (h.not_isStuck (hA.destination ht) hr)
  | nested r hc ha inner ht hm hr ih ih' =>
    have hc' := kept hc (by simpa [Transition.states] using ⟨r.not_isStuck.2, inner.not_isStuck.1⟩)
    have ht' := kept ht (by simpa [Transition.states] using ⟨inner.not_isStuck.2, r.not_isStuck.2, hr⟩)
    exact (ih hp).nested hc' (h.reads_iff.mpr ha) (ih' (hA.destination hc)) ht' (h.reads_iff.mpr hm)
      (h.not_isStuck (hA.destination ht) hr)
  | @restart _ q r _ run hq hr ho ih   =>
    -- A restart leads through the new state.
    have out : .internal ⟨q, .ε, hub⟩ ∈ R.transitions :=
      (h.transitions _).mpr (.inr (.inr ⟨q, mem_ordinaryFinal.mpr ⟨hq, run.not_isStuck.2⟩, rfl⟩))
    have back : .internal ⟨hub, .ε, r⟩ ∈ R.transitions :=
      (h.transitions _).mpr (.inr (.inl ⟨r, mem_ordinaryInitial.mpr ⟨hr, ho⟩, rfl⟩))
    exact ((ih hp).rest out h.not_isStuck_hub).rest back (h.not_isStuck (hA.states.initial r hr) ho)

theorem level_of_accepts (hA : A.WellFormed) (accepts : A.AcceptsRestarting w) : R.Level hub w hub := by
  have ⟨p, hp, q, hq, r⟩ := accepts
  have hp' := hA.states.initial p hp
  have back : .internal ⟨hub, .ε, p⟩ ∈ R.transitions :=
    (h.transitions _).mpr (.inr (.inl ⟨p, mem_ordinaryInitial.mpr ⟨hp, r.not_isStuck.1⟩, rfl⟩))
  have out : .internal ⟨q, .ε, hub⟩ ∈ R.transitions :=
    (h.transitions _).mpr (.inr (.inr ⟨q, mem_ordinaryFinal.mpr ⟨hq, r.not_isStuck.2⟩, rfl⟩))
  have start : R.Level hub [] p :=
    (Level.nil h.not_isStuck_hub).rest back (h.not_isStuck hp' r.not_isStuck.1)
  exact (start.append (h.level_of_restarting hA r hp')).rest out h.not_isStuck_hub

theorem of_internal {l : Key} (ht : .internal ⟨q, l, r⟩ ∈ R.transitions) :
    (.internal ⟨q, l, r⟩ ∈ A.transitions ∧ ¬A.IsStuck r) ∨
      l = .ε ∧ (q = hub ∧ r ∈ A.ordinaryInitial ∨ q ∈ A.ordinaryFinal ∧ r = hub) := by
  rcases (h.transitions _).mp ht with ⟨ht, ordinary⟩ | ⟨i, hi, heq⟩ | ⟨f, hf, heq⟩
  · exact .inl ⟨ht, ordinary r Transition.destination_mem_states⟩
  · cases heq
    exact .inr ⟨rfl, .inl ⟨rfl, hi⟩⟩
  · cases heq
    exact .inr ⟨rfl, .inr ⟨hf, rfl⟩⟩

theorem of_call {t : Call} (ht : .call t ∈ R.transitions) :
    .call t ∈ A.transitions ∧ ¬A.IsStuck t.entry := by
  rcases (h.transitions _).mp ht with ⟨ht, ordinary⟩ | ⟨_, _, heq⟩ | ⟨_, _, heq⟩
  · exact ⟨ht, ordinary _ Transition.destination_mem_states⟩
  · cases heq
  · cases heq

theorem of_ret {t : Return} (ht : .ret t ∈ R.transitions) :
    .ret t ∈ A.transitions ∧ ¬A.IsStuck t.returnSite := by
  rcases (h.transitions _).mp ht with ⟨ht, ordinary⟩ | ⟨_, _, heq⟩ | ⟨_, _, heq⟩
  · exact ⟨ht, ordinary _ Transition.destination_mem_states⟩
  · cases heq
  · cases heq

theorem ne_hub (hq : q ∈ A.states) : q ≠ hub :=
  fun e => h.fresh (e ▸ hq)

theorem traced_of_level (hA : A.WellFormed) (level : R.Level p w q) (hw : w.Unreserved)
    (hp : p = hub ∨ ¬A.IsStuck p) : Traced A hub p w q := by
  induction level with
  | @nil q _ =>
    by_cases same : q = hub
    case pos => exact same ▸ .stays
    case neg => exact .runs (.inr ⟨same, rfl⟩) (.inr ⟨same, rfl⟩) (.nil (hp.resolve_left same))
  | @rest p q r w _ ht _ ih =>
    rcases h.of_internal ht with ⟨ht, hr⟩ | ⟨_, ⟨rfl, hr⟩ | ⟨hq, rfl⟩⟩
    · exact (ih hw hp).go (h.ne_hub (hA.origin ht)) (h.ne_hub (hA.destination ht))
        fun _ run => run.rest ht hr
    · exact (ih hw hp).enter hr (h.ne_hub (hA.states.initial r (mem_ordinaryInitial.mp hr).1))
    · exact (ih hw hp).leave hq (h.ne_hub (hA.states.final q (mem_ordinaryFinal.mp hq).1))
  | internal _ ht hl _ ih =>
    obtain ⟨hw, ha⟩ := Word.unreserved_append.mp hw
    rcases h.of_internal ht with ⟨ht, hr⟩ | ⟨hε, _⟩
    · exact (ih hw hp).go (h.ne_hub (hA.origin ht)) (h.ne_hub (hA.destination ht))
        fun _ run => run.internal ht (h.reads_iff.mp hl) hr
    · exact absurd hε (ne_ε_of_reads hl (Word.unreserved_cons.mp ha).1)
  | nested _ hc ha _ ht hm _ ih ih' =>
    obtain ⟨hw, _⟩ := Word.unreserved_append.mp hw
    obtain ⟨hw, hv⟩ := Word.unreserved_append.mp hw
    obtain ⟨hc, he⟩ := h.of_call hc
    obtain ⟨ht, hr⟩ := h.of_ret ht
    have inner := (ih' (Word.unreserved_cons.mp hv).2 (.inr he)).restarting
      (h.ne_hub (hA.destination hc)) (h.ne_hub (hA.origin ht))
    exact (ih hw hp).go (h.ne_hub (hA.origin hc)) (h.ne_hub (hA.destination ht)) fun _ run =>
      run.nested hc (h.reads_iff.mp ha) inner ht (h.reads_iff.mp hm) hr

theorem accepts_iff (hA : A.WellFormed) (hw : w.Unreserved) :
    R.Accepts w ↔ w ∈ A.restartingLanguage∗ := by
  have level : R.Accepts w ↔ R.Level hub w hub := by
    simp [accepts_iff_level, h.initial, h.final]
  rw [level]
  constructor
  case mp  =>
    intro level
    cases h.traced_of_level hA level hw (.inl rfl) with
    | stays                 => exact Language.nil_mem_kstar _
    | runs opens closes run =>
      -- Both ends are the new state, so the operand is entered in an initial state and left in a final one.
      obtain ⟨_, ho⟩ | ⟨e, _⟩ := opens
      rotate_left
      · exact absurd rfl e
      obtain ⟨_, hf⟩ | ⟨e, _⟩ := closes
      rotate_left
      · exact absurd rfl e
      obtain ⟨u, v, rfl, hu, o, ho, last⟩ := run.split (mem_ordinaryInitial.mp ho).1 hw
      have hv : v ∈ A.restartingLanguage :=
        ⟨(Word.unreserved_append.mp hw).2, o, ho, _, (mem_ordinaryFinal.mp hf).1, last⟩
      exact append_mem_kstar hu hv
  case mpr =>
    rintro ⟨ws, rfl, each⟩
    clear hw level
    induction ws with
    | nil => exact .nil h.not_isStuck_hub
    | cons v ws ih =>
      have ⟨first, rest⟩ := List.forall_mem_cons.mp each
      exact (h.level_of_accepts hA first.2).append (ih rest)

end Starred

-- The star of the operand is what the documentation of the construction asks for just if restarts
-- within calls make no difference to it.
theorem search_star_iff (hA : A.Obtained) (known : ∀ q ∈ A.states, table.shape? q ≠ none)
    (hs : table.shape? stuck ≠ none) (free : stuck ∈ A.states → A.IsStuck stuck) :
    ∃ R table', A.star (.designated stuck) table = .ok (R, table') ∧
      (∀ w : Word, w.Unreserved → (R.search w = .ok true ↔ w ∈ A.restartingLanguage∗)) ∧
      ((∀ w : Word, w.WellMatched → w.Unreserved → (R.search w = .ok true ↔ w ∈ A.language∗)) ↔
        (∀ w ∈ A.restartingLanguage, w ∈ A.language∗) ∧
          ∀ w ∈ A.language, w ∈ A.restartingLanguage∗) := by
  let hub := (table.fresh "star-start").1
  have unknown : table.shape? hub = none := KeyTable.shape?_fst_fresh
  have starred : Starred A stuck hub (A.around stuck hub) :=
    starred_around hA.wellFormed (fun hq => known hub hq unknown) (fun e => hs (e ▸ unknown)) free
  refine ⟨A.around stuck hub, (table.fresh "star-start").2, star_eq free, ?_⟩
  generalize A.around stuck hub = R at *
  have search {w : Word} (hw : w.Unreserved) : R.search w = .ok true ↔ w ∈ A.restartingLanguage∗ :=
    (search_eq_true_iff starred.absorbing).trans (starred.accepts_iff hA.wellFormed hw)
  have once {L : Language Position} {w : Word} (hw : w ∈ L) : w ∈ L∗ :=
    append_mem_kstar (Language.nil_mem_kstar L) hw
  refine ⟨fun w => search, ?_⟩
  constructor
  case mp  =>
    intro claim
    constructor
    case left  =>
      intro w hw
      have found := (search hw.1).mpr (once hw)
      exact (claim w (wellMatched_of_search found) hw.1).mp found
    case right =>
      intro w hw
      exact (search hw.1).mp ((claim w (wellMatched_of_search hw.2) hw.1).mpr (once hw))
  case mpr =>
    rintro ⟨sub, sup⟩ w _ hw
    have same : A.restartingLanguage∗ = A.language∗ :=
      le_antisymm ((kstar_mono sub).trans (kstar_idem _).le) ((kstar_mono sup).trans (kstar_idem _).le)
    rw [search hw, same]

-- The call leads into a final state. From there a run of the star restarts in the state of the call,
-- which has the return that the final state lacks.
theorem search_star_brackets :
    ∃ R table', (brackets ⟨2⟩ [⟨3⟩, ⟨4⟩]).star (.designated ⟨7⟩) bracketKeys = .ok (R, table') ∧
      bracketed.WellMatched ∧ bracketed.Unreserved ∧ R.search bracketed = .ok true ∧
      bracketed ∉ (brackets ⟨2⟩ [⟨3⟩, ⟨4⟩]).language∗ := by
  refine ⟨_, _, rfl, by decide, by decide, by decide +kernel, fun h => ?_⟩
  have ⟨v, hv, nonempty, _, found⟩ := exists_prefix_of_mem_kstar h nofun
  have none : ∀ v ∈ bracketed.inits, v ≠ [] → (brackets ⟨2⟩ [⟨3⟩, ⟨4⟩]).search v ≠ .ok true := by decide
  exact none v hv nonempty found

theorem search_star_bracketed :
    ∃ R table', (brackets ⟨3⟩ [⟨4⟩]).star (.designated ⟨7⟩) bracketKeys = .ok (R, table') ∧
      R.search (bracketed ++ bracketed) = .ok true := by
  obtain ⟨R, table', hR, repeats, _⟩ := @search_star_iff _ (brackets ⟨3⟩ [⟨4⟩]) ⟨7⟩ bracketKeys
    obtained_brackets (by decide) (by decide) (by decide)
  refine ⟨R, table', hR, (repeats _ (by decide)).mpr ?_⟩
  have one : bracketed ∈ (brackets ⟨3⟩ [⟨4⟩]).restartingLanguage :=
    mem_restartingLanguage absorbing_brackets ⟨by decide, by decide⟩
  exact append_mem_kstar (append_mem_kstar (Language.nil_mem_kstar _) one) one

end NestedAutomata.Automaton
