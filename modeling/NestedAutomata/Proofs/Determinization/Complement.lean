import NestedAutomata.Proofs.Automaton.Completion
import NestedAutomata.Proofs.Membership.Decision

namespace NestedAutomata.Automaton

variable {ι : Type} {A : Automaton ι} {c d e : Configuration} {w : Word} {p q stuck : Key}

def flip (A : Automaton ι) : Automaton ι :=
  A.clearFinal.addFinals (A.states.members.toList.filter (· ∉ A.states.final))

section Flip

variable (h : ∀ q, ¬A.IsStuck q)
include h

theorem flip_eq :
    A.flip = { A with states :=
      (A.states.members.toList.filter (· ∉ A.states.final)).foldl States.addFinal A.states.clearFinal } :=
  addFinals_eq (A := A.clearFinal) fun q _ => h q

theorem initial_flip : A.flip.states.initial = A.states.initial := by
  rw [flip_eq h]
  exact States.foldl_addFinal.1

theorem mem_final_flip : q ∈ A.flip.states.final ↔ q ∈ A.states ∧ q ∉ A.states.final := by
  rw [flip_eq h, States.foldl_addFinal.2.2]
  simp [States.clearFinal]

theorem mem_states_flip : q ∈ A.flip.states ↔ q ∈ A.states := by
  rw [flip_eq h]
  refine States.mem_foldl_addFinal.trans (or_iff_right_of_imp fun hq => ?_)
  exact (List.mem_filter.mp hq).1

theorem realized_flip (q : Key) : ¬A.flip.IsStuck q := by
  intro hq
  have mode : A.flip.states.stuck = A.states.stuck := by
    rw [flip_eq h]
    exact States.foldl_addFinal.2.1
  exact h q (mode.symm.trans hq)

theorem run_flip : A.flip.Run c w e ↔ A.Run c w e := by
  apply run_congr
  case transitions => rw [flip_eq h]
  case alphabet    => rw [flip_eq h]
  case stuck       => exact fun q => iff_of_false (realized_flip h q) (h q)

theorem Deterministic.flip (det : A.Deterministic) : A.flip.Deterministic := by
  have transitions : A.flip.transitions = A.transitions := by rw [flip_eq h]
  apply det.shrink (initial_flip h)
  case members     => exact fun q => (mem_states_flip h).mp
  case transitions => exact fun t ht => transitions ▸ ht

end Flip

theorem WellFormed.symbol_mem_alphabet (hA : A.WellFormed) (r : A.Run c w d) (hw : w.Unreserved) :
    ∀ x ∈ w, x.symbol ∈ A.alphabet := by
  induction w generalizing c with
  | nil => nofun
  | cons x w ih =>
    have ⟨b, b', _, st, r⟩ := run_cons_iff.mp r
    have ⟨hx, hw⟩ := Word.unreserved_cons.mp hw
    intro y hy
    cases List.mem_cons.mp hy with
    | inl hy =>
      subst hy
      cases st with
      | internal ht hl | call ht hl | ret ht hl => exact hA.mem_alphabet_of_reads ht hl hx
    | inr hy => exact ih r hw y hy

theorem Accepts.symbol_mem_alphabet (h : A.Accepts w) (hA : A.WellFormed) (hw : w.Unreserved) :
    ∀ x ∈ w, x.symbol ∈ A.alphabet :=
  have ⟨_, _, _, _, r⟩ := h
  hA.symbol_mem_alphabet r hw

theorem Deterministic.accepts_flip_complete (h : A.Deterministic) (hA : A.WellFormed) (abs : A.Absorbing)
    (hs : A.IsStuck stuck) (hw : w.Unreserved) :
    (A.complete stuck).flip.Accepts w ↔
      w.WellMatched ∧ (∀ x ∈ w, x.symbol ∈ A.alphabet) ∧ ¬A.Accepts w := by
  have realized (q : Key) : ¬(A.complete stuck).IsStuck q := not_isStuck_complete
  have hB := hA.complete (hA.states.stuck stuck hs)
  have turned (wm : w.WellMatched) (ha : ∀ x ∈ w, x.symbol ∈ A.alphabet) :
      (A.complete stuck).flip.Accepts w ↔ ¬A.Accepts w := by
    -- Both have the same run on the word and no other. It ends in a final state of one of them only.
    have ⟨p, start, q, hq, run⟩ := h.exists_run_complete_iff hA (hA.states.stuck stuck hs) wm ha
    have accepts := (accepts_complete_iff hA abs hs).symm.trans (accepts_iff_of_run_iff start run)
    have start' := (initial_flip realized).trans start
    have accepts' := accepts_iff_of_run_iff start' fun c => (run_flip realized).trans (run c)
    rw [accepts, accepts', mem_final_flip realized]
    exact and_iff_right hq
  constructor
  case mp =>
    intro accepts
    have wm := accepts.wellMatched
    have ⟨_, _, _, _, r⟩ := accepts
    have ha := hB.symbol_mem_alphabet ((run_flip realized).mp r) hw
    exact ⟨wm, ha, (turned wm ha).mp accepts⟩
  case mpr => exact fun ⟨wm, ha, rejects⟩ => (turned wm ha).mpr rejects

-- The one automaton accepts the other words over the alphabet of the other, and has no stuck state.
structure Complements (C A : Automaton ι) : Prop where
  wellFormed    : C.WellFormed
  deterministic : C.Deterministic
  realized      : ∀ q, ¬C.IsStuck q
  alphabet      : ∀ a, a ∈ C.alphabet ↔ a ∈ A.alphabet
  accepts       : ∀ w : Word, w.Unreserved →
    (C.Accepts w ↔ w.WellMatched ∧ (∀ x ∈ w, x.symbol ∈ A.alphabet) ∧ ¬A.Accepts w)

theorem complement_spec (hA : A.WellFormed) (abs : A.Absorbing) {table : KeyTable}
    (free : (A.subsets stuck table).table.Spares stuck) :
    ∃ C, A.complement (.designated stuck) table = .ok { A.subsets stuck table with result := C } ∧
      C.Complements A := by
  have complete := Determinization.subsets_complete hA free
  have absorbing : (A.subsets stuck table).result.Absorbing :=
    Determinization.growth_subsets.absorbing .ofStuck
  generalize hD : A.subsets stuck table = D at *
  have realize : D.result.realize = .ok (D.result.complete stuck) := by
    rw [Automaton.realize, complete.faithful.mode]
  have hs : D.result.IsStuck stuck := complete.faithful.mode
  have realized (q : Key) : ¬(D.result.complete stuck).IsStuck q := not_isStuck_complete
  have determinize : A.determinize (.designated stuck) table = .ok D := congrArg Except.ok hD
  refine ⟨(D.result.complete stuck).flip, ?_, ?_⟩
  case refine_1 =>
    rw [complement, determinize]
    simp only [bind, Except.bind, realize]
    rfl
  case refine_2 =>
    constructor
    case wellFormed    =>
      have h := complete.wellFormed.complete (complete.wellFormed.states.stuck stuck hs)
      exact h.clearFinal.addFinals
    case deterministic => exact complete.deterministic.complete.flip realized
    case realized      => exact realized_flip realized
    case alphabet      =>
      intro a
      rw [flip_eq realized]
      exact complete.faithful.alphabet a
    case accepts       =>
      intro w hw
      rw [complete.deterministic.accepts_flip_complete complete.wellFormed absorbing hs hw,
        complete.accepts_iff hA abs hw]
      simp only [complete.faithful.alphabet]

-- The members of the complement are the words over the alphabet that are no members of the operand, as
-- long as the stuck state stands for no relation. Which keys the decisions hand out does not matter.
theorem decideMember_complement_iff (hA : A.Obtained) (abs : A.Absorbing) {table : KeyTable}
    (free : ∀ r, (A.subsets stuck table).table.key? (.relation r) ≠ some stuck) :
    ∃ D, A.complement (.designated stuck) table = .ok D ∧ D.result.Deterministic ∧
      ∀ (w : Word) (table' table'' : KeyTable), w.Unreserved →
        ((D.result.decideMember w table').1 = .ok true ↔
          w.WellMatched ∧ (∀ x ∈ w, x.symbol ∈ A.alphabet) ∧
            (A.decideMember w table'').1 ≠ .ok true) := by
  have ⟨C, complement, hC⟩ := complement_spec hA.wellFormed abs free
  refine ⟨_, complement, hC.deterministic, fun w table' table'' hw => ?_⟩
  have absorbing : C.Absorbing := .of_realized hC.realized
  rw [decideMember_eq_true_iff hC.wellFormed absorbing hw, hC.accepts w hw, ne_eq,
    decideMember_eq_true_iff hA.wellFormed abs hw]

theorem decideMember_complement_bracketed :
    ∃ D, (brackets ⟨3⟩ [⟨4⟩]).complement (.designated ⟨7⟩) bracketKeys = .ok D ∧
      D.result.Deterministic ∧ (D.result.decideMember (bracketed ++ bracketed) bracketKeys).1 = .ok true ∧
      (D.result.decideMember bracketed bracketKeys).1 ≠ .ok true ∧
      (D.result.decideMember [.call ⟨5⟩] bracketKeys).1 ≠ .ok true := by
  have named : bracketKeys.shape? ⟨7⟩ = some (.name "stuck") := rfl
  have ⟨D, hD, deterministic, members⟩ := decideMember_complement_iff (A := brackets ⟨3⟩ [⟨4⟩])
    obtained_brackets absorbing_brackets (Determinization.spares_subsets named)
  have member {w : Word} (hw : w.Unreserved) := members w bracketKeys bracketKeys hw
  refine ⟨D, hD, deterministic, (member (by decide)).mpr ⟨by decide, by decide, by decide⟩, ?_, ?_⟩
  · exact mt (member (by decide)).mp fun ⟨_, _, rejects⟩ => rejects (by decide)
  · exact mt (member (by decide)).mp fun ⟨matched, _⟩ => absurd matched (by decide)

end NestedAutomata.Automaton
