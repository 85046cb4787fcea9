import Mathlib.Data.List.Nodup
import NestedAutomata.Membership.Basic
import NestedAutomata.Proofs.Automaton.WellFormed
import NestedAutomata.Proofs.Membership.Search
import NestedAutomata.Proofs.Word.Matching

namespace NestedAutomata.Automaton

variable {ι α : Type} {A : Automaton ι} {c d e : Configuration} {w : Word} {x : Position}
variable {p q a : Key} {s : List Key}

theorem walkFrom_cons :
    A.walkFrom p s (x :: w) =
      (!A.IsStuck p && ((A.successorsOf ⟨p, s⟩ x).head?).any fun c => A.walkFrom c.state c.calls w) := by
  by_cases hp : A.IsStuck p
  case pos => simp [walkFrom, hp]
  case neg =>
    cases x with
    | internal | call => simp [walkFrom, hp, successorsOf, Option.any_map]
    | ret             => cases s <;> simp [walkFrom, hp, successorsOf, Option.any_map]

-- Where it gets to by always taking the first transition, unless it gets stuck on the way.
def follow (A : Automaton ι) (c : Configuration) : Word → Option Configuration
  | []     => if A.IsStuck c.state then none else some c
  | x :: w => if A.IsStuck c.state then none else (A.successorsOf c x).head?.bind (A.follow · w)

theorem walkFrom_eq_follow :
    A.walkFrom p s w = (A.follow ⟨p, s⟩ w).any (·.state ∈ A.states.final) := by
  induction w generalizing p s with
  | nil => by_cases hp : A.IsStuck p <;> simp [walkFrom, follow, hp]
  | cons x w ih =>
    rw [walkFrom_cons, follow]
    by_cases hp : A.IsStuck p
    case pos => simp [hp]
    case neg => cases hs : (A.successorsOf ⟨p, s⟩ x).head? <;> simp [hp, ih]

theorem run_of_follow (h : A.follow c w = some e) : A.Run c w e := by
  induction w generalizing c with
  | nil =>
    have ⟨hc, he⟩ : ¬A.IsStuck c.state ∧ c = e := by simpa [follow] using h
    exact he ▸ .nil hc
  | cons x w ih =>
    have ⟨hc, d, hd, h⟩ : ¬A.IsStuck c.state ∧ ∃ d, (A.successorsOf c x).head? = some d ∧
        A.follow d w = some e := by simpa [follow, Option.bind_eq_some_iff] using h
    have st : A.Step c [x] d := mem_successorsOf.mp (List.mem_of_head? hd)
    exact .cons hc st (ih h)

theorem exists_run_of_walkFrom (h : A.walkFrom p s w) :
    ∃ e, A.Run ⟨p, s⟩ w e ∧ e.state ∈ A.states.final := by
  rw [walkFrom_eq_follow, Option.any_eq_true] at h
  have ⟨e, he, hf⟩ := h
  exact ⟨e, run_of_follow he, of_decide_eq_true hf⟩

theorem walk_eq (hw : w.WellMatched) :
    A.walk w = .ok (A.states.initial.toList.any (A.walkFrom · [] w)) := by
  rw [walk, hw.1, hw.2]

theorem accepts_of_walk (h : A.walk w = .ok true) : A.Accepts w := by
  have hw : w.WellMatched := by
    unfold walk at h
    split at h
    case h_1 => cases h
    case h_2 => cases h
    case h_3 hr hc => exact ⟨hr, hc⟩
  rw [walk_eq hw, Except.ok.injEq, List.any_eq_true] at h
  have ⟨p, hp, h⟩ := h
  have ⟨⟨q, s⟩, r, hq⟩ := exists_run_of_walkFrom h
  have hs := (Word.wellMatched_iff.mp hw).symm.trans r.depth?
  have hs : s = [] := List.length_eq_zero_iff.mp (Option.some.inj hs).symm
  exact ⟨p, hp, q, hq, hs ▸ r⟩

theorem walk_eq_error_iff {e : WordError} :
    A.walk w = .error e ↔
      ∃ i, e = .unbalanced i ∧
        (IsLeast { j | w.PendingReturn j } i ∨
          (∀ j, ¬w.PendingReturn j) ∧ IsLeast { j | w.PendingCall j } i) := by
  simp only [← Word.firstPendingReturn_eq_some_iff_isLeast, ← Word.firstPendingReturn_eq_none_iff,
    ← Word.head?_pendingCalls_eq_some_iff]
  unfold walk
  split
  case h_1 hr    => simp [hr, eq_comm]
  case h_2 hr hc => simp [hr, hc, eq_comm]
  case h_3 hr hc => simp [hr, hc]

theorem walk_unbalanced_iff : (∃ i, A.walk w = .error (.unbalanced i)) ↔ ¬w.WellMatched := by
  unfold walk
  split
  case h_1 hr    => simp [Word.WellMatched, hr]
  case h_2 hc    => simp [Word.WellMatched, hc]
  case h_3 hr hc => simp [Word.WellMatched, hr, hc]

theorem Unambiguous.eq_of_reads {l : List α} {f : α → Key} {t u : α} (h : Unambiguous (l.map f))
    (ht : t ∈ l) (hu : u ∈ l) (hta : A.Reads (f t) a) (hua : A.Reads (f u) a) : t = u := by
  have ⟨nodup, _, wild⟩ := h
  have only (v : α) (hv : v ∈ l) (hl : f v = .wild) : t = u := by
    have := wild (List.mem_map.mpr ⟨v, hv, hl⟩)
    match l with
    | [] => cases ht
    | [b] => rw [List.mem_singleton.mp ht, List.mem_singleton.mp hu]
    | _ :: _ :: _ => simp at this
  rcases hta with hta | ⟨hta, _⟩
  · rcases hua with hua | ⟨hua, _⟩
    · exact List.inj_on_of_nodup_map nodup ht hu (hta.trans hua.symm)
    · exact only u hu hua
  · exact only t ht hta

theorem Unambiguous.of_unreserved {l : List α} {f : α → Key} (unreserved : ∀ t ∈ l, ¬(f t).Reserved)
    (nodup : l.Nodup) (unique : ∀ t ∈ l, ∀ u ∈ l, f t = f u → t = u) : Unambiguous (l.map f) := by
  refine ⟨nodup.map_on unique, fun hε => ?_, fun hw => ?_⟩
  · have ⟨t, ht, hl⟩ := List.mem_map.mp hε
    exact absurd (.inl hl) (unreserved t ht)
  · have ⟨t, ht, hl⟩ := List.mem_map.mp hw
    exact absurd (.inr hl) (unreserved t ht)

section Deterministic

variable (h : A.Deterministic) (hA : A.WellFormed)
include h hA

theorem Deterministic.step (st : A.Step c [x] d) (st' : A.Step c [x] e) : d = e := by
  cases st with
  | @internal p _ _ _ _ ht hl =>
    cases st' with
    | internal ht' hl' =>
      have labels := h.internals p (hA.origin ht)
      have same := labels.eq_of_reads (Transitions.mem_internalsFrom.mpr ⟨ht, rfl⟩)
        (Transitions.mem_internalsFrom.mpr ⟨ht', rfl⟩) hl hl'
      cases same
      rfl
  | @call p _ _ _ _ ht hl =>
    cases st' with
    | call ht' hl' =>
      have labels := h.calls p (hA.origin ht)
      have same := labels.eq_of_reads (Transitions.mem_callsFrom.mpr ⟨ht, rfl⟩)
        (Transitions.mem_callsFrom.mpr ⟨ht', rfl⟩) hl hl'
      cases same
      rfl
  | @ret p _ _ _ _ _ ht hl =>
    cases st' with
    | ret ht' hl' =>
      have labels := h.returns p (hA.origin ht) _
        (Transitions.mem_returnsFrom.mpr ⟨ht, rfl⟩)
      have same := labels.eq_of_reads (Transitions.mem_returnsPopping.mpr ⟨ht, rfl, rfl⟩)
        (Transitions.mem_returnsPopping.mpr ⟨ht', rfl, rfl⟩) hl hl'
      cases same
      rfl

theorem Deterministic.not_rest (st : A.Step c [] d) : False := by
  cases st with
  | @rest p _ _ ht =>
    have ⟨_, hε, _⟩ := h.internals p (hA.origin ht)
    exact hε (List.mem_map.mpr ⟨_, Transitions.mem_internalsFrom.mpr ⟨ht, rfl⟩, rfl⟩)

theorem Deterministic.run_nil (r : A.Run c [] e) : e = c := by
  generalize hw : ([] : Word) = w at r
  cases r with
  | nil          => rfl
  | cons _ st _ =>
    obtain ⟨rfl, rfl⟩ := List.append_eq_nil_iff.mp hw.symm
    exact (h.not_rest hA st).elim

theorem Deterministic.follow_eq_some_iff : A.follow c w = some e ↔ A.Run c w e := by
  constructor
  case mp  => exact run_of_follow
  case mpr =>
    intro r
    induction w generalizing c with
    | nil =>
      obtain rfl := h.run_nil hA r
      simp [follow, r.not_isStuck]
    | cons x w ih =>
      have ⟨d, d', r', st, r''⟩ := run_cons_iff.mp r
      obtain rfl := h.run_nil hA r'
      have mem := mem_successorsOf.mpr st
      cases hs : A.successorsOf d x with
      | nil      => simp [hs] at mem
      | cons b l =>
        have st' : A.Step d [x] b := mem_successorsOf.mp (hs ▸ List.mem_cons_self)
        obtain rfl := h.step hA st st'
        simp [follow, r.not_isStuck, hs, ih r'']

theorem Deterministic.walkFrom_of_run (r : A.Run ⟨p, s⟩ w e) (he : e.state ∈ A.states.final) :
    A.walkFrom p s w := by
  simp [walkFrom_eq_follow, (h.follow_eq_some_iff hA).mpr r, he]

theorem Deterministic.walk_iff_accepts (hw : w.WellMatched) :
    A.walk w = .ok true ↔ A.Accepts w := by
  constructor
  case mp  => exact accepts_of_walk
  case mpr =>
    intro ⟨p, hp, q, hq, r⟩
    rw [walk_eq hw, Except.ok.injEq, List.any_eq_true]
    exact ⟨p, hp, h.walkFrom_of_run hA r hq⟩

end Deterministic

-- Whatever the automaton is like, the walk finds only what the search finds. It is refused just for words
-- that are not well-matched, at the first return without a partner or else at the first such call.
theorem walk_spec (A : Automaton ι) (w : Word) :
    (A.walk w = .ok true → A.search w = .ok true) ∧
      ((∃ i, A.walk w = .error (.unbalanced i)) ↔ ¬w.WellMatched) ∧
      ∀ e, A.walk w = .error e ↔
        ∃ i, e = .unbalanced i ∧
          (IsLeast { j | w.PendingReturn j } i ∨
            (∀ j, ¬w.PendingReturn j) ∧ IsLeast { j | w.PendingCall j } i) :=
  ⟨fun h => (accepts_of_walk h).search, walk_unbalanced_iff, fun _ => walk_eq_error_iff⟩

theorem walk_spec_addInitial :
    let A := (brackets ⟨3⟩ [⟨4⟩]).addInitial ⟨4⟩
    let w : Word := [.call ⟨5⟩, .ret ⟨6⟩, .ret ⟨6⟩]
    ¬A.Deterministic ∧ (A.walk bracketed = .ok true ∧ A.search bracketed = .ok true) ∧
      A.walk w = .error (.unbalanced 2) ∧ ¬w.WellMatched := by
  intro A w
  have ⟨found, _⟩ := walk_spec A bracketed
  have ⟨_, refused, _⟩ := walk_spec A w
  have walked : A.walk bracketed = .ok true := by decide
  have stopped : A.walk w = .error (.unbalanced 2) := by decide
  exact ⟨by decide, ⟨walked, found walked⟩, stopped, refused.mp ⟨2, stopped⟩⟩

end NestedAutomata.Automaton
