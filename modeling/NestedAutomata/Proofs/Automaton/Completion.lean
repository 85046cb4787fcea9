import NestedAutomata.Proofs.Membership.Walk

namespace NestedAutomata.Automaton

variable {ι α : Type} {A B : Automaton ι} {c d e : Configuration} {w : Word} {x : Position}
variable {p q a stuck : Key} {s : List Key}

theorem mem_complete {t : Transition} (ht : t ∈ A.transitions) : t ∈ (A.complete stuck).transitions :=
  mem_transitions_complete.mpr (.inl ht)

theorem Implicit.mem_complete {t : Transition} (ht : A.Implicit stuck t) :
    t ∈ (A.complete stuck).transitions :=
  mem_transitions_complete.mpr (.inr ht)

theorem Unambiguous.shrink {l m : List α} {f : α → Key} (h : Unambiguous (m.map f)) (nodup : l.Nodup)
    (sub : l ⊆ m) : Unambiguous (l.map f) := by
  have ⟨labels, noε, wild⟩ := h
  have sub' := List.map_subset f sub
  refine ⟨nodup.map_on ?_, fun hε => noε (sub' hε), fun hw => ?_⟩
  · exact fun t ht u hu => List.inj_on_of_nodup_map labels (sub ht) (sub hu)
  · have one := wild (sub' hw)
    rw [List.length_map] at one ⊢
    exact Nat.le_trans (List.subperm_of_subset nodup sub).length_le one

theorem Unambiguous.grow {l m : List α} {f : α → Key} (h : Unambiguous (l.map f)) (nodup : m.Nodup)
    (new : ∀ t ∈ m, t ∉ l → f t ∈ A.alphabet ∧ ∀ u ∈ l, ¬A.Reads (f u) (f t))
    (unique : ∀ t ∈ m, t ∉ l → ∀ u ∈ m, u ∉ l → f t = f u → t = u) : Unambiguous (m.map f) := by
  have ⟨labels, noε, _⟩ := h
  have old {t : α} (ht : t ∈ m) (hr : (f t).Reserved) : t ∈ l := by
    by_contra hl
    exact A.alphabet.unreserved _ (new t ht hl).1 hr
  refine ⟨nodup.map_on ?_, ?_, ?_⟩
  · intro t ht u hu hf
    by_cases htl : t ∈ l
    case pos =>
      by_cases hul : u ∈ l
      case pos => exact List.inj_on_of_nodup_map labels htl hul hf
      case neg => exact absurd (.inl hf) ((new u hu hul).2 t htl)
    case neg =>
      by_cases hul : u ∈ l
      case pos => exact absurd (.inl hf.symm) ((new t ht htl).2 u hul)
      case neg => exact unique t ht htl u hu hul hf
  · intro hε
    have ⟨t, ht, hf⟩ := List.mem_map.mp hε
    exact noε (List.mem_map.mpr ⟨t, old ht (.inl hf), hf⟩)
  · intro hw
    have ⟨t, ht, hf⟩ := List.mem_map.mp hw
    have htl := old ht (.inr hf)
    have sub : m ⊆ l := by
      intro u hu
      by_contra hul
      have ⟨ha, unread⟩ := new u hu hul
      exact unread t htl (.inr ⟨hf, ha⟩)
    exact (h.shrink nodup sub).2.2 hw

theorem Deterministic.returnsPopping (h : A.Deterministic) (hp : p ∈ A.states) (site : Key) :
    Unambiguous ((A.transitions.returnsPopping p site).map (·.symbol)) := by
  cases hr : A.transitions.returnsPopping p site with
  | nil      => exact ⟨.nil, by simp, by simp⟩
  | cons t l =>
    have ⟨ht, hx, hc⟩ := Transitions.mem_returnsPopping.mp (hr ▸ List.mem_cons_self)
    have := h.returns p hp t (Transitions.mem_returnsFrom.mpr ⟨ht, hx⟩)
    rwa [hc, hr] at this

-- The transitions at some place, seen as what `inj` makes transitions of, stay unambiguous if those
-- that are implicit there do not get into the way of each other or of the old ones.
theorem Unambiguous.complete {l m : List α} {f : α → Key} {inj : α → Transition} {here : α → Prop}
    (h : Unambiguous (l.map f)) (nodup : m.Nodup)
    (mem : ∀ t, t ∈ l ↔ inj t ∈ A.transitions ∧ here t)
    (mem' : ∀ t, t ∈ m ↔ inj t ∈ (A.complete stuck).transitions ∧ here t)
    (new : ∀ t, A.Implicit stuck (inj t) → here t → f t ∈ A.alphabet ∧ ∀ u ∈ l, ¬A.Reads (f u) (f t))
    (unique : ∀ t u, A.Implicit stuck (inj t) → A.Implicit stuck (inj u) → here t → here u →
      f t = f u → t = u) : Unambiguous (m.map f) := by
  have implicit {t : α} (ht : t ∈ m) (hl : t ∉ l) : A.Implicit stuck (inj t) ∧ here t := by
    have ⟨ht, hh⟩ := (mem' t).mp ht
    have old : inj t ∉ A.transitions := fun ht => hl ((mem t).mpr ⟨ht, hh⟩)
    exact ⟨(mem_transitions_complete.mp ht).resolve_left old, hh⟩
  apply h.grow (A := A) nodup
  case new    => exact fun t ht hl => new t (implicit ht hl).1 (implicit ht hl).2
  case unique =>
    intro t ht htl u hu hul
    exact unique t u (implicit ht htl).1 (implicit hu hul).1 (implicit ht htl).2 (implicit hu hul).2

theorem Deterministic.complete (h : A.Deterministic) : (A.complete stuck).Deterministic := by
  constructor
  case start => exact h.start
  case internals =>
    intro p hp
    apply (h.internals p hp).complete Index.nodup_get
      (fun _ => Transitions.mem_internalsFrom) (fun _ => Transitions.mem_internalsFrom)
    case new =>
      intro t ht hp
      cases ht with
      | internal _ ha none =>
        obtain rfl : _ = p := hp
        simp only [internalTargets, List.map_eq_nil_iff, List.filter_eq_nil_iff, decide_eq_true_eq] at none
        exact ⟨ha, none⟩
    case unique =>
      intro t u ht hu hp hp' hf
      cases ht with
      | internal =>
        cases hu with
        | internal => exact Internal.ext (hp.trans hp'.symm) hf rfl
  case calls =>
    intro p hp
    apply (h.calls p hp).complete Index.nodup_get
      (fun _ => Transitions.mem_callsFrom) (fun _ => Transitions.mem_callsFrom)
    case new =>
      intro t ht hp
      cases ht with
      | call _ ha none =>
        obtain rfl : _ = p := hp
        simp only [callEntries, List.map_eq_nil_iff, List.filter_eq_nil_iff, decide_eq_true_eq] at none
        exact ⟨ha, none⟩
    case unique =>
      intro t u ht hu hp hp' hf
      cases ht with
      | call =>
        cases hu with
        | call => exact Call.ext (hp.trans hp'.symm) hf rfl
  case returns =>
    -- A return competes only with those from the same exit that pop the same call site.
    intro p hp site _
    apply (h.returnsPopping hp site.callSite).complete (Index.nodup_get.filter _)
      (fun _ => Transitions.mem_returnsPopping) (fun _ => Transitions.mem_returnsPopping)
    case new =>
      intro t ht here
      cases ht with
      | ret _ _ ha none =>
        obtain ⟨rfl, hc⟩ : _ = p ∧ _ = site.callSite := here
        simp only [returnTargets, List.map_eq_nil_iff, List.filter_eq_nil_iff, decide_eq_true_eq] at none
        exact ⟨ha, hc ▸ none⟩
    case unique =>
      intro t u ht hu here here' hf
      cases ht with
      | ret =>
        cases hu with
        | ret => exact Return.ext (here.1.trans here'.1.symm) (here.2.trans here'.2.symm) hf rfl

theorem Deterministic.shrink (h : B.Deterministic) (initial : A.states.initial = B.states.initial)
    (members : ∀ q ∈ A.states, q ∈ B.states)
    (transitions : ∀ t ∈ A.transitions, t ∈ B.transitions) : A.Deterministic := by
  constructor
  case start     => exact initial ▸ h.start
  case internals =>
    intro p hp
    refine (h.internals p (members p hp)).shrink Index.nodup_get fun t ht => ?_
    rw [Transitions.mem_internalsFrom] at ht ⊢
    exact ht.imp_left (transitions _)
  case calls     =>
    intro p hp
    refine (h.calls p (members p hp)).shrink Index.nodup_get fun t ht => ?_
    rw [Transitions.mem_callsFrom] at ht ⊢
    exact ht.imp_left (transitions _)
  case returns   =>
    intro p hp site hsite
    rw [Transitions.mem_returnsFrom] at hsite
    have hsite := Transitions.mem_returnsFrom.mpr (hsite.imp_left (transitions _))
    refine (h.returns p (members p hp) site hsite).shrink (Index.nodup_get.filter _) fun t ht => ?_
    rw [Transitions.mem_returnsPopping] at ht ⊢
    exact ht.imp_left (transitions _)

theorem deterministic_complete_iff : (A.complete stuck).Deterministic ↔ A.Deterministic := by
  constructor
  case mp  => exact fun h => h.shrink rfl (fun _ => id) fun _ => mem_complete
  case mpr => exact Deterministic.complete

theorem not_isStuck_complete : ¬(A.complete stuck).IsStuck q :=
  nofun

theorem Run.complete (r : A.Run c w e) : (A.complete stuck).Run c w e :=
  r.mono (fun _ => mem_complete) (fun _ _ => id) fun _ h => (not_isStuck_complete h).elim

theorem Implicit.destination_eq {t : Transition} (h : A.Implicit stuck t) : t.destination = stuck := by
  cases h <;> rfl

theorem step_of_complete {v : Word} (st : (A.complete stuck).Step c v d) (hd : d.state ≠ stuck) :
    A.Step c v d := by
  have old {t : Transition} (ht : t ∈ (A.complete stuck).transitions) (hd : t.destination ≠ stuck) :
      t ∈ A.transitions :=
    (mem_transitions_complete.mp ht).resolve_right fun h => hd h.destination_eq
  cases st with
  | rest ht        => exact .rest (old ht hd)
  | internal ht hl => exact .internal (old ht hd) hl
  | call ht hl     => exact .call (old ht hd) hl
  | ret ht hl      => exact .ret (old ht hd) hl

theorem run_of_complete (abs : A.Absorbing) (hs : A.IsStuck stuck)
    (r : (A.complete stuck).Run c w e) (he : e.state ≠ stuck) : A.Run c w e := by
  induction r with
  | nil => exact .nil fun hc => he (hc.unique hs)
  | cons _ st _ ih =>
    have r := ih he
    have st := step_of_complete st fun hd => r.not_isStuck (hd ▸ hs)
    exact .cons (mt (st.isStuck abs) r.not_isStuck) st r

theorem run_complete_iff (abs : A.Absorbing) (hs : A.IsStuck stuck) :
    (A.complete stuck).Run c w e ∧ e.state ≠ stuck ↔ A.Run c w e := by
  constructor
  case mp  => exact fun ⟨r, he⟩ => run_of_complete abs hs r he
  case mpr => exact fun r => ⟨r.complete, fun he => r.not_isStuck_last (he ▸ hs)⟩

theorem accepts_complete_iff (hA : A.WellFormed) (abs : A.Absorbing) (hs : A.IsStuck stuck) :
    (A.complete stuck).Accepts w ↔ A.Accepts w := by
  constructor
  case mp =>
    intro ⟨p, hp, q, hq, r⟩
    have ordinary : q ≠ stuck := fun e => hA.states.not_final stuck hs (e ▸ hq)
    exact ⟨p, hp, q, hq, run_of_complete abs hs r ordinary⟩
  case mpr => exact fun ⟨p, hp, q, hq, r⟩ => ⟨p, hp, q, hq, r.complete⟩

structure Inside (A : Automaton ι) (c : Configuration) : Prop where
  state : c.state ∈ A.states
  calls : ∀ q ∈ c.calls, q ∈ A.states

-- In a total automaton every state goes on with every symbol, and whatever call site it may have to pop.
structure Total (A : Automaton ι) : Prop where
  internals : ∀ p ∈ A.states, ∀ a ∈ A.alphabet, A.internalTargets p a ≠ []
  calls     : ∀ p ∈ A.states, ∀ a ∈ A.alphabet, A.callEntries p a ≠ []
  returns   : ∀ p ∈ A.states, ∀ c ∈ A.states, ∀ a ∈ A.alphabet, A.returnTargets p c a ≠ []

theorem ne_nil_of_implicit (inj : Key → Key → Transition) {l m : List Key}
    (mem : ∀ q, q ∈ l ↔ ∃ b, inj b q ∈ A.transitions ∧ A.Reads b a)
    (mem' : ∀ q, q ∈ m ↔ ∃ b, inj b q ∈ (A.complete stuck).transitions ∧ (A.complete stuck).Reads b a)
    (implicit : l = [] → A.Implicit stuck (inj a stuck)) : m ≠ [] := by
  cases l with
  | nil      =>
    have ht := (implicit rfl).mem_complete
    exact List.ne_nil_of_mem ((mem' stuck).mpr ⟨a, ht, .inl rfl⟩)
  | cons q _ =>
    have ⟨b, ht, hl⟩ := (mem q).mp List.mem_cons_self
    exact List.ne_nil_of_mem ((mem' q).mpr ⟨b, mem_complete ht, hl⟩)

theorem total_complete : (A.complete stuck).Total := by
  constructor
  case internals =>
    intro p hp a ha
    exact ne_nil_of_implicit (fun b q => .internal ⟨p, b, q⟩) (fun _ => mem_internalTargets (A := A))
      (fun _ => mem_internalTargets) (.internal hp ha)
  case calls =>
    intro p hp a ha
    exact ne_nil_of_implicit (fun b q => .call ⟨p, b, q⟩) (fun _ => mem_callEntries (A := A))
      (fun _ => mem_callEntries) (.call hp ha)
  case returns =>
    intro p hp c hc a ha
    exact ne_nil_of_implicit (fun b q => .ret ⟨p, c, b, q⟩) (fun _ => mem_returnTargets (A := A))
      (fun _ => mem_returnTargets) (.ret hp hc ha)

namespace Total

variable (total : A.Total) (hA : A.WellFormed) (hc : A.Inside c)
include total hA hc

theorem exists_step (hx : x.symbol ∈ A.alphabet) (hd : Word.depth? c.calls.length [x] ≠ none) :
    ∃ d, A.Step c [x] d ∧ A.Inside d := by
  obtain ⟨p, s⟩ := c
  obtain ⟨hp, calls⟩ := hc
  cases x with
  | internal a =>
    obtain ⟨q, hq⟩ := List.exists_mem_of_ne_nil _ (total.internals p hp a hx)
    obtain ⟨_, ht, hl⟩ := mem_internalTargets.mp hq
    exact ⟨_, .internal ht hl, hA.destination ht, calls⟩
  | call a =>
    obtain ⟨q, hq⟩ := List.exists_mem_of_ne_nil _ (total.calls p hp a hx)
    obtain ⟨_, ht, hl⟩ := mem_callEntries.mp hq
    exact ⟨_, .call ht hl, hA.destination ht, List.forall_mem_cons.mpr ⟨hp, calls⟩⟩
  | ret a =>
    cases s with
    | nil => exact absurd rfl hd
    | cons site s =>
      obtain ⟨hsite, calls⟩ := List.forall_mem_cons.mp calls
      obtain ⟨q, hq⟩ := List.exists_mem_of_ne_nil _ (total.returns p hp site hsite a hx)
      obtain ⟨_, ht, hl⟩ := mem_returnTargets.mp hq
      exact ⟨_, .ret ht hl, hA.destination ht, calls⟩

theorem exists_run (realized : ∀ q, ¬A.IsStuck q) (hw : ∀ x ∈ w, x.symbol ∈ A.alphabet)
    (hd : Word.depth? c.calls.length w ≠ none) : ∃ e, A.Run c w e ∧ A.Inside e := by
  induction w generalizing c with
  | nil => exact ⟨c, .nil (realized _), hc⟩
  | cons x w ih =>
    rw [Word.depth?_cons] at hd
    have ⟨d, st, hd'⟩ := total.exists_step hA hc (hw x List.mem_cons_self) (by aesop)
    rw [st.depth?, Option.bind_some] at hd
    have ⟨e, r, he⟩ := ih hd' (fun y hy => hw y (List.mem_cons_of_mem _ hy)) hd
    exact ⟨e, .cons (realized _) st r, he⟩

end Total

theorem Deterministic.run_unique (h : A.Deterministic) (hA : A.WellFormed) (r : A.Run c w d)
    (r' : A.Run c w e) : d = e := by
  induction w generalizing c with
  | nil => rw [h.run_nil hA r, h.run_nil hA r']
  | cons x w ih =>
    have ⟨b, b', r, st, rest⟩ := run_cons_iff.mp r
    have ⟨c', c'', r', st', rest'⟩ := run_cons_iff.mp r'
    obtain rfl := h.run_nil hA r
    obtain rfl := h.run_nil hA r'
    obtain rfl := h.step hA st st'
    exact ih rest rest'

theorem Deterministic.exists_initial (h : A.Deterministic) : ∃ p, A.states.initial = {p} := by
  have ⟨p, hp⟩ := List.length_eq_one_iff.mp h.start
  exact ⟨p, SortedSet.ext_mem fun q => by rw [← SortedSet.mem_toList, hp]; simp⟩

theorem accepts_iff_of_run_iff (start : A.states.initial = {p})
    (run : ∀ c, A.Run ⟨p, []⟩ w c ↔ c = ⟨q, []⟩) : A.Accepts w ↔ q ∈ A.states.final := by
  simp [Accepts, start, run]

theorem Deterministic.exists_run_complete_iff (h : A.Deterministic) (hA : A.WellFormed)
    (hs : stuck ∈ A.states) (hw : w.WellMatched) (ha : ∀ x ∈ w, x.symbol ∈ A.alphabet) :
    ∃ p, A.states.initial = {p} ∧
      ∃ q ∈ A.states, ∀ c, (A.complete stuck).Run ⟨p, []⟩ w c ↔ c = ⟨q, []⟩ := by
  have ⟨p, start⟩ := h.exists_initial
  have initial : p ∈ A.states.initial := by rw [start, SortedSet.mem_singleton]
  have inside : (A.complete stuck).Inside ⟨p, []⟩ := ⟨hA.states.initial p initial, nofun⟩
  have depth := Word.wellMatched_iff.mp hw
  have ⟨⟨q, s⟩, r, he⟩ := total_complete.exists_run (hA.complete hs) inside
    (fun _ => not_isStuck_complete) ha (by rw [List.length_nil, depth]; simp)
  obtain rfl : s = [] :=
    List.length_eq_zero_iff.mp (Option.some.inj (depth.symm.trans r.depth?)).symm
  refine ⟨p, start, q, he.state, fun c => ⟨fun r' => ?_, fun e => e ▸ r⟩⟩
  exact h.complete.run_unique (hA.complete hs) r' r

end NestedAutomata.Automaton
