import NestedAutomata.Key.Table.Lemmas
import NestedAutomata.Proofs.Key.Table
import NestedAutomata.Proofs.Membership.Search
import NestedAutomata.Proofs.Obtained
import NestedAutomata.Proofs.Product.Saturation

namespace NestedAutomata

namespace Product

variable {σ ι : Type} {A B : Automaton ι} {P Q : Product σ ι}
variable {s t : Node} {p : Pair} {a b l stuck : Key} {k? : Option Key} {task : Task}
variable {common : Key → Key → Option Key} {table : KeyTable} {x : Position} {v w : Word}
variable {c d e : Configuration}

structure Paired (start table : KeyTable) (offered : List (Pair × Option Key)) : Prop where
  grown : start.shapes <+: table.shapes
  keys  : ∀ p k?, (p, k?) ∈ offered → ∃ k, k? = some k ∧ table.shape? k = some (.pair p.first p.second)

theorem Reached.paired (h : Reached A B (.plain A B) P p k? Q) (hP : Paired table P.table P.offered) :
    Paired table Q.table Q.offered := by
  cases h with
  | stuck | old               => exact hP
  | rejected _ _ hr           => cases hr
  | @accepted k x? _ _ _ _ hr =>
    cases hr
    have grown : P.table.shapes <+: (P.table.pair p.first p.second).2.shapes :=
      KeyTable.shapes_prefix_intern
    constructor
    case grown => exact hP.grown.trans grown
    case keys  =>
      intro q k? hq
      cases List.mem_cons.mp hq with
      | inl hq =>
        cases hq
        exact ⟨_, rfl, KeyTable.shape?_intern⟩
      | inr hq =>
        have ⟨k, hk, shape⟩ := hP.keys q k? hq
        exact ⟨k, hk, KeyTable.shape?_of_grown grown shape⟩

-- The states of the operands for which a configuration of the product stands.
structure Joint where
  node  : Node
  calls : List Node

namespace Joint

variable (j : Joint)

def key : Configuration :=
  ⟨j.node.key, j.calls.map (·.key)⟩

def first : Configuration :=
  ⟨j.node.first, j.calls.map (·.first)⟩

def second : Configuration :=
  ⟨j.node.second, j.calls.map (·.second)⟩

structure Known (P : Product σ ι) (j : Joint) : Prop where
  node  : j.node ∈ P.known
  calls : ∀ c ∈ j.calls, c ∈ P.known

end Joint

theorem common_mem (h : A.commonLabel B a b = some l) : l = a ∨ l = b := by
  unfold Automaton.commonLabel at h
  grind

theorem Task.Fits.label_mem (fits : task.Fits A B) (hA : A.WellFormed) (hB : B.WellFormed)
    (hl : task.label (A.commonLabel B) = some l) : l.Reserved ∨ l ∈ A.alphabet ∧ l ∈ B.alphabet := by
  have common {a b : Key} (ha : a ∈ A.alphabet ∨ a.Reserved) (hb : b ∈ B.alphabet ∨ b.Reserved)
      (hl : A.commonLabel B a b = some l) : l.Reserved ∨ l ∈ A.alphabet ∧ l ∈ B.alphabet := by
    have first {a : Key} (ha : a ∈ A.alphabet) := A.alphabet.unreserved a ha
    have second {a : Key} (ha : a ∈ B.alphabet) := B.alphabet.unreserved a ha
    unfold Automaton.commonLabel at hl
    grind
  cases fits with
  | first | second => exact .inl (.inl (Option.some.inj hl).symm)
  | internal ht hu | call ht hu | ret ht hu => exact common (hA.labels _ ht) (hB.labels _ hu) hl

theorem Task.Fits.labelled {k : Key} (fits : task.Fits A B) (hA : A.WellFormed) (hB : B.WellFormed)
    (hl : task.label (A.commonLabel B) = some l) : (task.transition l k).Labelled := by
  cases fits with
  | first | second | internal => trivial
  | call ht hu | ret ht hu    =>
    intro hε
    cases common_mem hl with
    | inl hl => exact hA.labelled _ ht (hl.symm.trans hε)
    | inr hl => exact hB.labelled _ hu (hl.symm.trans hε)

structure Plain (A B : Automaton ι) (stuck : Key) (P : Product σ ι) : Prop extends
    Complete A B (A.commonLabel B) stuck P where
  first  : A.WellFormed
  second : B.WellFormed
  keys   : ∀ p k?, (p, k?) ∈ P.offered →
    ∃ k, k? = some k ∧ P.table.shape? k = some (.pair p.first p.second)

-- The internal transitions of the product move one operand while the other rests, or both.
inductive Internals (A B : Automaton ι) (s t : Node) (l : Key) : Prop
  | first :
    l = .ε → .internal ⟨s.first, .ε, t.first⟩ ∈ A.transitions → t.second = s.second → Internals A B s t l
  | second :
    l = .ε → t.first = s.first → .internal ⟨s.second, .ε, t.second⟩ ∈ B.transitions → Internals A B s t l
  | both {a b : Key} :
    l ≠ .ε → A.commonLabel B a b = some l → .internal ⟨s.first, a, t.first⟩ ∈ A.transitions →
      .internal ⟨s.second, b, t.second⟩ ∈ B.transitions → Internals A B s t l

namespace Plain

variable (h : Plain A B stuck P)
include h

theorem eq_of_key (hs : s ∈ P.known) (ht : t ∈ P.known) (hk : s.key = t.key) : s = t := by
  have shape {s : Node} (hs : s ∈ P.known) : P.table.shape? s.key = some (.pair s.first s.second) := by
    have ⟨k, hk, shape⟩ := h.keys _ _ (mem_known.mp hs)
    rwa [Option.some.inj hk]
  have same := (shape hs).symm.trans (hk ▸ shape ht)
  obtain ⟨⟨_, _⟩, _⟩ := s
  obtain ⟨⟨_, _⟩, _⟩ := t
  simp_all

theorem exists_known (hp : (p, k?) ∈ P.offered) : ∃ s ∈ P.known, s.toPair = p := by
  have ⟨k, hk, _⟩ := h.keys p k? hp
  subst hk
  exact ⟨⟨p, k⟩, mem_known.mpr hp, rfl⟩

theorem mem_alphabet : a ∈ P.result.alphabet ↔ a ∈ A.alphabet ∧ a ∈ B.alphabet := by
  rw [h.faithful.alphabet]
  refine or_iff_left_of_imp fun ⟨ha, t, ht, hl⟩ => ?_
  have ⟨task, l, s, _, sensible, label, _, heq⟩ := h.faithful.transitions t ht
  obtain rfl : l = a := by rw [← hl, ← heq, label_transition]
  exact (sensible.fits.label_mem h.first h.second label).resolve_left ha

theorem not_isStuck (hs : s ∈ P.known) : ¬P.result.IsStuck s.key :=
  fun hk => h.spares s hs (Stuck.designated.inj (h.faithful.mode.symm.trans hk)).symm

theorem exists_transition (fits : task.Fits A B) (sources : ∀ s ∈ task.sources, s ∈ P.known)
    (hl : task.label (A.commonLabel B) = some l) (ordinary : Ordinary A B task.target) :
    ∃ k, ⟨task.target, k⟩ ∈ P.known ∧ task.transition l k ∈ P.result.transitions := by
  have met : task.Met P.explored := fun x c hs same =>
    .inl (h.eq_of_key (sources x (by simp [hs])) (sources c (by simp [hs])) same)
  have ⟨k?, hp, ht⟩ := h.done task ⟨sources, fits⟩ met l hl ordinary
  have ⟨k, hk, _⟩ := h.keys _ _ hp
  subst hk
  exact ⟨k, mem_known.mpr hp, ht k rfl (fits.labelled h.first h.second hl)⟩

theorem reads (hc : A.commonLabel B a b = some l) {y : Key} (hl : P.result.Reads l y) :
    A.Reads a y ∧ B.Reads b y := by
  have alphabet := h.mem_alphabet (a := y)
  have first {a : Key} (ha : a ∈ A.alphabet) := A.alphabet.unreserved a ha
  have second {a : Key} (ha : a ∈ B.alphabet) := B.alphabet.unreserved a ha
  unfold Automaton.commonLabel at hc
  unfold Automaton.Reads at *
  grind [Key.Reserved]

theorem exists_common {y : Key} (ha : A.Reads a y) (hb : B.Reads b y) :
    ∃ l, A.commonLabel B a b = some l ∧ P.result.Reads l y := by
  have alphabet := h.mem_alphabet (a := y)
  simp only [Automaton.commonLabel]
  unfold Automaton.Reads at *
  grind

theorem exists_of_internal {q : Key} (hs : s ∈ P.known)
    (ht : .internal ⟨s.key, l, q⟩ ∈ P.result.transitions) :
    ∃ t ∈ P.known, t.key = q ∧ Internals A B s t l := by
  have ⟨task, a, t, known, sensible, label, target, heq⟩ := h.faithful.transitions _ ht
  have sources := sensible.sources
  cases sensible.fits with
  | @first u q ht' =>
    obtain ⟨hk, rfl, rfl⟩ := Internal.mk.inj (Transition.internal.inj heq)
    obtain rfl := h.eq_of_key (sources u List.mem_cons_self) hs hk
    obtain ⟨⟨_, _⟩, _⟩ := t
    cases target
    exact ⟨_, known, rfl, .first (Option.some.inj label).symm ht' rfl⟩
  | @second u q ht' =>
    obtain ⟨hk, rfl, rfl⟩ := Internal.mk.inj (Transition.internal.inj heq)
    obtain rfl := h.eq_of_key (sources u List.mem_cons_self) hs hk
    obtain ⟨⟨_, _⟩, _⟩ := t
    cases target
    exact ⟨_, known, rfl, .second (Option.some.inj label).symm rfl ht'⟩
  | @internal u b c _ _ ht' hu hb hc =>
    obtain ⟨hk, rfl, rfl⟩ := Internal.mk.inj (Transition.internal.inj heq)
    obtain rfl := h.eq_of_key (sources u List.mem_cons_self) hs hk
    obtain ⟨⟨_, _⟩, _⟩ := t
    cases target
    have hl : a ≠ .ε := (common_mem label).elim (· ▸ hb) (· ▸ hc)
    exact ⟨_, known, rfl, .both hl label ht' hu⟩
  | call | ret => cases heq

theorem exists_of_call {q : Key} (hs : s ∈ P.known)
    (ht : .call ⟨s.key, l, q⟩ ∈ P.result.transitions) :
    ∃ t ∈ P.known, t.key = q ∧ ∃ a b, A.commonLabel B a b = some l ∧
      .call ⟨s.first, a, t.first⟩ ∈ A.transitions ∧ .call ⟨s.second, b, t.second⟩ ∈ B.transitions := by
  have ⟨task, a, t, known, sensible, label, target, heq⟩ := h.faithful.transitions _ ht
  have sources := sensible.sources
  cases sensible.fits with
  | @call u b c _ _ ht' hu =>
    obtain ⟨hk, rfl, rfl⟩ := Call.mk.inj (Transition.call.inj heq)
    obtain rfl := h.eq_of_key (sources u List.mem_cons_self) hs hk
    obtain ⟨⟨_, _⟩, _⟩ := t
    cases target
    exact ⟨_, known, rfl, b, c, label, ht', hu⟩
  | first | second | internal | ret => cases heq

theorem exists_of_ret {c : Node} {q : Key} (hs : s ∈ P.known) (hc : c ∈ P.known)
    (ht : .ret ⟨s.key, c.key, l, q⟩ ∈ P.result.transitions) :
    ∃ t ∈ P.known, t.key = q ∧ ∃ a b, A.commonLabel B a b = some l ∧
      .ret ⟨s.first, c.first, a, t.first⟩ ∈ A.transitions ∧
      .ret ⟨s.second, c.second, b, t.second⟩ ∈ B.transitions := by
  have ⟨task, a, t, known, sensible, label, target, heq⟩ := h.faithful.transitions _ ht
  have sources := sensible.sources
  cases sensible.fits with
  | @ret u v b c _ _ ht' hu =>
    obtain ⟨hk, hk', rfl, rfl⟩ := Return.mk.inj (Transition.ret.inj heq)
    obtain rfl := h.eq_of_key (sources u List.mem_cons_self) hs hk
    obtain rfl := h.eq_of_key (sources v (by simp [Task.sources])) hc hk'
    obtain ⟨⟨_, _⟩, _⟩ := t
    cases target
    exact ⟨_, known, rfl, b, c, label, ht', hu⟩
  | first | second | internal | call => cases heq

-- What the product does, the operands do.
theorem step_operands {j : Joint} (hj : j.Known P) (st : P.result.Step j.key v d) (hv : v.Unreserved) :
    ∃ k : Joint, k.Known P ∧ k.key = d ∧ A.Run j.first v k.first ∧ B.Run j.second v k.second := by
  obtain ⟨s, cs⟩ := j
  obtain ⟨hs, hcs⟩ := hj
  have first {s : Node} (hs : s ∈ P.known) : ¬A.IsStuck s.first :=
    (Automaton.mem_ordinary.mp (h.consistent.ordinary_of_known hs).1).2
  have second {s : Node} (hs : s ∈ P.known) : ¬B.IsStuck s.second :=
    (Automaton.mem_ordinary.mp (h.consistent.ordinary_of_known hs).2).2
  generalize hc : Joint.key ⟨s, cs⟩ = c at st
  cases st with
  | rest ht        =>
    cases hc
    have ⟨t, known, hk, shift⟩ := h.exists_of_internal hs ht
    subst hk
    refine ⟨⟨t, cs⟩, ⟨known, hcs⟩, rfl, ?_⟩
    -- One operand may move alone. The other one rests then, in the state where it is.
    cases shift with
    | first _ ht' same  =>
      have stays : Joint.second ⟨t, cs⟩ = Joint.second ⟨s, cs⟩ := by simp only [Joint.second, same]
      exact ⟨(Automaton.Step.rest ht').run (first hs) (first known), stays.symm ▸ .nil (second hs)⟩
    | second _ same ht' =>
      have stays : Joint.first ⟨t, cs⟩ = Joint.first ⟨s, cs⟩ := by simp only [Joint.first, same]
      exact ⟨stays.symm ▸ .nil (first hs), (Automaton.Step.rest ht').run (second hs) (second known)⟩
    | both hl           => exact absurd rfl hl
  | internal ht hl =>
    cases hc
    have ⟨t, known, hk, both⟩ := h.exists_of_internal hs ht
    subst hk
    have hε := Automaton.ne_ε_of_reads hl (Word.unreserved_cons.mp hv).1
    cases both with
    | first hl | second hl => exact absurd hl hε
    | both _ label ht' hu  =>
      have ⟨ha, hb⟩ := h.reads label hl
      exact ⟨⟨t, cs⟩, ⟨known, hcs⟩, rfl, (Automaton.Step.internal ht' ha).run (first hs) (first known),
        (Automaton.Step.internal hu hb).run (second hs) (second known)⟩
  | call ht hl     =>
    cases hc
    have ⟨t, known, hk, a, b, label, ht', hu⟩ := h.exists_of_call hs ht
    subst hk
    have ⟨ha, hb⟩ := h.reads label hl
    have calls : ∀ c ∈ s :: cs, c ∈ P.known := List.forall_mem_cons.mpr ⟨hs, hcs⟩
    exact ⟨⟨t, s :: cs⟩, ⟨known, calls⟩, rfl, (Automaton.Step.call ht' ha).run (first hs) (first known),
      (Automaton.Step.call hu hb).run (second hs) (second known)⟩
  | ret ht hl      =>
    obtain ⟨rfl, hcs'⟩ := Configuration.mk.inj hc
    cases cs with
    | nil          => cases hcs'
    | cons site cs =>
      cases hcs'
      have ⟨hsite, hcs⟩ := List.forall_mem_cons.mp hcs
      have ⟨t, known, hk, a, b, label, ht', hu⟩ := h.exists_of_ret hs hsite ht
      subst hk
      have ⟨ha, hb⟩ := h.reads label hl
      exact ⟨⟨t, cs⟩, ⟨known, hcs⟩, rfl, (Automaton.Step.ret ht' ha).run (first hs) (first known),
        (Automaton.Step.ret hu hb).run (second hs) (second known)⟩

theorem run_operands {j : Joint} (hj : j.Known P) (r : P.result.Run j.key w e) (hw : w.Unreserved) :
    ∃ k : Joint, k.Known P ∧ k.key = e ∧ A.Run j.first w k.first ∧ B.Run j.second w k.second := by
  generalize hc : j.key = c at r
  induction r generalizing j with
  | nil =>
    have ho := h.consistent.ordinary_of_known hj.node
    exact ⟨j, hj, hc, .nil (Automaton.mem_ordinary.mp ho.1).2, .nil (Automaton.mem_ordinary.mp ho.2).2⟩
  | cons _ st _ ih =>
    subst hc
    have ⟨hv, hw⟩ := Word.unreserved_append.mp hw
    have ⟨k, hk, hd, first, second⟩ := h.step_operands hj st hv
    have ⟨m, hm, he, first', second'⟩ := ih hk hw hd
    exact ⟨m, hm, he, first.append first', second.append second'⟩

theorem ordinary_first {u : Transition} (ht : u ∈ A.transitions) (hq : ¬A.IsStuck u.destination) :
    u.destination ∈ A.ordinary :=
  Automaton.mem_ordinary.mpr ⟨h.first.destination ht, hq⟩

theorem ordinary_second {u : Transition} (ht : u ∈ B.transitions) (hq : ¬B.IsStuck u.destination) :
    u.destination ∈ B.ordinary :=
  Automaton.mem_ordinary.mpr ⟨h.second.destination ht, hq⟩

theorem rest_first {j : Joint} (hj : j.Known P) (r : A.Run j.first [] c) :
    ∃ k : Joint, k.Known P ∧ k.first = c ∧ k.second = j.second ∧ P.result.Run j.key [] k.key := by
  generalize hw : ([] : Word) = w at r
  generalize hd : j.first = d at r
  induction r generalizing j with
  | nil => exact ⟨j, hj, hd, rfl, hw ▸ .nil (h.not_isStuck hj.node)⟩
  | cons _ st r ih =>
    obtain ⟨rfl, rfl⟩ := List.append_eq_nil_iff.mp hw.symm
    cases st with
    | rest ht =>
      cases hd
      have ordinary := h.ordinary_first ht r.not_isStuck
      obtain ⟨_, known, ht'⟩ := h.exists_transition (.first ht)
        (List.forall_mem_singleton.mpr hj.node) rfl
        ⟨ordinary, (h.consistent.ordinary_of_known hj.node).2⟩
      obtain ⟨k, hk, first, second, r'⟩ := ih (j := ⟨_, j.calls⟩) ⟨known, hj.calls⟩ rfl rfl
      exact ⟨k, hk, first, second, .cons (h.not_isStuck hj.node) (.rest ht') r'⟩

theorem rest_second {j : Joint} (hj : j.Known P) (r : B.Run j.second [] c) :
    ∃ k : Joint, k.Known P ∧ k.first = j.first ∧ k.second = c ∧ P.result.Run j.key [] k.key := by
  generalize hw : ([] : Word) = w at r
  generalize hd : j.second = d at r
  induction r generalizing j with
  | nil => exact ⟨j, hj, rfl, hd, hw ▸ .nil (h.not_isStuck hj.node)⟩
  | cons _ st r ih =>
    obtain ⟨rfl, rfl⟩ := List.append_eq_nil_iff.mp hw.symm
    cases st with
    | rest ht =>
      cases hd
      have ordinary := h.ordinary_second ht r.not_isStuck
      obtain ⟨_, known, ht'⟩ := h.exists_transition (.second ht)
        (List.forall_mem_singleton.mpr hj.node) rfl
        ⟨(h.consistent.ordinary_of_known hj.node).1, ordinary⟩
      obtain ⟨k, hk, first, second, r'⟩ := ih (j := ⟨_, j.calls⟩) ⟨known, hj.calls⟩ rfl rfl
      exact ⟨k, hk, first, second, .cons (h.not_isStuck hj.node) (.rest ht') r'⟩

theorem exists_step {j : Joint} (hj : j.Known P) (st : A.Step j.first [x] d)
    (st' : B.Step j.second [x] e) (hd : ¬A.IsStuck d.state) (he : ¬B.IsStuck e.state) (hx : ¬x.symbol.Reserved) :
    ∃ k : Joint, k.Known P ∧ k.first = d ∧ k.second = e ∧ P.result.Step j.key [x] k.key := by
  obtain ⟨s, cs⟩ := j
  obtain ⟨hs, hcs⟩ := hj
  cases x with
  | internal y =>
    obtain ⟨a, q, ht, ha, rfl⟩ := Automaton.Step.internal_iff.mp st
    obtain ⟨b, r, hu, hb, rfl⟩ := Automaton.Step.internal_iff.mp st'
    obtain ⟨l, label, hl⟩ := h.exists_common ha hb
    have fits := Task.Fits.internal ht hu (Automaton.ne_ε_of_reads ha hx) (Automaton.ne_ε_of_reads hb hx)
    obtain ⟨_, known, ht'⟩ := h.exists_transition fits (List.forall_mem_singleton.mpr hs) label
      ⟨h.ordinary_first ht hd, h.ordinary_second hu he⟩
    exact ⟨⟨_, cs⟩, ⟨known, hcs⟩, rfl, rfl, .internal ht' hl⟩
  | call y =>
    obtain ⟨a, q, ht, ha, rfl⟩ := Automaton.Step.call_iff.mp st
    obtain ⟨b, r, hu, hb, rfl⟩ := Automaton.Step.call_iff.mp st'
    obtain ⟨l, label, hl⟩ := h.exists_common ha hb
    obtain ⟨_, known, ht'⟩ := h.exists_transition (.call ht hu)
      (List.forall_mem_singleton.mpr hs) label ⟨h.ordinary_first ht hd, h.ordinary_second hu he⟩
    exact ⟨⟨_, s :: cs⟩, ⟨known, List.forall_mem_cons.mpr ⟨hs, hcs⟩⟩, rfl, rfl, .call ht' hl⟩
  | ret y =>
    obtain ⟨_, _, a, q, hc, ht, ha, rfl⟩ := Automaton.Step.ret_iff.mp st
    obtain ⟨_, _, b, r, hc', hu, hb, rfl⟩ := Automaton.Step.ret_iff.mp st'
    cases cs with
    | nil          => cases hc
    | cons site cs =>
      cases hc
      cases hc'
      obtain ⟨hsite, hcs⟩ := List.forall_mem_cons.mp hcs
      obtain ⟨l, label, hl⟩ := h.exists_common ha hb
      have sources := List.forall_mem_cons.mpr ⟨hs, List.forall_mem_singleton.mpr hsite⟩
      obtain ⟨_, known, ht'⟩ := h.exists_transition (.ret ht hu) sources label
        ⟨h.ordinary_first ht hd, h.ordinary_second hu he⟩
      exact ⟨⟨_, cs⟩, ⟨known, hcs⟩, rfl, rfl, .ret ht' hl⟩

theorem exists_run {j : Joint} (hj : j.Known P) (r : A.Run j.first w d) (r' : B.Run j.second w e)
    (hw : w.Unreserved) :
    ∃ k : Joint, k.Known P ∧ k.first = d ∧ k.second = e ∧ P.result.Run j.key w k.key := by
  have rest {j : Joint} {d e : Configuration} (hj : j.Known P) (r : A.Run j.first [] d)
      (r' : B.Run j.second [] e) :
      ∃ k : Joint, k.Known P ∧ k.first = d ∧ k.second = e ∧ P.result.Run j.key [] k.key := by
    have ⟨k, hk, first, second, run⟩ := h.rest_first hj r
    have ⟨m, hm, first', second', run'⟩ := h.rest_second hk (second.symm ▸ r')
    exact ⟨m, hm, first'.trans first, second', run.append run'⟩
  induction w generalizing j with
  | nil => exact rest hj r r'
  | cons x w ih =>
    have ⟨hx, hw⟩ := Word.unreserved_cons.mp hw
    have ⟨d₁, d₂, r₁, st, r₂⟩ := Automaton.run_cons_iff.mp r
    have ⟨e₁, e₂, r₁', st', r₂'⟩ := Automaton.run_cons_iff.mp r'
    obtain ⟨k, hk, rfl, rfl, run⟩ := rest hj r₁ r₁'
    obtain ⟨m, hm, rfl, rfl, step⟩ := h.exists_step hk st st' r₂.not_isStuck r₂'.not_isStuck hx
    have ⟨n, hn, first, second, run'⟩ := ih hm r₂ r₂' hw
    exact ⟨n, hn, first, second, run.append (.cons (h.not_isStuck hk.node) step run')⟩

theorem accepts_iff (hw : w.Unreserved) : P.result.Accepts w ↔ A.Accepts w ∧ B.Accepts w := by
  constructor
  case mp =>
    intro ⟨p, hp, q, hq, r⟩
    obtain ⟨s, hs, rfl, first, second⟩ := (h.faithful.initial p).mp hp
    obtain ⟨t, ht, rfl, final, final'⟩ := (h.faithful.final q).mp hq
    have ⟨k, hk, he, run, run'⟩ := h.run_operands (j := ⟨s, []⟩) ⟨hs, nofun⟩ r hw
    obtain ⟨u, cs⟩ := k
    obtain ⟨key, calls⟩ := Configuration.mk.inj he
    obtain rfl := List.map_eq_nil_iff.mp calls
    obtain rfl := h.eq_of_key hk.node ht key
    exact ⟨⟨_, first, _, final, run⟩, ⟨_, second, _, final', run'⟩⟩
  case mpr =>
    intro ⟨⟨p, hp, q, hq, r⟩, ⟨p', hp', q', hq', r'⟩⟩
    have ordinary : Ordinary A B ⟨p, p'⟩ := by
      exact ⟨Automaton.mem_ordinary.mpr ⟨h.first.states.initial p hp, r.not_isStuck⟩,
        Automaton.mem_ordinary.mpr ⟨h.second.states.initial p' hp', r'.not_isStuck⟩⟩
    have ⟨_, ho⟩ := h.started ⟨p, p'⟩ (mem_starts.mpr ⟨hp, hp'⟩) ordinary
    have ⟨s, hs, pair⟩ := h.exists_known ho
    obtain ⟨⟨_, _⟩, k⟩ := s
    cases pair
    have ⟨⟨t, cs⟩, ht, first, second, run⟩ := h.exists_run (j := ⟨_, []⟩) ⟨hs, nofun⟩ r r' hw
    obtain ⟨rfl, calls⟩ := Configuration.mk.inj first
    obtain ⟨rfl, _⟩ := Configuration.mk.inj second
    obtain rfl := List.map_eq_nil_iff.mp calls
    exact ⟨k, (h.faithful.initial k).mpr ⟨_, hs, rfl, hp, hp'⟩, t.key,
      (h.faithful.final t.key).mpr ⟨t, ht.node, rfl, hq, hq'⟩, run⟩

end Plain

end Product

namespace Automaton

variable {ι : Type} {A B : Automaton ι} {stuck : Key} {table : KeyTable}

def combine (A B : Automaton ι) (stuck : Key) (table : KeyTable) : Product Unit ι :=
  (Product.initial A B (.plain A B) stuck table ()).saturate A B (.plain A B)
    (A.ordinary.length * B.ordinary.length)

theorem product_eq : A.product B (.designated stuck) table = .ok (A.combine B stuck table) :=
  rfl

theorem paired_combine :
    Product.Paired table (A.combine B stuck table).table (A.combine B stuck table).offered := by
  have reach (P : Product Unit ι) (p k? Q) (h : Product.Reached A B (.plain A B) P p k? Q)
      (hP : Product.Paired table P.table P.offered) : Product.Paired table Q.table Q.offered :=
    h.paired hP
  apply Product.saturate_induction reach fun _ _ _ => rfl
  exact Product.initial_induction reach ⟨List.prefix_rfl, fun _ _ h => nomatch h⟩

theorem plain_combine (hA : A.WellFormed) (hB : B.WellFormed)
    (free : ∀ p q, (A.combine B stuck table).table.key? (.pair p q) ≠ some stuck) :
    Product.Plain A B stuck (A.combine B stuck table) := by
  have paired : Product.Paired table (A.combine B stuck table).table (A.combine B stuck table).offered :=
    paired_combine
  have spares : (A.combine B stuck table).Spares stuck := by
    intro s hs hk
    have ⟨k, heq, shape⟩ := paired.keys _ _ (Product.mem_known.mp hs)
    rw [← Option.some.inj heq, hk] at shape
    exact free s.first s.second (KeyTable.key?_eq_some_iff.mpr shape)
  exact {
    Product.complete_saturate (fun _ _ _ => rfl) hA hB Nat.le.refl spares with
    first  := hA
    second := hB
    keys   := paired.keys
  }

-- The search in the product succeeds if it does in both operands, as long as the stuck state of the
-- product stands for no pair.
theorem search_product_iff (hA : A.Obtained) (hB : B.Obtained) (absA : A.Absorbing) (absB : B.Absorbing)
    (stuck : Key) (table : KeyTable) :
    ∃ P, A.product B (.designated stuck) table = .ok P ∧
      ((∀ p q, P.table.key? (.pair p q) ≠ some stuck) → ∀ w : Word, w.Unreserved →
        (P.result.search w = .ok true ↔ A.search w = .ok true ∧ B.search w = .ok true)) := by
  refine ⟨A.combine B stuck table, product_eq, fun free w hw => ?_⟩
  have plain := plain_combine hA.wellFormed hB.wellFormed free
  rw [search_eq_true_iff plain.absorbing, search_eq_true_iff absA, search_eq_true_iff absB,
    plain.accepts_iff hw]

theorem search_product_bracketed :
    ∃ P, (brackets ⟨3⟩ [⟨4⟩]).product (brackets ⟨3⟩ [⟨3⟩, ⟨4⟩]) (.designated ⟨7⟩) bracketKeys = .ok P ∧
      P.result.search bracketed = .ok true := by
  have ⟨P, hP, spec⟩ := search_product_iff (A := brackets ⟨3⟩ [⟨4⟩]) (B := brackets ⟨3⟩ [⟨3⟩, ⟨4⟩])
    obtained_brackets obtained_brackets absorbing_brackets absorbing_brackets ⟨7⟩ bracketKeys
  have free p q : P.table.key? (.pair p q) ≠ some ⟨7⟩ := by
    obtain rfl := Except.ok.inj (product_eq.symm.trans hP)
    exact KeyTable.key?_ne_of_name (t := bracketKeys) rfl paired_combine.grown nofun
  exact ⟨P, hP, (spec free bracketed (by decide)).mpr ⟨by decide, by decide⟩⟩

end Automaton

end NestedAutomata
