import Mathlib.Data.List.Nodup
import NestedAutomata.Proofs.Product.Tasks

namespace NestedAutomata.Product

namespace Task

def sources : Task → List Node
  | shift s _ | internal s _ _ => [s]
  | call c _ _                 => [c]
  | ret x c _ _                => [x, c]

theorem sources_ne_nil (task : Task) : task.sources ≠ [] := by
  cases task <;> simp [sources]

def target : Task → Pair
  | shift _ p      => p
  | internal _ t u => ⟨t.target, u.target⟩
  | call _ t u     => ⟨t.entry, u.entry⟩
  | ret _ _ t u    => ⟨t.returnSite, u.returnSite⟩

def label (common : Key → Key → Option Key) : Task → Option Key
  | shift _ _      => some .ε
  | internal _ t u => common t.symbol u.symbol
  | call _ t u     => common t.symbol u.symbol
  | ret _ _ t u    => common t.symbol u.symbol

def transition (symbol state : Key) : Task → Transition
  | shift s _ | internal s _ _ => .internal ⟨s.key, symbol, state⟩
  | call c _ _                 => .call ⟨c.key, symbol, state⟩
  | ret x c _ _                => .ret ⟨x.key, c.key, symbol, state⟩

inductive Fits {ι : Type} (A B : Automaton ι) : Task → Prop
  | first {s q} :
    .internal ⟨s.first, .ε, q⟩ ∈ A.transitions → Fits A B (shift s ⟨q, s.second⟩)
  | second {s q} :
    .internal ⟨s.second, .ε, q⟩ ∈ B.transitions → Fits A B (shift s ⟨s.first, q⟩)
  | internal {s a b q r} :
    .internal ⟨s.first, a, q⟩ ∈ A.transitions → .internal ⟨s.second, b, r⟩ ∈ B.transitions →
      a ≠ .ε → b ≠ .ε → Fits A B (internal s ⟨s.first, a, q⟩ ⟨s.second, b, r⟩)
  | call {c a b q r} :
    .call ⟨c.first, a, q⟩ ∈ A.transitions → .call ⟨c.second, b, r⟩ ∈ B.transitions →
      Fits A B (call c ⟨c.first, a, q⟩ ⟨c.second, b, r⟩)
  | ret {x c a b q r} :
    .ret ⟨x.first, c.first, a, q⟩ ∈ A.transitions → .ret ⟨x.second, c.second, b, r⟩ ∈ B.transitions →
      Fits A B (ret x c ⟨x.first, c.first, a, q⟩ ⟨x.second, c.second, b, r⟩)

end Task

section

variable {σ ι : Type} (A B : Automaton ι) (choices : Choices σ ι)

def Ordinary (p : Pair) : Prop :=
  p.first ∈ A.ordinary ∧ p.second ∈ B.ordinary

-- The states for the pairs that were accepted, the latest first.
def known (P : Product σ ι) : List Node :=
  P.offered.filterMap fun (p, k?) => k?.map (⟨p, ·⟩)

inductive Reached (P : Product σ ι) (p : Pair) : Option Key → Product σ ι → Prop
  | stuck :
    A.IsStuck p.first ∨ B.IsStuck p.second → Reached P p none P
  | old {k?} :
    ¬(A.IsStuck p.first ∨ B.IsStuck p.second) → (p, k?) ∈ P.offered → Reached P p k? P
  | rejected {table client} :
    ¬(A.IsStuck p.first ∨ B.IsStuck p.second) → p ∉ P.offered.map Prod.fst →
      choices.state p (P.table, P.client) = (none, table, client) →
        Reached P p none { P with table, client, offered := (p, none) :: P.offered }
  | accepted {k x? table client} :
    ¬(A.IsStuck p.first ∨ B.IsStuck p.second) → p ∉ P.offered.map Prod.fst →
      choices.state p (P.table, P.client) = (some (k, x?), table, client) →
        Reached P p (some k)
          ({ P with table, client, offered := (p, some k) :: P.offered }.accept A B p k x?)

-- What comes of a task. The client may change its mind about everything but labels.
inductive Performed (common : Key → Key → Option Key) (P : Product σ ι) (task : Task) :
    Product σ ι → Prop
  | unlike {client} :
    task.label common = none → Performed common P task { P with client }
  | missed {a client Q} :
    task.label common = some a → Reached A B choices { P with client } task.target none Q →
      Performed common P task Q
  | made {a k client client' Q} {x? : Option ι} :
    task.label common = some a → Reached A B choices { P with client } task.target (some k) Q →
      Performed common P task { Q with
        result := x?.elim (Q.result.add (task.transition a k))
          ((Q.result.add (task.transition a k)).setInfo k)
        client := client' }

end

variable {σ ι : Type} {A B : Automaton ι} {choices : Choices σ ι} {P Q R : Product σ ι}
variable {s : Node} {p : Pair} {k a stuck : Key} {k? : Option Key} {task : Task}
variable {common : Key → Key → Option Key}

theorem mem_known : s ∈ P.known ↔ (s.toPair, some s.key) ∈ P.offered := by
  simp only [known, List.mem_filterMap, Prod.exists, Option.map_eq_some_iff]
  constructor
  case mp =>
    rintro ⟨_, _, h, _, rfl, rfl⟩
    exact h
  case mpr => exact fun h => ⟨_, _, h, _, rfl, rfl⟩

theorem reached : Reached A B choices P p (P.reach A B choices p).1 (P.reach A B choices p).2 := by
  unfold reach
  split
  case isTrue h  => exact .stuck h
  case isFalse h =>
    split
    case h_1 k? hk =>
      have ⟨l, m, hl, _⟩ := List.lookup_eq_some_iff.mp hk
      exact .old h (hl ▸ List.mem_append_right l List.mem_cons_self)
    case h_2 hk =>
      have fresh : p ∉ P.offered.map Prod.fst := by
        intro hp
        have ⟨e, he, hp⟩ := List.mem_map.mp hp
        simpa [hp] using List.lookup_eq_none_iff.mp hk e he
      generalize hr : choices.state p (P.table, P.client) = reply
      obtain ⟨_ | ⟨k, x?⟩, table, client⟩ := reply
      case none => exact .rejected h fresh hr
      case some => exact .accepted h fresh hr

theorem performed_now :
    Performed A B choices (fun a b => (choices.label a b P.client).1) P task
      (P.perform A B choices task) := by
  have move {t : (symbol state : Key) → Transition} {m : (symbol state : Key) → Move} {b c : Key}
      (hl : task.label (fun a b => (choices.label a b P.client).1) = (choices.label b c P.client).1)
      (ht : ∀ a k, t a k = task.transition a k) :
      Performed A B choices (fun a b => (choices.label a b P.client).1) P task
        (P.move A B choices b c task.target t m) := by
    simp only [move]
    split
    case h_1 client h => exact .unlike (by rw [hl, h])
    case h_2 symbol client h =>
      have hl : task.label (fun a b => (choices.label a b P.client).1) = some symbol := by rw [hl, h]
      have hr : Reached A B choices { P with client } task.target _ _ := reached
      split
      case h_1 h => rw [h] at hr; exact .missed hl hr
      case h_2 h => rw [h] at hr; exact ht symbol _ ▸ .made hl hr
  cases task with
  | internal | call | ret => exact move rfl fun _ _ => rfl
  | shift s p             =>
    have hr : Reached A B choices P p _ _ := reached
    simp only [perform, shift]
    split
    case h_1 h => rw [h] at hr; exact .missed rfl hr
    case h_2 k Q h =>
      rw [h] at hr
      have made : Performed A B choices (fun a b => (choices.label a b P.client).1) P (.shift s p) { Q with
          result := (none : Option ι).elim (Q.result.add (.internal ⟨s.key, .ε, k⟩)) _
          client := Q.client } :=
        .made rfl hr
      exact made

theorem performed (labels : ∀ a b s, (choices.label a b s).1 = common a b) :
    Performed A B choices common P task (P.perform A B choices task) := by
  have same : (fun a b => (choices.label a b P.client).1) = common :=
    funext₂ fun a b => labels a b P.client
  exact same ▸ performed_now

structure Later (P Q : Product σ ι) : Prop where
  offered : P.offered <:+ Q.offered
  found   : ∃ l, Q.known = l ++ P.known ∧ Q.pending.Perm (l ++ P.pending)
  result  : P.result.Growth Q.result

namespace Later

theorem refl : Later P P :=
  ⟨List.suffix_rfl, ⟨[], rfl, .rfl⟩, .refl⟩

theorem trans (h₁ : Later P Q) (h₂ : Later Q R) : Later P R where
  offered := h₁.offered.trans h₂.offered
  result  := h₁.result.trans h₂.result
  found   := by
    have ⟨l, hk, hp⟩ := h₁.found
    have ⟨m, hk', hp'⟩ := h₂.found
    refine ⟨m ++ l, by simp [hk, hk'], ?_⟩
    rw [List.append_assoc]
    exact hp'.trans (hp.append_left m)

theorem known (h : Later P Q) (hs : s ∈ P.known) : s ∈ Q.known := by
  have ⟨l, hl, _⟩ := h.found
  exact hl ▸ List.mem_append_right l hs

end Later

theorem Reached.later (h : Reached A B choices P p k? Q) : Later P Q := by
  cases h with
  | stuck | old    => exact .refl
  | rejected _ _ _ => exact ⟨List.suffix_cons .., ⟨[], rfl, .rfl⟩, .refl⟩
  | accepted _ _ _ => exact ⟨List.suffix_cons .., ⟨[⟨p, _⟩], rfl, List.perm_append_singleton ..⟩, growth_accept⟩

theorem Performed.later (h : Performed A B choices common P task Q) : Later P Q := by
  cases h with
  | unlike      => exact ⟨List.suffix_rfl, ⟨[], rfl, .rfl⟩, .refl⟩
  | missed _ hr => exact { hr.later with }
  | made _ hr   => exact { hr.later with result := hr.later.result.trans (.elim (.add .refl)) }

structure Consistent (A B : Automaton ι) (P : Product σ ι) : Prop where
  nodup    : (P.offered.map Prod.fst).Nodup
  ordinary : ∀ p k?, (p, k?) ∈ P.offered → Ordinary A B p

structure Sensible (A B : Automaton ι) (known : List Node) (task : Task) : Prop where
  sources : ∀ s ∈ task.sources, s ∈ known
  fits    : task.Fits A B

-- The pair that the task leads to was offered, and the result has the transition if it was accepted.
def Done (A B : Automaton ι) (common : Key → Key → Option Key) (P : Product σ ι) (task : Task) : Prop :=
  ∀ a, task.label common = some a → Ordinary A B task.target →
    ∃ k?, (task.target, k?) ∈ P.offered ∧ ∀ k, k? = some k → (task.transition a k).Labelled →
      task.transition a k ∈ P.result.transitions

structure Faithful (A B : Automaton ι) (common : Key → Key → Option Key) (stuck : Key)
    (P : Product σ ι) : Prop where
  mode        : P.result.states.stuck = .designated stuck
  members     : ∀ q, q ∈ P.result.states ↔ q = stuck ∨ ∃ s ∈ P.known, s.key = q
  initial     : ∀ q, q ∈ P.result.states.initial ↔
    ∃ s ∈ P.known, s.key = q ∧ s.first ∈ A.states.initial ∧ s.second ∈ B.states.initial
  final       : ∀ q, q ∈ P.result.states.final ↔
    ∃ s ∈ P.known, s.key = q ∧ s.first ∈ A.states.final ∧ s.second ∈ B.states.final
  alphabet    : ∀ a, a ∈ P.result.alphabet ↔
    (a ∈ A.alphabet ∧ a ∈ B.alphabet) ∨ ¬a.Reserved ∧ ∃ t ∈ P.result.transitions, t.label = a
  transitions : ∀ t ∈ P.result.transitions, ∃ task a, ∃ s ∈ P.known, Sensible A B P.known task ∧
    task.label common = some a ∧ s.toPair = task.target ∧ task.transition a s.key = t

def Spares (P : Product σ ι) (k : Key) : Prop :=
  ∀ s ∈ P.known, s.key ≠ k

theorem Spares.of_offered (h : Q.Spares k) (l : P.offered <:+ Q.offered) : P.Spares k :=
  fun s hs => h s (mem_known.mpr (l.subset (mem_known.mp hs)))

theorem Spares.of_later (h : Q.Spares k) (l : Later P Q) : P.Spares k :=
  h.of_offered l.offered

theorem Sensible.mono {l m : List Node} (h : Sensible A B l task) (sub : l ⊆ m) : Sensible A B m task where
  sources s hs := sub (h.sources s hs)
  fits         := h.fits

theorem Sensible.of_not_mem {l : List Node} (h : Sensible A B (s :: l) task) (hs : s ∉ task.sources) :
    Sensible A B l task where
  sources t ht := (List.mem_cons.mp (h.sources t ht)).resolve_left fun e => hs (e ▸ ht)
  fits         := h.fits

theorem Done.later (h : Done A B common P task) (l : Later P Q) : Done A B common Q task := by
  intro a hl ho
  have ⟨k?, hp, ht⟩ := h a hl ho
  exact ⟨k?, l.offered.subset hp, fun k hk hl => l.result.mem_transitions (ht k hk hl)⟩

theorem ordinary_iff :
    Ordinary A B p ↔
      p.first ∈ A.states ∧ p.second ∈ B.states ∧ ¬(A.IsStuck p.first ∨ B.IsStuck p.second) := by
  simp only [Ordinary, Automaton.mem_ordinary]
  grind

theorem Task.Fits.target_mem (h : task.Fits A B) (hA : A.WellFormed) (hB : B.WellFormed)
    (sources : ∀ s ∈ task.sources, Ordinary A B s.toPair) :
    task.target.first ∈ A.states ∧ task.target.second ∈ B.states := by
  have first {t : Transition} (ht : t ∈ A.transitions) : t.destination ∈ A.states :=
    hA.destination ht
  have second {t : Transition} (ht : t ∈ B.transitions) : t.destination ∈ B.states :=
    hB.destination ht
  cases h with
  | first ht  => exact ⟨first ht, (ordinary_iff.mp (sources _ List.mem_cons_self)).2.1⟩
  | second ht => exact ⟨(ordinary_iff.mp (sources _ List.mem_cons_self)).1, second ht⟩
  | internal ht hu | call ht hu | ret ht hu => exact ⟨first ht, second hu⟩

namespace Consistent

theorem unique (h : Consistent A B P) {j? k? : Option Key} (hj : (p, j?) ∈ P.offered)
    (hk : (p, k?) ∈ P.offered) : j? = k? :=
  congrArg Prod.snd (List.inj_on_of_nodup_map h.nodup hj hk rfl)

theorem nodup_known (h : Consistent A B P) : P.known.Nodup := by
  refine h.nodup.of_map.filterMap ?_
  rintro ⟨p, _⟩ ⟨q, _⟩ s hp hq
  obtain ⟨j, rfl, rfl⟩ := Option.map_eq_some_iff.mp hp
  obtain ⟨k, rfl, hk⟩ := Option.map_eq_some_iff.mp hq
  cases hk
  rfl

theorem ordinary_of_known (h : Consistent A B P) (hs : s ∈ P.known) : Ordinary A B s.toPair :=
  h.ordinary _ _ (mem_known.mp hs)

end Consistent

namespace Reached

theorem known (h : Reached A B choices P p (some k) Q) : ⟨p, k⟩ ∈ Q.known := by
  cases h with
  | old _ hp       => exact mem_known.mpr hp
  | accepted _ _ _ => exact List.mem_cons_self

theorem offered (h : Reached A B choices P p k? Q) (hp : Ordinary A B p) : (p, k?) ∈ Q.offered := by
  cases h with
  | stuck h        => exact absurd h (ordinary_iff.mp hp).2.2
  | old _ hp       => exact hp
  | rejected _ _ _ => exact List.mem_cons_self
  | accepted _ _ _ => exact List.mem_cons_self

theorem consistent (h : Reached A B choices P p k? Q) (hP : Consistent A B P)
    (first : p.first ∈ A.states) (second : p.second ∈ B.states) : Consistent A B Q := by
  cases h with
  | stuck | old                                   => exact hP
  | rejected ho fresh _ | accepted ho fresh _ =>
    constructor
    case nodup    => exact List.nodup_cons.mpr ⟨fresh, hP.nodup⟩
    case ordinary =>
      intro q k? hq
      cases List.mem_cons.mp hq with
      | inl hq =>
        obtain ⟨rfl, _⟩ := Prod.mk.inj hq
        exact ordinary_iff.mpr ⟨first, second, ho⟩
      | inr hq => exact hP.ordinary q k? hq

end Reached

theorem Performed.consistent (h : Performed A B choices common P task Q) (hA : A.WellFormed)
    (hB : B.WellFormed) (hP : Consistent A B P) (ht : Sensible A B P.known task) : Consistent A B Q := by
  have ⟨first, second⟩ := ht.fits.target_mem hA hB fun s hs => hP.ordinary_of_known (ht.sources s hs)
  have same (client : σ) : Consistent A B { P with client } := { hP with }
  cases h with
  | unlike      => exact same _
  | missed _ hr => exact hr.consistent (same _) first second
  | made _ hr   => exact { hr.consistent (same _) first second with }

theorem enters_accept {x? : Option ι} (hk : ¬P.result.IsStuck k) :
    P.result.Enters (p.first ∈ A.states.initial ∧ p.second ∈ B.states.initial)
      (p.first ∈ A.states.final ∧ p.second ∈ B.states.final) k (P.accept A B p k x?).result :=
  .addFinal (.addInitial (.elim .addState)) hk

theorem Faithful.not_isStuck (h : Faithful A B common stuck P) (hk : k ≠ stuck) :
    ¬P.result.IsStuck k :=
  fun hs => hk (Stuck.designated.inj (h.mode.symm.trans hs)).symm

theorem Faithful.accepted {table : KeyTable} {client : σ} {x? : Option ι}
    (h : Faithful A B common stuck P) (hk : k ≠ stuck) :
    Faithful A B common stuck
      ({ P with table, client, offered := (p, some k) :: P.offered }.accept A B p k x?) := by
  have enters : P.result.Enters _ _ k
      ({ P with table, client, offered := (p, some k) :: P.offered }.accept A B p k x?).result :=
    enters_accept (h.not_isStuck hk)
  have known : ({ P with table, client, offered := (p, some k) :: P.offered }.accept A B p k x?).known =
      ⟨p, k⟩ :: P.known :=
    rfl
  constructor
  case mode => exact enters.mode.trans h.mode
  case members =>
    intro q
    rw [enters.members, h.members, known, or_left_comm, List.exists_mem_cons_iff]
    exact or_congr_right (or_congr_left eq_comm)
  case initial =>
    intro q
    rw [enters.initial, h.initial, known, List.exists_mem_cons_iff]
  case final =>
    intro q
    rw [enters.final, h.final, known, List.exists_mem_cons_iff]
  case alphabet => exact fun a => enters.alphabet ▸ enters.transitions ▸ h.alphabet a
  case transitions =>
    intro t ht
    rw [enters.transitions] at ht
    have ⟨task, a, s, hs, sensible, rest⟩ := h.transitions t ht
    exact ⟨task, a, s, List.mem_cons_of_mem _ hs, sensible.mono (List.subset_cons_self ..), rest⟩

theorem Reached.faithful (h : Reached A B choices P p k? Q) (free : Q.Spares stuck)
    (hf : Faithful A B common stuck P) : Faithful A B common stuck Q := by
  cases h with
  | stuck | old          => exact hf
  | rejected _ _ _       => exact { hf with }
  | accepted ho fresh hr => exact hf.accepted (free ⟨p, _⟩ List.mem_cons_self)

theorem Reached.transitions (h : Reached A B choices P p k? Q) (free : Q.Spares stuck)
    (hf : Faithful A B common stuck P) : Q.result.transitions = P.result.transitions := by
  cases h with
  | stuck | old | rejected _ _ _ => rfl
  | @accepted k x? table client _ _ _ =>
    have hk := hf.not_isStuck (free ⟨p, k⟩ List.mem_cons_self)
    have enters : P.result.Enters _ _ k
        ({ P with table, client, offered := (p, some k) :: P.offered }.accept A B p k x?).result :=
      enters_accept hk
    exact enters.transitions

theorem Faithful.inform {x? : Option ι} {client : σ} (h : Faithful A B common stuck P) :
    Faithful A B common stuck { P with result := x?.elim P.result (P.result.setInfo k), client } := by
  cases x? with
  | none   => exact { h with }
  | some x =>
    constructor
    case mode        => exact States.stuck_setInfo.trans h.mode
    case members     => exact fun q => States.mem_setInfo.trans (h.members q)
    case initial     => exact fun q => (States.initial_setInfo (q := k) (x := x) ▸ h.initial q :)
    case final       => exact fun q => (States.final_setInfo (q := k) (x := x) ▸ h.final q :)
    case alphabet    => exact h.alphabet
    case transitions => exact h.transitions

theorem label_transition {b : Key} : (task.transition a b).label = a := by
  cases task <;> rfl

theorem mem_states_transition {q : Key} (h : q ∈ (task.transition a k).states) :
    q = k ∨ ∃ s ∈ task.sources, s.key = q := by
  cases task <;> simp_all [Task.transition, Task.sources, Transition.states, eq_comm] <;> grind

theorem exists_source : ∃ s ∈ task.sources, s.key = (task.transition a k).origin := by
  cases task <;> simp [Task.transition, Task.sources, Transition.origin]

theorem Faithful.add (h : Faithful A B common stuck P) (free : P.Spares stuck)
    (ht : Sensible A B P.known task) (hl : task.label common = some a) (hs : s ∈ P.known)
    (target : s.toPair = task.target) :
    Faithful A B common stuck { P with result := P.result.add (task.transition a s.key) } ∧
      ((task.transition a s.key).Labelled →
        task.transition a s.key ∈ (P.result.add (task.transition a s.key)).transitions) := by
  have stays : ¬P.result.Leaves (task.transition a s.key) := by
    intro hl
    have ⟨o, ho, hk⟩ : ∃ o ∈ task.sources, o.key = (task.transition a s.key).origin := exists_source
    exact free o (ht.sources o ho) (hk.trans (Stuck.designated.inj (h.mode.symm.trans hl.1)).symm)
  constructor
  case right => exact fun labelled => Automaton.mem_transitions_add.mpr (.inr ⟨rfl, labelled, stays⟩)
  case left =>
    constructor
    case mode => exact Automaton.stuck_add.trans h.mode
    case members =>
      intro q
      rw [Automaton.mem_states_add, h.members]
      refine or_iff_left_of_imp fun hq => .inr ?_
      cases mem_states_transition hq.1 with
      | inl hq => exact ⟨s, hs, hq.symm⟩
      | inr hq => exact hq.imp fun o ho => ⟨ht.sources o ho.1, ho.2⟩
    case initial => exact fun q => (Automaton.initial_add ▸ h.initial q :)
    case final   => exact fun q => (Automaton.final_add ▸ h.final q :)
    case alphabet =>
      intro b
      rw [Automaton.mem_alphabet_add, h.alphabet]
      simp only [Automaton.mem_transitions_add, Automaton.Admits, label_transition]
      have label : (task.transition a s.key).label = a := label_transition
      generalize task.transition a s.key = t at *
      grind
    case transitions =>
      intro u hu
      cases Automaton.mem_transitions_add.mp hu with
      | inl hu => exact h.transitions u hu
      | inr hu => exact ⟨task, a, s, hs, ht, hl, target, hu.1.symm⟩

theorem Performed.faithful (h : Performed A B choices common P task Q) (hA : A.WellFormed)
    (hB : B.WellFormed) (hP : Consistent A B P) (ht : Sensible A B P.known task) (free : Q.Spares stuck)
    (hf : Faithful A B common stuck P) :
    Faithful A B common stuck Q ∧ Done A B common Q task := by
  have ⟨first, second⟩ := ht.fits.target_mem hA hB fun s hs => hP.ordinary_of_known (ht.sources s hs)
  have consistent (client : σ) : Consistent A B { P with client } := { hP with }
  have faithful (client : σ) : Faithful A B common stuck { P with client } := { hf with }
  cases h with
  | unlike hl    => exact ⟨faithful _, fun a ha => nomatch hl.symm.trans ha⟩
  | missed hl hr =>
    refine ⟨hr.faithful free (faithful _), fun a ha ho => ⟨none, hr.offered ho, nofun⟩⟩
  | @made a k client client' Q x? hl hr =>
    have free : Q.Spares stuck := free
    have ht : Sensible A B Q.known task := ht.mono fun _ hs => hr.later.known hs
    have ⟨hf, mem⟩ := (hr.faithful free (faithful _)).add free ht hl hr.known rfl
    refine ⟨hf.inform, fun b hb ho => ⟨some k, hr.offered ho, fun j hj labelled => ?_⟩⟩
    obtain rfl : a = b := Option.some.inj (hl.symm.trans hb)
    obtain rfl : k = j := Option.some.inj hj
    exact (Automaton.Growth.elim .refl).mem_transitions (mem labelled)

end NestedAutomata.Product
