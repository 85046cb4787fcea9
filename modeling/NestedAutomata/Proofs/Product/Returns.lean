import NestedAutomata.Proofs.Product.Language

namespace NestedAutomata

namespace Product

variable {σ ι : Type} {A B : Automaton ι} {choices : Choices σ ι} {P Q : Product σ ι}
variable {s x c : Node} {stuck : Key} {task : Task} {l : List Task} {pending : List Node}
variable {common : Key → Key → Option Key} {tried : Task → Prop} {t : Return}
variable {table : KeyTable} {client : σ}

def Traced (tried : Task → Prop) (common : Key → Key → Option Key) (P : Product σ ι) : Prop :=
  ∀ t ∈ P.result.transitions, ∃ task a k, tried task ∧ task.label common = some a ∧
    (task.target, some k) ∈ P.offered ∧ task.transition a k = t

theorem Traced.later (h : Traced tried common P) (l : Later P Q)
    (same : Q.result.transitions = P.result.transitions) : Traced tried common Q := by
  intro t ht
  have ⟨task, a, k, rest, label, offered, eq⟩ := h t (same ▸ ht)
  exact ⟨task, a, k, rest, label, l.offered.subset offered, eq⟩

theorem Performed.traced (h : Performed A B choices common P task Q) (ht : tried task)
    (free : Q.Spares stuck) (hf : Faithful A B common stuck P) (hP : Traced tried common P) :
    Traced tried common Q := by
  have faithful (client : σ) : Faithful A B common stuck { P with client } := { hf with }
  have later := h.later
  cases h with
  | unlike      => exact hP.later later rfl
  | missed _ hr => exact hP.later later (hr.transitions free (faithful _))
  | @made a k client client' Q x? hl hr =>
    have free : Q.Spares stuck := free
    have before : Traced tried common Q := hP.later { hr.later with } (hr.transitions free (faithful _))
    have informed : (x?.elim (Q.result.add (task.transition a k))
        ((Q.result.add (task.transition a k)).setInfo k)).transitions =
          (Q.result.add (task.transition a k)).transitions := by
      cases x? <;> rfl
    intro t ht
    rw [informed] at ht
    cases Automaton.mem_transitions_add.mp ht with
    | inl ht => exact before t ht
    | inr ht => exact ⟨task, a, k, ‹_›, hl, mem_known.mp hr.known, ht.1.symm⟩

def Tried (A B : Automaton ι) (explored : List Node) (task : Task) : Prop :=
  Sensible A B explored task ∧ task.Met explored

section Labels

variable (labels : ∀ a b s, (choices.label a b s).1 = common a b) (hA : A.WellFormed) (hB : B.WellFormed)
include labels hA hB

theorem traced_foldl_perform (h : Consistent A B P)
    (ht : ∀ task ∈ l, Sensible A B P.known task ∧ tried task)
    (free : (l.foldl (perform A B choices) P).Spares stuck) (hf : Faithful A B common stuck P)
    (hP : Traced tried common P) : Traced tried common (l.foldl (perform A B choices) P) := by
  induction l generalizing P with
  | nil => exact hP
  | cons task l ih =>
    have ⟨sensible, first⟩ := ht task List.mem_cons_self
    have performed : Performed A B choices common P task (P.perform A B choices task) := performed labels
    have later : Later (P.perform A B choices task) (l.foldl (perform A B choices) _) :=
      later_foldl_perform
    have before := free.of_later later
    apply ih (performed.consistent hA hB h sensible) _ free
    case hf => exact (performed.faithful hA hB h sensible before hf).1
    case hP => exact performed.traced first before hf hP
    intro task' ht'
    have ⟨sensible, rest⟩ := ht task' (List.mem_cons_of_mem _ ht')
    exact ⟨sensible.mono fun _ => performed.later.known, rest⟩

theorem Traced.explore (h : Invariant A B common stuck P) (hp : P.pending = s :: pending)
    (free : ({ P with pending }.explore A B choices s).Spares stuck)
    (hP : Traced (Tried A B P.explored) common P) :
    Traced (Tried A B (P.explored ++ [s])) common ({ P with pending }.explore A B choices s) := by
  have ⟨fresh, mem⟩ := h.booked.unexplored hp
  have turned {t : Node} : t ∈ s :: P.explored → t ∈ P.explored ++ [s] := by simp [or_comm]
  have before : Traced (Tried A B (P.explored ++ [s])) common { P with pending } := by
    intro t ht
    have ⟨task, a, k, ⟨sensible, met⟩, rest⟩ := hP t ht
    exact ⟨task, a, k, ⟨sensible.mono (List.subset_append_left ..), met.mono⟩, rest⟩
  have tasks : ∀ task ∈ { P with pending }.tasks A B s,
      Sensible A B P.known task ∧ Tried A B (P.explored ++ [s]) task := by
    intro task ht
    have ⟨sensible, _, met⟩ := (mem_tasks fresh).mp ht
    exact ⟨sensible.mono mem, sensible.mono fun _ => turned, met⟩
  have later : Later { P with pending }
      (({ P with pending }.tasks A B s).foldl (perform A B choices) { P with pending }) :=
    later_foldl_perform
  have consistent : Consistent A B { P with pending } := { h.consistent with }
  rw [explore_eq] at free ⊢
  have free : (({ P with pending }.tasks A B s).foldl (perform A B choices) { P with pending }).Spares stuck :=
    free
  have spares : P.Spares stuck := free.of_offered later.offered
  have faithful : Faithful A B common stuck { P with pending } := { h.faithful spares with }
  have traced := traced_foldl_perform labels hA hB consistent tasks free faithful before
  exact traced

theorem Traced.saturate {fuel : Nat} (h : Invariant A B common stuck P)
    (free : (P.saturate A B choices fuel).Spares stuck) (hP : Traced (Tried A B P.explored) common P) :
    Traced (Tried A B (P.saturate A B choices fuel).explored) common (P.saturate A B choices fuel) := by
  fun_induction Product.saturate A B choices fuel P with
  | case1 => exact hP
  | case2 => exact hP
  | case3 fuel P s pending hp ih =>
    have before := free.of_offered (offered_saturate labels)
    apply ih (h.explore labels hA hB hp) free
    have traced := hP.explore labels hA hB h hp before
    rw [explore_eq] at traced ⊢
    exact traced

end Labels

theorem traced_initial (hA : A.WellFormed) (hB : B.WellFormed)
    (free : (initial A B choices stuck table client).Spares stuck) :
    Traced tried common (initial A B choices stuck table client) := by
  have looked : Looked A B common _ (blank A B stuck table client)
      (initial A B choices stuck table client) :=
    looked_initial hA hB
  intro t ht
  rw [(looked.faithful stuck free faithful_blank).2] at ht
  exact absurd ht not_mem_transitions_blank

theorem traced_saturate {fuel : Nat} (labels : ∀ a b s, (choices.label a b s).1 = common a b)
    (hA : A.WellFormed) (hB : B.WellFormed)
    (free : ((initial A B choices stuck table client).saturate A B choices fuel).Spares stuck) :
    Traced (Tried A B ((initial A B choices stuck table client).saturate A B choices fuel).explored) common
      ((initial A B choices stuck table client).saturate A B choices fuel) := by
  have before := free.of_offered (offered_saturate labels)
  exact (traced_initial hA hB before).saturate labels hA hB (invariant_initial hA hB) free

variable {K : Pair → Option Key} {common : Key → Key → Option Key}

def Answers (P : Product σ ι) (K : Pair → Option Key) : Prop :=
  ∀ p k?, (p, k?) ∈ P.offered → k? = K p

-- Whether the states are tried as the exit and the call site of a return. Of different states with the
-- same key, the exit has to be the one that was explored later.
def Tries (P : Product σ ι) (x c : Node) : Prop :=
  x.key = c.key → x = c ∨ [c, x].Sublist P.explored

theorem met_ret_iff {r u : Return} : (Task.ret x c r u).Met P.explored ↔ P.Tries x c := by
  constructor
  case mp  => exact fun met => met x c rfl
  case mpr =>
    intro tries y d same
    cases same
    exact tries

-- The return combines returns of the operands from the exit to a pair that is accepted.
inductive Combines (A B : Automaton ι) (common : Key → Key → Option Key) (K : Pair → Option Key)
    (x c : Node) : Return → Prop
  | intro {a b l p q k} :
    .ret ⟨x.first, c.first, a, p⟩ ∈ A.transitions → .ret ⟨x.second, c.second, b, q⟩ ∈ B.transitions →
      common a b = some l → l ≠ .ε → ¬(A.IsStuck p ∨ B.IsStuck q) → K ⟨p, q⟩ = some k →
        Combines A B common K x c ⟨x.key, c.key, l, k⟩

theorem Reached.answers {p : Pair} {k? : Option Key} (h : Reached A B choices P p k? Q)
    (states : ∀ p s, (choices.state p s).1.map Prod.fst = K p) (hP : P.Answers K) : Q.Answers K := by
  have answer := states p (P.table, P.client)
  cases h with
  | stuck | old => exact hP
  | rejected _ _ hr | accepted _ _ hr =>
    rw [hr] at answer
    intro q j? hq
    cases List.mem_cons.mp hq with
    | inl hq => cases hq; exact answer
    | inr hq => exact hP q j? hq

theorem answers_saturate {fuel : Nat} (labels : ∀ a b s, (choices.label a b s).1 = common a b)
    (states : ∀ p s, (choices.state p s).1.map Prod.fst = K p) :
    ((initial A B choices stuck table client).saturate A B choices fuel).Answers K := by
  have reach (P : Product σ ι) (p k? Q) (h : Reached A B choices P p k? Q) (hP : P.Answers K) :
      Q.Answers K :=
    h.answers states hP
  apply saturate_induction (motive := fun _ offered => ∀ p k?, (p, k?) ∈ offered → k? = K p) reach labels
  exact initial_induction (motive := fun _ offered => ∀ p k?, (p, k?) ∈ offered → k? = K p) reach nofun

namespace Complete

variable (h : Complete A B common stuck P) (hA : A.WellFormed) (hB : B.WellFormed)
include h hA hB

theorem ret_mem_iff (traced : Traced (Tried A B P.explored) common P) (answers : P.Answers K) :
    .ret t ∈ P.result.transitions ↔
      ∃ x ∈ P.known, ∃ c ∈ P.known, P.Tries x c ∧ Combines A B common K x c t := by
  constructor
  case mp =>
    intro ht
    have ⟨task, a, k, ⟨sensible, met⟩, label, offered, eq⟩ := traced _ ht
    have ordinary := (ordinary_iff.mp (h.consistent.ordinary _ _ offered)).2.2
    have sources := sensible.sources
    cases sensible.fits with
    | @ret x c b b' p q hr hr' =>
      cases eq
      have hx := (h.explored x).mp (sources x (by simp [Task.sources]))
      have hc := (h.explored c).mp (sources c (by simp [Task.sources]))
      have labelled := h.wellFormed.labelled _ ht
      exact ⟨x, hx, c, hc, met_ret_iff.mp met, .intro hr hr' label labelled ordinary (answers _ _ offered).symm⟩
    | first | second | internal | call => cases eq
  case mpr =>
    rintro ⟨x, hx, c, hc, tries, ⟨hr, hr', label, hl, ordinary, hk⟩⟩
    have fits := Task.Fits.ret hr hr'
    have sources := List.forall_mem_cons.mpr ⟨hx, List.forall_mem_singleton.mpr hc⟩
    obtain ⟨first, second⟩ :=
      fits.target_mem hA hB fun s hs => h.consistent.ordinary_of_known (sources s hs)
    have sensible : Sensible A B P.known (.ret x c _ _) := ⟨sources, fits⟩
    obtain ⟨k?, offered, made⟩ :=
      h.done _ sensible (met_ret_iff.mpr tries) _ label (ordinary_iff.mpr ⟨first, second, ordinary⟩)
    exact made _ ((answers _ _ offered).trans hk) hl

end Complete

end Product

namespace Automaton

open Product

variable {σ ι : Type} {A B : Automaton ι} {choices : Choices σ ι} {common : Key → Key → Option Key}

-- The returns of the product are those that combine returns of the operands between accepted pairs, apart
-- from those that are not tried. These are missing unless the client merges further pairs such that
-- the same return comes of states that are tried.
theorem returns_productWith_iff (hA : A.Obtained) (hB : B.Obtained)
    (labels : ∀ a b s, (choices.label a b s).1 = common a b) (stuck : Key) (table : KeyTable) (client : σ) :
    ∃ P, A.productWith B choices (.designated stuck) table client = .ok P ∧
      ∀ K : Pair → Option Key, P.Answers K → (∀ p, K p ≠ some stuck) →
        (∀ t : Return, .ret t ∈ P.result.transitions ↔
          ∃ x ∈ P.known, ∃ c ∈ P.known, P.Tries x c ∧ Combines A B common K x c t) ∧
        ((∀ t : Return, .ret t ∈ P.result.transitions ↔
            ∃ x ∈ P.known, ∃ c ∈ P.known, Combines A B common K x c t) ↔
          ∀ x ∈ P.known, ∀ c ∈ P.known, ∀ t, Combines A B common K x c t →
            ∃ x ∈ P.known, ∃ c ∈ P.known, P.Tries x c ∧ Combines A B common K x c t) := by
  refine ⟨_, rfl, fun K answers free => ?_⟩
  have hA := hA.wellFormed
  have hB := hB.wellFormed
  have spares : Spares _ stuck := fun s hs hk => free s.toPair (hk ▸ answers _ _ (mem_known.mp hs)).symm
  have complete := complete_saturate labels hA hB Nat.le.refl spares
  have traced := traced_saturate labels hA hB spares
  have exact (t : Return) := complete.ret_mem_iff hA hB (t := t) traced answers
  refine ⟨exact, ?_⟩
  simp only [exact]
  constructor
  case mp  => exact fun all x hx c hc t ht => (all t).mpr ⟨x, hx, c, hc, ht⟩
  case mpr =>
    intro all t
    constructor
    case mp  => exact fun ⟨x, hx, c, hc, _, ht⟩ => ⟨x, hx, c, hc, ht⟩
    case mpr => exact fun ⟨x, hx, c, hc, ht⟩ => all x hx c hc t ht

-- An automaton with two initial states, one of which is the call site and the other one the exit of its
-- only return, and a client who merges the pairs of equal ones.
section Crossing

def crossing (exit site : Key) : Automaton Unit :=
  (((∅ : Automaton Unit).addInitial ⟨2⟩).addInitial ⟨3⟩).add (.ret ⟨exit, site, ⟨4⟩, ⟨5⟩⟩)

theorem obtained_crossing {exit site : Key} : (crossing exit site).Obtained :=
  have A : ((∅ : Automaton Unit).addInitial ⟨2⟩).Obtained := .edit (e := .addInitial _) .empty rfl
  .edit (e := .add _) (.edit (e := .addInitial _) A rfl) rfl

def merged (p : Pair) : Option Key :=
  if p.first ≠ p.second then none
  else if p.first = ⟨5⟩ then some ⟨8⟩
  else some ⟨7⟩

def merging : Choices Unit Unit where
  state p   := pure ((merged p).map (·, none))
  label a b := pure (if a = b then some a else none)
  info _    := pure none

theorem merging_label (a b : Key) (s : Unit) : (merging.label a b s).1 = if a = b then some a else none :=
  rfl

theorem merged_ne_stuck (p : Pair) : merged p ≠ some ⟨6⟩ := by
  unfold merged
  grind

theorem merging_state (p : Pair) (s : KeyTable × Unit) :
    (merging.state p s).1.map Prod.fst = merged p := by
  change ((merged p).map (·, none)).map Prod.fst = merged p
  simp [Function.comp_def]

theorem combines_crossing {exit site : Key} :
    Combines (crossing exit site) (crossing exit site) (fun a b => if a = b then some a else none) merged
      ⟨⟨exit, exit⟩, ⟨7⟩⟩ ⟨⟨site, site⟩, ⟨7⟩⟩ ⟨⟨7⟩, ⟨7⟩, ⟨4⟩, ⟨8⟩⟩ := by
  have ht : .ret ⟨exit, site, ⟨4⟩, ⟨5⟩⟩ ∈ (crossing exit site).transitions :=
    mem_transitions_add.mpr (.inr ⟨rfl, nofun, nofun⟩)
  have ordinary : ¬(crossing exit site).IsStuck ⟨5⟩ := nofun
  exact .intro ht ht rfl nofun (not_or_intro ordinary ordinary) rfl

theorem returns_productWith_crossing :
    ∃ P, (crossing ⟨3⟩ ⟨2⟩).productWith (crossing ⟨3⟩ ⟨2⟩) merging (.designated ⟨6⟩) .base () = .ok P ∧
      .ret ⟨⟨7⟩, ⟨7⟩, ⟨4⟩, ⟨8⟩⟩ ∈ P.result.transitions := by
  have ⟨P, hP, spec⟩ := returns_productWith_iff (A := crossing ⟨3⟩ ⟨2⟩) (B := crossing ⟨3⟩ ⟨2⟩)
    obtained_crossing obtained_crossing merging_label ⟨6⟩ .base ()
  cases hP
  have ⟨returns, _⟩ := spec merged (answers_saturate merging_label merging_state) merged_ne_stuck
  refine ⟨_, rfl, (returns _).mpr ⟨_, ?exit, _, ?site, fun _ => .inr ?later, combines_crossing⟩⟩
  case exit | site | later => decide +kernel

-- The exit is explored before the call site, so that the return is missing.
theorem not_returns_productWith_crossing :
    ∃ P, (crossing ⟨2⟩ ⟨3⟩).productWith (crossing ⟨2⟩ ⟨3⟩) merging (.designated ⟨6⟩) .base () = .ok P ∧
      P.Answers merged ∧ (∀ p, merged p ≠ some ⟨6⟩) ∧
      ¬∀ t : Return, .ret t ∈ P.result.transitions ↔
        ∃ x ∈ P.known, ∃ c ∈ P.known,
          Combines (crossing ⟨2⟩ ⟨3⟩) (crossing ⟨2⟩ ⟨3⟩) (fun a b => if a = b then some a else none) merged
            x c t := by
  refine ⟨_, rfl, answers_saturate merging_label merging_state, merged_ne_stuck, fun all => ?_⟩
  have missing := (all _).mpr ⟨_, by decide +kernel, _, by decide +kernel, combines_crossing⟩
  exact absurd missing (by decide +kernel)

end Crossing

end Automaton

end NestedAutomata
