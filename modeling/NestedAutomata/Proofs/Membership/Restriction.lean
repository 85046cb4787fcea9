import NestedAutomata.Proofs.Automaton.Trim
import NestedAutomata.Proofs.Membership.Search

namespace NestedAutomata.Automaton

open Relation

variable {ι : Type} {A B : Automaton ι} {keep : Key → Prop} {c d : Configuration} {v w : Word}

theorem Step.joined (st : A.Step c v d) : A.Joined c.state d.state := by
  cases st with
  | rest ht | internal ht => exact .internal ht
  | call ht               => exact .call ht
  | ret ht                => exact .exit ht

theorem Passes.path (h : A.Passes c w d) : ReflTransGen A.Joined c.state d.state := by
  induction h with
  | nil => exact .refl
  | rest st _ ih | read _ st _ ih => exact .head st.joined ih

theorem Step.calls (st : A.Step c v d) (hc : keep c.state) (calls : ∀ q ∈ c.calls, keep q) :
    ∀ q ∈ d.calls, keep q := by
  cases st with
  | rest | internal => exact calls
  | call            => exact List.forall_mem_cons.mpr ⟨hc, calls⟩
  | ret             => exact (List.forall_mem_cons.mp calls).2

theorem Step.confine (transitions : ∀ t ∈ A.transitions, (∀ q ∈ t.states, keep q) → t ∈ B.transitions)
    (reads : ∀ l a, A.Reads l a → B.Reads l a) (st : A.Step c v d) (hc : keep c.state)
    (hd : keep d.state) (calls : ∀ q ∈ c.calls, keep q) : B.Step c v d := by
  have kept {t : Transition} (ht : t ∈ A.transitions) (sources : ∀ q ∈ t.sources, keep q)
      (destination : keep t.destination) : t ∈ B.transitions :=
    transitions t ht (Transition.forall_mem_states.mpr ⟨sources, destination⟩)
  have one {q : Key} (hq : keep q) : ∀ r ∈ [q], keep r := List.forall_mem_singleton.mpr hq
  cases st with
  | rest ht        => exact .rest (kept ht (one hc) hd)
  | internal ht hl => exact .internal (kept ht (one hc) hd) (reads _ _ hl)
  | call ht hl     => exact .call (kept ht (one hc) hd) (reads _ _ hl)
  | ret ht hl      =>
    have sources := List.forall_mem_cons.mpr ⟨hc, one (List.forall_mem_cons.mp calls).1⟩
    exact .ret (kept ht sources hd) (reads _ _ hl)

namespace Restricted

variable (h : A.Restricted keep B)
include h

theorem step (st : A.Step c v d) (hc : keep c.state) (hd : keep d.state)
    (calls : ∀ q ∈ c.calls, keep q) : B.Step c v d :=
  st.confine (fun t ht kept => (h.transitions t).mpr ⟨ht, kept⟩) (fun _ _ => h.reads_iff.mpr) hc hd calls

theorem passes (r : A.Passes c w d) (calls : ∀ q ∈ c.calls, keep q)
    (between : ∀ u e v, A.Passes c u e → A.Passes e v d → keep e.state) : B.Passes c w d := by
  induction r with
  | nil => exact .nil
  | rest st r ih =>
    have hc := between [] _ _ .nil (.rest st r)
    have hd := between [] _ _ (.rest st .nil) r
    have later := ih (st.calls hc calls) fun u e v first => between u e v (.rest st first)
    exact .rest (h.step st hc hd calls) later
  | @read _ _ _ x _ hs st r ih =>
    have hc := between [] _ _ .nil (.read hs st r)
    have hd := between [x] _ _ (.read hs st .nil) r
    have later := ih (st.calls hc calls) fun u e v first => between (x :: u) e v (.read hs st first)
    exact .read (mt h.isStuck_iff.mp hs) (h.step st hc hd calls) later

theorem passes_of_restricted (r : B.Passes c w d) : A.Passes c w d :=
  r.mono (fun t ht => ((h.transitions t).mp ht).1) (fun _ _ => h.alphabet ▸ id)
    fun _ => h.isStuck_iff.mpr

-- Whatever is passed on the way from an initial to a final state has to be kept, and nothing else.
theorem search_eq_of_passed (passed : ∀ p ∈ A.states.initial, ∀ d, d.state ∈ A.states.final →
      ∀ u e v, A.Passes ⟨p, []⟩ u e → A.Passes e v d → keep e.state) :
    B.search w = A.search w := by
  refine search_congr (exists_congr fun c => ?_)
  simp only [mem_configurations_iff_passes, h.initial, h.final, h.isStuck_iff]
  constructor
  case mp =>
    intro ⟨⟨p, ⟨hp, _⟩, r, hc⟩, hf, _⟩
    exact ⟨⟨p, hp, h.passes_of_restricted r, hc⟩, hf⟩
  case mpr =>
    intro ⟨⟨p, hp, r, hc⟩, hf⟩
    have between := passed p hp c hf
    have first := between [] _ _ .nil r
    have last := between _ _ [] r .nil
    exact ⟨⟨p, ⟨hp, first⟩, h.passes r nofun between, hc⟩, hf, last⟩

theorem search_eq (useful : ∀ q, A.Useful q → keep q) : B.search w = A.search w :=
  h.search_eq_of_passed fun p hp d hd _ e _ first last =>
    useful e.state ⟨⟨p, hp, first.path⟩, ⟨d.state, hd, last.path⟩⟩

end Restricted

theorem search_pruneInitial (hA : A.WellFormed) : A.pruneInitial.search w = A.search w :=
  (restricted_pruneInitial hA).search_eq fun _ useful _ => useful.1

theorem search_pruneFinal (hA : A.WellFormed) : A.pruneFinal.search w = A.search w :=
  (restricted_pruneFinal hA).search_eq fun _ useful _ => useful.2

-- Pruning changes no answer of the search, not even an error, and whether or not the word is well-matched.
-- It does not matter that a return may go without its exit.
theorem search_trim_eq (hA : A.Obtained) (w : Word) :
    A.pruneInitial.search w = A.search w ∧ A.pruneFinal.search w = A.search w ∧
      A.trim.search w = A.search w := by
  have hA := hA.wellFormed
  refine ⟨search_pruneInitial hA, search_pruneFinal hA, ?_⟩
  calc
    A.pruneInitial.pruneFinal.search w = A.pruneInitial.search w := search_pruneFinal hA.pruneInitial
    _ = A.search w := search_pruneInitial hA

theorem search_trim_brackets :
    (brackets ⟨3⟩ [⟨3⟩]).Obtained ∧ ⟨4⟩ ∉ (brackets ⟨3⟩ [⟨3⟩]).trim.states ∧
      (brackets ⟨3⟩ [⟨3⟩]).trim.search [.call ⟨5⟩] = .error (.pendingCalls 1) := by
  have obtained : (brackets ⟨3⟩ [⟨3⟩]).Obtained := obtained_brackets
  have ⟨_, _, same⟩ := search_trim_eq obtained [.call ⟨5⟩]
  refine ⟨obtained, by decide, ?_⟩
  rw [same]
  decide

end NestedAutomata.Automaton
