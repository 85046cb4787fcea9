import Mathlib.Data.List.Induction
import NestedAutomata.Proofs.Key.Table
import NestedAutomata.SortedSet.Lemmas

namespace NestedAutomata

-- The ways to ask a table for a key. Members and links may be given in any order, and repeatedly.
inductive Request
  | name (text : String)
  | pair (first second : Key)
  | set (members : List Key)
  | relation (links : List Link)
  | fresh (text : String)

namespace KeyTable

variable {t : KeyTable} {r : Request} {rs : List Request} {s s' : Shape} {k : Key}

def answer (t : KeyTable) : Request → Key × KeyTable
  | .name text   => t.name text
  | .pair a b    => t.pair a b
  | .set ks      => t.set (.ofList ks)
  | .relation ls => t.relation (.ofList ls)
  | .fresh text  => t.fresh text

def after (rs : List Request) : KeyTable :=
  rs.foldl (fun t r => (t.answer r).2) base

-- Whether the request asks for a key of the shape. A fresh key is asked for by its name, which is the
-- first one that is not in use.
def Asks (t : KeyTable) (s : Shape) : Request → Prop
  | .name text   => s = .name text
  | .pair a b    => s = .pair a b
  | .set ks      => ∃ S, s = .set S ∧ ∀ k, k ∈ S ↔ k ∈ ks
  | .relation ls => ∃ R, s = .relation R ∧ ∀ l, l ∈ R ↔ l ∈ ls
  | .fresh text  => ∃ n, s = .name (tilded n text) ∧
    t.find? (tilded n text) = none ∧ ∀ m < n, t.find? (tilded m text) ≠ none

-- The key has been handed out for the shape in the course of the requests. The reserved keys have been
-- from the start.
inductive Handed (rs : List Request) : Shape → Key → Prop
  | ε    : Handed rs (.name "ε") .ε
  | wild : Handed rs (.name "@") .wild
  | answer {es r s} :
    es ++ [r] <+: rs → (after es).Asks s r → Handed rs s ((after es).answer r).1

theorem exists_asks (t : KeyTable) (r : Request) : ∃ s, t.Asks s r := by
  cases r with
  | name text   => exact ⟨_, rfl⟩
  | pair a b    => exact ⟨_, rfl⟩
  | set ks      => exact ⟨_, _, rfl, fun _ => SortedSet.mem_ofList⟩
  | relation ls => exact ⟨_, _, rfl, fun _ => SortedSet.mem_ofList⟩
  | fresh text  =>
    have ⟨n, _, first⟩ := t.unused_eq text
    exact ⟨_, n, rfl, first⟩

theorem answer_eq (h : t.Asks s r) : t.answer r = t.intern s := by
  cases r with
  | name text => rw [h]; rfl
  | pair a b  => rw [h]; rfl
  | set ks =>
    obtain ⟨S, rfl, mem⟩ := h
    have : S = .ofList ks := SortedSet.ext_mem fun k => (mem k).trans SortedSet.mem_ofList.symm
    rw [this]
    rfl
  | relation ls =>
    obtain ⟨R, rfl, mem⟩ := h
    have : R = .ofList ls := SortedSet.ext_mem fun l => (mem l).trans SortedSet.mem_ofList.symm
    rw [this]
    rfl
  | fresh text =>
    obtain ⟨n, rfl, free, used⟩ := h
    have ⟨m, eq, free', used'⟩ := t.unused_eq text
    obtain rfl : m = n := by
      rcases Nat.lt_trichotomy m n with lt | eq | lt
      · exact absurd free' (used m lt)
      · exact eq
      · exact absurd free (used' n lt)
    rw [← eq]
    rfl

theorem after_concat : after (rs ++ [r]) = ((after rs).answer r).2 := by
  simp [after]

theorem Handed.mono {rs' : List Request} (le : rs <+: rs') (h : Handed rs s k) : Handed rs' s k := by
  cases h with
  | ε             => exact .ε
  | wild          => exact .wild
  | answer le' hr => exact .answer (le'.trans le) hr

theorem handed_concat_iff (hr : (after rs).Asks s r) :
    Handed (rs ++ [r]) s' k ↔ Handed rs s' k ∨ s' = s ∧ k = ((after rs).answer r).1 := by
  constructor
  case mpr =>
    rintro (h | ⟨rfl, rfl⟩)
    · exact h.mono (List.prefix_append ..)
    · exact .answer List.prefix_rfl hr
  case mp =>
    intro h
    cases h with
    | ε    => exact .inl .ε
    | wild => exact .inl .wild
    | @answer es _ _ le hr' =>
      cases List.prefix_concat_iff.mp le with
      | inr le => exact .inl (.answer le hr')
      | inl eq =>
        obtain ⟨rfl, last⟩ := List.append_inj' eq rfl
        obtain rfl := List.singleton_inj.mp last
        -- What is asked for is the shape of the key that is handed out.
        have same := shape?_intern (t := after es) (s := s')
        rw [← answer_eq hr', answer_eq hr, shape?_intern] at same
        exact .inr ⟨(Option.some.inj same).symm, rfl⟩

theorem shape?_after_iff : (after rs).shape? k = some s ↔ Handed rs s k := by
  induction rs using List.reverseRecOn generalizing s k with
  | nil =>
    constructor
    case mp =>
      intro h
      match k, h with
      | ⟨0⟩, h     => cases h; exact .ε
      | ⟨1⟩, h     => cases h; exact .wild
      | ⟨_ + 2⟩, h => cases h
    case mpr =>
      intro h
      cases h with
      | ε | wild    => rfl
      | answer le _ => simp at le
  | append_singleton rs r ih =>
    have ⟨s₀, hr⟩ := (after rs).exists_asks r
    rw [after_concat, answer_eq hr, shape?_intern_iff, ih, handed_concat_iff hr, answer_eq hr]

-- Every request is answered, and its key is that of its shape: keys and shapes are paired one to one, the
-- table tells the one by the other at any later time, and names are found that keys were handed out for.
-- The numbers start after those of the reserved keys. A new shape takes the next one, and a known shape
-- takes none. A fresh key is always new.
theorem handed_spec (rs : List Request) :
    (∀ r, ∃ s, (after rs).Asks s r) ∧
    (∀ s k s' k', Handed rs s k → Handed rs s' k' → (k = k' ↔ s = s')) ∧
    (∀ s k ls, Handed rs s k → (after (rs ++ ls)).shape? k = some s) ∧
    (∀ text k, (after rs).find? text = some k ↔ Handed rs (.name text) k) ∧
    (after []).size = 2 ∧
    (∀ r s, (after rs).Asks s r → (∀ k, ¬Handed rs s k) →
      ((after rs).answer r).1 = ⟨(after rs).size⟩ ∧
      (after (rs ++ [r])).size = (after rs).size + 1) ∧
    (∀ r s k, (after rs).Asks s r → Handed rs s k →
      ((after rs).answer r).1 = k ∧ after (rs ++ [r]) = after rs) ∧
    ∀ text s k, Handed rs s k → ((after rs).answer (.fresh text)).1 ≠ k := by
  refine ⟨exists_asks _, ?paired, ?stable, ?find, rfl, ?new, ?known, ?fresh⟩
  case paired =>
    intro s k s' k' h h'
    have shape := shape?_after_iff.mpr h
    have shape' := shape?_after_iff.mpr h'
    constructor
    · rintro rfl
      exact Option.some.inj (shape.symm.trans shape')
    · rintro rfl
      exact Option.some.inj ((key?_eq_some_iff.mpr shape).symm.trans (key?_eq_some_iff.mpr shape'))
  case stable =>
    exact fun s k ls h => shape?_after_iff.mpr (h.mono (List.prefix_append ..))
  case find =>
    exact fun text k => key?_eq_some_iff.trans shape?_after_iff
  case new =>
    intro r s hr unknown
    have new : (after rs).key? s = none :=
      Option.eq_none_iff_forall_ne_some.mpr fun k hk =>
        unknown k (shape?_after_iff.mp (key?_eq_some_iff.mp hk))
    have ⟨next, shapes⟩ := intern_of_key?_eq_none new
    rw [after_concat, answer_eq hr]
    exact ⟨next, by simp [size, shapes]⟩
  case known =>
    intro r s k hr h
    rw [after_concat, answer_eq hr, intern_of_shape? (shape?_after_iff.mpr h)]
    exact ⟨rfl, rfl⟩
  case fresh =>
    rintro text s _ h rfl
    have := shape?_after_iff.mpr h
    rw [answer, shape?_fst_fresh] at this
    cases this

theorem handed_sets :
    let rs := [.name "p", .fresh "p", .set [⟨3⟩, ⟨2⟩, ⟨3⟩]]
    ((after rs).answer (.set [⟨2⟩, ⟨3⟩])).1 = ⟨4⟩ ∧ after (rs ++ [.set [⟨2⟩, ⟨3⟩]]) = after rs := by
  intro rs
  let S : SortedSet Key := .ofList [⟨3⟩, ⟨2⟩, ⟨3⟩]
  have first : (after [.name "p", .fresh "p"]).Asks (.set S) (.set [⟨3⟩, ⟨2⟩, ⟨3⟩]) :=
    ⟨S, rfl, fun _ => SortedSet.mem_ofList⟩
  have second : (after rs).Asks (.set S) (.set [⟨2⟩, ⟨3⟩]) := by
    refine ⟨S, rfl, fun k => ?_⟩
    simp only [S, SortedSet.mem_ofList, List.mem_cons]
    grind
  obtain ⟨-, -, -, -, -, -, known, -⟩ := handed_spec rs
  exact known _ _ _ second (.answer List.prefix_rfl first)

end KeyTable

end NestedAutomata
