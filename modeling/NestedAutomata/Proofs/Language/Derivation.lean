import NestedAutomata.Proofs.Language.Summary
import NestedAutomata.Proofs.Passage

namespace NestedAutomata

namespace Summary

def parts (s : Summary) : List (Key × Key) :=
  match s.derivation with
  | .empty            => []
  | .internal p _     => [(s.source, p)]
  | .nested c _ e x _ => [(s.source, c), (e, x)]

-- Follows the derivations to a given depth, where all of them are looked up in the same list.
def wordWithin? (l : List Summary) : (depth : Nat) → (source target : Key) → Option Word
  | 0, _, _                  => none
  | depth + 1, source, target => do
    let s ← l.find? (·.ends = (source, target))
    match s.derivation with
    | .empty            => some []
    | .internal p a     => do
      let w ← wordWithin? l depth source p
      return if a = .ε then w else w ++ [.internal a]
    | .nested c a e x b => do
      let w ← wordWithin? l depth source c
      let v ← wordWithin? l depth e x
      return w ++ .call a :: v ++ [.ret b]

end Summary

namespace Summaries

variable {ι : Type} {A : Automaton ι} {s : Summary} {l later earlier m : List Summary} {p q : Key}
variable {depth : Nat}

theorem Derives.joins (h : Derives A l s) (hp : (p, q) ∈ s.parts) : Joins l p q := by
  cases h with
  | empty => cases hp
  | internal hj =>
    cases List.mem_singleton.mp hp
    exact hj
  | nested outer _ _ inner =>
    cases List.mem_cons.mp hp with
    | inl hp => cases hp; exact outer
    | inr hp => cases List.mem_singleton.mp hp; exact inner

theorem Grounded.of_append (h : Grounded A (later ++ m)) : Grounded A m := by
  induction later with
  | nil         => exact h
  | cons s l ih =>
    cases h with
    | cons h => exact ih h

theorem Grounded.joins_parts (h : Grounded A (later ++ s :: earlier)) (hp : (p, q) ∈ s.parts) :
    Joins earlier p q := by
  cases h.of_append with
  | cons _ _ _ _ hs => exact hs.joins hp

theorem Grounded.find?_eq (h : Grounded A l) (hs : s ∈ l) : l.find? (·.ends = s.ends) = some s := by
  cases found : l.find? (·.ends = s.ends) with
  | none   => exact absurd (List.find?_eq_none.mp found s hs) (by simp)
  | some t =>
    have same : t.ends = s.ends := by simpa using List.find?_some found
    rw [List.inj_on_of_nodup_map h.nodup (List.mem_of_find?_eq_some found) hs same]

-- It makes no difference if the derivations are looked up among all summaries instead of among those
-- before. The depth is at most the number of summaries, as each step goes to earlier ones.
theorem Grounded.wordWithin?_eq (h : Grounded A l) (hl : l = later ++ m) (hj : Joins m p q)
    (hd : m.length ≤ depth) : Summary.wordWithin? l depth p q = Summary.word? p q m := by
  induction m generalizing p q depth later with
  | nil => cases hj
  | cons s m ih =>
    have split : l = (later ++ [s]) ++ m := by rw [hl, List.append_assoc, List.singleton_append]
    by_cases same : s.source = p ∧ s.target = q
    case neg =>
      have old : Joins m p q := (List.mem_cons.mp hj).resolve_left fun e =>
        same (Prod.mk.inj (e.symm : s.ends = (p, q)))
      rw [Summary.word?, if_neg same]
      exact ih split old (Nat.le_of_succ_le hd)
    case pos =>
      obtain ⟨rfl, rfl⟩ := same
      have mem : s ∈ l := hl ▸ List.mem_append_right later List.mem_cons_self
      have found : l.find? (·.ends = (s.source, s.target)) = some s := h.find?_eq mem
      cases depth with
      | zero => cases hd
      | succ depth =>
        have part {p q : Key} (hp : (p, q) ∈ s.parts) :
            Summary.wordWithin? l depth p q = Summary.word? p q m :=
          ih split ((hl ▸ h).joins_parts hp) (Nat.le_of_succ_le_succ hd)
        rw [Summary.wordWithin?, Summary.word?, if_pos ⟨rfl, rfl⟩, found]
        simp only [Summary.parts] at part
        cases hs : s.derivation with
        | empty             => simp [hs]
        | internal | nested => simp [part, hs]

end Summaries

namespace Automaton

open Summaries

variable {ι : Type} {A : Automaton ι}

-- The pairs of ordinary states that have a summary are those between which a word leads. There is one
-- derivation for each, it refers to pairs found before, and following it tells such a word.
theorem summaries_spec (hA : A.Obtained) (abs : A.Absorbing) :
    let l := A.summaries.found
    (∀ p ∈ A.ordinary, ∀ q ∈ A.ordinary,
      Joins l p q ↔ ∃ w : Word, w.WellMatched ∧ w.Unreserved ∧ A.Passes ⟨p, []⟩ w ⟨q, []⟩) ∧
    (l.map Summary.ends).Nodup ∧
    (∀ later s earlier, l = later ++ s :: earlier → ∀ p q, (p, q) ∈ s.parts → Joins earlier p q) ∧
    ∀ p q, Joins l p q → ∃ w, Summary.word? p q l = some w ∧
      (∀ depth ≥ l.length, Summary.wordWithin? l depth p q = some w) ∧
      w.WellMatched ∧ w.Unreserved ∧ A.Run ⟨p, []⟩ w ⟨q, []⟩ := by
  intro l
  have closed : Closed A l := closed_summaries hA.wellFormed
  have word {p q : Key} (hj : Joins l p q) := closed.grounded.word hA.wellFormed hj
  refine ⟨fun p hp q hq => ⟨fun hj => ?found, fun ⟨w, _, hw, passes⟩ => ?joins⟩, closed.grounded.nodup,
    fun later s earlier hl p q hp => ?parts, fun p q hj => ?told⟩
  case found =>
    have ⟨w, _, level, hw⟩ := word hj
    have run : A.Run ⟨p, []⟩ w ⟨q, []⟩ := level.run
    exact ⟨w, Word.wellMatched_iff.mpr run.depth?, hw, run.passes⟩
  case joins =>
    have run := passes.run abs (mem_ordinary.mp hq).2
    exact closed.joins hA.wellFormed (run_iff_level.mp run) hw (mem_ordinary.mp hp).1
  case parts => exact (hl ▸ closed.grounded).joins_parts hp
  case told  =>
    have ⟨w, told, level, hw⟩ := word hj
    have run : A.Run ⟨p, []⟩ w ⟨q, []⟩ := level.run
    refine ⟨w, told, fun depth hd => ?_, Word.wellMatched_iff.mpr run.depth?, hw, run⟩
    have whole : l = [] ++ l := rfl
    rw [closed.grounded.wordWithin?_eq whole hj hd, told]

theorem summaries_spec_brackets :
    let A := brackets ⟨3⟩ [⟨4⟩]
    Joins A.summaries.found ⟨2⟩ ⟨4⟩ ∧
      Summary.wordWithin? A.summaries.found 4 ⟨2⟩ ⟨4⟩ = some bracketed ∧
      A.Run ⟨⟨2⟩, []⟩ bracketed ⟨⟨4⟩, []⟩ := by
  intro A
  have ⟨joins, _, _, told⟩ := summaries_spec (A := A) obtained_brackets absorbing_brackets
  have passes : A.Passes ⟨⟨2⟩, []⟩ bracketed ⟨⟨4⟩, []⟩ :=
    .read (by decide) (.call (l := ⟨5⟩) (q := ⟨3⟩) (by decide) (.inl rfl))
      (.read (by decide) (.ret (l := ⟨6⟩) (by decide) (.inl rfl)) .nil)
  have found := (joins ⟨2⟩ (by decide) ⟨4⟩ (by decide)).mpr ⟨_, by decide, by decide, passes⟩
  have ⟨w, word, within, _, _, run⟩ := told _ _ found
  obtain rfl : w = bracketed := Option.some.inj (word.symm.trans (by decide +kernel))
  exact ⟨found, within 4 (by decide +kernel), run⟩

end Automaton

end NestedAutomata
