import NestedAutomata.Proofs.Language.Inclusion

namespace NestedAutomata.Automaton

variable {ι : Type} {A B : Automaton ι} {w : Word}

theorem decideEqual_spec (hA : A.WellFormed) (hB : B.WellFormed) (absA : A.Absorbing) (absB : B.Absorbing)
    (table : KeyTable) :
    ∃ b table', A.decideEqual B table = .ok (b, table') ∧
      (b = true ↔ ∀ w : Word, w.Unreserved →
        (A.Accepts w → (B.addSymbols A.alphabet.toList).Accepts w) ∧
          (B.Accepts w → (A.addSymbols B.alphabet.toList).Accepts w)) := by
  have ⟨b, table', first, sub⟩ := decideSubset_spec hA hB absB table
  cases b with
  | false =>
    have decided : A.decideEqual B table = .ok (false, table') := by
      simp only [decideEqual, first, bind, Except.bind]
      rfl
    refine ⟨false, table', decided, nofun, fun both => ?_⟩
    exact sub.mpr fun w hw => (both w hw).1
  | true  =>
    have ⟨b, table'', second, sup⟩ := decideSubset_spec hB hA absA table'
    have decided : A.decideEqual B table = .ok (b, table'') := by
      simp only [decideEqual, first, second, bind, Except.bind]
    refine ⟨b, table'', decided, ?_⟩
    rw [sup]
    constructor
    case mp  => exact fun sup w hw => ⟨sub.mp rfl w hw, sup w hw⟩
    case mpr => exact fun both w hw => (both w hw).2

theorem accepts_iff_accepts_iff (hA : A.WellFormed) (hB : B.WellFormed) (hw : w.Unreserved)
    (sub : A.Accepts w → (B.addSymbols A.alphabet.toList).Accepts w)
    (sup : B.Accepts w → (A.addSymbols B.alphabet.toList).Accepts w) :
    (A.Accepts w ↔ B.Accepts w) ↔
      (A.Accepts w ∨ B.Accepts w → ∀ x ∈ w, x.symbol ∈ A.alphabet ∧ x.symbol ∈ B.alphabet) := by
  constructor
  case mp  =>
    intro same accepts x hx
    have first := accepts.elim id same.mpr
    have second := same.mp first
    exact ⟨first.symbol_mem_alphabet hA hw x hx, second.symbol_mem_alphabet hB hw x hx⟩
  case mpr =>
    intro symbols
    constructor
    case mp  =>
      intro first
      exact accepts_of_addSymbols (sub first) fun x hx => (symbols (.inl first) x hx).2
    case mpr =>
      intro second
      exact accepts_of_addSymbols (sup second) fun x hx => (symbols (.inr second) x hx).1

-- Automata that are found to be equal contain the same words over the symbols of both, and differ in all
-- other words that one of them contains. Automata that contain the same words are found to be equal. Which
-- keys the decisions about membership hand out does not matter.
theorem decideEqual_iff_contains (hA : A.Obtained) (hB : B.Obtained) (absA : A.Absorbing)
    (absB : B.Absorbing) (table : KeyTable) :
    ∃ b table', A.decideEqual B table = .ok (b, table') ∧
      (b = true → ∀ (w : Word) (tableA tableB : KeyTable), w.Unreserved →
        ((A.contains w tableA).1 = (B.contains w tableB).1 ↔
          ((A.contains w tableA).1 = true ∨ (B.contains w tableB).1 = true →
            ∀ x ∈ w, x.symbol ∈ A.alphabet ∧ x.symbol ∈ B.alphabet))) ∧
      ((∀ w : Word, w.Unreserved → (A.contains w table).1 = (B.contains w table).1) → b = true) := by
  have hA := hA.wellFormed
  have hB := hB.wellFormed
  have ⟨b, table', decided, equal⟩ := decideEqual_spec hA hB absA absB table
  refine ⟨b, table', decided, fun hb w tableA tableB hw => ?_, fun same => equal.mpr fun w hw => ?_⟩
  case refine_1 =>
    have ⟨sub, sup⟩ := equal.mp hb w hw
    rw [Bool.eq_iff_iff, contains_eq_true_iff hA absA hw, contains_eq_true_iff hB absB hw]
    exact accepts_iff_accepts_iff hA hB hw sub sup
  case refine_2 =>
    have same := same w hw
    rw [Bool.eq_iff_iff, contains_eq_true_iff hA absA hw, contains_eq_true_iff hB absB hw] at same
    exact ⟨fun first => (same.mp first).addSymbols, fun second => (same.mpr second).addSymbols⟩

def readingLoop : Automaton Unit :=
  loop.addSymbol ⟨5⟩

def doubleLoop : Automaton Unit :=
  loop.add (.internal ⟨⟨8⟩, ⟨5⟩, ⟨8⟩⟩)

def loopKeys : KeyTable :=
  (bracketKeys.intern (.name "q")).2

theorem obtained_readingLoop : readingLoop.Obtained :=
  .edit (e := .addSymbol _) obtained_loop rfl

theorem absorbing_readingLoop : readingLoop.Absorbing :=
  absorbing_loop.addSymbols (l := [⟨5⟩])

-- The loop that has nothing to read is lent the symbol when the two are compared, but not when the word
-- is looked for.
theorem decideEqual_readingLoop_loop :
    readingLoop.Obtained ∧ loop.Obtained ∧ ∃ table,
      readingLoop.decideEqual loop loopKeys = .ok (true, table) ∧
      (readingLoop.contains [.internal ⟨5⟩] table).1 = true ∧
      (loop.contains [.internal ⟨5⟩] (readingLoop.contains [.internal ⟨5⟩] table).2).1 = false := by
  have ⟨b, table, decided, _⟩ := decideEqual_spec obtained_readingLoop.wellFormed obtained_loop.wellFormed
    absorbing_readingLoop absorbing_loop loopKeys
  have equal : (readingLoop.decideEqual loop loopKeys).map Prod.fst = .ok true := by decide +kernel
  obtain rfl : b = true := by rw [decided] at equal; exact Except.ok.inj equal
  refine ⟨obtained_readingLoop, obtained_loop, table, decided, ?_, ?_⟩
  · rw [contains_eq_true_iff obtained_readingLoop.wellFormed absorbing_readingLoop (by decide),
      ← search_eq_true_iff absorbing_readingLoop]
    decide
  · rw [← Bool.not_eq_true, contains_eq_true_iff obtained_loop.wellFormed absorbing_loop (by decide),
      ← search_eq_true_iff absorbing_loop]
    decide

theorem decideEqual_readingLoop_doubleLoop :
    ∃ table, readingLoop.decideEqual doubleLoop loopKeys = .ok (true, table) ∧
      ∀ w : Word, w.Unreserved → (readingLoop.contains w table).1 = (doubleLoop.contains w table).1 := by
  have obtained : doubleLoop.Obtained := .edit (e := .add _) obtained_loop rfl
  have absorbing : doubleLoop.Absorbing := (Growth.add .refl).absorbing absorbing_loop
  have ⟨b, table, decided, same, _⟩ := decideEqual_iff_contains obtained_readingLoop obtained
    absorbing_readingLoop absorbing loopKeys
  have equal : (readingLoop.decideEqual doubleLoop loopKeys).map Prod.fst = .ok true := by decide +kernel
  obtain rfl : b = true := by rw [decided] at equal; exact Except.ok.inj equal
  have alphabet : readingLoop.alphabet = doubleLoop.alphabet := by decide
  refine ⟨table, decided, fun w hw => (same rfl w table table hw).mpr fun contained x hx => ?_⟩
  rw [alphabet, and_self]
  rw [contains_eq_true_iff obtained_readingLoop.wellFormed absorbing_readingLoop hw,
    contains_eq_true_iff obtained.wellFormed absorbing hw] at contained
  cases contained with
  | inl a => exact alphabet ▸ a.symbol_mem_alphabet obtained_readingLoop.wellFormed hw x hx
  | inr b => exact b.symbol_mem_alphabet obtained.wellFormed hw x hx

end NestedAutomata.Automaton
