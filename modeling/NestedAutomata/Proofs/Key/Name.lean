import Mathlib.Logic.Relation
import Mathlib.Tactic.Choose
import NestedAutomata.Key.Table.Lemmas

namespace NestedAutomata

open Relation

theorem exists_of_mapM_eq_some {α β : Type} {f : α → Option β} {l : List α} {bs : List β}
    (h : l.mapM f = some bs) : ∀ a ∈ l, ∃ b, f a = some b := by
  induction l generalizing bs with
  | nil => nofun
  | cons a l ih =>
    rw [List.mapM_cons] at h
    have ⟨b, hb, h⟩ := Option.bind_eq_some_iff.mp h
    have ⟨_, hl, _⟩ := Option.bind_eq_some_iff.mp h
    exact List.forall_mem_cons.mpr ⟨⟨b, hb⟩, ih hl⟩

theorem mapM_eq_some_of_forall {α β : Type} {f : α → Option β} {g : α → β} {l : List α}
    (h : ∀ a ∈ l, f a = some (g a)) : l.mapM f = some (l.map g) := by
  induction l with
  | nil => rfl
  | cons a l ih =>
    have ⟨first, rest⟩ := List.forall_mem_cons.mp h
    rw [List.mapM_cons, first, ih rest]
    rfl

namespace Shape

def components : Shape → List Key
  | .name _      => []
  | .pair a b    => [a, b]
  | .set ks      => ks.toList
  | .relation ls => ls.toList.flatMap fun l => [l.origin, l.target]

def text (names : Key → String) : Shape → String
  | .name text   => text
  | .pair a b    => KeyTable.nameWithin.pairText (names a) (names b)
  | .set ks      => KeyTable.nameWithin.setText (ks.toList.map names)
  | .relation ls => KeyTable.nameWithin.setText <| ls.toList.map fun l =>
    KeyTable.nameWithin.pairText (names l.origin) (names l.target)

end Shape

namespace KeyTable

-- The key `c` is a component of what the key `k` stands for.
def Refers (t : KeyTable) (k c : Key) : Prop :=
  ∃ s, t.shape? k = some s ∧ c ∈ s.components

-- Spelling out the name of a key to whatever depth it takes: the shape of the key is looked up, and the
-- names of its components are spelt out in turn.
inductive Spells (t : KeyTable) : Key → String → Prop
  | shape {k s} (names : Key → String) :
    t.shape? k = some s → (∀ c ∈ s.components, Spells t c (names c)) → Spells t k (s.text names)

variable {t : KeyTable} {s : Shape} {k c : Key} {text : String} {depth : Nat} {names : Key → String}

theorem exists_shape?_iff : (∃ s, t.shape? k = some s) ↔ k.index < t.size := by
  simp [← Option.isSome_iff_exists, shape?, size]

theorem refers_iff (hs : t.shape? k = some s) : t.Refers k c ↔ c ∈ s.components := by
  constructor
  case mpr => exact fun hc => ⟨s, hs, hc⟩
  case mp =>
    rintro ⟨s', hs', hc⟩
    exact Option.some.inj (hs'.symm.trans hs) ▸ hc

theorem pairText_eq_some {f : Key → Option String} {a b : Key} (h : ∀ c ∈ [a, b], f c = some (names c)) :
    (do return nameWithin.pairText (← f a) (← f b)) = some (nameWithin.pairText (names a) (names b)) := by
  have first : f a = some (names a) := h a List.mem_cons_self
  have second : f b = some (names b) := h b (List.mem_cons_of_mem a List.mem_cons_self)
  rw [first, second]
  rfl

theorem exists_of_pairText_eq_some {f : Key → Option String} {a b : Key}
    (h : (do return nameWithin.pairText (← f a) (← f b)) = some text) :
    ∀ c ∈ [a, b], ∃ name, f c = some name := by
  have ⟨x, first, h⟩ := Option.bind_eq_some_iff.mp h
  have ⟨y, second, _⟩ := Option.bind_eq_some_iff.mp h
  simp [first, second]

theorem nameWithin_succ (hs : t.shape? k = some s)
    (hc : ∀ c ∈ s.components, t.nameWithin depth c = some (names c)) :
    t.nameWithin (depth + 1) k = some (s.text names) := by
  rw [nameWithin, hs]
  cases s with
  | name text => rfl
  | pair a b  => exact pairText_eq_some hc
  | set ks =>
    have members : ks.toList.mapM (t.nameWithin depth) = some (ks.toList.map names) :=
      mapM_eq_some_of_forall hc
    change Option.bind (ks.toList.mapM _) _ = _
    rw [members]
    rfl
  | relation ls =>
    have link : ∀ l ∈ ls.toList, ∀ c ∈ [l.origin, l.target], t.nameWithin depth c = some (names c) :=
      fun l hl c h => hc c (List.mem_flatMap.mpr ⟨l, hl, h⟩)
    change Option.bind (ls.toList.mapM _) _ = _
    rw [mapM_eq_some_of_forall fun l hl => pairText_eq_some (link l hl)]
    rfl

theorem exists_of_nameWithin_succ (h : t.nameWithin (depth + 1) k = some text) :
    ∃ s, t.shape? k = some s ∧ ∀ c ∈ s.components, ∃ name, t.nameWithin depth c = some name := by
  rw [nameWithin] at h
  have ⟨s, hs, h⟩ := Option.bind_eq_some_iff.mp h
  refine ⟨s, hs, ?_⟩
  cases s with
  | name text => nofun
  | pair a b  => exact exists_of_pairText_eq_some h
  | set ks =>
    have ⟨_, members, _⟩ := Option.bind_eq_some_iff.mp h
    exact exists_of_mapM_eq_some members
  | relation ls =>
    have ⟨_, links, _⟩ := Option.bind_eq_some_iff.mp h
    intro c hc
    have ⟨l, hl, hc⟩ := List.mem_flatMap.mp hc
    have ⟨_, link⟩ := exists_of_mapM_eq_some links l hl
    exact exists_of_pairText_eq_some link c hc

theorem nameWithin_succ_eq_some_iff :
    t.nameWithin (depth + 1) k = some text ↔
      ∃ s names, t.shape? k = some s ∧
        (∀ c ∈ s.components, t.nameWithin depth c = some (names c)) ∧ s.text names = text := by
  constructor
  case mpr =>
    rintro ⟨s, names, hs, hc, rfl⟩
    exact nameWithin_succ hs hc
  case mp =>
    intro h
    have ⟨s, hs, named⟩ := exists_of_nameWithin_succ h
    choose! names hc using named
    exact ⟨s, names, hs, hc, Option.some.inj ((nameWithin_succ hs hc).symm.trans h)⟩

theorem nameWithin_mono {deeper : Nat} (le : depth ≤ deeper) (h : t.nameWithin depth k = some text) :
    t.nameWithin deeper k = some text := by
  induction depth generalizing k text deeper with
  | zero => cases h
  | succ depth ih =>
    obtain ⟨s, names, hs, hc, rfl⟩ := nameWithin_succ_eq_some_iff.mp h
    cases deeper with
    | zero        => cases le
    | succ deeper => exact nameWithin_succ hs fun c hm => ih (Nat.le_of_succ_le_succ le) (hc c hm)

theorem exists_depth {l : List Key} (h : ∀ c ∈ l, ∃ depth, t.nameWithin depth c = some (names c)) :
    ∃ depth, ∀ c ∈ l, t.nameWithin depth c = some (names c) := by
  induction l with
  | nil => exact ⟨0, nofun⟩
  | cons k l ih =>
    have ⟨⟨first, hk⟩, rest⟩ := List.forall_mem_cons.mp h
    have ⟨depth, hl⟩ := ih rest
    refine ⟨max first depth, List.forall_mem_cons.mpr ⟨?_, fun c hc => ?_⟩⟩
    · exact nameWithin_mono (Nat.le_max_left ..) hk
    · exact nameWithin_mono (Nat.le_max_right ..) (hl c hc)

theorem spells_iff : t.Spells k text ↔ ∃ depth, t.nameWithin depth k = some text := by
  constructor
  case mp =>
    intro h
    induction h with
    | shape names hs _ ih =>
      have ⟨depth, hc⟩ := exists_depth ih
      exact ⟨depth + 1, nameWithin_succ hs hc⟩
  case mpr =>
    rintro ⟨depth, h⟩
    induction depth generalizing k text with
    | zero => cases h
    | succ depth ih =>
      obtain ⟨s, names, hs, hc, rfl⟩ := nameWithin_succ_eq_some_iff.mp h
      exact .shape names hs fun c hm => ih (hc c hm)

theorem Spells.unique {other : String} (h : t.Spells k text) (h' : t.Spells k other) : text = other := by
  have ⟨depth, told⟩ := spells_iff.mp h
  have ⟨depth', told'⟩ := spells_iff.mp h'
  have deep := nameWithin_mono (Nat.le_max_left depth depth') told
  have deep' := nameWithin_mono (Nat.le_max_right depth depth') told'
  exact Option.some.inj (deep.symm.trans deep')

-- A key has a name just if no chain of components is endless, and all keys that such chains lead to have a
-- shape.
theorem exists_spells_iff : (∃ text, t.Spells k text) ↔
    Acc (flip t.Refers) k ∧ ∀ c, ReflTransGen t.Refers k c → c.index < t.size := by
  constructor
  case mp =>
    rintro ⟨text, h⟩
    induction h with
    | @shape k s names hs _ ih =>
      refine ⟨.intro k fun c hc => (ih c ((refers_iff hs).mp hc)).1, fun j path => ?_⟩
      cases path.cases_head with
      | inl eq => exact eq ▸ exists_shape?_iff.mp ⟨s, hs⟩
      | inr h  =>
        have ⟨c, hc, path⟩ := h
        exact (ih c ((refers_iff hs).mp hc)).2 j path
  case mpr =>
    rintro ⟨acc, known⟩
    induction acc with
    | intro k _ ih =>
      have ⟨s, hs⟩ := exists_shape?_iff.mpr (known k .refl)
      have named : ∀ c ∈ s.components, ∃ text, t.Spells c text := fun c hc =>
        have refers := (refers_iff hs).mpr hc
        ih c refers fun j path => known j (path.head refers)
      choose! names hn using named
      exact ⟨_, .shape names hs hn⟩

theorem not_spells_of_refers_self (loop : t.Refers k k) : ¬t.Spells k text := by
  intro h
  induction h with
  | shape names hs _ ih => exact ih _ ((refers_iff hs).mp loop) loop

end KeyTable

end NestedAutomata
