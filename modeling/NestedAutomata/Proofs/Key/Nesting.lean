import NestedAutomata.Proofs.Key.Name
import NestedAutomata.Proofs.Key.Requests

namespace NestedAutomata

open Relation

def Request.keys : Request → List Key
  | .name _      => []
  | .pair a b    => [a, b]
  | .set ks      => ks
  | .relation ls => ls.flatMap fun l => [l.origin, l.target]
  | .fresh _     => []

namespace KeyTable

-- Every request passes only keys that were handed out before it.
inductive Supplied : List Request → Prop
  | nil :
    Supplied []
  | concat {rs r} :
    Supplied rs → (∀ k ∈ r.keys, ∃ s, Handed rs s k) → Supplied (rs ++ [r])

def Ordered (t : KeyTable) : Prop :=
  ∀ k c, t.Refers k c → c.index < k.index

variable {t : KeyTable} {r : Request} {rs : List Request} {s : Shape} {k c : Key} {depth : Nat}

theorem exists_handed_iff : (∃ s, Handed rs s k) ↔ k.index < (after rs).size := by
  simp only [← shape?_after_iff, exists_shape?_iff]

theorem Asks.mem_keys (h : t.Asks s r) (hc : c ∈ s.components) : c ∈ r.keys := by
  cases r with
  | name text => cases h; cases hc
  | pair a b  => cases h; exact hc
  | set ks =>
    obtain ⟨S, rfl, mem⟩ := h
    exact (mem c).mp hc
  | relation ls =>
    obtain ⟨R, rfl, mem⟩ := h
    have ⟨l, hl, hc⟩ := List.mem_flatMap.mp hc
    exact List.mem_flatMap.mpr ⟨l, (mem l).mp hl, hc⟩
  | fresh text =>
    obtain ⟨n, rfl, -⟩ := h
    cases hc

theorem ordered_base : base.Ordered := by
  rintro k c ⟨s, hs, hc⟩
  have handed : Handed [] s k := shape?_after_iff.mp hs
  cases handed with
  | ε | wild    => cases hc
  | answer le _ => simp at le

theorem Ordered.intern (h : t.Ordered) (hs : ∀ c ∈ s.components, c.index < t.size) :
    (t.intern s).2.Ordered := by
  rintro k c ⟨r, hr, hc⟩
  cases shape?_intern_iff.mp hr with
  | inl old => exact h k c ⟨r, old, hc⟩
  | inr own =>
    obtain ⟨rfl, rfl⟩ := own
    cases known : t.key? r with
    | some j =>
      have shape := key?_eq_some_iff.mp known
      rw [intern_of_shape? shape]
      exact h j c ⟨r, shape, hc⟩
    | none =>
      rw [(intern_of_key?_eq_none known).1]
      exact hs c hc

theorem Supplied.ordered (own : Supplied rs) : (after rs).Ordered := by
  induction own with
  | nil => exact ordered_base
  | @concat rs r _ passed ih =>
    have ⟨s, hr⟩ := (after rs).exists_asks r
    rw [after_concat, answer_eq hr]
    exact ih.intern fun c hc => exists_handed_iff.mp (passed c (hr.mem_keys hc))

theorem Ordered.exists_nameWithin (h : t.Ordered) (hk : k.index < t.size) (hd : k.index < depth) :
    ∃ text, t.nameWithin depth k = some text := by
  induction depth generalizing k with
  | zero => cases hd
  | succ depth ih =>
    have ⟨s, hs⟩ := exists_shape?_iff.mpr hk
    have named : ∀ c ∈ s.components, ∃ name, t.nameWithin depth c = some name := fun c hc =>
      have older := h k c ⟨s, hs, hc⟩
      ih (Nat.lt_trans older hk) (Nat.lt_of_lt_of_le older (Nat.le_of_lt_succ hd))
    choose! names hn using named
    exact ⟨_, nameWithin_succ hs hn⟩

-- If a table is asked with its own keys only, then every compound is younger than its components. So no
-- chain of components is endless, and all keys that are looked up to spell out the name of a key are in the
-- table. The name that is told is the only one, and no key nests deeper than its number.
theorem names_terminate (own : Supplied rs) :
    (∀ s k, Handed rs s k → ∀ c ∈ s.components, c.index < k.index) ∧
    ∀ s k, Handed rs s k →
      Acc (flip (after rs).Refers) k ∧
      (∀ c, ReflTransGen (after rs).Refers k c → c.index < (after rs).size) ∧
      ∃ text, (after rs).name? k = some text ∧
        (∀ depth > k.index, (after rs).nameWithin depth k = some text) ∧
        ∀ other, (after rs).Spells k other ↔ other = text := by
  have ordered := own.ordered
  refine ⟨fun s k h c hc => ordered k c ⟨s, shape?_after_iff.mpr h, hc⟩, fun s k h => ?_⟩
  have known : k.index < (after rs).size := exists_handed_iff.mp ⟨s, h⟩
  have ⟨text, told⟩ := ordered.exists_nameWithin known (Nat.lt_succ_self k.index)
  have spelt : (after rs).Spells k text := spells_iff.mpr ⟨_, told⟩
  have ⟨ends, found⟩ := exists_spells_iff.mp ⟨text, spelt⟩
  refine ⟨ends, found, text, told, fun depth hd => nameWithin_mono hd told, fun other => ?_⟩
  exact ⟨fun h => h.unique spelt, fun same => same ▸ spelt⟩

theorem names_terminate_nested :
    let rs := [.name "p", .pair ⟨2⟩ .ε, .set [⟨3⟩, ⟨2⟩, ⟨3⟩], .pair ⟨2⟩ .ε, .relation [⟨⟨4⟩, ⟨3⟩⟩]]
    Supplied rs ∧ (∃ s, Handed rs s ⟨5⟩) ∧
      (∀ c, ReflTransGen (after rs).Refers ⟨5⟩ c → c.index < (after rs).size) ∧
      ∀ text, (after rs).Spells ⟨5⟩ text ↔ text = "\x7b(\x7bp, (p, ε)\x7d, (p, ε))\x7d" := by
  intro rs
  have next {rs : List Request} {r : Request} (own : Supplied rs)
      (known : ∀ k ∈ r.keys, k.index < (after rs).size) : Supplied (rs ++ [r]) :=
    own.concat fun k hk => exists_handed_iff.mpr (known k hk)
  have upToPair : Supplied [.name "p", .pair ⟨2⟩ .ε] :=
    next (next (r := .name "p") .nil (by decide)) (by decide)
  have upToSet : Supplied [.name "p", .pair ⟨2⟩ .ε, .set [⟨3⟩, ⟨2⟩, ⟨3⟩]] :=
    next upToPair (by decide +kernel)
  have own : Supplied rs :=
    next (next (r := .pair ⟨2⟩ .ε) upToSet (by decide +kernel)) (by decide +kernel)
  have handed : ∃ s, Handed rs s ⟨5⟩ := exists_handed_iff.mpr (by decide +kernel)
  have ⟨_, named⟩ := names_terminate own
  have ⟨s, hs⟩ := handed
  have ⟨_, found, text, told, _, spelt⟩ := named s ⟨5⟩ hs
  obtain rfl : text = "\x7b(\x7bp, (p, ε)\x7d, (p, ε))\x7d" :=
    Option.some.inj (told.symm.trans (by decide +kernel))
  exact ⟨own, handed, found, spelt⟩

-- With other keys there may be no end: here a pair is made of the key that it is about to get.
theorem exists_not_spells : ∃ rs s k, Handed rs s k ∧ ∀ text, ¬(after rs).Spells k text := by
  let rs : List Request := [.pair ⟨2⟩ ⟨2⟩]
  have loop : (after rs).Refers ⟨2⟩ ⟨2⟩ := ⟨_, rfl, List.mem_cons_self⟩
  exact ⟨rs, _, ⟨2⟩, shape?_after_iff.mp rfl, fun _ => not_spells_of_refers_self loop⟩

end KeyTable

end NestedAutomata
