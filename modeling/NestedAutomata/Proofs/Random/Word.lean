import NestedAutomata.Proofs.Word.Depth
import NestedAutomata.Random.Generation

namespace NestedAutomata

variable {σ α β : Type} {P : α → Prop} {Q : β → Prop}

def Always (m : StateM σ α) (P : α → Prop) : Prop :=
  ∀ s, P (m s).1

namespace Always

variable {m : StateM σ α} {f : α → StateM σ β} {a : α}

theorem pure (h : P a) : Always (Pure.pure a : StateM σ α) P :=
  fun _ => h

theorem bind (h : Always m P) (h' : ∀ a, P a → Always (f a) Q) : Always (m >>= f) Q :=
  fun s => h' _ (h s) (m s).2

theorem choose {d : Dice σ} {n : Nat} {f : Fin (n + 1) → StateM σ α} (h : ∀ i, Always (f i) P) :
    Always (d.upTo n >>= f) P :=
  fun s => h _ (d.upTo n s).2

end Always

namespace Word

variable {d : Dice σ} {matched : Bool} {depth remaining : Nat} {a : Key} {symbols : List Key}

theorem always_pick {l : List α} {a : α} : Always (d.pick a l) (· ∈ a :: l) :=
  .choose fun _ => .pure (List.get_mem ..)

-- If the word has to match, then a position that does not return leaves room for the returns after it,
-- and one that returns has a call to close, or closes because there is no room for anything else.
theorem always_randomPosition :
    Always (randomPosition d matched depth remaining a) fun x =>
      x = .call a ∧ (matched → depth + 1 < remaining) ∨
      x = .internal a ∧ (matched → depth < remaining) ∨
      x = .ret a ∧ (matched → 0 < depth ∨ remaining ≤ depth) := by
  unfold randomPosition
  split
  case isFalse free =>
    refine .choose fun i => ?_
    split <;> exact .pure (by simp [free])
  case isTrue =>
    split
    case isTrue full => exact .pure (by simp [full])
    case isFalse     =>
      refine .choose fun i => ?_
      split <;> exact .pure (by grind)

theorem always_randomFrom :
    Always (randomFrom d matched a symbols depth remaining) fun w =>
      w.length = remaining ∧ ∀ x ∈ w, x.symbol ∈ a :: symbols := by
  induction remaining generalizing depth with
  | zero           => exact .pure ⟨rfl, nofun⟩
  | succ remaining ih =>
    refine always_pick.bind fun b hb => always_randomPosition.bind fun x hx => ih.bind fun w hw => .pure ?_
    have symbol : x.symbol = b := by
      rcases hx with ⟨rfl, _⟩ | ⟨rfl, _⟩ | ⟨rfl, _⟩ <;> rfl
    exact ⟨by simp [hw.1], List.forall_mem_cons.mpr ⟨symbol ▸ hb, hw.2⟩⟩

-- There are never more open calls than positions left, so none is open in the end.
theorem always_depth?_randomFrom (h : depth ≤ remaining) :
    Always (randomFrom d true a symbols depth remaining) fun w => depth? depth w = some 0 := by
  induction remaining generalizing depth with
  | zero           =>
    obtain rfl : depth = 0 := Nat.le_zero.mp h
    exact .pure rfl
  | succ remaining ih =>
    refine always_pick.bind fun b _ => always_randomPosition.bind fun x hx => ?_
    have later {n : Nat} (hd : depth? depth [x] = some n) (hn : n ≤ remaining) :
        Always (randomFrom d true a symbols n remaining >>= fun w => Pure.pure (x :: w))
          fun w => depth? depth w = some 0 :=
      (ih hn).bind fun w hw => .pure (by simp [depth?_cons, hd, hw])
    rcases hx with ⟨rfl, room⟩ | ⟨rfl, room⟩ | ⟨rfl, due⟩
    case inl     => exact later rfl (Nat.le_of_lt_succ (room rfl))
    case inr.inl => exact later rfl (Nat.le_of_lt_succ (room rfl))
    case inr.inr =>
      cases depth with
      | zero   => simp at due
      | succ n => exact later rfl (Nat.le_of_succ_le_succ h)

theorem random_spec (d : Dice σ) {symbols : List Key} (h : symbols ≠ []) (length : Nat) (matched : Bool)
    (s : σ) :
    let w := (random d symbols length matched s).1
    w.length = length ∧ (∀ x ∈ w, x.symbol ∈ symbols) ∧ (matched → w.WellMatched) := by
  match symbols, h with
  | a :: symbols, _ =>
    have whole : Always (randomFrom d matched a symbols 0 length) _ := always_randomFrom
    have ⟨size, range⟩ := whole s
    refine ⟨size, range, fun hm => ?_⟩
    subst hm
    exact wellMatched_iff.mpr (always_depth?_randomFrom (Nat.zero_le length) s)

theorem random_spec_stream :
    let s : RandomStream := ⟨[0, 0, 0xC0000000, 0xC0000000, 0, 0], 0⟩
    let w := (random RandomStream.dice [⟨4⟩, ⟨5⟩] 3 true s).1
    [⟨4⟩, ⟨5⟩] ≠ ([] : List Key) ∧ w = [.call ⟨4⟩, .ret ⟨5⟩, .internal ⟨4⟩] ∧ w.length = 3 ∧
      w.WellMatched := by
  intro s w
  have nonempty : [⟨4⟩, ⟨5⟩] ≠ ([] : List Key) := by decide
  have ⟨size, _, matched⟩ := random_spec RandomStream.dice nonempty 3 true s
  exact ⟨nonempty, by decide, size, matched rfl⟩

end Word

end NestedAutomata
