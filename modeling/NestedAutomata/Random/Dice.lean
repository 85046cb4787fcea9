namespace NestedAutomata

structure Dice (σ : Type) where
  upTo       : (n : Nat) → StateM σ (Fin (n + 1))
  -- Whether an event of probability one third takes place.
  oneInThree : StateM σ Bool

def Dice.pick {σ α : Type} (d : Dice σ) (a : α) (l : List α) : StateM σ α := do
  return (a :: l).get (← d.upTo l.length)

-- A stream of 64-bit words. Some of them may be given, and the others are generated from a seed.
structure RandomStream where
  given : List UInt64
  seed  : UInt64
deriving DecidableEq, Repr

namespace RandomStream

-- The next word. Generated words scramble a counter, which goes on by the golden ratio.
def next : StateM RandomStream UInt64 := fun s =>
  match s.given with
  | v :: given => (v, { s with given })
  | []         =>
    let seed := s.seed + 0x9E3779B97F4A7C15
    let z := (seed ^^^ (seed >>> 30)) * 0xBF58476D1CE4E5B9
    let z := (z ^^^ (z >>> 27)) * 0x94D049BB133111EB
    (z ^^^ (z >>> 31), { s with seed })

def nextHalf : StateM RandomStream UInt32 := do
  return (← next).toUInt32

-- The whole part of `v * n / UInt32.size` is below `n`, and if it is `n - 1` then the rest is so small
-- that there is no carry into it.
theorem scaled_lt {v n : Nat} (hv : v < UInt32.size) (hn : 0 < n) : v * n / UInt32.size < n :=
  Nat.div_lt_of_lt_mul (Nat.mul_lt_mul_of_pos_right hv hn)

theorem scaled_succ_lt {v n : Nat} (hv : v < UInt32.size)
    (h : UInt32.size < v * n % UInt32.size + n) : v * n / UInt32.size + 1 < n := by
  have hle : v * n + n ≤ UInt32.size * n := by
    have := Nat.mul_le_mul_right n (Nat.succ_le_of_lt hv)
    rwa [Nat.succ_mul] at this
  have hdiv := Nat.div_add_mod (v * n) UInt32.size
  apply Nat.lt_of_mul_lt_mul_left (a := UInt32.size)
  rw [Nat.mul_succ]
  omega

-- Scales a half word `v` to the range below `n + 1`, by the whole part of `v * (n + 1) / UInt32.size`.
-- If the rest is within `n + 1` of the next whole number, a second half word settles whether more bits
-- of precision would have reached it.
def upTo (n : Nat) : StateM RandomStream (Fin (n + 1)) := do
  let v ← nextHalf
  let product := v.toNat * (n + 1)
  if h : UInt32.size < product % UInt32.size + (n + 1) then
    let w ← nextHalf
    if UInt32.size ≤ product % UInt32.size + w.toNat * (n + 1) / UInt32.size then
      return ⟨product / UInt32.size + 1, scaled_succ_lt v.toNat_lt h⟩
  return ⟨product / UInt32.size, scaled_lt v.toNat_lt n.succ_pos⟩

-- The threshold is a third of `2 ^ 64`, up to the precision of a double.
def oneInThree : StateM RandomStream Bool := do
  return (← next) < 6148914691236516864

def dice : Dice RandomStream where
  upTo
  oneInThree

end RandomStream

end NestedAutomata
