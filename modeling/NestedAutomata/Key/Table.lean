import NestedAutomata.Key.Basic

namespace NestedAutomata

inductive Shape
  | name (text : String)
  | pair (first second : Key)
  | set (members : SortedSet Key)
  | relation (links : Relation)
deriving DecidableEq

def KeyTable.Inverse (shapes : List Shape) (keys : List (Shape × Key)) : Prop :=
  ∀ s k, keys.lookup s = some k ↔ shapes[k.index]? = some s

theorem KeyTable.Inverse.nil : Inverse [] [] :=
  fun _ _ => by simp

theorem KeyTable.getElem?_concat_eq_some_iff {shapes : List Shape} {r s : Shape} {i : Nat} :
    (shapes ++ [s])[i]? = some r ↔ shapes[i]? = some r ∨ r = s ∧ i = shapes.length := by
  rw [List.getElem?_append]
  grind

theorem KeyTable.Inverse.concat {shapes : List Shape} {keys : List (Shape × Key)} {s : Shape}
    (h : Inverse shapes keys) (new : keys.lookup s = none) :
    Inverse (shapes ++ [s]) ((s, ⟨shapes.length⟩) :: keys) := by
  intro r k
  rw [getElem?_concat_eq_some_iff, ← h r k, List.lookup_cons]
  by_cases hr : r = s
  case pos => simp [hr, new, Key.ext_iff, eq_comm]
  case neg => simp [beq_false_of_ne hr, hr]

-- A key is asked for by its shape: a name, or a compound of keys that were handed out before. The
-- table lists the shapes in the order in which they were first asked for, and the key of a shape is its
-- place in that list. The same is kept the other way round, so that shapes are found without going
-- through the list.
structure KeyTable where
  shapes   : List Shape
  keys     : List (Shape × Key)
  inverse  : KeyTable.Inverse shapes keys
  reserved : [.name "ε", .name "@"] <+: shapes

namespace KeyTable

def base : KeyTable where
  shapes   := [.name "ε", .name "@"]
  keys     := [(.name "@", .wild), (.name "ε", .ε)]
  inverse  := (Inverse.nil.concat rfl).concat rfl
  reserved := List.prefix_rfl

instance : Inhabited KeyTable where
  default := base

def size (t : KeyTable) : Nat :=
  t.shapes.length

def isEmpty (t : KeyTable) : Bool :=
  t.size ≤ 2

def key? (t : KeyTable) (s : Shape) : Option Key :=
  t.keys.lookup s

def find? (t : KeyTable) (name : String) : Option Key :=
  t.key? (.name name)

def shape? (t : KeyTable) (k : Key) : Option Shape :=
  t.shapes[k.index]?

def intern (t : KeyTable) (s : Shape) : Key × KeyTable :=
  match h : t.key? s with
  | some k => (k, t)
  | none   =>
    let next : KeyTable := {
      shapes   := t.shapes ++ [s]
      keys     := (s, ⟨t.shapes.length⟩) :: t.keys
      inverse  := t.inverse.concat h
      reserved := t.reserved.trans (List.prefix_append ..)
    }
    (⟨t.size⟩, next)

def name (t : KeyTable) (text : String) : Key × KeyTable :=
  t.intern (.name text)

def pair (t : KeyTable) (first second : Key) : Key × KeyTable :=
  t.intern (.pair first second)

def set (t : KeyTable) (members : SortedSet Key) : Key × KeyTable :=
  t.intern (.set members)

def relation (t : KeyTable) (links : Relation) : Key × KeyTable :=
  t.intern (.relation links)

-- Appends tildes to the text, as many as it takes to reach an unused name but at most `bound`.
-- A table of size `n` uses at most `n` of the names, so the bound `n` is never what stops it.
def unused (t : KeyTable) (bound : Nat) (text : String) : String :=
  match bound with
  | 0         => text
  | bound + 1 => if (t.find? text).isSome then t.unused bound (text ++ "~") else text

def fresh (t : KeyTable) (text : String) : Key × KeyTable :=
  t.name (t.unused t.size text)

-- The name of a key spells out its shape. Only a key that was not handed out by this table, or that
-- was made from such a key, has no name.
--
-- The components of a shape are older than the shape itself, so the index of the key bounds the
-- depth to which its shape nests.
def nameWithin (t : KeyTable) : (depth : Nat) → Key → Option String
  | 0, _         => none
  | depth + 1, k => do
    match ← t.shape? k with
    | .name text   => return text
    | .pair a b    => return pairText (← t.nameWithin depth a) (← t.nameWithin depth b)
    | .set ks      => return setText (← ks.toList.mapM (t.nameWithin depth))
    | .relation ls =>
      let names ← ls.toList.mapM fun l => do
        return pairText (← t.nameWithin depth l.origin) (← t.nameWithin depth l.target)
      return setText names
where
  pairText (a b : String) : String :=
    s!"({a}, {b})"
  setText (names : List String) : String :=
    "\x7b" ++ ", ".intercalate names ++ "\x7d"

def name? (t : KeyTable) (k : Key) : Option String :=
  t.nameWithin (k.index + 1) k

end KeyTable

end NestedAutomata
