import NestedAutomata.Key.Basic
import NestedAutomata.SortedMap.Lemmas
import NestedAutomata.SortedSet.Lemmas

namespace NestedAutomata

open Std

-- Sorts transitions into buckets by the key in one of their columns, so that those with a given key
-- are found without a search. A bucket that becomes empty is dropped.
structure Index {α : Type} [Ord α] (column : α → Key) where
  buckets : SortedMap Key (SortedSet α)

namespace Index

variable {α : Type} [Ord α] [DecidableEq α] {column : α → Key}

instance : EmptyCollection (Index column) where
  emptyCollection := ⟨∅⟩

def bucket (I : Index column) (k : Key) : SortedSet α :=
  (I.buckets.find? k).getD ∅

def get (I : Index column) (k : Key) : List α :=
  (I.bucket k).toList

def contains (I : Index column) (k : Key) : Bool :=
  I.buckets.contains k

def put (I : Index column) (k : Key) (b : SortedSet α) : Index column where
  buckets := if b = ∅ then I.buckets.erase k else I.buckets.insert k b

def add [TransOrd α] [LawfulEqOrd α] (I : Index column) (t : α) : Index column :=
  I.put (column t) (insert t (I.bucket (column t)))

def remove (I : Index column) (t : α) : Index column :=
  I.put (column t) ((I.bucket (column t)).erase t)

omit [DecidableEq α] in
theorem nodup_get [TransOrd α] {I : Index column} {k : Key} : (I.get k).Nodup :=
  SortedSet.nodup_toList _

-- The members of a relation that have the key in the column, unless there are none.
def bucket? (column : α → Key) (s : SortedSet α) (k : Key) : Option (SortedSet α) :=
  if s.filter (column · = k) = ∅ then none else some (s.filter (column · = k))

-- An index mirrors a relation if its buckets hold the members of the relation and nothing else.
def Mirrors (I : Index column) (s : SortedSet α) : Prop :=
  ∀ k, I.buckets.find? k = bucket? column s k

namespace Mirrors

variable {I J : Index column} {s s' : SortedSet α} {t : α} {k : Key}

theorem empty : (∅ : Index column).Mirrors ∅ :=
  fun _ => rfl

theorem bucket_eq (h : I.Mirrors s) : I.bucket k = s.filter (column · = k) := by
  rw [bucket, h k, bucket?]
  split
  case isTrue hb => rw [hb]; rfl
  case isFalse   => rfl

theorem get_eq (h : I.Mirrors s) : I.get k = s.toList.filter (column · = k) := by
  rw [get, h.bucket_eq]
  rfl

theorem contains_iff [TransOrd α] (h : I.Mirrors s) : I.contains k ↔ ∃ t ∈ s, column t = k := by
  rw [contains, SortedMap.contains, h k, bucket?]
  split
  case isTrue hb =>
    refine iff_of_false nofun fun ⟨t, ht, hk⟩ => ?_
    have : t ∈ s.filter (column · = k) := by simpa using ⟨ht, hk⟩
    exact SortedSet.not_mem_empty (hb ▸ this)
  case isFalse hb =>
    have ⟨t, ht⟩ := SortedSet.exists_mem_of_ne_empty hb
    exact iff_of_true rfl ⟨t, by simpa using ht⟩

theorem unique (h : I.Mirrors s) (h' : J.Mirrors s) : I = J := by
  have : I.buckets = J.buckets := SortedMap.ext_find? fun k => (h k).trans (h' k).symm
  cases I; cases J
  exact congrArg _ this

theorem put (h : I.Mirrors s)
    (others : ∀ j ≠ k, s'.filter (column · = j) = s.filter (column · = j)) :
    (I.put k (s'.filter (column · = k))).Mirrors s' := by
  intro j
  have found : (I.put k (s'.filter (column · = k))).buckets.find? j =
      if j = k then bucket? column s' k else I.buckets.find? j := by
    simp only [Index.put, bucket?]
    split <;> simp
  rw [found]
  split
  case isTrue hj  => rw [hj]
  case isFalse hj => rw [h j, bucket?, bucket?, others j hj]

theorem add [TransOrd α] [LawfulEqOrd α] (h : I.Mirrors s) : (I.add t).Mirrors (insert t s) := by
  have same : insert t (I.bucket (column t)) = (insert t s).filter (column · = column t) := by
    ext u
    simp only [h.bucket_eq, SortedSet.mem_insert, SortedSet.mem_filter, decide_eq_true_eq]
    grind
  rw [Index.add, same]
  apply h.put
  intro j hj
  ext u
  simp only [SortedSet.mem_filter, SortedSet.mem_insert, decide_eq_true_eq]
  grind

theorem remove [TransOrd α] (h : I.Mirrors s) : (I.remove t).Mirrors (s.erase t) := by
  have same : (I.bucket (column t)).erase t = (s.erase t).filter (column · = column t) := by
    ext u
    simp only [h.bucket_eq, SortedSet.mem_erase, SortedSet.mem_filter, decide_eq_true_eq]
    grind
  rw [Index.remove, same]
  apply h.put
  intro j hj
  ext u
  simp only [SortedSet.mem_filter, SortedSet.mem_erase, decide_eq_true_eq]
  grind

end Mirrors

end Index

end NestedAutomata
