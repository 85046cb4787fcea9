import NestedAutomata.Fault

namespace NestedAutomata

structure States (ι : Type) where
  members : SortedSet Key
  initial : SortedSet Key
  final   : SortedSet Key
  info    : List (Key × ι)
  stuck   : Stuck
deriving DecidableEq

namespace States

variable {ι : Type}

instance : EmptyCollection (States ι) where
  emptyCollection := ⟨∅, ∅, ∅, [], .absent⟩

instance : Inhabited (States ι) where
  default := ∅

instance : Membership Key (States ι) where
  mem qs q := q ∈ qs.members

instance (q : Key) (qs : States ι) : Decidable (q ∈ qs) :=
  inferInstanceAs (Decidable (q ∈ qs.members))

def ofStuck (q : Key) : States ι where
  members := {q}
  initial := ∅
  final   := ∅
  info    := []
  stuck   := .designated q

def IsStuck (qs : States ι) (q : Key) : Prop :=
  qs.stuck = .designated q

instance (qs : States ι) (q : Key) : Decidable (qs.IsStuck q) :=
  inferInstanceAs (Decidable (_ = _))

def info? (qs : States ι) (q : Key) : Option ι :=
  qs.info.lookup q

def add (qs : States ι) (q : Key) : States ι :=
  { qs with members := insert q qs.members }

def addAll (qs : States ι) (l : List Key) : States ι :=
  l.foldl add qs

-- The stuck state stays. Any other state goes together with its designations and information.
def remove (qs : States ι) (q : Key) : States ι :=
  if qs.IsStuck q then
    qs
  else
    { qs with
      members := qs.members.erase q
      initial := qs.initial.erase q
      final   := qs.final.erase q
      info    := qs.info.filter (·.1 ≠ q) }

def clear (qs : States ι) : States ι :=
  match qs.stuck with
  | .designated q => ofStuck q
  | mode          => { (∅ : States ι) with stuck := mode }

def addInitial (qs : States ι) (q : Key) : States ι :=
  { qs.add q with initial := insert q qs.initial }

def removeInitial (qs : States ι) (q : Key) : States ι :=
  { qs with initial := qs.initial.erase q }

def clearInitial (qs : States ι) : States ι :=
  { qs with initial := ∅ }

def addFinal (qs : States ι) (q : Key) : States ι :=
  { qs.add q with final := insert q qs.final }

def removeFinal (qs : States ι) (q : Key) : States ι :=
  { qs with final := qs.final.erase q }

def clearFinal (qs : States ι) : States ι :=
  { qs with final := ∅ }

-- Information replaces what the state carried before. A key that is no state carries none.
def setInfo (qs : States ι) (q : Key) (x : ι) : States ι :=
  if q ∈ qs then
    { qs with info := (q, x) :: qs.info.filter (·.1 ≠ q) }
  else
    qs

-- Adds a new state and makes it the stuck state. There is one chance to do so.
def designate (qs : States ι) (q : Key) : Except Fault (States ι) :=
  if qs.stuck ≠ .absent then
    .error (.designatedTwice qs.stuck)
  else if q ∈ qs then
    .error (.designatedOrdinary q)
  else
    .ok { qs.add q with stuck := .designated q }

def Alike (qs rs : States ι) : Prop :=
  qs.members = rs.members ∧ qs.initial = rs.initial ∧ qs.final = rs.final ∧ qs.stuck = rs.stuck

instance (qs rs : States ι) : Decidable (qs.Alike rs) :=
  inferInstanceAs (Decidable (_ ∧ _))

end States

end NestedAutomata
