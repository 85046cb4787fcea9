import NestedAutomata.Key.Basic

namespace NestedAutomata

open Std

@[ext]
structure Internal where
  source : Key
  symbol : Key
  target : Key
deriving DecidableEq, Repr

@[ext]
structure Call where
  callSite : Key
  symbol   : Key
  entry    : Key
deriving DecidableEq, Repr

@[ext]
structure Return where
  exit       : Key
  callSite   : Key
  symbol     : Key
  returnSite : Key
deriving DecidableEq, Repr

namespace Internal

instance : Ord Internal where
  compare := compareLex (compareOn source) (compareLex (compareOn symbol) (compareOn target))

instance : TransOrd Internal :=
  inferInstanceAs (TransCmp (compareLex _ (compareLex _ _)))

instance : LawfulEqOrd Internal where
  eq_of_compare h :=
    have ⟨h₁, h⟩ := compareLex_eq_eq.mp h
    have ⟨h₂, h₃⟩ := compareLex_eq_eq.mp h
    Internal.ext (LawfulEqOrd.eq_of_compare h₁) (LawfulEqOrd.eq_of_compare h₂)
      (LawfulEqOrd.eq_of_compare h₃)

end Internal

namespace Call

instance : Ord Call where
  compare := compareLex (compareOn callSite) (compareLex (compareOn symbol) (compareOn entry))

instance : TransOrd Call :=
  inferInstanceAs (TransCmp (compareLex _ (compareLex _ _)))

instance : LawfulEqOrd Call where
  eq_of_compare h :=
    have ⟨h₁, h⟩ := compareLex_eq_eq.mp h
    have ⟨h₂, h₃⟩ := compareLex_eq_eq.mp h
    Call.ext (LawfulEqOrd.eq_of_compare h₁) (LawfulEqOrd.eq_of_compare h₂)
      (LawfulEqOrd.eq_of_compare h₃)

end Call

namespace Return

instance : Ord Return where
  compare :=
    compareLex (compareOn exit) (compareLex (compareOn callSite)
      (compareLex (compareOn symbol) (compareOn returnSite)))

instance : TransOrd Return :=
  inferInstanceAs (TransCmp (compareLex _ (compareLex _ (compareLex _ _))))

instance : LawfulEqOrd Return where
  eq_of_compare h :=
    have ⟨h₁, h⟩ := compareLex_eq_eq.mp h
    have ⟨h₂, h⟩ := compareLex_eq_eq.mp h
    have ⟨h₃, h₄⟩ := compareLex_eq_eq.mp h
    Return.ext (LawfulEqOrd.eq_of_compare h₁) (LawfulEqOrd.eq_of_compare h₂)
      (LawfulEqOrd.eq_of_compare h₃) (LawfulEqOrd.eq_of_compare h₄)

end Return

-- An internal transition goes from a source to a target. A call goes from its call site, which it
-- pushes, to an entry. A return goes from an exit to a return site, and can be taken only where its
-- call site is on top of the stack.
inductive Transition
  | internal (t : Internal)
  | call (t : Call)
  | ret (t : Return)
deriving DecidableEq, Repr

namespace Transition

def label : Transition → Key
  | internal t => t.symbol
  | call t     => t.symbol
  | ret t      => t.symbol

def origin : Transition → Key
  | internal t => t.source
  | call t     => t.callSite
  | ret t      => t.exit

def destination : Transition → Key
  | internal t => t.target
  | call t     => t.entry
  | ret t      => t.returnSite

def states : Transition → List Key
  | internal t => [t.source, t.target]
  | call t     => [t.callSite, t.entry]
  | ret t      => [t.exit, t.callSite, t.returnSite]

-- Reading nothing is for internal transitions only.
def Labelled : Transition → Prop
  | internal _ => True
  | call t     => t.symbol ≠ .ε
  | ret t      => t.symbol ≠ .ε

instance : (t : Transition) → Decidable t.Labelled
  | internal _ => .isTrue trivial
  | call t     => inferInstanceAs (Decidable (t.symbol ≠ .ε))
  | ret t      => inferInstanceAs (Decidable (t.symbol ≠ .ε))

end Transition

end NestedAutomata
