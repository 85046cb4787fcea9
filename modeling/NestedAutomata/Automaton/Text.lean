import NestedAutomata.Automaton.Basic

namespace NestedAutomata

def Transitions.Raw.text (ts : Raw) : String :=
  String.join (ts.toList.map line)
where
  line : Transition → String
    | .internal t => s!"{t.source.text} --[{t.symbol.text}]-> {t.target.text}\n"
    | .call t     => s!"{t.callSite.text} --[<{t.symbol.text}]-> {t.entry.text}\n"
    | .ret t      => s!"{t.exit.text} --[{t.symbol.text}>/{t.callSite.text}]-> {t.returnSite.text}\n"

namespace Automaton

variable {ι : Type} (A : Automaton ι)

def sizesText : String :=
  "\n".intercalate [
    s!"Number of states: {A.states.members.size}",
    s!"Number of symbols: {A.alphabet.size}",
    s!"Number of internal transitions: {A.transitions.internals.size}",
    s!"Number of call transitions: {A.transitions.calls.size}",
    s!"Number of return transitions: {A.transitions.returns.size}"
  ]

def text : String :=
  "\n".intercalate [
    A.sizesText,
    s!"Stuck: {A.states.stuck.text}",
    s!"Initial states: {keys A.states.initial}",
    s!"Final states: {keys A.states.final}",
    A.transitions.text
  ]
where
  keys (s : SortedSet Key) : String :=
    "[" ++ ", ".intercalate (s.toList.map Key.text) ++ "]"

end Automaton

end NestedAutomata
