import NestedAutomata.Alphabet
import NestedAutomata.Automaton.Adjacency
import NestedAutomata.Automaton.Basic
import NestedAutomata.Automaton.Reachability
import NestedAutomata.Automaton.Reachability.Lemmas
import NestedAutomata.Automaton.Update
import NestedAutomata.Automaton.Edit
import NestedAutomata.Automaton.Text
import NestedAutomata.Combination
import NestedAutomata.Run
import NestedAutomata.Determinization.Basic
import NestedAutomata.Fault
import NestedAutomata.Key.Basic
import NestedAutomata.Key.Table
import NestedAutomata.Key.Table.Lemmas
import NestedAutomata.Language.Comparison
import NestedAutomata.Membership.Basic
import NestedAutomata.Membership.Search
import NestedAutomata.Product.Basic
import NestedAutomata.Proofs.Automaton.Completion
import NestedAutomata.Proofs.Automaton.Growth
import NestedAutomata.Proofs.Automaton.Update
import NestedAutomata.Proofs.Automaton.WellFormed
import NestedAutomata.Proofs.Combination.Concatenation
import NestedAutomata.Proofs.Combination.Copy
import NestedAutomata.Proofs.Combination.Reverse
import NestedAutomata.Proofs.Combination.Star
import NestedAutomata.Proofs.Determinization.Complement
import NestedAutomata.Proofs.Determinization.Invariant
import NestedAutomata.Proofs.Determinization.Language
import NestedAutomata.Proofs.Determinization.Saturation
import NestedAutomata.Proofs.Determinization.Tasks
import NestedAutomata.Proofs.Determinization.Track
import NestedAutomata.Proofs.Key.Table
import NestedAutomata.Proofs.Language.Inclusion
import NestedAutomata.Proofs.Language.Summary
import NestedAutomata.Proofs.Level
import NestedAutomata.Proofs.Membership.Decision
import NestedAutomata.Proofs.Membership.Search
import NestedAutomata.Proofs.Membership.Walk
import NestedAutomata.Proofs.Obtained
import NestedAutomata.Proofs.Product.Invariant
import NestedAutomata.Proofs.Product.Language
import NestedAutomata.Proofs.Product.Saturation
import NestedAutomata.Proofs.Product.Tasks
import NestedAutomata.Proofs.Random.Word
import NestedAutomata.Proofs.Run
import NestedAutomata.Proofs.States
import NestedAutomata.Proofs.Word.Balance
import NestedAutomata.Proofs.Word.Depth
import NestedAutomata.Proofs.Word.Matching
import NestedAutomata.Proofs.Word.Pending
import NestedAutomata.Proofs.Word.Reversal
import NestedAutomata.Random.Dice
import NestedAutomata.Random.Generation
import NestedAutomata.SortedSet.Basic
import NestedAutomata.SortedSet.Lemmas
import NestedAutomata.States.Basic
import NestedAutomata.States.Edit
import NestedAutomata.Transition
import NestedAutomata.Transitions.Basic
import NestedAutomata.Transitions.Edit
import NestedAutomata.Transitions.Lemmas
import NestedAutomata.Transitions.Lookup
import NestedAutomata.Weights
import NestedAutomata.Word
import NestedAutomata.Proofs.Combination.Union
import NestedAutomata.Proofs.Language.Equality
import NestedAutomata.SortedMap.Basic
import NestedAutomata.SortedMap.Lemmas
import NestedAutomata.Transitions.Index
import NestedAutomata.Transitions.Raw.Basic
import NestedAutomata.Transitions.Raw.Lemmas
import NestedAutomata.Proofs.Transitions.Lookup
import NestedAutomata.Proofs.Automaton.Absorption
import NestedAutomata.Proofs.Key.Requests
import NestedAutomata.Proofs.Automaton.Restriction
import NestedAutomata.Proofs.Automaton.Trim
import NestedAutomata.Proofs.Membership.Restriction
import NestedAutomata.Proofs.Membership.Completion
import NestedAutomata.Proofs.Passage
import NestedAutomata.Proofs.Membership.Sinks
import NestedAutomata.Proofs.Automaton.Duplicate
import NestedAutomata.Proofs.Membership.Duplicate
import NestedAutomata.Proofs.Determinization.Moves
import NestedAutomata.Proofs.Product.Returns
import NestedAutomata.Proofs.Combination.Projection
import NestedAutomata.Proofs.Automaton.Effect
import NestedAutomata.Proofs.Automaton.Removal
import NestedAutomata.Proofs.Membership.Removal
import NestedAutomata.Proofs.Automaton.Adjacency
import NestedAutomata.Proofs.Determinization.Prefix
import NestedAutomata.Proofs.Language.Derivation
import NestedAutomata.Proofs.Worklist
import NestedAutomata.Proofs.Product.Log
import NestedAutomata.Proofs.Termination
import NestedAutomata.Proofs.Key.Name
import NestedAutomata.Proofs.Key.Nesting
