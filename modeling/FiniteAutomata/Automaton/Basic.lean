import FiniteAutomata.Transition.Step

/-!
# Automata

An automaton has states, one of them initial and some of them final, a transition table, and a mode
that says how it reads a word.
-/

namespace FiniteAutomata

abbrev Word := List Char

inductive Mode
  | nfa
  | dfa
  deriving DecidableEq, Repr, Inhabited

structure Automaton where
  states : StateSet
  initial : StateId
  finals : StateSet
  table : TransitionTable
  mode : Mode
  deriving DecidableEq

namespace Automaton

def withMode (A : Automaton) (mode : Mode) : Automaton := { A with mode }

def isFinal (A : Automaton) (q : StateId) : Bool := q ∈ A.finals

end Automaton

end FiniteAutomata
