import FiniteAutomata.Diagram.Blueprint
import FiniteAutomata.Grammar.Automaton
import FiniteAutomata.Grammar.Reader

/-!
# Where automata come from

An automaton is given by a grammar in writing or by the blueprint of a diagram, read in the
diagram's own mode.
-/

namespace FiniteAutomata

inductive AutomatonSource
  | grammar (text : String)
  | blueprint (b : Blueprint)
  deriving DecidableEq, Repr

def Blueprint.automaton (b : Blueprint) : Except Fault Automaton :=
  match b.diagram with
  | .error f => .error (.edit f)
  | .ok d => (d.snapshot d.mode).mapError .snapshot

def AutomatonSource.automaton : AutomatonSource → Except Fault Automaton
  | grammar text => ((Grammar.parse text).map Grammar.automaton).mapError .grammar
  | blueprint b => b.automaton

end FiniteAutomata
