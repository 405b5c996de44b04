import FiniteAutomata.Diagram.Basic
import FiniteAutomata.Text.Quoted

/-!
# The description of a diagram

A diagram is described on one line: its mode, states, marks and edges, with lists between braces in
the order of the diagram.
-/

namespace FiniteAutomata

def Symbol.describe : Symbol → String
  | epsilon => "Epsilon"
  | char c => s!"Char({Text.quote c})"

def Mode.describe : Mode → String
  | nfa => "Nfa"
  | dfa => "Dfa"

def Edge.describe (e : Edge) : String :=
  s!"({e.source}, {e.target}): " ++ Text.inBraces (e.label.toList.map Symbol.describe)

def Drawing.describeInitial (D : Drawing) : String :=
  match D.initial with
  | none => "None"
  | some q => s!"Some({q})"

def Diagram.describe (d : Diagram) : String :=
  ", ".intercalate
    ["AutomatonModel \x7b mode: " ++ d.mode.describe,
      "states: " ++ Text.inBraces (d.states.map toString),
      "initial: " ++ d.describeInitial,
      "finals: " ++ d.finals.describe,
      "transitions: " ++ Text.inBraces (d.edges.map Edge.describe),
      ".. \x7d"]

end FiniteAutomata
