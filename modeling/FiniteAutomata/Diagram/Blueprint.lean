import FiniteAutomata.Diagram.Edit

/-!
# Blueprints

A blueprint describes a diagram at once: how many states, which edges with their labels in writing,
which marks, which states are taken away again, and the mode at the end. Edges are drawn while the
diagram is nondeterministic, so a mode never refuses them.
-/

namespace FiniteAutomata

structure WrittenEdge where
  source : StateId
  target : StateId
  text : String
  deriving DecidableEq, Repr

structure Blueprint where
  states : Nat
  edges : List WrittenEdge
  initial : Option StateId
  finals : List StateId
  removed : List StateId
  mode : Mode
  deriving DecidableEq, Repr

namespace Blueprint

def addStates : Nat → Diagram → Diagram
  | 0, d => d
  | n + 1, d => addStates n d.addState.diagram

def drawEdges (d : Diagram) : List WrittenEdge → Except EditError Diagram
  | [] => .ok d
  | e :: rest => (d.connect e.source e.target e.text).bind fun edited =>
      drawEdges edited.diagram rest

def markInitial (initial : Option StateId) (d : Diagram) : Diagram :=
  match initial with
  | none => d
  | some q => (d.toggleInitial q).diagram

/-- Toggles each state in order, so one given twice is not final. -/
def markFinals (finals : List StateId) (d : Diagram) : Diagram :=
  finals.foldl (fun d q => (d.toggleFinal q).diagram) d

def takeAway (removed : List StateId) (d : Diagram) : Diagram :=
  removed.foldl (fun d q => (d.removeState q).diagram) d

/-- The diagram described. The first edge that is refused is the fault. -/
def diagram (b : Blueprint) : Except EditError Diagram :=
  (drawEdges (addStates b.states (.new .nfa)) b.edges).map fun d =>
    ((takeAway b.removed (markFinals b.finals (markInitial b.initial d))).setMode b.mode).diagram

end Blueprint

end FiniteAutomata
