import FiniteAutomata.Automaton.Search

/-!
# Acceptance

As a nondeterministic automaton, an automaton holds the set of all states that it may be in, closed
under empty moves, and accepts when one of them is final. As a deterministic one it holds one state
and ignores empty moves; a character on which that state has no move, or has several, rejects. It
is empty when its moves lead to no final state, whatever its mode.
-/

namespace FiniteAutomata.Automaton

def initialConfiguration (A : Automaton) : StateSet :=
  A.table.epsilonClosure (.singleton A.initial)

def stepNfa (A : Automaton) (x : StateSet) (c : Char) : StateSet :=
  A.table.epsilonClosure (A.table.step x c)

def readNfa (A : Automaton) (w : Word) : StateSet := w.foldl A.stepNfa A.initialConfiguration

@[simp] theorem readNfa_nil (A : Automaton) : A.readNfa [] = A.initialConfiguration := rfl

theorem readNfa_concat (A : Automaton) (w : Word) (c : Char) :
    A.readNfa (w ++ [c]) = A.stepNfa (A.readNfa w) c := by
  rw [readNfa, List.foldl_append]
  rfl

def acceptsNfa (A : Automaton) (w : Word) : Bool := (A.readNfa w).intersects A.finals

def readDfa? (A : Automaton) (w : Word) : Option StateId :=
  w.foldlM A.table.deterministicStep? A.initial

@[simp] theorem readDfa?_nil (A : Automaton) : A.readDfa? [] = some A.initial := rfl

theorem readDfa?_append (A : Automaton) (w u : Word) :
    A.readDfa? (w ++ u) = (A.readDfa? w).bind fun q => u.foldlM A.table.deterministicStep? q := by
  simp [readDfa?, List.foldlM_append]

theorem readDfa?_concat (A : Automaton) (w : Word) (c : Char) :
    A.readDfa? (w ++ [c]) = (A.readDfa? w).bind (A.table.deterministicStep? · c) := by
  simp [readDfa?_append]

def acceptsDfa (A : Automaton) (w : Word) : Bool := (A.readDfa? w).any A.isFinal

def accepts (A : Automaton) (w : Word) : Bool :=
  match A.mode with
  | .nfa => A.acceptsNfa w
  | .dfa => A.acceptsDfa w

/-- Whether no final state can be reached, whatever is read on the way. -/
def isEmpty (A : Automaton) : Bool := A.search (.start A.initial)

end FiniteAutomata.Automaton
