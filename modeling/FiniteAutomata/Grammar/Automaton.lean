import FiniteAutomata.Automaton.Basic
import FiniteAutomata.Grammar.Basic

/-!
# The automaton of a grammar

Every variable that occurs in a grammar becomes a state, and one more state accepts. An alternative
`aB` is a move on `a` to the state of `B`, an alternative `a` a move on `a` to the accepting state,
and an empty alternative an empty move there.
-/

namespace FiniteAutomata

def Variable.stateIn (vars : List Variable) (V : Variable) : StateId := .ofNat (vars.idxOf V)

def acceptIn (vars : List Variable) : StateId := .ofNat vars.length

def Alternative.moveIn (vars : List Variable) (V : Variable) : Alternative → Move
  | epsilon => ⟨V.stateIn vars, .epsilon, acceptIn vars⟩
  | terminal a => ⟨V.stateIn vars, .char a.letter, acceptIn vars⟩
  | step a B => ⟨V.stateIn vars, .char a.letter, B.stateIn vars⟩

namespace Grammar

/-- The variables of the grammar in the order of their first occurrence, the start before all and
each rule's variable before those of its alternatives. -/
def vars (g : Grammar) : List Variable :=
  (g.start :: g.rules.flatMap fun r => r.left :: r.right.filterMap Alternative.next?).eraseDups

def stateOf (g : Grammar) (V : Variable) : StateId := V.stateIn g.vars

def stateOf? (g : Grammar) (V : Variable) : Option StateId :=
  if V ∈ g.vars then some (g.stateOf V) else none

def acceptState (g : Grammar) : StateId := acceptIn g.vars

def moves (g : Grammar) : List Move :=
  let vars := g.vars
  g.rules.flatMap fun r => r.right.map (·.moveIn vars r.left)

def automaton (g : Grammar) : Automaton where
  states := .ofList ((List.range (g.vars.length + 1)).map StateId.ofNat)
  initial := g.stateOf g.start
  finals := .singleton g.acceptState
  table := .ofMoves g.moves
  mode := .nfa

end Grammar

end FiniteAutomata
