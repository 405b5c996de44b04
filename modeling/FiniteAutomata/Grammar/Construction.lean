import FiniteAutomata.Diagram.Basic
import FiniteAutomata.Grammar.Automaton

/-!
# Building the automaton of a grammar in two passes

The first pass gives numbers to the variables as it comes upon them. The second looks the numbers up
and gathers the symbols of the productions under the states that they lead from and to.
-/

namespace FiniteAutomata

/-- Variables with their states, in the order in which they got them. -/
abbrev Numbering := List (Variable × StateId)

/-- Gives a variable the next number, unless it has one. -/
def Numbering.intern (ns : Numbering) (V : Variable) : Numbering :=
  if (ns.lookup V).isSome then ns else ns ++ [(V, .ofNat ns.length)]

def Alternative.resolve? (ns : Numbering) (accept : StateId) (V : Variable) :
    Alternative → Option Move
  | epsilon => (ns.lookup V).map fun p => ⟨p, .epsilon, accept⟩
  | terminal a => (ns.lookup V).map fun p => ⟨p, .char a.letter, accept⟩
  | step a B => (ns.lookup V).bind fun p => (ns.lookup B).map fun q => ⟨p, .char a.letter, q⟩

/-- Adds the symbol of a move to the edge with its ends. If there is none it is put last. -/
def Edge.gather (m : Move) : List Edge → List Edge
  | [] => [⟨m.source, m.target, .singleton m.symbol⟩]
  | e :: es =>
    if e.joins m.source m.target then { e with label := e.label.insert m.symbol } :: es
    else e :: gather m es

namespace Grammar

def productions (g : Grammar) : List (Variable × Alternative) :=
  g.rules.flatMap fun r => r.right.map fun a => (r.left, a)

theorem moves_eq_map_productions (g : Grammar) :
    g.moves = g.productions.map fun p => p.2.moveIn g.vars p.1 := by
  simp only [moves, productions, List.map_flatMap, List.map_map]
  rfl

/-- The first pass: the start, each variable and those of its alternatives get their numbers. -/
def numbering (g : Grammar) : Numbering :=
  g.rules.foldl (fun ns r => r.right.foldl (fun ns a => a.next?.elim ns ns.intern)
    (ns.intern r.left)) (Numbering.intern [] g.start)

def gather? (ns : Numbering) (accept : StateId) (es : List Edge) (p : Variable × Alternative) :
    Option (List Edge) :=
  (p.2.resolve? ns accept p.1).map fun m => Edge.gather m es

/-- Both passes: the numbers and the automaton, if no look-up fails. -/
def construct? (g : Grammar) : Option (Numbering × Automaton) := do
  let ns := g.numbering
  let accept := StateId.ofNat ns.length
  let initial ← ns.lookup g.start
  let es ← g.productions.foldlM (gather? ns accept) []
  let states := OrderedSet.ofList (ns.map Prod.snd ++ [accept])
  return (ns, ⟨states, initial, .singleton accept, .ofEdges es, .nfa⟩)

end Grammar

end FiniteAutomata
