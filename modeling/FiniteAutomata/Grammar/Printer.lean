import FiniteAutomata.Grammar.Basic

/-!
# Writing grammars

A grammar is written with one rule on a line, in order, and single blanks between the signs.
-/

namespace FiniteAutomata

def Alternative.write : Alternative → List Char
  | epsilon => ['ε']
  | terminal a => [a.letter]
  | step a B => [a.letter, B.letter]

def Rule.write (r : Rule) : List Char :=
  r.left.letter :: " -> ".toList ++ " | ".toList.intercalate (r.right.map Alternative.write)

def Grammar.print (g : Grammar) : String := .ofList (['\n'].intercalate (g.rules.map Rule.write))

end FiniteAutomata
