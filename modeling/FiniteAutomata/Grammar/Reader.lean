import FiniteAutomata.Fault
import FiniteAutomata.Grammar.Basic
import FiniteAutomata.Text.Blank

/-!
# Reading grammars

A grammar is written with one production on a line, `S -> aS | b`. Blank lines are skipped and blank
characters around a line, a side or an alternative do not count. The first line with a fault is the
one named; within it the arrow and the sides are looked at first, then the variable, then the
alternatives in order.
-/

namespace FiniteAutomata

open Text (trim)

def cutArrow? : List Char → Option (List Char × List Char)
  | [] => none
  | '-' :: '>' :: rest => some ([], rest)
  | c :: rest => (cutArrow? rest).map fun (left, right) => (c :: left, right)

/-- The two sides of a production, trimmed, if it has one arrow and neither side is blank. -/
def sides? (content : List Char) : Option (List Char × List Char) :=
  match cutArrow? content with
  | none => none
  | some (left, right) =>
    if (cutArrow? right).isSome ∨ (trim left).isEmpty ∨ (trim right).isEmpty then none
    else some (trim left, trim right)

def Variable.read? : List Char → Option Variable
  | [c] => ofChar? c
  | _ => none

/-- The ways to write the empty word: `ε`, `eps`, or `epsilon` in letters of either case. -/
def isEpsilonWord (piece : List Char) : Bool :=
  piece = ['ε'] ∨ piece = "eps".toList ∨ piece.map Char.toLower = "epsilon".toList

def Alternative.read? (piece : List Char) : Option Alternative :=
  if isEpsilonWord piece then some epsilon
  else
    match piece with
    | [a] => (Terminal.ofChar? a).map terminal
    | [a, B] => (Terminal.ofChar? a).bind fun a => (Variable.ofChar? B).map (step a)
    | _ => none

namespace Grammar

def readAlternative (line : Nat) (piece : List Char) : Except GrammarError Alternative :=
  match Alternative.read? piece with
  | some a => .ok a
  | none => .error (.notRightLinear line (.ofList piece))

def readRule (line : Nat) (left : Variable) (pieces : List (List Char)) (h : pieces ≠ []) :
    Except GrammarError Rule :=
  match pieces, h with
  | piece :: rest, _ => do
    let a ← readAlternative line piece
    let more ← rest.mapM (readAlternative line)
    return ⟨left, a :: more, List.cons_ne_nil a more⟩

def readProduction (line : Nat) (content : List Char) : Except GrammarError Rule :=
  match sides? content with
  | none => .error (.invalidLine line (.ofList content))
  | some (left, right) =>
    match Variable.read? left with
    | none => .error (.invalidVariable line (.ofList left))
    | some V =>
      readRule line V ((right.splitOn '|').map trim) (by simp [List.splitOn_ne_nil])

/-- The rules on the lines, the first of them having number `line`. -/
def readLines (line : Nat) : List (List Char) → Except GrammarError (List Rule)
  | [] => .ok []
  | text :: rest =>
    if (trim text).isEmpty then readLines (line + 1) rest
    else do
      let r ← readProduction line (trim text)
      let more ← readLines (line + 1) rest
      return r :: more

def parse (text : String) : Except GrammarError Grammar := do
  match ofRules? (← readLines 1 (text.toList.splitOn '\n')) with
  | none => .error .noProductions
  | some g => .ok g

end Grammar

end FiniteAutomata
