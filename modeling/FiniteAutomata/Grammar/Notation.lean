import FiniteAutomata.Fault
import FiniteAutomata.Grammar.Basic
import FiniteAutomata.Text.Blank
import Mathlib.Data.List.Forall2

/-!
# The line notation of grammars

What a text has to be in order to write a grammar, and the fault of a text that does not. A line
that is not blank writes a rule: a variable, an arrow and alternatives between bars, with blanks
around each of them. Rules for one variable are gathered in the order of the lines.
-/

namespace FiniteAutomata.Notation

open Text (trim)

def arrow : List Char := ['-', '>']

/-- The text holds one arrow, between `left` and `right`. Two arrows cannot overlap. -/
def HasSides (content left right : List Char) : Prop :=
  content = left ++ arrow ++ right ∧ ¬ arrow <:+: left ∧ ¬ arrow <:+: right

def pieces (right : List Char) : List (List Char) := (right.splitOn '|').map trim

/-- The ways to write an alternative. The empty one has three; in the longest of them each letter
is in either case. -/
inductive Spells : List Char → Alternative → Prop
  | sign : Spells ['ε'] .epsilon
  | short : Spells ['e', 'p', 's'] .epsilon
  | word {piece : List Char} :
      List.Forall₂ (fun c d => c = d ∨ c = d.toUpper) piece ['e', 'p', 's', 'i', 'l', 'o', 'n'] →
      Spells piece .epsilon
  | terminal (a : Terminal) : Spells [a.letter] (.terminal a)
  | step (a : Terminal) (B : Variable) : Spells [a.letter, B.letter] (.step a B)

def Writes (content : List Char) (r : Rule) : Prop :=
  ∃ left right, HasSides content left right ∧ trim left = [r.left.letter] ∧
    List.Forall₂ Spells (pieces right) r.right

/-- The fault of line number `line`, of which `content` is left after trimming. -/
inductive LineFault (line : Nat) (content : List Char) : GrammarError → Prop
  | sides : (∀ left right, HasSides content left right → trim left = [] ∨ trim right = []) →
      LineFault line content (.invalidLine line (.ofList content))
  | left {left right : List Char} : HasSides content left right → trim left ≠ [] →
      trim right ≠ [] → (∀ V : Variable, trim left ≠ [V.letter]) →
      LineFault line content (.invalidVariable line (.ofList (trim left)))
  | piece {left right : List Char} {V : Variable} {before after : List (List Char)}
      {piece : List Char} : HasSides content left right → trim left = [V.letter] →
      trim right ≠ [] → pieces right = before ++ piece :: after →
      (∀ p ∈ before, ∃ a, Spells p a) → (∀ a, ¬ Spells piece a) →
      LineFault line content (.notRightLinear line (.ofList piece))

def lines (text : String) : List (List Char) := text.toList.splitOn '\n'

def contents (text : String) : List (List Char) :=
  ((lines text).map trim).filter (· ≠ [])

/-- The fault of a text is that of the first line that has one. Lines are numbered from one, blank
ones included. -/
inductive FirstFault (text : String) : GrammarError → Prop
  | noProductions : contents text = [] → FirstFault text .noProductions
  | line {before after : List (List Char)} {line : List Char} {f : GrammarError} :
      lines text = before ++ line :: after →
      (∀ l ∈ before, trim l = [] ∨ ∃ r, Writes (trim l) r) → trim line ≠ [] →
      LineFault (before.length + 1) (trim line) f → FirstFault text f

/-- The grammar of some rules: it starts with the first of them, and for each variable, in the order
of the rules, it has the alternatives of all its rules. -/
structure Gathers (rs : List Rule) (g : Grammar) : Prop where
  start_eq : rs.head?.map Rule.left = some g.start
  map_left_eq : g.rules.map Rule.left = (rs.map Rule.left).eraseDups
  alternatives_eq : ∀ V, g.alternatives V = (rs.filter (·.left = V)).flatMap Rule.right

end FiniteAutomata.Notation
