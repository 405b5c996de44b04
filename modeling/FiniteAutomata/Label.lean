import FiniteAutomata.Fault
import FiniteAutomata.Text.Blank

/-!
# Labels

A label is a set of symbols. It is written as single characters between commas, the letter `ε`
standing for the empty symbol; blank entries are dropped when it is read.
-/

namespace FiniteAutomata

abbrev Label := OrderedSet Symbol

namespace Label

/-- The entries of a written label: what stands between the commas, trimmed, if not blank. -/
def entries (text : String) : List (List Char) :=
  ((text.toList.splitOn ',').map Text.trim).filter (! ·.isEmpty)

def readEntry : List Char → Except EditError Symbol
  | [c] => .ok (.ofChar c)
  | entry => .error (.invalidSymbol (.ofList entry))

/-- The first entry that is longer than one character is the one refused. -/
def parse (text : String) : Except EditError Label := do
  match ← (entries text).mapM readEntry with
  | [] => .error .emptyLabel
  | symbols => .ok (.ofList symbols)

def write (symbols : List Symbol) : String :=
  .ofList ([','].intercalate (symbols.map fun a => [a.glyph]))

def format (label : Label) : String := write label.toList

end Label

end FiniteAutomata
