import FiniteAutomata.State
import FiniteAutomata.Symbol

/-!
# Causes of failure

Each operation that can fail has its own type of causes, and each cause has one message. That a
word is rejected is a verdict and no failure.
-/

namespace FiniteAutomata

inductive SnapshotError
  | missingInitial
  | missingFinal
  deriving DecidableEq, Repr

inductive EditError
  | emptyLabel
  | invalidSymbol (entry : String)
  | unknownState (q : StateId)
  | epsilonNotAllowed
  | determinismConflict (q : StateId) (a : Symbol)
  deriving DecidableEq, Repr

/-- Why a text is no right-linear grammar. Lines are numbered from one. -/
inductive GrammarError
  | noProductions
  | invalidLine (line : Nat) (text : String)
  | invalidVariable (line : Nat) (text : String)
  | notRightLinear (line : Nat) (alternative : String)
  deriving DecidableEq, Repr

inductive Fault
  | snapshot (e : SnapshotError)
  | edit (e : EditError)
  | grammar (e : GrammarError)
  deriving DecidableEq, Repr

def SnapshotError.message : SnapshotError → String
  | missingInitial => "no initial state is set"
  | missingFinal => "at least one final state is required"

def EditError.message : EditError → String
  | emptyLabel => "empty transition label"
  | invalidSymbol entry => s!"`{entry}` is not a single-character symbol"
  | unknownState q => s!"unknown state {q}"
  | epsilonNotAllowed => "epsilon transitions are not allowed in a DFA"
  | determinismConflict q a => s!"DFA conflict at {q} on symbol '{a.glyph}'"

def GrammarError.message : GrammarError → String
  | noProductions => "grammar has no productions"
  | invalidLine line text => s!"line {line}: invalid production `{text}`"
  | invalidVariable line text =>
    s!"line {line}: left-hand side must be a single uppercase variable, found `{text}`"
  | notRightLinear line alternative =>
    s!"line {line}: production `{alternative}` is not right-linear"

def Fault.message : Fault → String
  | snapshot e => e.message
  | edit e => e.message
  | grammar e => e.message

end FiniteAutomata
