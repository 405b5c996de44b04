import FiniteAutomata.Automaton.Acceptance
import FiniteAutomata.Automaton.Basic
import FiniteAutomata.Automaton.Language
import FiniteAutomata.Automaton.Search
import FiniteAutomata.AutomatonSource
import FiniteAutomata.Determinism
import FiniteAutomata.Diagram.Basic
import FiniteAutomata.Diagram.Blueprint
import FiniteAutomata.Diagram.Description
import FiniteAutomata.Diagram.Edit
import FiniteAutomata.Diagram.History
import FiniteAutomata.Diagram.Journal
import FiniteAutomata.Distinct
import FiniteAutomata.Editor
import FiniteAutomata.Fault
import FiniteAutomata.Grammar.Automaton
import FiniteAutomata.Grammar.Basic
import FiniteAutomata.Grammar.Construction
import FiniteAutomata.Grammar.Derivation
import FiniteAutomata.Grammar.Notation
import FiniteAutomata.Grammar.Printer
import FiniteAutomata.Grammar.Reader
import FiniteAutomata.Grammar.Session
import FiniteAutomata.InOrder
import FiniteAutomata.Json.Document
import FiniteAutomata.Json.Token
import FiniteAutomata.Label
import FiniteAutomata.OrderedSet.Basic
import FiniteAutomata.OrderedSet.Lemmas
import FiniteAutomata.Proofs.AnnouncedMarks
import FiniteAutomata.Proofs.DeterminismCheck
import FiniteAutomata.Proofs.DeterministicAcceptance
import FiniteAutomata.Proofs.DiagramDeterminism
import FiniteAutomata.Proofs.DiagramInvariant
import FiniteAutomata.Proofs.DiagramJournal
import FiniteAutomata.Proofs.DiagramLabels
import FiniteAutomata.Proofs.EditOrder
import FiniteAutomata.Proofs.Emptiness
import FiniteAutomata.Proofs.EpsilonClosure
import FiniteAutomata.Proofs.FiredMoves
import FiniteAutomata.Proofs.GrammarDiagram
import FiniteAutomata.Proofs.GrammarLanguage
import FiniteAutomata.Proofs.GrammarNumbering
import FiniteAutomata.Proofs.GrammarPrinting
import FiniteAutomata.Proofs.GrammarReading
import FiniteAutomata.Proofs.GrammarSessions
import FiniteAutomata.Proofs.GrammarStates
import FiniteAutomata.Proofs.GrammarWording
import FiniteAutomata.Proofs.LabelEdits
import FiniteAutomata.Proofs.LabelNotation
import FiniteAutomata.Proofs.MergedWords
import FiniteAutomata.Proofs.NotationLines
import FiniteAutomata.Proofs.PathAcceptance
import FiniteAutomata.Proofs.PiecewiseLabels
import FiniteAutomata.Proofs.RemovedPaths
import FiniteAutomata.Proofs.RenamedStates
import FiniteAutomata.Proofs.RunIsolation
import FiniteAutomata.Proofs.RunStages
import FiniteAutomata.Proofs.StateNumbers
import FiniteAutomata.Proofs.StepwiseRuns
import FiniteAutomata.Proofs.StoredSets
import FiniteAutomata.Proofs.StoredTables
import FiniteAutomata.Run
import FiniteAutomata.Simulator
import FiniteAutomata.State
import FiniteAutomata.Storage.BitRow
import FiniteAutomata.Storage.SetCommand
import FiniteAutomata.Storage.StateBits
import FiniteAutomata.Storage.StoredTable
import FiniteAutomata.Symbol
import FiniteAutomata.Text.Blank
import FiniteAutomata.Text.Braces
import FiniteAutomata.Text.Case
import FiniteAutomata.Text.Graphic
import FiniteAutomata.Text.Quoted
import FiniteAutomata.Text.Trim
import FiniteAutomata.Transition.Closure
import FiniteAutomata.Transition.Move
import FiniteAutomata.Transition.Path
import FiniteAutomata.Transition.SimplePath
import FiniteAutomata.Transition.Step
import FiniteAutomata.Transition.Table
