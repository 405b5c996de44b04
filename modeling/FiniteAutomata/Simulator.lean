import FiniteAutomata.Diagram.Edit
import FiniteAutomata.Run

/-!
# Simulators

A simulator holds a run or is idle. A run keeps the automaton that it was started on.
-/

namespace FiniteAutomata

structure Simulator where
  run? : Option Run
  deriving DecidableEq

namespace Simulator

def idle : Simulator := ⟨none⟩

/-- A fresh run of `w`, whatever was running before. -/
def running (A : Automaton) (w : Word) : Simulator := ⟨some (.start A w)⟩

def start (d : Diagram) (w : Word) : Except SnapshotError Simulator :=
  (d.snapshot d.mode).map fun A => running A w

def step (s : Simulator) : Simulator × Option StepOutcome :=
  match s.run? with
  | none => (s, none)
  | some r => (⟨some r.advance.1⟩, some r.advance.2)

def complete (s : Simulator) : Simulator × Option Verdict :=
  match s.run? with
  | none => (s, none)
  | some r => (⟨some r.complete.1⟩, some r.complete.2)

def isRunning (s : Simulator) : Bool := s.run?.isSome

end Simulator

inductive Command
  | step
  | complete
  deriving DecidableEq, Repr

namespace Simulator

def obey (s : Simulator) : Command → Simulator
  | .step => s.step.1
  | .complete => s.complete.1

def obeyAll (s : Simulator) (cs : List Command) : Simulator := cs.foldl obey s

theorem obeyAll_concat (s : Simulator) (cs : List Command) (c : Command) :
    s.obeyAll (cs ++ [c]) = (s.obeyAll cs).obey c := by
  rw [obeyAll, List.foldl_append]
  rfl

end Simulator

end FiniteAutomata
