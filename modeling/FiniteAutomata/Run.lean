import FiniteAutomata.Automaton.Acceptance

/-!
# Runs

A run reads a word one character at a time. It stands between the characters read, latest first,
and those still unread, and holds one state or a set of states as its automaton's mode asks. The
verdict is given when the word is read or when a deterministic automaton has no step to take; a run
with a verdict stays as it is.
-/

namespace FiniteAutomata

inductive Verdict
  | accepted
  | rejected
  deriving DecidableEq, Repr

namespace Verdict

def ofBool (accept : Bool) : Verdict := if accept then accepted else rejected

def isAccept : Verdict → Bool
  | accepted => true
  | rejected => false

end Verdict

inductive Configuration
  | deterministic (q : StateId)
  | nondeterministic (x : StateSet)
  deriving DecidableEq

def Configuration.states : Configuration → StateSet
  | deterministic q => .singleton q
  | nondeterministic x => x

def Configuration.mode : Configuration → Mode
  | deterministic _ => .dfa
  | nondeterministic _ => .nfa

inductive StepOutcome
  | advanced (c : Char) (fired : List (StateId × StateId))
  | finished (v : Verdict)
  deriving DecidableEq, Repr

structure Run where
  automaton : Automaton
  /-- The characters read, latest first. -/
  consumed : List Char
  unread : List Char
  configuration : Configuration
  verdict? : Option Verdict
  deriving DecidableEq

namespace Run

def start (A : Automaton) (w : Word) : Run where
  automaton := A
  consumed := []
  unread := w
  configuration :=
    match A.mode with
    | .nfa => .nondeterministic A.initialConfiguration
    | .dfa => .deterministic A.initial
  verdict? := none

def word (r : Run) : Word := r.consumed.reverse ++ r.unread

def position (r : Run) : Nat := r.consumed.length

def isFinished (r : Run) : Bool := r.verdict?.isSome

def judge (r : Run) : Verdict :=
  match r.configuration with
  | .deterministic q => .ofBool (r.automaton.isFinal q)
  | .nondeterministic x => .ofBool (x.intersects r.automaton.finals)

def finish (r : Run) (v : Verdict) : Run × StepOutcome :=
  ({ r with verdict? := some v }, .finished v)

def read (r : Run) (c : Char) (rest : List Char) : Run × StepOutcome :=
  match r.configuration with
  | .deterministic q =>
    match r.automaton.table.deterministicStep? q c with
    | none => r.finish .rejected
    | some q' =>
      ({ r with consumed := c :: r.consumed, unread := rest, configuration := .deterministic q' },
        .advanced c [(q, q')])
  | .nondeterministic x =>
    ({ r with
        consumed := c :: r.consumed
        unread := rest
        configuration := .nondeterministic (r.automaton.stepNfa x c) },
      .advanced c (r.automaton.table.fired x c))

theorem read_of_deterministic {r : Run} {q q' : StateId} (c : Char) (rest : List Char)
    (hr : r.configuration = .deterministic q)
    (hq : r.automaton.table.deterministicStep? q c = some q') :
    r.read c rest = ({ r with
      consumed := c :: r.consumed, unread := rest, configuration := .deterministic q' },
      .advanced c [(q, q')]) := by
  simp only [read, hr, hq]

theorem read_of_stuck {r : Run} {q : StateId} {c : Char} (rest : List Char)
    (hr : r.configuration = .deterministic q)
    (hq : r.automaton.table.deterministicStep? q c = none) :
    r.read c rest = r.finish .rejected := by
  simp only [read, hr, hq]

theorem read_of_nondeterministic {r : Run} {x : StateSet} (c : Char) (rest : List Char)
    (hr : r.configuration = .nondeterministic x) :
    r.read c rest = ({ r with
      consumed := c :: r.consumed, unread := rest,
      configuration := .nondeterministic (r.automaton.stepNfa x c) },
      .advanced c (r.automaton.table.fired x c)) := by
  simp only [read, hr]

def advance (r : Run) : Run × StepOutcome :=
  match r.verdict?, r.unread with
  | some v, _ => (r, .finished v)
  | none, [] => r.finish r.judge
  | none, c :: rest => r.read c rest

theorem advance_of_verdict {r : Run} {v : Verdict} (h : r.verdict? = some v) :
    r.advance = (r, .finished v) := by
  unfold advance
  rw [h]

theorem advance_of_unread_nil {r : Run} (hv : r.verdict? = none) (hu : r.unread = []) :
    r.advance = r.finish r.judge := by
  unfold advance
  rw [hv, hu]

theorem advance_of_unread_cons {r : Run} {c : Char} {rest : List Char} (hv : r.verdict? = none)
    (hu : r.unread = c :: rest) : r.advance = r.read c rest := by
  unfold advance
  rw [hv, hu]

theorem unread_advance {r : Run} {c : Char} {fired : List (StateId × StateId)}
    (h : r.advance.2 = .advanced c fired) : r.unread = c :: r.advance.1.unread := by
  unfold advance at h ⊢
  split at h
  · cases h
  · cases h
  · next hu =>
    unfold read at h ⊢
    split at h
    · split at h <;> simp_all [finish]
    · simp_all

def complete (r : Run) : Run × Verdict :=
  match _h : r.advance.2 with
  | .finished v => (r.advance.1, v)
  | .advanced _ _ => complete r.advance.1
termination_by r.unread.length
decreasing_by
  rw [unread_advance _h]
  exact Nat.lt_succ_self _

theorem complete_of_finished {r : Run} {v : Verdict} (h : r.advance.2 = .finished v) :
    r.complete = (r.advance.1, v) := by
  rw [complete]
  split <;> simp_all

theorem complete_of_advanced {r : Run} {c : Char} {fired : List (StateId × StateId)}
    (h : r.advance.2 = .advanced c fired) : r.complete = r.advance.1.complete := by
  rw [complete]
  split <;> simp_all

/-- The steps that `complete` takes: the run that each leaves and its outcome. -/
def completion (r : Run) : List (Run × StepOutcome) :=
  match _h : r.advance.2 with
  | .finished _ => [r.advance]
  | .advanced _ _ => r.advance :: completion r.advance.1
termination_by r.unread.length
decreasing_by
  rw [unread_advance _h]
  exact Nat.lt_succ_self _

theorem completion_of_finished {r : Run} {v : Verdict} (h : r.advance.2 = .finished v) :
    r.completion = [r.advance] := by
  rw [completion]
  split <;> simp_all

theorem completion_of_advanced {r : Run} {c : Char} {fired : List (StateId × StateId)}
    (h : r.advance.2 = .advanced c fired) :
    r.completion = r.advance :: r.advance.1.completion := by
  rw [completion]
  split <;> simp_all

end Run

end FiniteAutomata
