import FiniteAutomata.Diagram.History
import FiniteAutomata.Simulator

/-!
# Editors

An editor joins a diagram with a simulator. Its actions edit the diagram or drive the run; a run is
taken from the diagram when it starts, so later edits do not reach it. An action that fails leaves
the editor as it was.
-/

namespace FiniteAutomata

structure Settings where
  mode : Mode
  deriving DecidableEq, Repr

/-- Editing starts nondeterministic unless told otherwise. -/
instance : Inhabited Settings := ⟨⟨.nfa⟩⟩

structure Editor where
  diagram : Diagram
  simulator : Simulator
  deriving DecidableEq

inductive Action
  | edit (e : Edit)
  | connect (source target : StateId) (text : String)
  | editLabel (source target : StateId) (text : String)
  | run (w : Word)
  | step (w : Word)
  | clear
  deriving DecidableEq

inductive Reply
  | done
  | added (q : StateId)
  | verdict (v : Verdict)
  | stepped (o : StepOutcome)
  deriving DecidableEq, Repr

/-- The edit that an action makes, once what it has in writing is read. -/
def Action.edit? : Action → Option Edit
  | edit x => some x
  | connect source target text => (Label.parse text).toOption.map (.merge source target)
  | editLabel source target text => (Label.parse text).toOption.map (.relabel source target)
  | run _ | step _ | clear => none

theorem Action.edit?_eq_some_addState_iff {a : Action} :
    a.edit? = some .addState ↔ a = edit .addState := by
  cases a <;> simp [edit?]

structure Response where
  editor : Editor
  reply : Except Fault Reply
  changes : List Change

namespace Response

def edited (r : Response) : Edited := ⟨r.editor.diagram, r.changes⟩

def added? (r : Response) : Option StateId :=
  match r.reply with
  | .ok (.added q) => some q
  | _ => none

end Response

namespace Editor

def new (settings : Settings) : Editor := ⟨.new settings.mode, .idle⟩

def settings (e : Editor) : Settings := ⟨e.diagram.mode⟩

def refuse (e : Editor) (f : Fault) : Response := ⟨e, .error f, []⟩

def commit (e : Editor) (reply : Reply) : Except EditError Edited → Response
  | .ok edited => ⟨{ e with diagram := edited.diagram }, .ok reply, edited.changes⟩
  | .error f => e.refuse (.edit f)

def run (e : Editor) (w : Word) : Except SnapshotError (Editor × Verdict) :=
  (e.diagram.snapshot e.diagram.mode).map fun A =>
    let ended := (Run.start A w).complete
    ({ e with simulator := ⟨some ended.1⟩ }, ended.2)

/-- The run that a step continues: the current one, even if it is over, or else a fresh run of `w`
on the diagram as it is now. -/
def runToStep (e : Editor) (w : Word) : Except SnapshotError Run :=
  match e.simulator.run? with
  | some r => .ok r
  | none => (e.diagram.snapshot e.diagram.mode).map fun A => .start A w

def step (e : Editor) (w : Word) : Except SnapshotError (Editor × StepOutcome) :=
  (e.runToStep w).map fun r =>
    let stepped := r.advance
    ({ e with simulator := ⟨some stepped.1⟩ }, stepped.2)

def replyTo (e : Editor) : Edit → Reply
  | .addState => .added e.diagram.nextState
  | _ => .done

def perform (e : Editor) : Action → Response
  | .edit x => e.commit (e.replyTo x) (e.diagram.edit x)
  | .connect source target text => e.commit .done (e.diagram.connect source target text)
  | .editLabel source target text => e.commit .done (e.diagram.editLabel source target text)
  | .run w =>
    match e.run w with
    | .ok (e', v) => ⟨e', .ok (.verdict v), []⟩
    | .error f => e.refuse (.snapshot f)
  | .step w =>
    match e.step w with
    | .ok (e', o) => ⟨e', .ok (.stepped o), []⟩
    | .error f => e.refuse (.snapshot f)
  | .clear => ⟨{ e with simulator := .idle }, .ok .done, []⟩

/-- The editor after the actions, one after another, whether they fail or not. -/
def performAll (e : Editor) (as : List Action) : Editor :=
  as.foldl (fun e a => (e.perform a).editor) e

def responses (e : Editor) : List Action → List Response
  | [] => []
  | a :: as => e.perform a :: (e.perform a).editor.responses as

def added (e : Editor) (as : List Action) : List StateId :=
  (e.responses as).filterMap Response.added?

@[simp] theorem performAll_nil (e : Editor) : e.performAll [] = e := rfl

@[simp] theorem performAll_cons (e : Editor) (a : Action) (as : List Action) :
    e.performAll (a :: as) = (e.perform a).editor.performAll as := rfl

section Equations

variable {e : Editor} {A : Automaton} {r : Run} {f : SnapshotError}

@[simp] theorem simulator_commit (reply : Reply) (edited : Except EditError Edited) :
    (e.commit reply edited).editor.simulator = e.simulator := by
  cases edited <;> rfl

theorem perform_run_of_snapshot (h : e.diagram.snapshot e.diagram.mode = .ok A) (w : Word) :
    e.perform (.run w) = ⟨{ e with simulator := ⟨some (Run.start A w).complete.1⟩ },
      .ok (.verdict (Run.start A w).complete.2), []⟩ := by
  simp only [perform, run, h, Except.map]

theorem perform_run_of_fault (h : e.diagram.snapshot e.diagram.mode = .error f) (w : Word) :
    e.perform (.run w) = e.refuse (.snapshot f) := by
  simp only [perform, run, h, Except.map]

theorem perform_step_of_run (h : e.simulator.run? = some r) (w : Word) :
    e.perform (.step w) =
      ⟨{ e with simulator := ⟨some r.advance.1⟩ }, .ok (.stepped r.advance.2), []⟩ := by
  simp only [perform, step, runToStep, h, Except.map]

theorem perform_step_of_snapshot (hidle : e.simulator.run? = none)
    (h : e.diagram.snapshot e.diagram.mode = .ok A) (w : Word) :
    e.perform (.step w) = ⟨{ e with simulator := ⟨some (Run.start A w).advance.1⟩ },
      .ok (.stepped (Run.start A w).advance.2), []⟩ := by
  simp only [perform, step, runToStep, hidle, h, Except.map]

theorem perform_step_of_fault (hidle : e.simulator.run? = none)
    (h : e.diagram.snapshot e.diagram.mode = .error f) (w : Word) :
    e.perform (.step w) = e.refuse (.snapshot f) := by
  simp only [perform, step, runToStep, hidle, h, Except.map]

/-- An action that makes no edit leaves the diagram and announces nothing. -/
theorem edited_perform (e : Editor) (a : Action) :
    (e.perform a).edited = a.edit?.elim ⟨e.diagram, []⟩ e.diagram.apply := by
  have hcommit (reply : Reply) (x : Edit) :
      (e.commit reply (e.diagram.edit x)).edited = e.diagram.apply x := by
    rw [Diagram.apply]
    cases e.diagram.edit x <;> rfl
  cases a with
  | edit x => exact hcommit _ x
  | connect source target text =>
      rw [perform, Diagram.connect, Action.edit?]
      cases Label.parse text with
      | ok label => exact hcommit .done (.merge source target label)
      | error f => rfl
  | editLabel source target text =>
      rw [perform, Diagram.editLabel, Action.edit?]
      cases Label.parse text with
      | ok label => exact hcommit .done (.relabel source target label)
      | error f => rfl
  | run w =>
      cases hs : e.diagram.snapshot e.diagram.mode with
      | ok A =>
          rw [perform_run_of_snapshot hs]
          rfl
      | error f =>
          rw [perform_run_of_fault hs]
          rfl
  | step w =>
      cases hr : e.simulator.run? with
      | some r =>
          rw [perform_step_of_run hr]
          rfl
      | none =>
          cases hs : e.diagram.snapshot e.diagram.mode with
          | ok A =>
              rw [perform_step_of_snapshot hr hs]
              rfl
          | error f =>
              rw [perform_step_of_fault hr hs]
              rfl
  | clear => rfl

theorem diagram_perform (e : Editor) (a : Action) : (e.perform a).editor.diagram =
    a.edit?.elim e.diagram fun x => (e.diagram.apply x).diagram := by
  have h := congrArg Edited.diagram (e.edited_perform a)
  cases hx : a.edit? with
  | none =>
      rw [hx] at h
      exact h
  | some x =>
      rw [hx] at h
      exact h

theorem diagram_performAll (e : Editor) (as : List Action) : (e.performAll as).diagram =
    (e.diagram.applyAll (as.filterMap Action.edit?)).diagram := by
  induction as generalizing e with
  | nil => rfl
  | cons a as ih =>
      rw [performAll_cons, ih, diagram_perform]
      cases hx : a.edit? with
      | none =>
          rw [List.filterMap_cons_none hx]
          rfl
      | some x =>
          rw [List.filterMap_cons_some hx]
          rfl

theorem changes_responses (e : Editor) (as : List Action) :
    (e.responses as).flatMap Response.changes =
      (e.diagram.applyAll (as.filterMap Action.edit?)).changes := by
  induction as generalizing e with
  | nil => rfl
  | cons a as ih =>
      have h := congrArg Edited.changes (e.edited_perform a)
      change (e.perform a).changes = _ at h
      rw [responses, List.flatMap_cons, ih, diagram_perform, h]
      cases hx : a.edit? with
      | none =>
          rw [List.filterMap_cons_none hx]
          rfl
      | some x =>
          rw [List.filterMap_cons_some hx]
          rfl

end Equations

end Editor

end FiniteAutomata
