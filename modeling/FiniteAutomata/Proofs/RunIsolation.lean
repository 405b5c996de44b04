import FiniteAutomata.Editor
import FiniteAutomata.Proofs.StepwiseRuns

/-!
# Runs and edits

A run that an editor has started goes on as if nothing were edited. As long as it is neither
cleared nor replaced by another run, the simulator of the editor is a fresh one, started on the
snapshot of that moment, after as many steps as were taken since. The invariant carried through the
actions is the stage that the run stands at; of all actions only a step moves it.
-/

namespace FiniteAutomata

namespace Run

variable {A : Automaton} {w : Word} {k : Nat}

theorem advance_after_of_lt_readable (hk : k < A.readable w) :
    ∃ c fired, (after A w k).advance.2 = .advanced c fired := by
  have hunder : Underway A w k (after A w k) := underway_after (Nat.le_of_lt hk)
  obtain ⟨⟨fired, hw, hadvance⟩, -⟩ := hunder.advance hk
  exact ⟨w[k], fired, hadvance⟩

theorem completion_after (hk : k ≤ A.readable w) : (after A w k).completion =
    (List.range' k (A.readable w + 1 - k)).map fun i => (after A w i).advance := by
  -- By induction on the number of letters that can still be read.
  induction hd : A.readable w - k generalizing k with
  | zero =>
      have hlast : k = A.readable w := by omega
      subst hlast
      have hfinished := congrArg Prod.snd (advance_after_readable A w)
      have hone : A.readable w + 1 - A.readable w = 1 := by omega
      rw [completion_of_finished hfinished, hone]
      rfl
  | succ d ih =>
      obtain ⟨c, fired, hadvance⟩ := advance_after_of_lt_readable (A := A) (w := w) (k := k)
        (by omega)
      have hlen : A.readable w + 1 - k = (A.readable w + 1 - (k + 1)) + 1 := by omega
      rw [completion_of_advanced hadvance, ← after_succ, ih (by omega) (by omega), hlen,
        List.range'_succ, List.map_cons]

theorem completion_start (A : Automaton) (w : Word) : (start A w).completion =
    (List.range (A.readable w + 1)).map fun i => (after A w i).advance := by
  rw [List.range_eq_range']
  exact completion_after (Nat.zero_le _)

theorem length_completion_start (A : Automaton) (w : Word) :
    (start A w).completion.length = A.readable w + 1 := by
  rw [completion_start, List.length_map, List.length_range]

theorem verdict_after_of_readable_lt (hk : A.readable w < k) :
    (after A w k).verdict? = some (.ofBool (A.accepts w)) := by
  rw [after_of_readable_lt hk, after_readable_succ]

end Run

namespace Simulator

def stepped (A : Automaton) (w : Word) (k : Nat) : Simulator :=
  (running A w).obeyAll (List.replicate k .step)

theorem stepped_eq (A : Automaton) (w : Word) (k : Nat) :
    stepped A w k = ⟨some (.after A w k)⟩ := by
  have hsteps : Command.complete ∉ List.replicate k Command.step := by simp
  have hrun := run_obeyAll_of_not_mem (A := A) (w := w) hsteps
  rw [List.length_replicate] at hrun
  exact eq_mk_of_run_eq hrun

theorem step_stepped (A : Automaton) (w : Word) (k : Nat) : (stepped A w k).step =
    (⟨some (Run.after A w k).advance.1⟩, some (Run.after A w k).advance.2) := by
  rw [stepped_eq]
  rfl

end Simulator

def Action.isStep : Action → Bool
  | step _ => true
  | _ => false

namespace Editor

open Simulator (stepped step_stepped stepped_eq)

variable {e : Editor} {a : Action} {A : Automaton} {w : Word} {k : Nat} {r : Run}

/-- Whether an action puts an end to the current run: it clears it, or it is a run that succeeds. -/
def endsRun (e : Editor) : Action → Bool
  | .clear => true
  | .run w => (e.perform (.run w)).reply.isOk
  | _ => false

def keepsRun (e : Editor) : List Action → Bool
  | [] => true
  | a :: as => !e.endsRun a && (e.perform a).editor.keepsRun as

/-- The action starts a run of `w` on `A`, the snapshot of this moment, and takes its first `k`
steps: a run all of them, a step one, and only if there is no run. -/
inductive Starts (e : Editor) (A : Automaton) (w : Word) : Action → Nat → Prop
  | run : e.diagram.snapshot e.diagram.mode = .ok A →
      Starts e A w (.run w) (Run.start A w).completion.length
  | step : e.simulator.run? = none → e.diagram.snapshot e.diagram.mode = .ok A →
      Starts e A w (.step w) 1

theorem Starts.simulator_eq (h : e.Starts A w a k) :
    (e.perform a).editor.simulator = ⟨some (.after A w k)⟩ := by
  cases h with
  | run hsnapshot =>
      rw [perform_run_of_snapshot hsnapshot, Run.length_completion_start]
      exact congrArg (fun c => Simulator.mk (some c.1)) (Run.complete_after A w 0)
  | step hidle hsnapshot =>
      rw [perform_step_of_snapshot hidle hsnapshot]
      rfl

/-- The step that starts a run reports the first step of it. -/
theorem Starts.reply_eq (h : e.Starts A w (.step w) k) :
    (e.perform (.step w)).reply = .ok (.stepped (Run.after A w 0).advance.2) := by
  cases h with
  | step hidle hsnapshot =>
      rw [perform_step_of_snapshot hidle hsnapshot]
      rfl

/-- An action that does not end the run leaves it, or takes one step if it is a step. -/
theorem run_perform (hr : e.simulator.run? = some r) (ha : e.endsRun a = false) :
    (e.perform a).editor.simulator.run? = some (if a.isStep then r.advance.1 else r) := by
  cases a with
  | edit x => simpa [perform, Action.isStep] using hr
  | connect source target text => simpa [perform, Action.isStep] using hr
  | editLabel source target text => simpa [perform, Action.isStep] using hr
  | run w =>
      cases hs : e.diagram.snapshot e.diagram.mode with
      | ok A => simp [endsRun, perform_run_of_snapshot hs, Except.isOk, Except.toBool] at ha
      | error f =>
          rw [perform_run_of_fault hs]
          exact hr
  | step w =>
      rw [perform_step_of_run hr]
      rfl
  | clear => simp [endsRun] at ha

theorem run_performAll {as : List Action} (hr : e.simulator.run? = some (.after A w k))
    (has : e.keepsRun as) :
    (e.performAll as).simulator.run? = some (.after A w (k + as.countP Action.isStep)) := by
  induction as generalizing e k with
  | nil => exact hr
  | cons a as ih =>
      rw [keepsRun, Bool.and_eq_true, Bool.not_eq_true'] at has
      have hstep := run_perform hr has.1
      rw [performAll_cons, List.countP_cons]
      by_cases ha : a.isStep
      · rw [if_pos ha, ← Run.after_succ] at hstep
        rw [ih hstep has.2, if_pos ha, Nat.add_right_comm]
        rfl
      · rw [if_neg ha] at hstep
        rw [ih hstep has.2, if_neg ha, Nat.add_zero]

theorem perform_step_of_verdict {v : Verdict} (hr : e.simulator.run? = some r)
    (hv : r.verdict? = some v) (u : Word) :
    e.perform (.step u) = ⟨e, .ok (.stepped (.finished v)), []⟩ := by
  rw [perform_step_of_run hr, Run.advance_of_verdict hv, ← Simulator.eq_mk_of_run_eq hr]

theorem editor_perform_run_of_error {f : Fault} (h : (e.perform (.run w)).reply = .error f) :
    (e.perform (.run w)).editor = e := by
  cases hs : e.diagram.snapshot e.diagram.mode with
  | ok A => simp [perform_run_of_snapshot hs] at h
  | error g =>
      rw [perform_run_of_fault hs]
      rfl

theorem editor_perform_step_of_error {f : Fault} (h : (e.perform (.step w)).reply = .error f) :
    (e.perform (.step w)).editor = e := by
  cases hr : e.simulator.run? with
  | some r => simp [perform_step_of_run hr] at h
  | none =>
      cases hs : e.diagram.snapshot e.diagram.mode with
      | ok A => simp [perform_step_of_snapshot hr hs] at h
      | error g =>
          rw [perform_step_of_fault hr hs]
          rfl

theorem perform_run_of_ok {reply : Reply} (h : (e.perform (.run w)).reply = .ok reply) :
    ∃ A v, e.diagram.snapshot e.diagram.mode = .ok A ∧ reply = .verdict v ∧
      (v = .accepted ↔ A.accepts w) ∧ (e.perform (.run w)).editor.diagram = e.diagram ∧
      ∃ r, (e.perform (.run w)).editor.simulator.run? = some r ∧ r.verdict? = some v := by
  cases hs : e.diagram.snapshot e.diagram.mode with
  | error f => simp [perform_run_of_fault hs, refuse] at h
  | ok A =>
      have hcomplete : (Run.start A w).complete =
          (.after A w (A.readable w + 1), .ofBool (A.accepts w)) := Run.complete_after A w 0
      rw [perform_run_of_snapshot hs, hcomplete] at h ⊢
      refine ⟨A, .ofBool (A.accepts w), rfl, (Except.ok.inj h).symm, ?_, rfl, _, rfl, ?_⟩
      · cases A.accepts w <;> simp [Verdict.ofBool]
      · exact Run.verdict_after_of_readable_lt (Nat.lt_succ_self _)

/-- Whatever is done between the steps of a run, its simulator is that of a fresh start on the same
word and automaton after as many steps, those included that a run takes by itself; so are the
outcomes, from that of the step that starts it. A run that is over stays so. What fails changes
nothing. -/
theorem edits_do_not_reach_runs (e : Editor) :
    (∀ A w, e.Starts A w (.step w) 1 → ∃ o, (stepped A w 0).step.2 = some o ∧
        (e.perform (.step w)).reply = .ok (.stepped o)) ∧
      (∀ A w a k, e.Starts A w a k → ∀ as, (e.perform a).editor.keepsRun as →
        ((e.perform a).editor.performAll as).simulator = stepped A w (k + as.countP Action.isStep) ∧
          ∀ u, ∃ o, (stepped A w (k + as.countP Action.isStep)).step.2 = some o ∧
            (((e.perform a).editor.performAll as).perform (.step u)).reply = .ok (.stepped o)) ∧
      (∀ A w k x, (Run.start A w).completion[k]? = some x →
        (stepped A w k).step = (⟨some x.1⟩, some x.2)) ∧
      (∀ r v, e.simulator.run? = some r → r.verdict? = some v →
        ∀ u, e.perform (.step u) = ⟨e, .ok (.stepped (.finished v)), []⟩) ∧
      (∀ w a f, a = .run w ∨ a = .step w → (e.perform a).reply = .error f →
        (e.perform a).editor = e) ∧
      ∀ w reply, (e.perform (.run w)).reply = .ok reply →
        ∃ A v, e.diagram.snapshot e.diagram.mode = .ok A ∧ reply = .verdict v ∧
          (v = .accepted ↔ A.accepts w) ∧ (e.perform (.run w)).editor.diagram = e.diagram ∧
          ∃ r, (e.perform (.run w)).editor.simulator.run? = some r ∧ r.verdict? = some v := by
  refine ⟨?_, ?_, ?_, fun r v hr hv u => perform_step_of_verdict hr hv u, ?_,
    fun w reply h => perform_run_of_ok h⟩
  · intro A w hstart
    exact ⟨_, congrArg Prod.snd (step_stepped A w 0), hstart.reply_eq⟩
  · intro A w a k hstart as has
    have hrun := run_performAll (congrArg Simulator.run? hstart.simulator_eq) has
    refine ⟨?_, fun u => ⟨_, congrArg Prod.snd (step_stepped A w _), ?_⟩⟩
    · rw [stepped_eq]
      exact Simulator.eq_mk_of_run_eq hrun
    · rw [perform_step_of_run hrun]
  · intro A w k x hx
    rw [Run.completion_start, List.getElem?_map, Option.map_eq_some_iff] at hx
    obtain ⟨i, hi, rfl⟩ := hx
    obtain ⟨hk, rfl⟩ := List.getElem?_eq_some_iff.1 hi
    rw [List.getElem_range]
    exact step_stepped A w k
  · rintro w a f (rfl | rfl) h
    · exact editor_perform_run_of_error h
    · exact editor_perform_step_of_error h

/-- A run of `ab` is stepped while its last edge is removed, the mode changes, the initial state is
unmarked, another run fails and the final state goes. It accepts and stays so. -/
theorem run_accepts_despite_edits :
    let e := (new ⟨.dfa⟩).performAll [.edit .addState, .edit .addState,
      .edit (.merge (.ofNat 0) (.ofNat 1) (.ofList [.char 'a'])),
      .edit (.merge (.ofNat 1) (.ofNat 1) (.ofList [.char 'b'])), .edit (.toggleInitial (.ofNat 0)),
      .edit (.toggleFinal (.ofNat 1))]
    let A : Automaton := ⟨.ofList [.ofNat 0, .ofNat 1], .ofNat 0, .singleton (.ofNat 1),
      .ofEdges [⟨.ofNat 0, .ofNat 1, .ofList [.char 'a']⟩,
        ⟨.ofNat 1, .ofNat 1, .ofList [.char 'b']⟩], .dfa⟩
    let as : List Action := [.edit (.disconnect (.ofNat 1) (.ofNat 1)), .edit (.setMode .nfa),
      .edit (.toggleInitial (.ofNat 0)), .run ['b'], .step ['b'], .edit (.removeState (.ofNat 1)),
      .step []]
    let later := (e.perform (.step ['a', 'b'])).editor.performAll as
    e.Starts A ['a', 'b'] (.step ['a', 'b']) 1 ∧
      (e.perform (.step ['a', 'b'])).reply =
        .ok (.stepped (.advanced 'a' [(.ofNat 0, .ofNat 1)])) ∧
      (e.perform (.step ['a', 'b'])).editor.keepsRun as = true ∧
      later.simulator = stepped A ['a', 'b'] 3 ∧
      (later.perform (.step ['b'])).reply = .ok (.stepped (.finished .accepted)) ∧
      (later.perform (.run [])).editor = later := by
  intro e A as later
  have hstart : e.Starts A ['a', 'b'] (.step ['a', 'b']) 1 := .step rfl (by rfl)
  have hkeeps : (e.perform (.step ['a', 'b'])).editor.keepsRun as = true := by decide
  obtain ⟨hfirst, hafter, -⟩ := edits_do_not_reach_runs e
  obtain ⟨o', ho', hreply'⟩ := hfirst A _ hstart
  have hadvance : (stepped A ['a', 'b'] 0).step.2 =
      some (.advanced 'a' [(.ofNat 0, .ofNat 1)]) := by decide
  obtain ⟨hsimulator, hnext⟩ := hafter A _ _ 1 hstart as hkeeps
  obtain ⟨o, ho, hreply⟩ := hnext ['b']
  have hover : (stepped A ['a', 'b'] 3).step.2 = some (.finished .accepted) := by decide
  refine ⟨hstart, ?_, hkeeps, hsimulator, ?_, ?_⟩
  · rw [hreply', Option.some.inj (ho'.symm.trans hadvance)]
  · rw [hreply, Option.some.inj (ho.symm.trans hover)]
  · exact (edits_do_not_reach_runs later).2.2.2.2.1 [] _ (.snapshot .missingInitial) (.inl rfl)
      (by rfl)

end Editor

end FiniteAutomata
