import FiniteAutomata.Proofs.DiagramInvariant
import FiniteAutomata.Proofs.EpsilonClosure
import FiniteAutomata.Proofs.RunIsolation
import Mathlib.Data.Prod.Lex

/-!
# The moves that a step reports

A step that reads a letter reports the moves that it fires, and goes on to the states that it holds
next without looking at its report. The two agree: what is reported are the moves on the letter out
of the states held before, each of them once and in order, and the states held next are those that
these moves lead to. A run keeps the automaton that it was started on, so the moves are those of the
edges that the diagram had then.
-/

namespace FiniteAutomata

namespace TransitionTable

variable {t : TransitionTable} {x : StateSet} {c : Char}

/-- The moves fired on `c` out of the states `x`, each as its source and target, and the states `y`
that they lead to. -/
structure Fires (t : TransitionTable) (c : Char) (x : StateSet) (fired : List (StateId × StateId))
    (y : StateSet) : Prop where
  ascending : fired.Pairwise (Prod.Lex (· < ·) (· < ·))
  nodup : fired.Nodup
  mem_iff : ∀ p q, (p, q) ∈ fired ↔ p ∈ x ∧ ⟨p, .char c, q⟩ ∈ t
  step_eq : t.step x c = .ofList (fired.map Prod.snd)
  closure_eq : y = t.epsilonClosure (.ofList (fired.map Prod.snd))
  nil_iff : fired = [] ↔ y = ∅

theorem ascending_fired (t : TransitionTable) (x : StateSet) (c : Char) :
    (t.fired x c).Pairwise (Prod.Lex (· < ·) (· < ·)) := by
  rw [fired, List.pairwise_flatMap]
  refine ⟨fun p _ => ?_, x.ascending.imp fun hlt m hm n hn => ?_⟩
  · rw [List.pairwise_map]
    exact (t.targets p (.char c)).ascending.imp fun h => .right p h
  · obtain ⟨q, -, rfl⟩ := List.mem_map.1 hm
    obtain ⟨r, -, rfl⟩ := List.mem_map.1 hn
    exact .left q r hlt

theorem step_eq_ofList_fired (t : TransitionTable) (x : StateSet) (c : Char) :
    t.step x c = .ofList ((t.fired x c).map Prod.snd) := by
  refine OrderedSet.ext_mem fun q => ?_
  simp

theorem fired_eq_nil_iff : t.fired x c = [] ↔ t.step x c = ∅ := by
  constructor
  · intro h
    rw [step_eq_ofList_fired, h]
    rfl
  · intro h
    rw [List.eq_nil_iff_forall_not_mem]
    rintro ⟨p, q⟩ hm
    have hq : q ∈ t.step x c := mem_step.2 ⟨p, mem_fired.1 hm⟩
    exact OrderedSet.not_mem_empty q (h ▸ hq)

theorem epsilonClosure_eq_empty_iff : t.epsilonClosure x = ∅ ↔ x = ∅ := by
  constructor
  · intro h
    by_contra hne
    obtain ⟨q, hq⟩ := OrderedSet.exists_mem_of_ne_empty hne
    exact OrderedSet.not_mem_empty q (h ▸ mem_epsilonClosure_of_mem hq)
  · rintro rfl
    have hclosed : t.EpsilonClosed ∅ := fun _ _ _ hs => absurd hs (OrderedSet.not_mem_empty _)
    exact hclosed.epsilonClosure_eq

theorem fires_fired (t : TransitionTable) (x : StateSet) (c : Char) :
    t.Fires c x (t.fired x c) (t.epsilonClosure (t.step x c)) where
  ascending := t.ascending_fired x c
  nodup := (t.ascending_fired x c).nodup
  mem_iff _ _ := mem_fired
  step_eq := t.step_eq_ofList_fired x c
  closure_eq := by rw [← step_eq_ofList_fired]
  nil_iff := by rw [epsilonClosure_eq_empty_iff, fired_eq_nil_iff]

def OnlyMove (t : TransitionTable) (p : StateId) (c : Char) (q : StateId) : Prop :=
  ∀ s, ⟨p, .char c, s⟩ ∈ t ↔ s = q

end TransitionTable

/-- What a step on `c` reports and makes of a configuration: a deterministic one takes the only move
there is, a nondeterministic one all. -/
inductive Configuration.Steps (t : TransitionTable) (c : Char) :
    Configuration → List (StateId × StateId) → Configuration → Prop
  | deterministic {p q : StateId} : t.OnlyMove p c q →
      Steps t c (.deterministic p) [(p, q)] (.deterministic q)
  | nondeterministic {x y : StateSet} {fired : List (StateId × StateId)} :
      t.Fires c x fired y → Steps t c (.nondeterministic x) fired (.nondeterministic y)

theorem Configuration.Steps.mem_table {t : TransitionTable} {c : Char} {C C' : Configuration}
    {fired : List (StateId × StateId)} (h : Steps t c C fired C') {p q : StateId}
    (hpq : (p, q) ∈ fired) : ⟨p, .char c, q⟩ ∈ t := by
  cases h with
  | deterministic honly =>
      obtain ⟨rfl, rfl⟩ := Prod.mk.inj (List.mem_singleton.1 hpq)
      exact (honly q).2 rfl
  | nondeterministic hfires => exact ((hfires.mem_iff p q).1 hpq).2

theorem Editor.Starts.snapshot_eq {e : Editor} {A : Automaton} {w : Word} {a : Action} {k : Nat}
    (h : e.Starts A w a k) : e.diagram.snapshot e.diagram.mode = .ok A := by
  cases h with
  | run hsnapshot => exact hsnapshot
  | step _ hsnapshot => exact hsnapshot

namespace Run

variable {A : Automaton} {w : Word} {r : Run} {c : Char} {rest : List Char}
  {fired : List (StateId × StateId)}

/-- All that a step can do where a letter is unread. -/
theorem advance_cases (hv : r.verdict? = none) (hu : r.unread = c :: rest) :
    (∃ fired, r.advance.2 = .advanced c fired ∧
      Configuration.Steps r.automaton.table c r.configuration fired r.advance.1.configuration) ∨
    ∃ p, r.configuration = .deterministic p ∧ (¬ ∃ q, r.automaton.table.OnlyMove p c q) ∧
      r.advance = r.finish .rejected := by
  rw [advance_of_unread_cons hv hu]
  cases hr : r.configuration with
  | nondeterministic x =>
      rw [read_of_nondeterministic c rest hr]
      exact .inl ⟨_, rfl, .nondeterministic (r.automaton.table.fires_fired x c)⟩
  | deterministic p =>
      cases hstep : r.automaton.table.deterministicStep? p c with
      | some q =>
          have honly : r.automaton.table.OnlyMove p c q :=
            TransitionTable.deterministicStep?_eq_some_iff.1 hstep
          rw [read_of_deterministic c rest hr hstep]
          exact .inl ⟨_, rfl, .deterministic honly⟩
      | none =>
          refine .inr ⟨p, rfl, ?_, read_of_stuck rest hr hstep⟩
          rintro ⟨q, hq⟩
          rw [TransitionTable.deterministicStep?_eq_some_iff.2 hq] at hstep
          cases hstep

theorem steps_of_advanced (h : r.advance.2 = .advanced c fired) :
    Configuration.Steps r.automaton.table c r.configuration fired r.advance.1.configuration := by
  have hv : r.verdict? = none := by
    cases hv : r.verdict? with
    | none => rfl
    | some v =>
        rw [advance_of_verdict hv] at h
        cases h
  rcases advance_cases hv (unread_advance h) with ⟨fired', hadvanced, hsteps⟩ | ⟨-, -, -, hfinish⟩
  · obtain ⟨-, rfl⟩ := StepOutcome.advanced.inj (h.symm.trans hadvanced)
    exact hsteps
  · rw [hfinish] at h
    cases h

theorem exists_advanced_iff (hv : r.verdict? = none) (hu : r.unread = c :: rest) :
    (∃ fired, r.advance.2 = .advanced c fired) ↔
      ∀ p, r.configuration = .deterministic p → ∃ q, r.automaton.table.OnlyMove p c q := by
  constructor
  · rintro ⟨fired, h⟩ p hp
    have hsteps := steps_of_advanced h
    generalize r.advance.1.configuration = C' at hsteps
    rw [hp] at hsteps
    cases hsteps with
    | deterministic honly => exact ⟨_, honly⟩
  · intro honly
    rcases advance_cases hv hu with ⟨fired, h, -⟩ | ⟨p, hp, hnot, -⟩
    · exact ⟨fired, h⟩
    · exact absurd (honly p hp) hnot

theorem automaton_advance (r : Run) : r.advance.1.automaton = r.automaton := by
  unfold advance
  split
  · rfl
  · rfl
  · unfold read
    split
    · split <;> rfl
    · rfl

theorem automaton_after (A : Automaton) (w : Word) (k : Nat) : (after A w k).automaton = A := by
  induction k with
  | zero => rfl
  | succ k ih => rw [after_succ, automaton_advance, ih]

/-- The moves fired in a run are those of edges that the diagram had when the run started. -/
theorem mem_edges_of_fired {d : Diagram} {mode : Mode} (hd : d.Reachable)
    (hA : d.snapshot mode = .ok A) {k : Nat} (h : (after A w k).advance.2 = .advanced c fired)
    {p q : StateId} (hpq : (p, q) ∈ fired) :
    ∃ label, ⟨p, q, label⟩ ∈ d.edges ∧ .char c ∈ label := by
  have hmove := (steps_of_advanced h).mem_table hpq
  obtain ⟨initial, -, -, rfl⟩ := Diagram.snapshot_eq_ok_iff.1 hA
  rw [automaton_after, hd.wellFormed.table_eq, TransitionTable.mem_ofEdges] at hmove
  obtain ⟨e, he, rfl, hc, rfl⟩ := hmove
  exact ⟨e.label, he, hc⟩

/-- A step that reads a letter reports the moves that it takes, and a nondeterministic one takes all
there are. While a letter is unread a nondeterministic run reads it; a deterministic run reads it
exactly if there is one move to take. The moves are those of edges that the diagram had when the run
started, whatever is done to it between the steps. -/
theorem reported_moves_are_taken :
    (∀ (r : Run) c fired, r.advance.2 = .advanced c fired →
      r.unread = c :: r.advance.1.unread ∧
        Configuration.Steps r.automaton.table c r.configuration fired r.advance.1.configuration) ∧
      (∀ (r : Run) c rest, r.verdict? = none → r.unread = c :: rest →
        ((∃ fired, r.advance.2 = .advanced c fired) ↔
          ∀ p, r.configuration = .deterministic p → ∃ q, r.automaton.table.OnlyMove p c q)) ∧
      (∀ A w k, (after A w k).automaton = A ∧ (after A w k).configuration.mode = A.mode) ∧
      (∀ d : Diagram, d.Reachable → ∀ mode A, d.snapshot mode = .ok A → ∀ w k c fired,
        (after A w k).advance.2 = .advanced c fired →
          ∀ p q, (p, q) ∈ fired → ∃ label, ⟨p, q, label⟩ ∈ d.edges ∧ .char c ∈ label) ∧
      ∀ e : Editor, e.diagram.Reachable → ∀ A w a k, e.Starts A w a k →
        ∀ as, (e.perform a).editor.keepsRun as → ∀ u c fired,
          (((e.perform a).editor.performAll as).perform (.step u)).reply =
              .ok (.stepped (.advanced c fired)) →
            ∀ p q, (p, q) ∈ fired →
              ∃ label, ⟨p, q, label⟩ ∈ e.diagram.edges ∧ .char c ∈ label := by
  refine ⟨fun r c fired h => ⟨unread_advance h, steps_of_advanced h⟩,
    fun r c rest hv hu => exists_advanced_iff hv hu,
    fun A w k => ⟨automaton_after A w k, (Simulator.position_and_mode_after A w k).2⟩,
    fun d hd mode A hA w k c fired h p q hpq => mem_edges_of_fired hd hA h hpq, ?_⟩
  intro e he A w a k hstart as has u c fired hreply p q hpq
  have hrun := Editor.run_performAll (congrArg Simulator.run? hstart.simulator_eq) has
  rw [Editor.perform_step_of_run hrun] at hreply
  have hfired := Reply.stepped.inj (Except.ok.inj hreply)
  exact mem_edges_of_fired he hstart.snapshot_eq hfired hpq

/-- Between two steps of a run of `aa` the edge from `q1` to itself is removed. The second step
still takes it, beside those that leave `q0`, and it reports the three in order. -/
theorem removed_edge_reported :
    let e := (Editor.new ⟨.nfa⟩).performAll [.edit .addState, .edit .addState,
      .connect (.ofNat 1) (.ofNat 1) "a", .connect (.ofNat 0) (.ofNat 1) "a, b",
      .connect (.ofNat 0) (.ofNat 0) "a", .edit (.toggleInitial (.ofNat 0)),
      .edit (.toggleFinal (.ofNat 1))]
    let fired := [(StateId.ofNat 0, StateId.ofNat 0), (.ofNat 0, .ofNat 1), (.ofNat 1, .ofNat 1)]
    let later := (e.perform (.step ['a', 'a'])).editor.performAll
      [.edit (.disconnect (.ofNat 1) (.ofNat 1))]
    e.diagram.Reachable ∧
      (later.perform (.step [])).reply = .ok (.stepped (.advanced 'a' fired)) ∧
      (∃ label, ⟨.ofNat 1, .ofNat 1, label⟩ ∈ e.diagram.edges ∧ .char 'a' ∈ label) ∧
      later.diagram.label? (.ofNat 1) (.ofNat 1) = none := by
  intro e fired later
  have he : e.diagram.Reachable := ⟨.nfa, [.addState, .addState,
    .merge (.ofNat 1) (.ofNat 1) (.ofList [.char 'a']),
    .merge (.ofNat 0) (.ofNat 1) (.ofList [.char 'a', .char 'b']),
    .merge (.ofNat 0) (.ofNat 0) (.ofList [.char 'a']), .toggleInitial (.ofNat 0),
    .toggleFinal (.ofNat 1)], by decide, by decide⟩
  obtain ⟨A, hA⟩ : ∃ A, e.diagram.snapshot e.diagram.mode = .ok A := ⟨_, rfl⟩
  have hstart : e.Starts A ['a', 'a'] (.step ['a', 'a']) 1 := .step rfl hA
  have hreply : (later.perform (.step [])).reply = .ok (.stepped (.advanced 'a' fired)) := by
    decide +kernel
  obtain ⟨-, -, -, -, hedges⟩ := reported_moves_are_taken
  exact ⟨he, hreply, hedges e he A _ _ 1 hstart _ (by decide) [] 'a' fired hreply _ _ (by decide),
    by decide⟩

end Run

end FiniteAutomata
