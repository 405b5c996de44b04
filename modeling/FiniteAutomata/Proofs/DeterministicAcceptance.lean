import FiniteAutomata.Proofs.DiagramDeterminism
import FiniteAutomata.Proofs.PathAcceptance
import Mathlib.Data.Fin.Tuple.Basic

/-!
# Deterministic acceptance

A deterministic automaton accepts a word when the letters determine one state after another up to a
final one. The nondeterministic reading of the same word holds that state, and perhaps others. If
all states in reach are deterministic it holds that state alone, or none where a letter has no
move, so that both readings accept the same words.
-/

namespace FiniteAutomata

namespace TransitionTable

variable {t : TransitionTable} {p q : StateId} {c : Char} {w : Word}

/-- Each letter of `w` has one move only, and it leads from a state of `qs` to the next one. -/
def Determines (t : TransitionTable) (w : Word) (qs : Fin (w.length + 1) → StateId) : Prop :=
  ∀ i : Fin w.length, t.targets (qs i.castSucc) (.char w[i]) = .singleton (qs i.succ)

theorem determines_cons_iff {qs : Fin ((c :: w).length + 1) → StateId} :
    t.Determines (c :: w) qs ↔ t.targets (qs 0) (.char c) = .singleton (qs 1) ∧
      t.Determines w (fun i => qs i.succ) := Fin.forall_fin_succ

theorem foldlM_deterministicStep?_eq_some_iff : w.foldlM t.deterministicStep? p = some q ↔
    ∃ qs, qs 0 = p ∧ qs (Fin.last w.length) = q ∧ t.Determines w qs := by
  induction w generalizing p with
  | nil =>
      constructor
      · intro h
        exact ⟨fun _ => p, rfl, Option.some.inj h, nofun⟩
      · rintro ⟨qs, rfl, rfl, -⟩
        rfl
  | cons c w ih =>
      simp only [List.foldlM_cons, Option.bind_eq_bind, Option.bind_eq_some_iff, ih,
        deterministicStep?_eq_some_iff_targets]
      constructor
      · rintro ⟨_, hstep, qs, rfl, hlast, hqs⟩
        exact ⟨Fin.cons p qs, rfl, hlast, determines_cons_iff.2 ⟨hstep, hqs⟩⟩
      · rintro ⟨qs, rfl, hlast, hqs⟩
        obtain ⟨hstep, hrest⟩ := determines_cons_iff.1 hqs
        exact ⟨qs 1, hstep, fun i => qs i.succ, rfl, hlast, hrest⟩

def DeterministicAt (t : TransitionTable) (q : StateId) : Prop :=
  t.targets? q .epsilon = none ∧ ∀ c, (t.targets q (.char c)).size ≤ 1

theorem DeterministicAt.deterministicStep?_eq_some_iff (h : t.DeterministicAt p) :
    t.deterministicStep? p c = some q ↔ ⟨p, .char c, q⟩ ∈ t := by
  rw [TransitionTable.deterministicStep?_eq_some_iff]
  constructor
  · intro hq
    exact (hq q).2 rfl
  · intro hq r
    constructor
    · intro hr
      exact OrderedSet.size_le_one_iff.1 (h.2 c) r (mem_targets.2 hr) q (mem_targets.2 hq)
    · rintro rfl
      exact hq

theorem DeterministicAt.eq_of_reaches_epsilon (h : t.DeterministicAt p)
    (hr : t.Reaches Symbol.isEpsilon p q) : q = p := by
  induction hr with
  | refl => rfl
  | @move m _ hm ha ih =>
      have hmove : (⟨p, .epsilon, m.target⟩ : Move) = m :=
        Move.ext ih.symm (Symbol.isEpsilon_iff.1 ha).symm rfl
      exact absurd (hmove ▸ hm) (targets?_eq_none_iff.1 h.1 m.target)

/-- Deterministic edges make a deterministic table. -/
theorem deterministicAt_ofEdges {edges : List Edge} (h : Determinism.HoldsAt edges q) :
    (ofEdges edges).DeterministicAt q := by
  constructor
  · rw [targets?_eq_none_iff]
    intro r hr
    obtain ⟨e, he, hs, ha, -⟩ := mem_ofEdges.1 hr
    exact h.epsilon_not_mem e he hs ha
  · intro c
    rw [OrderedSet.size_le_one_iff]
    intro r hr r' hr'
    obtain ⟨e, he, hs, ha, rfl⟩ := mem_ofEdges.1 (mem_targets.1 hr)
    obtain ⟨f, hf, hs', ha', rfl⟩ := mem_ofEdges.1 (mem_targets.1 hr')
    exact h.target_eq e he f hf hs hs' _ ha ha'

end TransitionTable

namespace Automaton

open TransitionTable

variable {A : Automaton} {w : Word} {p q : StateId} {c : Char}

theorem acceptsDfa_iff_exists_readDfa? :
    A.acceptsDfa w ↔ ∃ q ∈ A.finals, A.readDfa? w = some q := by
  simp only [acceptsDfa, isFinal, Option.any_eq_true, decide_eq_true_eq, and_comm]

theorem acceptsDfa_iff_exists_determines : A.acceptsDfa w ↔
    ∃ qs, qs 0 = A.initial ∧ qs (Fin.last w.length) ∈ A.finals ∧ A.table.Determines w qs := by
  simp only [acceptsDfa_iff_exists_readDfa?, readDfa?, foldlM_deterministicStep?_eq_some_iff]
  constructor
  · rintro ⟨_, hq, qs, hinitial, rfl, hqs⟩
    exact ⟨qs, hinitial, hq, hqs⟩
  · rintro ⟨qs, hinitial, hq, hqs⟩
    exact ⟨_, hq, qs, hinitial, rfl, hqs⟩

theorem mem_stepNfa_of_move {x : StateSet} (hp : p ∈ x) (hm : ⟨p, .char c, q⟩ ∈ A.table) :
    q ∈ A.stepNfa x c := mem_epsilonClosure_of_mem (mem_step.2 ⟨p, hp, hm⟩)

theorem mem_readNfa_of_readDfa? (h : A.readDfa? w = some q) : q ∈ A.readNfa w := by
  induction w using List.reverseRecOn generalizing q with
  | nil =>
      have hq : A.initial = q := Option.some.inj h
      rw [readNfa_nil, ← hq]
      exact mem_epsilonClosure_of_mem (OrderedSet.mem_singleton.2 rfl)
  | append_singleton w c ih =>
      rw [readDfa?_concat] at h
      obtain ⟨p, hp, hstep⟩ := Option.bind_eq_some_iff.1 h
      rw [readNfa_concat]
      exact mem_stepNfa_of_move (ih hp) ((deterministicStep?_eq_some_iff.1 hstep q).2 rfl)

theorem acceptsNfa_of_acceptsDfa (h : A.acceptsDfa w) : A.acceptsNfa w := by
  obtain ⟨q, hq, hread⟩ := acceptsDfa_iff_exists_readDfa?.1 h
  exact OrderedSet.intersects_iff.2 ⟨q, mem_readNfa_of_readDfa? hread, hq⟩

def DeterministicInReach (A : Automaton) : Prop := ∀ q, A.InReach q → A.table.DeterministicAt q

/-- At every prefix the states held are the one state of the deterministic reading, if any. -/
theorem DeterministicInReach.mem_readNfa_iff (h : A.DeterministicInReach) :
    q ∈ A.readNfa w ↔ A.readDfa? w = some q := by
  refine ⟨fun hq => ?_, mem_readNfa_of_readDfa?⟩
  have hreach := inReach_of_mem_readNfa hq
  induction w using List.reverseRecOn generalizing q with
  | nil =>
      obtain ⟨p, hp, heps⟩ := mem_epsilonClosure_iff_reaches.1 hq
      rw [OrderedSet.mem_singleton.1 hp] at heps
      rw [(h A.initial .refl).eq_of_reaches_epsilon heps, readDfa?_nil]
  | append_singleton w c ih =>
      rw [readNfa_concat] at hq
      obtain ⟨r, hr, heps⟩ := mem_epsilonClosure_iff_reaches.1 hq
      obtain ⟨p, hp, hm⟩ := mem_step.1 hr
      have hpreach := inReach_of_mem_readNfa hp
      have hrreach : A.InReach r := Reaches.move (m := ⟨p, .char c, r⟩) hpreach hm rfl
      rw [(h r hrreach).eq_of_reaches_epsilon heps, readDfa?_concat, ih hp hpreach]
      exact (h p hpreach).deterministicStep?_eq_some_iff.2 hm

theorem DeterministicInReach.acceptsDfa_eq (h : A.DeterministicInReach) (w : Word) :
    A.acceptsDfa w = A.acceptsNfa w := by
  rw [Bool.eq_iff_iff, acceptsDfa_iff_exists_readDfa?]
  simp only [acceptsNfa, OrderedSet.intersects_iff, h.mem_readNfa_iff, and_comm]

end Automaton

namespace Diagram

variable {d : Diagram}

theorem table_apply (h : d.table = .ofEdges d.edges) (e : Edit) :
    (d.apply e).diagram.table = .ofEdges (d.apply e).diagram.edges := by
  have hafter := d.edgesAfter_apply e
  generalize (d.apply e).diagram.edges = edges, (d.apply e).diagram.table = table at hafter ⊢
  cases hafter with
  | same => exact h
  | dropped keep => rfl
  | labelled hpermits => rfl

theorem table_applyAll_new (mode : Mode) (es : List Edit) :
    ((new mode).applyAll es).diagram.table = .ofEdges ((new mode).applyAll es).diagram.edges := by
  induction es using List.reverseRecOn with
  | nil => rfl
  | append_singleton es e ih =>
      rw [diagram_applyAll_append]
      exact table_apply ih e

theorem KeptDeterministic.deterministicAt (h : d.KeptDeterministic) (q : StateId) :
    d.table.DeterministicAt q := by
  have htable : d.table = .ofEdges d.edges := by
    obtain ⟨es, -, rfl⟩ := h
    exact table_applyAll_new .dfa es
  rw [htable]
  exact TransitionTable.deterministicAt_ofEdges (h.holdsAt q)

theorem KeptDeterministic.accepts_eq (h : d.KeptDeterministic) {mode : Mode} {A : Automaton}
    (hA : d.snapshot mode = .ok A) : ∃ D N, d.snapshot .dfa = .ok D ∧ d.snapshot .nfa = .ok N ∧
      ∀ w, D.accepts w = N.accepts w := by
  obtain ⟨q, hq, hfinals, -⟩ := snapshot_eq_ok_iff.1 hA
  refine ⟨_, _, snapshot_eq_ok_iff.2 ⟨q, hq, hfinals, rfl⟩,
    snapshot_eq_ok_iff.2 ⟨q, hq, hfinals, rfl⟩, fun w => ?_⟩
  exact Automaton.DeterministicInReach.acceptsDfa_eq (fun p _ => h.deterministicAt p) w

end Diagram

namespace Automaton

/-- Deterministic acceptance follows the only moves there are and implies nondeterministic
acceptance. The converse holds where all states in reach are deterministic; diagrams that were
never in the other mode have only such snapshots. -/
theorem deterministic_acceptance_and_nondeterministic (A : Automaton) (w : Word) :
    (A.acceptsDfa w ↔ ∃ qs : Fin (w.length + 1) → StateId, qs 0 = A.initial ∧
        qs (Fin.last w.length) ∈ A.finals ∧
        ∀ i : Fin w.length, A.table.targets (qs i.castSucc) (.char w[i]) = .singleton (qs i.succ)) ∧
      (A.acceptsDfa w → A.acceptsNfa w) ∧
      (A.DeterministicInReach → A.acceptsDfa w = A.acceptsNfa w) ∧
      ∀ d : Diagram, d.KeptDeterministic → ∀ mode C, d.snapshot mode = .ok C →
        ∃ D N, d.snapshot .dfa = .ok D ∧ d.snapshot .nfa = .ok N ∧ D.accepts w = N.accepts w := by
  refine ⟨acceptsDfa_iff_exists_determines, acceptsNfa_of_acceptsDfa,
    fun h => h.acceptsDfa_eq w, ?_⟩
  intro d hd mode C hC
  obtain ⟨D, N, hD, hN, haccepts⟩ := hd.accepts_eq hC
  exact ⟨D, N, hD, hN, haccepts w⟩

/-- The state `q2` has an empty move and two moves on `a`, but it cannot be reached. The diagram
refuses a second move on `a`, so that its automaton rejects `aa` in both modes. -/
theorem acceptance_agrees_beside_conflicts :
    let edges : List Edge := [⟨.ofNat 0, .ofNat 1, .ofList [.char 'a']⟩,
      ⟨.ofNat 1, .ofNat 1, .ofList [.char 'b']⟩, ⟨.ofNat 2, .ofNat 0, .ofList [.epsilon, .char 'a']⟩,
      ⟨.ofNat 2, .ofNat 1, .ofList [.char 'a']⟩]
    let A : Automaton := ⟨.ofList [.ofNat 0, .ofNat 1, .ofNat 2], .ofNat 0, .singleton (.ofNat 1),
      .ofEdges edges, .dfa⟩
    let d := ((Diagram.new .dfa).applyAll [.addState, .addState,
      .merge (.ofNat 0) (.ofNat 1) (.ofList [.char 'a']),
      .merge (.ofNat 0) (.ofNat 0) (.ofList [.char 'a']), .toggleInitial (.ofNat 0),
      .toggleFinal (.ofNat 1)]).diagram
    A.DeterministicInReach ∧ ¬ (A.table.targets (.ofNat 2) (.char 'a')).size ≤ 1 ∧
      A.acceptsDfa ['a', 'b'] = true ∧ A.acceptsNfa ['a', 'b'] = true ∧
      A.acceptsNfa ['a', 'a'] = false ∧ d.KeptDeterministic ∧
      ∃ D N, d.snapshot .dfa = .ok D ∧ d.snapshot .nfa = .ok N ∧
        D.accepts ['a', 'a'] = N.accepts ['a', 'a'] := by
  intro edges A d
  have hmoves : ∀ m ∈ A.table.moves.toList, m.source ∈ [StateId.ofNat 0, .ofNat 1] →
      m.target ∈ [StateId.ofNat 0, .ofNat 1] := by decide
  have hholds : ∀ p ∈ [StateId.ofNat 0, .ofNat 1], Determinism.HoldsAt edges p := by decide
  have hreach : A.DeterministicInReach := by
    intro q hq
    refine TransitionTable.deterministicAt_ofEdges (hholds q ?_)
    induction hq with
    | refl => decide
    | move _ hm _ ih => exact hmoves _ hm ih
  have haccepts : A.acceptsDfa ['a', 'b'] = true := by decide
  have hrejects : A.acceptsDfa ['a', 'a'] = false := by decide
  have hd : d.KeptDeterministic := Diagram.keptDeterministic_of_inits (by decide)
  refine ⟨hreach, by decide, haccepts, ?_, ?_, hd, ?_⟩
  · exact (deterministic_acceptance_and_nondeterministic A ['a', 'b']).2.1 haccepts
  · rw [← (deterministic_acceptance_and_nondeterministic A ['a', 'a']).2.2.1 hreach, hrejects]
  · exact (deterministic_acceptance_and_nondeterministic A ['a', 'a']).2.2.2 d hd .dfa _
      (Diagram.snapshot_eq_ok_iff.2 ⟨_, rfl, by decide, rfl⟩)

end Automaton

end FiniteAutomata
