import FiniteAutomata.Proofs.DeterministicAcceptance
import FiniteAutomata.Proofs.DiagramLabels

/-!
# Words that merges keep

A label that is merged into an edge adds moves and takes none away, and where moves are many a word
needs only some of them. Where a letter has to determine the next state, a second target would
reject what one target accepts; but then the merge is refused, so that the source is deterministic
after each one that succeeds, whatever conflicts there are at other states.
-/

namespace FiniteAutomata

namespace Automaton

open TransitionTable

variable {A B C : Automaton} {w : Word}

/-- The automaton `B` has all the moves of `A` and reads in the same mode. If this is the
deterministic one, what a letter determines in `A` it determines in `B`. -/
structure Extends (A B : Automaton) : Prop where
  initial_eq : B.initial = A.initial
  finals_eq : B.finals = A.finals
  mode_eq : B.mode = A.mode
  mem_table : ∀ m ∈ A.table, m ∈ B.table
  targets_eq : A.mode = .dfa → ∀ p c q, A.table.targets p (.char c) = .singleton q →
    B.table.targets p (.char c) = .singleton q

theorem Extends.refl (A : Automaton) : A.Extends A :=
  ⟨rfl, rfl, rfl, fun _ hm => hm, fun _ _ _ _ hq => hq⟩

theorem Extends.trans (hAB : A.Extends B) (hBC : B.Extends C) : A.Extends C where
  initial_eq := hBC.initial_eq.trans hAB.initial_eq
  finals_eq := hBC.finals_eq.trans hAB.finals_eq
  mode_eq := hBC.mode_eq.trans hAB.mode_eq
  mem_table m hm := hBC.mem_table m (hAB.mem_table m hm)
  targets_eq hA p c q hq := hBC.targets_eq (hAB.mode_eq.trans hA) p c q (hAB.targets_eq hA p c q hq)

theorem Extends.acceptsNfa (h : A.Extends B) (hw : A.acceptsNfa w) : B.acceptsNfa w := by
  obtain ⟨q, hq, ms, hms, hspelled⟩ := acceptsNfa_iff_exists_isPath.1 hw
  have hpart : ∀ m, m ∈ A.table ↔ m ∈ B.table ∧ m ∈ A.table := by
    intro m
    exact ⟨fun hm => ⟨h.mem_table m hm, hm⟩, And.right⟩
  rw [acceptsNfa_iff_exists_isPath, h.initial_eq, h.finals_eq]
  exact ⟨q, hq, ms, ((isPath_iff_of_mem_iff hpart).1 hms).1, hspelled⟩

theorem Extends.acceptsDfa (h : A.Extends B) (hA : A.mode = .dfa) (hw : A.acceptsDfa w) :
    B.acceptsDfa w := by
  obtain ⟨qs, hinitial, hlast, hqs⟩ := acceptsDfa_iff_exists_determines.1 hw
  rw [acceptsDfa_iff_exists_determines, h.initial_eq, h.finals_eq]
  exact ⟨qs, hinitial, hlast, fun i => h.targets_eq hA _ _ _ (hqs i)⟩

theorem Extends.accepts (h : A.Extends B) (hw : A.accepts w) : B.accepts w := by
  unfold Automaton.accepts at hw ⊢
  rw [h.mode_eq]
  cases hA : A.mode with
  | nfa =>
      rw [hA] at hw
      exact h.acceptsNfa hw
  | dfa =>
      rw [hA] at hw
      exact h.acceptsDfa hA hw

end Automaton

namespace Diagram

open TransitionTable

variable {d : Diagram} {A : Automaton} {source target p q : StateId} {more : Label} {c : Char}
  {edited : Edited}

theorem WellFormed.setsLabel_of_merge (h : d.WellFormed)
    (hmerge : d.merge source target more = .ok edited) : edited.diagram.WellFormed ∧
      d.SetsLabel source target ((d.label? source target).getD ∅ ∪ more) edited.diagram := by
  rw [merge] at hmerge
  cases hpermits : d.permits source target ((d.label? source target).getD ∅ ∪ more) with
  | error f => simp [relabel_of_refused hpermits] at hmerge
  | ok =>
      rw [relabel_of_permits hpermits] at hmerge
      cases hmerge
      exact ⟨h.setLabel hpermits, h.setsLabel hpermits⟩

/-- At the source of the merge the only target there was is still one, and the check leaves room for
no other. At other states nothing has changed. -/
theorem WellFormed.targets_of_merge (h : d.WellFormed) (hd : d.mode = .dfa)
    (hmerge : d.merge source target more = .ok edited)
    (hq : d.table.targets p (.char c) = .singleton q) :
    edited.diagram.table.targets p (.char c) = .singleton q := by
  obtain ⟨hafter, hset⟩ := h.setsLabel_of_merge hmerge
  have hmem : ⟨p, .char c, q⟩ ∈ edited.diagram.table := by
    rw [hset.mem_table_iff_of_merge h, ← mem_targets, hq]
    exact .inl (OrderedSet.mem_singleton.2 rfl)
  by_cases hp : p = source
  · have hdet : edited.diagram.table.DeterministicAt p := by
      rw [hafter.table_eq, hp]
      exact deterministicAt_ofEdges (holdsAt_of_relabel hd hmerge)
    rw [← deterministicStep?_eq_some_iff_targets]
    exact hdet.deterministicStep?_eq_some_iff.2 hmem
  · rw [← hq]
    refine OrderedSet.ext_mem fun r => ?_
    simp [hset.mem_table_iff_of_merge h, hp]

theorem WellFormed.exists_extends_of_merge (h : d.WellFormed) (hA : d.snapshot d.mode = .ok A)
    (hmerge : d.merge source target more = .ok edited) :
    ∃ B, edited.diagram.snapshot edited.diagram.mode = .ok B ∧ A.Extends B := by
  obtain ⟨-, hset⟩ := h.setsLabel_of_merge hmerge
  obtain ⟨q, hq, hfinals, rfl⟩ := snapshot_eq_ok_iff.1 hA
  refine ⟨_, snapshot_eq_ok_iff.2 ⟨q, hset.initial_eq.trans hq, ?_, rfl⟩, rfl, hset.finals_eq,
    hset.mode_eq, fun m hm => ?_, fun hd p c r hr => h.targets_of_merge hd hmerge hr⟩
  · rwa [hset.finals_eq]
  · exact (hset.mem_table_iff_of_merge h).2 (.inl hm)

/-- Whatever merges are made, those that are refused change nothing. -/
theorem WellFormed.exists_extends_of_merges {es : List Edit} (h : d.WellFormed)
    (hA : d.snapshot d.mode = .ok A)
    (hes : ∀ e ∈ es, ∃ source target more, e = .merge source target more) :
    ∃ B, (d.applyAll es).diagram.snapshot (d.applyAll es).diagram.mode = .ok B ∧ A.Extends B := by
  induction es generalizing d A with
  | nil => exact ⟨A, hA, .refl A⟩
  | cons e es ih =>
      obtain ⟨⟨source, target, more, rfl⟩, hrest⟩ := List.forall_mem_cons.1 hes
      rw [diagram_applyAll_cons, Diagram.apply, Diagram.edit]
      cases hmerge : d.merge source target more with
      | error f => exact ih h hA hrest
      | ok edited =>
          obtain ⟨B, hB, hAB⟩ := h.exists_extends_of_merge hA hmerge
          obtain ⟨C, hC, hBC⟩ := ih (h.setsLabel_of_merge hmerge).1 hB hrest
          exact ⟨C, hC, hAB.trans hBC⟩

/-- A merge that succeeds keeps the mode of the diagram, and with it all words that are accepted in
this mode. So do merges one after another, those included that are refused. -/
theorem merges_lose_no_words (d : Diagram) (h : d.Reachable) (A : Automaton)
    (hA : d.snapshot d.mode = .ok A) :
    (∀ source target more edited, d.merge source target more = .ok edited →
      edited.diagram.mode = d.mode ∧ ∃ B, edited.diagram.snapshot edited.diagram.mode = .ok B ∧
        ∀ w, A.accepts w → B.accepts w) ∧
    ∀ es, (∀ e ∈ es, ∃ source target more, e = .merge source target more) →
      ∃ B, (d.applyAll es).diagram.snapshot (d.applyAll es).diagram.mode = .ok B ∧
        ∀ w, A.accepts w → B.accepts w := by
  refine ⟨fun source target more edited hmerge => ?_, fun es hes => ?_⟩
  · obtain ⟨-, hset⟩ := h.wellFormed.setsLabel_of_merge hmerge
    obtain ⟨B, hB, hAB⟩ := h.wellFormed.exists_extends_of_merge hA hmerge
    exact ⟨hset.mode_eq, B, hB, fun w => hAB.accepts⟩
  · obtain ⟨B, hB, hAB⟩ := h.wellFormed.exists_extends_of_merges hA hes
    exact ⟨B, hB, fun w => hAB.accepts⟩

/-- The mode was set after `q2` had got two moves on `a` and an empty one. A merge at `q0` keeps the
word `ab` all the same. Of the two merges after it, the one at `q0` is refused, as it would have
lost this word, and the one at `q2`, as it would leave a conflict there. -/
theorem word_kept_beside_conflicts :
    let d := ((new .nfa).applyAll [.addState, .addState, .addState,
      .merge (.ofNat 0) (.ofNat 1) (.ofList [.char 'a']),
      .merge (.ofNat 1) (.ofNat 1) (.ofList [.char 'b']),
      .merge (.ofNat 2) (.ofNat 0) (.ofList [.epsilon, .char 'a']),
      .merge (.ofNat 2) (.ofNat 1) (.ofList [.char 'a']), .toggleInitial (.ofNat 0),
      .toggleFinal (.ofNat 1), .setMode .dfa]).diagram
    let A : Automaton := ⟨.ofList d.states, .ofNat 0, d.finals, d.table, .dfa⟩
    let more : Label := .ofList [.char 'b', .char 'c']
    let es : List Edit := [.merge (.ofNat 0) (.ofNat 2) more,
      .merge (.ofNat 0) (.ofNat 0) (.ofList [.char 'a']),
      .merge (.ofNat 2) (.ofNat 2) (.ofList [.char 'b'])]
    d.Reachable ∧ d.snapshot d.mode = .ok A ∧ A.accepts ['a', 'b'] = true ∧
      ¬ Determinism.HoldsAt d.edges (.ofNat 2) ∧
      (∃ edited, d.merge (.ofNat 0) (.ofNat 2) more = .ok edited ∧
        (d.applyAll es).diagram = edited.diagram ∧
        ∃ B, edited.diagram.snapshot edited.diagram.mode = .ok B ∧ B.accepts ['a', 'b']) ∧
      ∃ B, (d.applyAll es).diagram.snapshot (d.applyAll es).diagram.mode = .ok B ∧
        B.accepts ['a', 'b'] := by
  intro d A more es
  have h : d.Reachable := ⟨.nfa, _, by decide, rfl⟩
  have hA : d.snapshot d.mode = .ok A := snapshot_eq_ok_iff.2 ⟨_, rfl, by decide, rfl⟩
  have haccepts : A.accepts ['a', 'b'] = true := by decide
  have hpermits : d.permits (.ofNat 0) (.ofNat 2)
      ((d.label? (.ofNat 0) (.ofNat 2)).getD ∅ ∪ more) = .ok () := by decide
  have hmerge : d.merge (.ofNat 0) (.ofNat 2) more = .ok _ := relabel_of_permits hpermits
  obtain ⟨hone, hall⟩ := merges_lose_no_words d h A hA
  obtain ⟨-, B, hB, hkept⟩ := hone _ _ _ _ hmerge
  obtain ⟨C, hC, hkeptAll⟩ := hall es (by simp [es])
  exact ⟨h, hA, haccepts, by decide, ⟨_, hmerge, by decide, B, hB, hkept _ haccepts⟩, C, hC,
    hkeptAll _ haccepts⟩

end Diagram

end FiniteAutomata
