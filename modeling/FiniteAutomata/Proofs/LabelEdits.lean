import FiniteAutomata.Editor
import FiniteAutomata.Proofs.DiagramLabels

/-!
# Edits of labels

An action that edits the label of an edge proposes a label as a whole: what it was given, or this
together with the label that is there. The proposal is refused for the first fault in a fixed
order, and then nothing happens, or it is accepted, and then one edge gets this label.
-/

namespace FiniteAutomata

namespace Diagram

variable {d : Diagram} {source target : StateId} {label : Label} {f : EditError}

/-- Why an edge may not get a label. Of several faults the one named is the source's, else the
target's, else that of the label by itself, else, in deterministic mode, that of the label beside
the others. -/
inductive Refuses (d : Diagram) (source target : StateId) (label : Label) : EditError → Prop
  | source : source ∉ d.states → Refuses d source target label (.unknownState source)
  | target : source ∈ d.states → target ∉ d.states →
      Refuses d source target label (.unknownState target)
  | label : source ∈ d.states → target ∈ d.states → label = ∅ →
      Refuses d source target label .emptyLabel
  | determinism {f : EditError} : source ∈ d.states → target ∈ d.states → label ≠ ∅ →
      d.mode = .dfa → Determinism.check d.edges source target label = .error f →
      Refuses d source target label f

theorem permits_eq_error_iff :
    d.permits source target label = .error f ↔ d.Refuses source target label f := by
  constructor
  · intro h
    by_cases hs : source ∈ d.states
    · by_cases ht : target ∈ d.states
      · by_cases hl : label = ∅
        · have hf : .emptyLabel = f := by
            simpa [permits, hs, ht, hl, OrderedSet.isEmpty_iff] using h
          exact hf ▸ .label hs ht hl
        · cases hm : d.mode with
          | nfa => simp [permits, hs, ht, hl, hm, OrderedSet.isEmpty_iff] at h
          | dfa =>
              have hcheck : Determinism.check d.edges source target label = .error f := by
                simpa [permits, hs, ht, hl, hm, OrderedSet.isEmpty_iff] using h
              exact .determinism hs ht hl hm hcheck
      · have hf : .unknownState target = f := by simpa [permits, hs, ht] using h
        exact hf ▸ .target hs ht
    · have hf : .unknownState source = f := by simpa [permits, hs] using h
      exact hf ▸ .source hs
  · intro h
    cases h with
    | source hs => simp [permits, hs]
    | target hs ht => simp [permits, hs, ht]
    | label hs ht hl => simp [permits, hs, ht, hl, OrderedSet.isEmpty_iff]
    | determinism hs ht hl hm hcheck =>
        simp [permits, hs, ht, hl, hm, hcheck, OrderedSet.isEmpty_iff]

end Diagram

namespace Editor

open Diagram

variable {e : Editor} {a : Action} {source target : StateId} {label : Label}

inductive Proposes (e : Editor) (source target : StateId) : Action → Label → Prop
  | merge (more : Label) : Proposes e source target (.edit (.merge source target more))
      ((e.diagram.label? source target).getD ∅ ∪ more)
  | relabel (label : Label) :
      Proposes e source target (.edit (.relabel source target label)) label
  | connect {text : String} {more : Label} : Label.parse text = .ok more →
      Proposes e source target (.connect source target text)
        ((e.diagram.label? source target).getD ∅ ∪ more)
  | editLabel {text : String} {label : Label} : Label.parse text = .ok label →
      Proposes e source target (.editLabel source target text) label

theorem Proposes.perform_eq (h : e.Proposes source target a label) :
    e.perform a = e.commit .done (e.diagram.relabel source target label) := by
  cases h with
  | merge more => rfl
  | relabel label => rfl
  | connect hparse =>
      simp only [perform, Diagram.connect, hparse]
      rfl
  | editLabel hparse =>
      simp only [perform, Diagram.editLabel, hparse]
      rfl

/-- An action that proposes a label for an edge fails for the first fault there is and leaves all
as it was, or there is none and it sets the label of this edge, which is the one change announced.
A fault in the writing of a label comes before any other. -/
theorem label_edits_are_all_or_nothing (e : Editor) (h : e.diagram.Reachable)
    (source target : StateId) :
    (∀ a label, e.Proposes source target a label →
      (∀ f, e.diagram.Refuses source target label f → e.perform a = ⟨e, .error (.edit f), []⟩) ∧
        ((∀ f, ¬ e.diagram.Refuses source target label f) →
          ∃ d, e.diagram.SetsLabel source target label d ∧
            e.perform a =
              ⟨{ e with diagram := d }, .ok .done, [.edgeChanged source target label]⟩)) ∧
      ∀ text f, Label.parse text = .error f →
        e.perform (.connect source target text) = ⟨e, .error (.edit f), []⟩ ∧
          e.perform (.editLabel source target text) = ⟨e, .error (.edit f), []⟩ := by
  refine ⟨fun a label hproposes => ⟨fun f hf => ?_, fun hnone => ?_⟩, fun text f hparse => ?_⟩
  · rw [hproposes.perform_eq, relabel_of_refused (permits_eq_error_iff.2 hf)]
    rfl
  · cases hpermits : e.diagram.permits source target label with
    | error f => exact absurd (permits_eq_error_iff.1 hpermits) (hnone f)
    | ok =>
        refine ⟨_, h.wellFormed.setsLabel hpermits, ?_⟩
        rw [hproposes.perform_eq, relabel_of_permits hpermits]
        rfl
  · simp only [perform, Diagram.connect, Diagram.editLabel, hparse]
    exact ⟨rfl, rfl⟩

/-- From `q0` one edge leads on `a` to `q1` and one on `b` to `q2`, in deterministic mode. To merge
`b` into the first is a conflict. What is merged into it in writing is set in its place. An entry of
two letters is refused although the target is absent as well. -/
theorem conflict_refused_and_label_merged :
    let e := (new ⟨.dfa⟩).performAll [.edit .addState, .edit .addState, .edit .addState,
      .edit (.merge (.ofNat 0) (.ofNat 1) (.ofList [.char 'a'])),
      .edit (.merge (.ofNat 0) (.ofNat 2) (.ofList [.char 'b']))]
    let label : Label := .ofList [.char 'a', .char 'c', .char 'd']
    let f := EditError.determinismConflict (.ofNat 0) (.char 'b')
    e.diagram.Reachable ∧
      e.perform (.edit (.merge (.ofNat 0) (.ofNat 1) (.ofList [.char 'b']))) =
        ⟨e, .error (.edit f), []⟩ ∧
      (∃ d, e.diagram.SetsLabel (.ofNat 0) (.ofNat 1) label d ∧
        d.edges = [⟨.ofNat 0, .ofNat 1, label⟩, ⟨.ofNat 0, .ofNat 2, .ofList [.char 'b']⟩] ∧
        e.perform (.connect (.ofNat 0) (.ofNat 1) "d, c,") =
          ⟨{ e with diagram := d }, .ok .done, [.edgeChanged (.ofNat 0) (.ofNat 1) label]⟩) ∧
      e.perform (.connect (.ofNat 0) (.ofNat 9) "a, bc") =
        ⟨e, .error (.edit (.invalidSymbol "bc")), []⟩ := by
  intro e label f
  have h : e.diagram.Reachable := ⟨.dfa, [.addState, .addState, .addState,
    .merge (.ofNat 0) (.ofNat 1) (.ofList [.char 'a']),
    .merge (.ofNat 0) (.ofNat 2) (.ofList [.char 'b'])], by decide, rfl⟩
  obtain ⟨hedits, -⟩ := label_edits_are_all_or_nothing e h (.ofNat 0) (.ofNat 1)
  have hparse : Label.parse "d, c," = .ok (.ofList [.char 'c', .char 'd']) := by rfl
  have hconnect : e.Proposes (.ofNat 0) (.ofNat 1) (.connect (.ofNat 0) (.ofNat 1) "d, c,") label :=
    .connect hparse
  have hpermits : e.diagram.permits (.ofNat 0) (.ofNat 1) label = .ok () := by decide
  have hnone : ∀ g, ¬ e.diagram.Refuses (.ofNat 0) (.ofNat 1) label g := by
    intro g hg
    rw [permits_eq_error_iff.2 hg] at hpermits
    cases hpermits
  obtain ⟨d, hset, hperform⟩ := (hedits _ _ hconnect).2 hnone
  have hedges : (e.perform (.connect (.ofNat 0) (.ofNat 1) "d, c,")).editor.diagram.edges =
      [⟨.ofNat 0, .ofNat 1, label⟩, ⟨.ofNat 0, .ofNat 2, .ofList [.char 'b']⟩] := by decide
  rw [hperform] at hedges
  have hconflict : e.diagram.Refuses (.ofNat 0) (.ofNat 1) (.ofList [.char 'a', .char 'b']) f :=
    permits_eq_error_iff.1 (by decide)
  exact ⟨h, (hedits _ _ (.merge _)).1 f hconflict, ⟨d, hset, hedges, hperform⟩,
    ((label_edits_are_all_or_nothing e h _ _).2 "a, bc" _ (by rfl)).1⟩

end Editor

end FiniteAutomata
