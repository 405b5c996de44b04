import FiniteAutomata.Diagram.History
import Mathlib.Data.List.Induction
import Mathlib.Data.List.Infix

/-!
# Determinism under edits

In deterministic mode no edit takes determinism from a state, and setting a label gives it to the
source, even if edits made before in another mode had broken it there. A diagram that has been in
deterministic mode ever since it was empty is therefore deterministic everywhere.
-/

namespace FiniteAutomata

open Determinism

variable {q source target : StateId} {label : Label}

/-- The exits of the source that are checked for an edit are those of its edges afterwards. -/
theorem Drawing.exit_mem_exitsAfter {D : Drawing} {e : Edge} {a : Symbol}
    (he : e ∈ D.edgesWith source target label) (hs : e.source = source) (ha : a ∈ e.label) :
    ⟨a, e.target⟩ ∈ exitsAfter D.edges source target label := by
  rw [mem_exitsAfter]
  rcases mem_edgesWith.1 he with rfl | ⟨he, hjoins⟩
  · exact .inr ⟨ha, rfl⟩
  · have ht : e.target ≠ target := by
      rintro rfl
      exact hjoins (Edge.joins_iff.2 (by rw [Edge.ends, hs]))
    exact .inl ⟨e, he, hs, ht, ha, rfl⟩

theorem Drawing.holdsAt_edgesWith {D : Drawing}
    (h : Holds (exitsAfter D.edges source target label)) :
    HoldsAt (D.edgesWith source target label) source where
  epsilon_not_mem _ he hs ha := h.1 _ (exit_mem_exitsAfter he hs ha) rfl
  target_eq _ he _ hf hs hs' _ ha ha' :=
    h.2 _ (exit_mem_exitsAfter he hs ha) _ (exit_mem_exitsAfter hf hs' ha') rfl

namespace Diagram

variable {d : Diagram}

/-- The source of a label that is permitted in deterministic mode is deterministic with it. -/
theorem holdsAt_of_permits (hd : d.mode = .dfa) (h : d.permits source target label = .ok ()) :
    HoldsAt (d.edgesWith source target label) source := by
  obtain ⟨-, -, -, hcheck⟩ := permits_eq_ok_iff.1 h
  exact Drawing.holdsAt_edgesWith (check_eq_ok_iff.1 (hcheck hd))

theorem holdsAt_apply (hd : d.mode = .dfa) (e : Edit) (h : HoldsAt d.edges q) :
    HoldsAt (d.apply e).diagram.edges q := by
  have hafter := d.edgesAfter_apply e
  generalize (d.apply e).diagram.edges = edges, (d.apply e).diagram.table = table at hafter ⊢
  cases hafter with
  | same => exact h
  | dropped keep => exact h.of_forall_mem fun e he _ => (List.mem_filter.1 he).1
  | @labelled source target label hpermits =>
      by_cases hq : source = q
      · rw [← hq]
        exact holdsAt_of_permits hd hpermits
      · refine h.of_forall_mem fun e he hs => ?_
        rcases Drawing.mem_edgesWith.1 he with rfl | ⟨he, -⟩
        · exact absurd hs hq
        · exact he

theorem holdsAt_of_relabel {edited : Edited} (hd : d.mode = .dfa)
    (h : d.relabel source target label = .ok edited) : HoldsAt edited.diagram.edges source := by
  cases hp : d.permits source target label with
  | error f => simp [relabel_of_refused hp] at h
  | ok =>
      rw [relabel_of_permits hp] at h
      cases h
      exact holdsAt_of_permits hd hp

/-- The diagrams that edits make of an empty one without its ever leaving deterministic mode. -/
def KeptDeterministic (d : Diagram) : Prop :=
  ∃ es, (∀ fs, fs <+: es → ((new .dfa).applyAll fs).diagram.mode = .dfa) ∧
    ((new .dfa).applyAll es).diagram = d

theorem keptDeterministic_of_inits {es : List Edit}
    (h : ∀ fs ∈ es.inits, ((new .dfa).applyAll fs).diagram.mode = .dfa) :
    ((new .dfa).applyAll es).diagram.KeptDeterministic :=
  ⟨es, fun fs hfs => h fs ((List.mem_inits fs es).2 hfs), rfl⟩

theorem KeptDeterministic.holdsAt (h : d.KeptDeterministic) (q : StateId) :
    HoldsAt d.edges q := by
  obtain ⟨es, hmode, rfl⟩ := h
  induction es using List.reverseRecOn with
  | nil => exact ⟨nofun, nofun⟩
  | append_singleton es e ih =>
      rw [diagram_applyAll_append]
      refine holdsAt_apply (hmode es (List.prefix_append es [e])) e (ih ?_)
      intro fs hfs
      exact hmode fs (hfs.trans (List.prefix_append es [e]))

/-- In deterministic mode every edit keeps each deterministic state deterministic, and a label that
is merged or set makes its source so. Where no other mode was ever on, all states are. -/
theorem deterministic_mode_keeps_determinism (d : Diagram) :
    (d.mode = .dfa →
      (∀ e q, HoldsAt d.edges q → HoldsAt (d.apply e).diagram.edges q) ∧
        ∀ source target label edited, d.merge source target label = .ok edited ∨
          d.relabel source target label = .ok edited → HoldsAt edited.diagram.edges source) ∧
      (d.KeptDeterministic → ∀ q, HoldsAt d.edges q) := by
  refine ⟨fun hd => ⟨fun e q h => holdsAt_apply hd e h, ?_⟩, fun h q => h.holdsAt q⟩
  rintro source target label edited (h | h)
  · exact holdsAt_of_relabel hd h
  · exact holdsAt_of_relabel hd h

/-- In the first diagram `q0` has moves on `a` to two targets, drawn before the mode was set; a new
label on one of the two edges ends the conflict. In the second one the conflict is refused. -/
theorem determinism_regained_and_kept :
    let d := ((new .nfa).applyAll [.addState, .addState, .addState,
      .merge (.ofNat 0) (.ofNat 1) (.ofList [.char 'a']),
      .merge (.ofNat 0) (.ofNat 2) (.ofList [.char 'a']),
      .merge (.ofNat 1) (.ofNat 2) (.ofList [.char 'b']), .setMode .dfa]).diagram
    let e := Edit.relabel (.ofNat 0) (.ofNat 2) (.ofList [.char 'b', .char 'c'])
    let k := ((new .dfa).applyAll [.addState, .addState,
      .merge (.ofNat 0) (.ofNat 1) (.ofList [.char 'a']),
      .merge (.ofNat 0) (.ofNat 0) (.ofList [.char 'a'])]).diagram
    d.mode = .dfa ∧ HoldsAt d.edges (.ofNat 1) ∧ ¬ HoldsAt d.edges (.ofNat 0) ∧
      HoldsAt (d.apply e).diagram.edges (.ofNat 1) ∧
      (∃ edited, d.edit e = .ok edited ∧ HoldsAt edited.diagram.edges (.ofNat 0)) ∧
      k.KeptDeterministic ∧ k.edges.length = 1 ∧ HoldsAt k.edges (.ofNat 0) := by
  intro d e k
  have hd : d.mode = .dfa := by decide
  have hq1 : HoldsAt d.edges (.ofNat 1) := by decide
  have hedit : d.edit e = .ok _ := relabel_of_permits (by decide)
  have hk : k.KeptDeterministic := keptDeterministic_of_inits (by decide)
  obtain ⟨hkeep, hlabel⟩ := (deterministic_mode_keeps_determinism d).1 hd
  exact ⟨hd, hq1, by decide, hkeep e _ hq1, ⟨_, hedit, hlabel _ _ _ _ (.inr hedit)⟩, hk, by decide,
    (deterministic_mode_keeps_determinism k).2 hk _⟩

end Diagram

end FiniteAutomata
