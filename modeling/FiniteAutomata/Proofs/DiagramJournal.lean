import FiniteAutomata.Diagram.Journal
import FiniteAutomata.Proofs.DiagramInvariant

/-!
# Journals are faithful

Whoever redraws a diagram from the changes it announces has its states, marks and edges after each
edit. Nor does a change ever come too early: between two changes of one edit, too, the drawing is
sound, and it has the states and the edge that the next change names.
-/

namespace FiniteAutomata

theorem Edge.touches_iff_of_ends_eq {e f : Edge} (h : e.ends = f.ends) {q : StateId} :
    e.touches q ↔ f.touches q := by
  obtain ⟨hs, ht⟩ := Prod.mk.inj h
  rw [touches_iff, touches_iff, hs, ht]

/-- Edges that touch a state are those whose ends are the ends of such an edge. -/
theorem Edge.filter_ends_not_mem_touching (edges : List Edge) (q : StateId) :
    edges.filter (·.ends ∉ (edges.filter (·.touches q)).map Edge.ends) =
      edges.filter (! ·.touches q) := by
  refine List.filter_congr fun e he => ?_
  have htouches : e.ends ∈ (edges.filter (·.touches q)).map Edge.ends ↔ e.touches q := by
    constructor
    · intro hmem
      obtain ⟨f, hf, hends⟩ := List.mem_map.1 hmem
      exact (touches_iff_of_ends_eq hends).1 (List.mem_filter.1 hf).2
    · intro ht
      exact List.mem_map.2 ⟨e, List.mem_filter.2 ⟨he, ht⟩, rfl⟩
  simp only [htouches, Bool.decide_eq_true, decide_not]

theorem Edge.filter_filter_ends_not_mem (edges gone : List Edge) (e : Edge) :
    (edges.filter (! ·.joins e.source e.target)).filter (·.ends ∉ gone.map Edge.ends) =
      edges.filter (·.ends ∉ (e :: gone).map Edge.ends) := by
  rw [List.filter_filter]
  refine List.filter_congr fun f _ => ?_
  have hjoins : f.joins e.source e.target = decide (f.ends = e.ends) :=
    Bool.eq_iff_iff.2 (joins_iff.trans decide_eq_true_iff.symm)
  simp [hjoins, Bool.and_comm]

namespace Drawing

/-- Edges join states that are there, each ordered pair at most once and with some symbol; marks are
on states that are there. -/
structure Sound (D : Drawing) : Prop where
  source_mem : ∀ e ∈ D.edges, e.source ∈ D.states
  target_mem : ∀ e ∈ D.edges, e.target ∈ D.states
  label_ne_empty : ∀ e ∈ D.edges, e.label ≠ ∅
  nodup_ends : (D.edges.map Edge.ends).Nodup
  initial_mem : ∀ q, D.initial = some q → q ∈ D.states
  finals_mem : ∀ q ∈ D.finals, q ∈ D.states

/-- What a change takes for granted of the drawing that it comes to. -/
def Admits (D : Drawing) : Change → Prop
  | .stateAdded q => q ∉ D.states
  | .stateRemoved q => q ∈ D.states ∧ D.initial ≠ some q ∧ ∀ e ∈ D.edges, ¬ e.touches q
  | .initialChanged initial => ∀ q, initial = some q → q ∈ D.states
  | .finalChanged q _ => q ∈ D.states
  | .edgeChanged source target label => source ∈ D.states ∧ target ∈ D.states ∧ label ≠ ∅
  | .edgeRemoved source target => source ∈ D.states ∧ target ∈ D.states ∧
      ∃ e ∈ D.edges, e.ends = (source, target)

theorem Sound.replay {D : Drawing} (h : D.Sound) {c : Change} (hc : D.Admits c) :
    (D.replay c).Sound := by
  cases c with
  | stateAdded q =>
      exact ⟨fun e he => List.mem_append_left _ (h.source_mem e he),
        fun e he => List.mem_append_left _ (h.target_mem e he), h.label_ne_empty, h.nodup_ends,
        fun p hp => List.mem_append_left _ (h.initial_mem p hp),
        fun p hp => List.mem_append_left _ (h.finals_mem p hp)⟩
  | stateRemoved q =>
      obtain ⟨-, hinitial, hedges⟩ := hc
      have haway : ∀ e ∈ D.edges, e.source ≠ q ∧ e.target ≠ q := fun e he =>
        not_or.1 (mt Edge.touches_iff.2 (hedges e he))
      refine ⟨fun e he => (List.mem_erase_of_ne (haway e he).1).2 (h.source_mem e he),
        fun e he => (List.mem_erase_of_ne (haway e he).2).2 (h.target_mem e he), h.label_ne_empty,
        h.nodup_ends, fun p hp => ?_, fun p hp => ?_⟩
      · have hne : p ≠ q := fun hpq => hinitial (hpq ▸ hp)
        exact (List.mem_erase_of_ne hne).2 (h.initial_mem p hp)
      · obtain ⟨hp, hne⟩ := OrderedSet.mem_erase.1 hp
        exact (List.mem_erase_of_ne hne).2 (h.finals_mem p hp)
  | initialChanged initial =>
      exact ⟨h.source_mem, h.target_mem, h.label_ne_empty, h.nodup_ends, hc, h.finals_mem⟩
  | finalChanged q isFinal =>
      cases isFinal with
      | true =>
          refine ⟨h.source_mem, h.target_mem, h.label_ne_empty, h.nodup_ends, h.initial_mem, ?_⟩
          intro p hp
          rcases OrderedSet.mem_insert.1 hp with rfl | hp
          · exact hc
          · exact h.finals_mem p hp
      | false =>
          refine ⟨h.source_mem, h.target_mem, h.label_ne_empty, h.nodup_ends, h.initial_mem, ?_⟩
          intro p hp
          exact h.finals_mem p (OrderedSet.mem_erase.1 hp).1
  | edgeChanged source target label =>
      obtain ⟨hs, ht, hl⟩ := hc
      exact ⟨forall_mem_edgesWith hs h.source_mem, forall_mem_edgesWith ht h.target_mem,
        forall_mem_edgesWith hl h.label_ne_empty,
        nodup_ends_edgesWith h.nodup_ends source target label, h.initial_mem, h.finals_mem⟩
  | edgeRemoved source target =>
      have hsub : ∀ e ∈ D.edges.filter (! ·.joins source target), e ∈ D.edges :=
        fun e he => (List.mem_filter.1 he).1
      exact ⟨fun e he => h.source_mem e (hsub e he), fun e he => h.target_mem e (hsub e he),
        fun e he => h.label_ne_empty e (hsub e he),
        h.nodup_ends.sublist (List.filter_sublist.map Edge.ends), h.initial_mem, h.finals_mem⟩

/-- The changes turn one drawing into another, and each of them is admitted where it comes. -/
inductive Becomes : Drawing → List Change → Drawing → Prop
  | nil {D : Drawing} : Becomes D [] D
  | cons {D E : Drawing} {c : Change} {cs : List Change} :
      D.Admits c → Becomes (D.replay c) cs E → Becomes D (c :: cs) E

namespace Becomes

variable {D E F : Drawing} {c : Change} {cs ds : List Change}

theorem single (h : D.Admits c) : D.Becomes [c] (D.replay c) := .cons h .nil

theorem append (h : D.Becomes cs E) (h' : E.Becomes ds F) : D.Becomes (cs ++ ds) F := by
  induction h with
  | nil => exact h'
  | cons hc _ ih => exact .cons hc (ih h')

theorem replayAll_eq (h : D.Becomes cs E) : D.replayAll cs = E := by
  induction h with
  | nil => rfl
  | cons _ _ ih => exact ih

theorem split (h : D.Becomes (cs ++ ds) E) :
    D.Becomes cs (D.replayAll cs) ∧ (D.replayAll cs).Becomes ds E := by
  induction cs generalizing D with
  | nil => exact ⟨.nil, h⟩
  | cons c cs ih =>
      cases h with
      | cons hc hrest =>
          obtain ⟨hcs, hds⟩ := ih hrest
          exact ⟨.cons hc hcs, hds⟩

theorem admits (h : D.Becomes (cs ++ c :: ds) E) : (D.replayAll cs).Admits c := by
  cases h.split.2 with
  | cons hc _ => exact hc

theorem sound (h : D.Becomes cs E) (hD : D.Sound) : E.Sound := by
  induction h with
  | nil => exact hD
  | cons hc _ ih => exact ih (hD.replay hc)

end Becomes

/-- The edges are taken away one after another. -/
theorem becomes_edgesRemoved {D : Drawing} {gone : List Edge} (hD : D.Sound)
    (hgone : ∀ e ∈ gone, e ∈ D.edges) (hnodup : (gone.map Edge.ends).Nodup) :
    D.Becomes (gone.map fun e => .edgeRemoved e.source e.target)
      { D with edges := D.edges.filter (·.ends ∉ gone.map Edge.ends) } := by
  induction gone generalizing D with
  | nil =>
      have hedges : D.edges.filter (·.ends ∉ List.map Edge.ends []) = D.edges := by simp
      rw [hedges]
      exact .nil
  | cons e gone ih =>
      obtain ⟨he, hgone⟩ := List.forall_mem_cons.1 hgone
      obtain ⟨hfirst, hnodup⟩ := List.nodup_cons.1 hnodup
      have hadmits : D.Admits (.edgeRemoved e.source e.target) :=
        ⟨hD.source_mem e he, hD.target_mem e he, e, he, rfl⟩
      have hleft : ∀ f ∈ gone, f ∈ D.edges.filter (! ·.joins e.source e.target) := by
        intro f hf
        have hne : f.ends ≠ e.ends := fun hends => hfirst (List.mem_map.2 ⟨f, hf, hends⟩)
        exact List.mem_filter.2 ⟨hgone f hf, by simpa using mt Edge.joins_iff.1 hne⟩
      have hrest : (D.replay (.edgeRemoved e.source e.target)).Becomes _ { D with
          edges := (D.edges.filter (! ·.joins e.source e.target)).filter
            (·.ends ∉ gone.map Edge.ends) } := ih (hD.replay hadmits) hleft hnodup
      rw [Edge.filter_filter_ends_not_mem] at hrest
      exact .cons hadmits hrest

end Drawing

namespace Diagram

variable {d : Diagram}

theorem WellFormed.sound (h : d.WellFormed) : d.toDrawing.Sound :=
  ⟨h.source_mem, h.target_mem, h.label_ne_empty, h.nodup_ends, h.initial_mem, h.finals_mem⟩

/-- A state loses its mark as the initial one first, then the edges that touch it; only then it
goes, its final mark with it. -/
theorem becomes_removeState (h : d.WellFormed) {q : StateId} (hq : q ∈ d.states) :
    d.toDrawing.Becomes
      ((if d.initial = some q then [.initialChanged none] else []) ++
        (d.edges.filter (·.touches q)).map (fun e => .edgeRemoved e.source e.target) ++
        [.stateRemoved q])
      { states := d.states.erase q
        initial := if d.initial = some q then none else d.initial
        finals := d.finals.erase q
        edges := d.edges.filter (! ·.touches q) } := by
  let unmarked : Drawing :=
    { d.toDrawing with initial := if d.initial = some q then none else d.initial }
  have hunmarked : d.toDrawing.Becomes
      (if d.initial = some q then [.initialChanged none] else []) unmarked := by
    by_cases hi : d.initial = some q
    · simp only [unmarked, if_pos hi]
      exact .single nofun
    · simp only [unmarked, if_neg hi]
      exact .nil
  have hinitial : unmarked.initial ≠ some q := by
    by_cases hi : d.initial = some q <;> simp [unmarked, hi]
  have hbare : unmarked.Becomes
      ((d.edges.filter (·.touches q)).map fun e => .edgeRemoved e.source e.target)
      { unmarked with edges := d.edges.filter (! ·.touches q) } := by
    rw [← Edge.filter_ends_not_mem_touching]
    exact Drawing.becomes_edgesRemoved (hunmarked.sound h.sound)
      (fun e he => (List.mem_filter.1 he).1)
      (h.nodup_ends.sublist (List.filter_sublist.map Edge.ends))
  have haway : ∀ e ∈ d.edges.filter (! ·.touches q), ¬ e.touches q := by simp
  exact (hunmarked.append hbare).append (.single ⟨hq, hinitial, haway⟩)

/-- A label that is permitted is one that the drawing admits. -/
theorem becomes_setLabel {source target : StateId} {label : Label}
    (hpermits : d.permits source target label = .ok ()) :
    d.toDrawing.Becomes [.edgeChanged source target label]
      { d.toDrawing with edges := d.edgesWith source target label } := by
  obtain ⟨hs, ht, hl, -⟩ := permits_eq_ok_iff.1 hpermits
  exact .single ⟨hs, ht, hl⟩

theorem becomes_apply (h : d.WellFormed) (e : Edit) :
    d.toDrawing.Becomes (d.apply e).changes (d.apply e).diagram.toDrawing := by
  have heffect := d.effect_apply e
  generalize d.apply e = edited at heffect ⊢
  cases heffect with
  | nothing _ => exact .nil
  | addState =>
      have hfresh : d.nextState ∉ d.states := fun hmem => UInt32.lt_irrefl _ (h.fresh _ hmem)
      exact .single hfresh
  | removeState hq => exact becomes_removeState h hq
  | toggleInitial hq => exact .single (h.toggleInitial hq).initial_mem
  | markFinal hq _ => exact .single hq
  | unmarkFinal hq _ => exact .single hq
  | merge _ hpermits => exact becomes_setLabel hpermits
  | relabel hpermits => exact becomes_setLabel hpermits
  | disconnect hany =>
      obtain ⟨e, he, hends⟩ := List.mem_map.1 (Drawing.any_joins_iff.1 hany)
      obtain ⟨rfl, rfl⟩ := Prod.mk.inj hends
      exact .single ⟨h.source_mem e he, h.target_mem e he, e, he, rfl⟩
  | setMode mode => exact .nil

theorem becomes_applyAll (h : d.WellFormed) (es : List Edit)
    (hid : d.nextId.toNat + es.count .addState < UInt32.size) :
    d.toDrawing.Becomes (d.applyAll es).changes (d.applyAll es).diagram.toDrawing := by
  induction es using List.reverseRecOn with
  | nil => exact .nil
  | append_singleton es e ih =>
      rw [List.count_append] at hid
      have hlt : d.nextId.toNat + es.count .addState < UInt32.size := by omega
      rw [changes_applyAll_append, diagram_applyAll_append]
      refine (ih hlt).append ?_
      simpa [applyAll] using becomes_apply (h.applyAll es hlt).1 e

/-- Whatever edits are made of an empty diagram, the changes announced redraw it. At each of them,
those in the middle of an edit included, the drawing so far is sound and has what the change takes
for granted. -/
theorem journal_redraws_diagram (mode : Mode) (es : List Edit)
    (hes : es.count .addState < UInt32.size) :
    Drawing.blank.replayAll ((new mode).applyAll es).changes =
        ((new mode).applyAll es).diagram.toDrawing ∧
      (∀ cs ds, ((new mode).applyAll es).changes = cs ++ ds →
        (Drawing.blank.replayAll cs).Sound) ∧
      ∀ cs c ds, ((new mode).applyAll es).changes = cs ++ c :: ds →
        (Drawing.blank.replayAll cs).Admits c := by
  have hnew := wellFormed_new mode
  have hbecomes : Drawing.blank.Becomes ((new mode).applyAll es).changes
      ((new mode).applyAll es).diagram.toDrawing :=
    becomes_applyAll hnew es (by change 0 + _ < _; omega)
  refine ⟨hbecomes.replayAll_eq, fun cs ds hchanges => ?_, fun cs c ds hchanges => ?_⟩
  · rw [hchanges] at hbecomes
    exact hbecomes.split.1.sound hnew.sound
  · rw [hchanges] at hbecomes
    exact hbecomes.admits

/-- The state that goes is initial and final and has three edges. Before the last of them goes the
drawing is one that the diagram never shows, but a sound one. -/
theorem journal_of_removal :
    let es : List Edit := [.addState, .addState, .addState,
      .merge (.ofNat 0) (.ofNat 1) (.ofList [.char 'a']),
      .merge (.ofNat 0) (.ofNat 2) (.ofList [.epsilon]),
      .merge (.ofNat 1) (.ofNat 1) (.ofList [.char 'b']),
      .merge (.ofNat 1) (.ofNat 2) (.ofList [.char 'c']), .toggleInitial (.ofNat 1),
      .toggleFinal (.ofNat 1), .relabel (.ofNat 0) (.ofNat 1) ∅, .removeState (.ofNat 1)]
    let cs : List Change := [.stateAdded (.ofNat 0), .stateAdded (.ofNat 1), .stateAdded (.ofNat 2),
      .edgeChanged (.ofNat 0) (.ofNat 1) (.ofList [.char 'a']),
      .edgeChanged (.ofNat 0) (.ofNat 2) (.ofList [.epsilon]),
      .edgeChanged (.ofNat 1) (.ofNat 1) (.ofList [.char 'b']),
      .edgeChanged (.ofNat 1) (.ofNat 2) (.ofList [.char 'c']), .initialChanged (some (.ofNat 1)),
      .finalChanged (.ofNat 1) true, .initialChanged none, .edgeRemoved (.ofNat 0) (.ofNat 1),
      .edgeRemoved (.ofNat 1) (.ofNat 1)]
    let journal := ((new .nfa).applyAll es).changes
    es.count .addState < UInt32.size ∧
      journal = cs ++ [.edgeRemoved (.ofNat 1) (.ofNat 2), .stateRemoved (.ofNat 1)] ∧
      (Drawing.blank.replayAll cs).Sound ∧
      (Drawing.blank.replayAll cs).Admits (.edgeRemoved (.ofNat 1) (.ofNat 2)) ∧
      Drawing.blank.replayAll journal = ((new .nfa).applyAll es).diagram.toDrawing ∧
      Drawing.blank.replayAll journal = ⟨[.ofNat 0, .ofNat 2], none, ∅,
        [⟨.ofNat 0, .ofNat 2, .ofList [.epsilon]⟩]⟩ := by
  intro es cs journal
  have hes : es.count .addState < UInt32.size := by decide
  obtain ⟨hredraws, hsound, hadmits⟩ := journal_redraws_diagram .nfa es hes
  have hjournal : journal = cs ++ [.edgeRemoved (.ofNat 1) (.ofNat 2), .stateRemoved (.ofNat 1)] :=
    by decide
  exact ⟨hes, hjournal, hsound cs _ hjournal, hadmits cs _ _ hjournal, hredraws, by decide⟩

end Diagram

end FiniteAutomata
