import FiniteAutomata.Diagram.History
import Mathlib.Data.List.Induction
import Mathlib.Data.List.Nodup

/-!
# What edits keep true of a diagram

Edges join states that are present, each ordered pair at most once and with some symbol; marks are
on states that are present; the table is that of the edges; states are in ascending order, all of
them before the next one to be added. Every edit keeps this, refused or not, as long as the numbers
of states do not run out. A snapshot therefore mentions only its own states.
-/

namespace FiniteAutomata

/-- A pair is added to those that edges join only if no edge joins it. -/
theorem Drawing.nodup_ends_edgesWith {D : Drawing} (hD : (D.edges.map Edge.ends).Nodup)
    (source target : StateId) (label : Label) :
    ((D.edgesWith source target label).map Edge.ends).Nodup := by
  rw [map_ends_edgesWith]
  by_cases hmem : (source, target) ∈ D.edges.map Edge.ends
  · rw [if_pos hmem]
    exact hD
  · rw [if_neg hmem, ← List.concat_eq_append]
    exact hD.concat hmem

namespace Diagram

structure WellFormed (d : Diagram) : Prop where
  source_mem : ∀ e ∈ d.edges, e.source ∈ d.states
  target_mem : ∀ e ∈ d.edges, e.target ∈ d.states
  label_ne_empty : ∀ e ∈ d.edges, e.label ≠ ∅
  nodup_ends : (d.edges.map Edge.ends).Nodup
  initial_mem : ∀ q, d.initial = some q → q ∈ d.states
  finals_mem : ∀ q ∈ d.finals, q ∈ d.states
  table_eq : d.table = .ofEdges d.edges
  ascending : d.states.Pairwise (· < ·)
  fresh : ∀ q ∈ d.states, q < d.nextState

theorem wellFormed_new (mode : Mode) : (new mode).WellFormed where
  source_mem _ he := absurd he List.not_mem_nil
  target_mem _ he := absurd he List.not_mem_nil
  label_ne_empty _ he := absurd he List.not_mem_nil
  nodup_ends := List.nodup_nil
  initial_mem _ hq := absurd hq nofun
  finals_mem q hq := absurd hq (OrderedSet.not_mem_empty q)
  table_eq := rfl
  ascending := .nil
  fresh _ hq := absurd hq List.not_mem_nil

namespace WellFormed

variable {d : Diagram}

theorem nodup_states (h : d.WellFormed) : d.states.Nodup := h.ascending.nodup

/-- The edges may be replaced by others between states that are present. -/
theorem withEdges (h : d.WellFormed) {edges : List Edge}
    (hsource : ∀ e ∈ edges, e.source ∈ d.states) (htarget : ∀ e ∈ edges, e.target ∈ d.states)
    (hlabel : ∀ e ∈ edges, e.label ≠ ∅) (hends : (edges.map Edge.ends).Nodup) :
    (d.withEdges edges).WellFormed :=
  ⟨hsource, htarget, hlabel, hends, h.initial_mem, h.finals_mem, rfl, h.ascending, h.fresh⟩

theorem filter_edges (h : d.WellFormed) (keep : Edge → Bool) :
    (d.withEdges (d.edges.filter keep)).WellFormed := by
  have hsub : ∀ e ∈ d.edges.filter keep, e ∈ d.edges := fun e he => (List.mem_filter.1 he).1
  refine h.withEdges (fun e he => h.source_mem e (hsub e he))
    (fun e he => h.target_mem e (hsub e he)) (fun e he => h.label_ne_empty e (hsub e he)) ?_
  exact h.nodup_ends.sublist (List.filter_sublist.map Edge.ends)

theorem addState (h : d.WellFormed) (hid : d.nextId.toNat + 1 < UInt32.size) :
    d.addState.diagram.WellFormed where
  source_mem e he := List.mem_append_left _ (h.source_mem e he)
  target_mem e he := List.mem_append_left _ (h.target_mem e he)
  label_ne_empty := h.label_ne_empty
  nodup_ends := h.nodup_ends
  initial_mem q hq := List.mem_append_left _ (h.initial_mem q hq)
  finals_mem q hq := List.mem_append_left _ (h.finals_mem q hq)
  table_eq := h.table_eq
  ascending := by
    refine List.pairwise_append.2 ⟨h.ascending, List.pairwise_singleton _ _, ?_⟩
    intro p hp q hq
    rw [List.mem_singleton.1 hq]
    exact h.fresh p hp
  fresh := by
    have hlt : d.nextId < d.nextId + 1 := by
      have hadd : (d.nextId + 1).toNat = d.nextId.toNat + 1 := by
        rw [UInt32.toNat_add]
        exact Nat.mod_eq_of_lt hid
      rw [UInt32.lt_iff_toNat_lt, hadd]
      exact Nat.lt_succ_self _
    intro q hq
    rcases List.mem_append.1 hq with hq | hq
    · exact UInt32.lt_trans (h.fresh q hq) hlt
    · rw [List.mem_singleton.1 hq]
      exact hlt

/-- What is left of the edges and the marks is away from the state that goes. -/
theorem removeState (h : d.WellFormed) (q : StateId) :
    (Diagram.withEdges
      { d with
        states := d.states.erase q
        initial := if d.initial = some q then none else d.initial
        finals := d.finals.erase q }
      (d.edges.filter (! ·.touches q))).WellFormed := by
  have hmem : ∀ p, p ∈ d.states.erase q ↔ p ≠ q ∧ p ∈ d.states :=
    fun p => h.nodup_states.mem_erase_iff
  have hedges : ∀ e ∈ d.edges.filter (! ·.touches q),
      e ∈ d.edges ∧ e.source ≠ q ∧ e.target ≠ q := by
    intro e he
    simpa only [List.mem_filter, Bool.not_eq_true', ← Bool.not_eq_true, Edge.touches_iff,
      not_or] using he
  exact {
    source_mem := by
      intro e he
      obtain ⟨he, hs, -⟩ := hedges e he
      exact (hmem _).2 ⟨hs, h.source_mem e he⟩
    target_mem := by
      intro e he
      obtain ⟨he, -, ht⟩ := hedges e he
      exact (hmem _).2 ⟨ht, h.target_mem e he⟩
    label_ne_empty := by
      intro e he
      exact h.label_ne_empty e (hedges e he).1
    nodup_ends := h.nodup_ends.sublist (List.filter_sublist.map Edge.ends)
    initial_mem := by
      intro p hp
      have hinitial : d.initial = some p ∧ p ≠ q := by
        by_cases hq : d.initial = some q
        · rw [if_pos hq] at hp
          cases hp
        · rw [if_neg hq] at hp
          exact ⟨hp, fun hpq => hq (hpq ▸ hp)⟩
      exact (hmem p).2 ⟨hinitial.2, h.initial_mem p hinitial.1⟩
    finals_mem := by
      intro p hp
      obtain ⟨hp, hne⟩ := OrderedSet.mem_erase.1 hp
      exact (hmem p).2 ⟨hne, h.finals_mem p hp⟩
    table_eq := rfl
    ascending := h.ascending.sublist List.erase_sublist
    fresh := by
      intro p hp
      exact h.fresh p ((hmem p).1 hp).2 }

/-- Marks may be moved among the states that are present. -/
theorem withMarks (h : d.WellFormed) {initial : Option StateId} {finals : StateSet}
    (hinitial : ∀ q, initial = some q → q ∈ d.states) (hfinals : ∀ q ∈ finals, q ∈ d.states) :
    WellFormed { d with initial, finals } :=
  ⟨h.source_mem, h.target_mem, h.label_ne_empty, h.nodup_ends, hinitial, hfinals, h.table_eq,
    h.ascending, h.fresh⟩

theorem toggleInitial (h : d.WellFormed) {q : StateId} (hq : q ∈ d.states) :
    WellFormed { d with initial := if d.initial = some q then none else some q } := by
  refine h.withMarks ?_ h.finals_mem
  intro p hp
  by_cases hd : d.initial = some q
  · rw [if_pos hd] at hp
    cases hp
  · rw [if_neg hd] at hp
    rwa [← Option.some.inj hp]

theorem markFinal (h : d.WellFormed) {q : StateId} (hq : q ∈ d.states) :
    WellFormed { d with finals := d.finals.insert q } := by
  refine h.withMarks h.initial_mem ?_
  intro p hp
  rcases OrderedSet.mem_insert.1 hp with rfl | hp
  · exact hq
  · exact h.finals_mem p hp

theorem unmarkFinal (h : d.WellFormed) (q : StateId) :
    WellFormed { d with finals := d.finals.erase q } :=
  h.withMarks h.initial_mem fun p hp => h.finals_mem p (OrderedSet.mem_erase.1 hp).1

theorem setLabel (h : d.WellFormed) {source target : StateId} {label : Label}
    (hpermits : d.permits source target label = .ok ()) :
    (d.withEdges (d.edgesWith source target label)).WellFormed := by
  obtain ⟨hs, ht, hl, -⟩ := permits_eq_ok_iff.1 hpermits
  exact h.withEdges (Drawing.forall_mem_edgesWith hs h.source_mem)
    (Drawing.forall_mem_edgesWith ht h.target_mem)
    (Drawing.forall_mem_edgesWith hl h.label_ne_empty)
    (Drawing.nodup_ends_edgesWith h.nodup_ends source target label)

theorem setMode (h : d.WellFormed) (mode : Mode) : WellFormed { d with mode } :=
  ⟨h.source_mem, h.target_mem, h.label_ne_empty, h.nodup_ends, h.initial_mem, h.finals_mem,
    h.table_eq, h.ascending, h.fresh⟩

end WellFormed

/-- The next number goes up by one for each state that is added, and only then. -/
theorem nextId_apply (d : Diagram) (e : Edit) :
    (d.apply e).diagram.nextId = if e = .addState then d.nextId + 1 else d.nextId := by
  have heffect := d.effect_apply e
  generalize d.apply e = edited at heffect ⊢
  cases heffect with
  | nothing hidle => rw [if_neg hidle.ne_addState]
  | _ => rfl

theorem toNat_nextId_apply {d : Diagram} {e : Edit}
    (hid : d.nextId.toNat + [e].count .addState < UInt32.size) :
    (d.apply e).diagram.nextId.toNat = d.nextId.toNat + [e].count .addState := by
  rw [nextId_apply]
  by_cases he : e = .addState
  · subst he
    rw [if_pos rfl, UInt32.toNat_add]
    simp only [List.count_singleton_self] at hid ⊢
    exact Nat.mod_eq_of_lt hid
  · rw [if_neg he, List.count_eq_zero_of_not_mem (by simpa using Ne.symm he)]
    rfl

theorem WellFormed.apply {d : Diagram} (h : d.WellFormed) {e : Edit}
    (hid : d.nextId.toNat + [e].count .addState < UInt32.size) :
    (d.apply e).diagram.WellFormed := by
  have heffect := d.effect_apply e
  generalize d.apply e = edited at heffect ⊢
  cases heffect with
  | nothing _ => exact h
  | addState => exact h.addState hid
  | removeState _ => exact h.removeState _
  | toggleInitial hq => exact h.toggleInitial hq
  | markFinal hq _ => exact h.markFinal hq
  | unmarkFinal _ _ => exact h.unmarkFinal _
  | merge _ hpermits => exact h.setLabel hpermits
  | relabel hpermits => exact h.setLabel hpermits
  | disconnect _ => exact h.filter_edges _
  | setMode mode => exact h.setMode mode

/-- What every edit keeps true while there are numbers left, all edits together keep true. -/
theorem preserved_applyAll {P : Diagram → Prop}
    (hstep : ∀ d e, P d → d.nextId.toNat + [e].count .addState < UInt32.size →
      P (d.apply e).diagram)
    {d : Diagram} (h : P d) (es : List Edit)
    (hid : d.nextId.toNat + es.count .addState < UInt32.size) :
    P (d.applyAll es).diagram ∧
      (d.applyAll es).diagram.nextId.toNat = d.nextId.toNat + es.count .addState := by
  -- The numbers left must suffice for the edits left, so the count is split edit by edit.
  induction es generalizing d with
  | nil => exact ⟨h, rfl⟩
  | cons e es ih =>
      rw [count_addState_cons] at hid ⊢
      have hnext := toNat_nextId_apply (d := d) (e := e) (by omega)
      have hrest := ih (hstep d e h (by omega)) (by omega)
      rw [diagram_applyAll_cons]
      exact ⟨hrest.1, by omega⟩

theorem WellFormed.applyAll {d : Diagram} (h : d.WellFormed) (es : List Edit)
    (hid : d.nextId.toNat + es.count .addState < UInt32.size) :
    (d.applyAll es).diagram.WellFormed ∧
      (d.applyAll es).diagram.nextId.toNat = d.nextId.toNat + es.count .addState :=
  preserved_applyAll (fun _ _ h hid => h.apply hid) h es hid

/-- The diagrams that edits can make of an empty one, however many of them are refused, before the
numbers of states run out. -/
def Reachable (d : Diagram) : Prop :=
  ∃ mode es, es.count .addState < UInt32.size ∧ ((new mode).applyAll es).diagram = d

theorem Reachable.wellFormed {d : Diagram} (h : d.Reachable) : d.WellFormed := by
  obtain ⟨mode, es, hes, rfl⟩ := h
  exact ((wellFormed_new mode).applyAll es (by change 0 + _ < _; omega)).1

/-- A snapshot mentions only states that it has. -/
theorem WellFormed.snapshot {d : Diagram} (h : d.WellFormed) {mode : Mode} {A : Automaton}
    (hA : d.snapshot mode = .ok A) :
    A.initial ∈ A.states ∧ A.finals ≠ ∅ ∧ (∀ q ∈ A.finals, q ∈ A.states) ∧
      ∀ m ∈ A.table, m.source ∈ A.states ∧ m.target ∈ A.states := by
  obtain ⟨q, hq, hfinals, rfl⟩ := snapshot_eq_ok_iff.1 hA
  simp only [OrderedSet.mem_ofList]
  refine ⟨h.initial_mem q hq, hfinals, h.finals_mem, ?_⟩
  intro m hm
  rw [h.table_eq] at hm
  obtain ⟨e, he, hs, -, ht⟩ := TransitionTable.mem_ofEdges.1 hm
  rw [← hs, ← ht]
  exact ⟨h.source_mem e he, h.target_mem e he⟩

/-- Whatever edits made a diagram, it is well formed, so that its snapshots are closed. It has a
snapshot unless no state is initial, which is the fault named first, or none is final. -/
theorem reachable_diagrams_are_sound (d : Diagram) (h : d.Reachable) :
    d.WellFormed ∧ ∀ mode,
      (∀ A, d.snapshot mode = .ok A → A.initial ∈ A.states ∧ A.finals ≠ ∅ ∧
        (∀ q ∈ A.finals, q ∈ A.states) ∧ ∀ m ∈ A.table, m.source ∈ A.states ∧ m.target ∈ A.states) ∧
      (d.snapshot mode = .error .missingInitial ↔ d.initial = none) ∧
      (d.snapshot mode = .error .missingFinal ↔ d.initial ≠ none ∧ d.finals = ∅) :=
  ⟨h.wellFormed, fun _ => ⟨fun _ hA => h.wellFormed.snapshot hA, snapshot_eq_missingInitial_iff,
    snapshot_eq_missingFinal_iff⟩⟩

/-- Two of these edits are refused, one for determinism and one for an absent state; the last
removal takes the only final state and an edge with it. -/
theorem sound_after_refused_edits :
    let d := ((new .nfa).applyAll [.addState, .addState,
      .merge (.ofNat 0) (.ofNat 1) (.ofList [.char 'a', .char 'c']),
      .merge (.ofNat 0) (.ofNat 0) (.ofList [.char 'b']), .toggleInitial (.ofNat 0),
      .toggleFinal (.ofNat 1), .setMode .dfa, .merge (.ofNat 0) (.ofNat 0) (.ofList [.char 'a']),
      .relabel (.ofNat 0) (.ofNat 7) ∅, .removeState (.ofNat 1), .addState]).diagram
    d.Reachable ∧ d.states = [.ofNat 0, .ofNat 2] ∧
      d.edges = [⟨.ofNat 0, .ofNat 0, .ofList [.char 'b']⟩] ∧ d.WellFormed ∧
      d.snapshot .dfa = .error .missingFinal := by
  intro d
  have h : d.Reachable := ⟨.nfa, _, by decide, rfl⟩
  have hsound := reachable_diagrams_are_sound d h
  exact ⟨h, by decide, by decide, hsound.1, (hsound.2 .dfa).2.2.2 ⟨by decide, by decide⟩⟩

end Diagram

end FiniteAutomata
