import FiniteAutomata.Editor
import FiniteAutomata.Proofs.DiagramInvariant

/-!
# Numbers of states

States are numbered in the order in which they are added, and no number is given twice. So a state
that was removed stays away: its number has been passed, and edits that name it bring back neither
the state nor a mark or an edge of it.
-/

namespace FiniteAutomata

def Change.added? : Change → Option StateId
  | .stateAdded q => some q
  | _ => none

namespace Diagram

/-- What it means that a state is not there. It has no mark, no edge and no move. An edit of a label
that names it is refused, on its account or on that of a source that is not there either; any other
edit that names it does nothing and announces nothing. -/
structure Absent (d : Diagram) (q : StateId) : Prop where
  not_mem_states : q ∉ d.states
  initial_ne : d.initial ≠ some q
  not_mem_finals : q ∉ d.finals
  not_touches : ∀ e ∈ d.edges, ¬ e.touches q
  not_mentions : ¬ d.table.mentions q
  label_from : ∀ p label, d.edit (.merge q p label) = .error (.unknownState q) ∧
    d.edit (.relabel q p label) = .error (.unknownState q)
  label_to : ∀ p label,
    d.edit (.merge p q label) = .error (.unknownState (if p ∈ d.states then q else p)) ∧
      d.edit (.relabel p q label) = .error (.unknownState (if p ∈ d.states then q else p))
  disconnect : ∀ p, d.edit (.disconnect q p) = .ok ⟨d, []⟩ ∧ d.edit (.disconnect p q) = .ok ⟨d, []⟩
  toggleInitial : d.edit (.toggleInitial q) = .ok ⟨d, []⟩
  toggleFinal : d.edit (.toggleFinal q) = .ok ⟨d, []⟩
  removeState : d.edit (.removeState q) = .ok ⟨d, []⟩

variable {d : Diagram} {p q : StateId} {e : Edit}

/-! ### Absent states -/

theorem permits_of_source_not_mem (hq : q ∉ d.states) (p : StateId) (label : Label) :
    d.permits q p label = .error (.unknownState q) := by
  simp [permits, hq]

theorem permits_of_target_not_mem (hq : q ∉ d.states) (p : StateId) (label : Label) :
    d.permits p q label = .error (.unknownState (if p ∈ d.states then q else p)) := by
  by_cases hp : p ∈ d.states <;> simp [permits, hp, hq]

theorem disconnect_eq_self (h : ∀ e ∈ d.edges, ¬ e.joins p q) : d.disconnect p q = ⟨d, []⟩ := by
  have hnone : ¬ d.edges.any (·.joins p q) := by simpa using h
  exact if_neg hnone

theorem exists_touches_of_mentions {edges : List Edge}
    (h : (TransitionTable.ofEdges edges).mentions q) : ∃ e ∈ edges, e.touches q := by
  obtain ⟨m, hm, hmq⟩ := List.any_eq_true.1 h
  obtain ⟨e, he, hs, -, ht⟩ := TransitionTable.mem_ofEdges.1 hm
  have htouches : e.source = q ∨ e.target = q := by simpa [hs, ht] using hmq
  exact ⟨e, he, Edge.touches_iff.2 htouches⟩

theorem WellFormed.not_touches (h : d.WellFormed) (hq : q ∉ d.states) :
    ∀ e ∈ d.edges, ¬ e.touches q := by
  intro e he htouches
  rcases Edge.touches_iff.1 htouches with rfl | rfl
  · exact hq (h.source_mem e he)
  · exact hq (h.target_mem e he)

theorem WellFormed.absent (h : d.WellFormed) (hq : q ∉ d.states) : d.Absent q := by
  have haway := h.not_touches hq
  have hends : ∀ e ∈ d.edges, ∀ p, ¬ e.joins q p ∧ ¬ e.joins p q := by
    intro e he p
    obtain ⟨hs, ht⟩ := not_or.1 (mt Edge.touches_iff.2 (haway e he))
    simp [Edge.joins, hs, ht]
  have hmoves : ¬ d.table.mentions q := by
    rw [h.table_eq]
    intro hmentions
    obtain ⟨e, he, htouches⟩ := exists_touches_of_mentions hmentions
    exact haway e he htouches
  exact {
    not_mem_states := hq
    initial_ne := fun hinitial => hq (h.initial_mem q hinitial)
    not_mem_finals := fun hfinal => hq (h.finals_mem q hfinal)
    not_touches := haway
    not_mentions := hmoves
    label_from := fun p label => ⟨relabel_of_refused (permits_of_source_not_mem hq p _),
      relabel_of_refused (permits_of_source_not_mem hq p label)⟩
    label_to := fun p label => ⟨relabel_of_refused (permits_of_target_not_mem hq p _),
      relabel_of_refused (permits_of_target_not_mem hq p label)⟩
    disconnect := fun p =>
      ⟨congrArg Except.ok (disconnect_eq_self fun e he => (hends e he p).1),
        congrArg Except.ok (disconnect_eq_self fun e he => (hends e he p).2)⟩
    toggleInitial := congrArg Except.ok (if_neg hq)
    toggleFinal := congrArg Except.ok (if_neg hq)
    removeState := congrArg Except.ok (if_neg hq) }

/-! ### Numbers that are passed -/

/-- A state that is not there although its number is below the next one. -/
structure Passed (d : Diagram) (q : StateId) : Prop where
  not_mem : q ∉ d.states
  lt_next : q < d.nextState

/-- An edit brings in no state but the next one. -/
theorem mem_states_of_apply (h : p ∈ (d.apply e).diagram.states) :
    p ∈ d.states ∨ p = d.nextState := by
  have heffect := d.effect_apply e
  generalize d.apply e = edited at heffect h
  cases heffect with
  | addState => simpa using h
  | removeState _ => exact .inl (List.mem_of_mem_erase h)
  | _ => exact .inl h

theorem Passed.apply (h : d.Passed q)
    (hid : d.nextId.toNat + [e].count .addState < UInt32.size) :
    (d.apply e).diagram.Passed q where
  not_mem hq := by
    rcases mem_states_of_apply hq with hq | rfl
    · exact h.not_mem hq
    · exact UInt32.lt_irrefl _ h.lt_next
  lt_next := by
    have hlt : q.raw.toNat < d.nextId.toNat := UInt32.lt_iff_toNat_lt.1 h.lt_next
    have hnext := toNat_nextId_apply hid
    rw [StateId.lt_iff_raw_lt, UInt32.lt_iff_toNat_lt]
    change q.raw.toNat < (d.apply e).diagram.nextId.toNat
    omega

theorem Passed.applyAll (h : d.Passed q) (es : List Edit)
    (hid : d.nextId.toNat + es.count .addState < UInt32.size) :
    (d.applyAll es).diagram.Passed q :=
  (preserved_applyAll (P := (·.Passed q)) (fun _ _ h hid => h.apply hid) h es hid).1

theorem WellFormed.passed_removeState (h : d.WellFormed) (hq : q ∈ d.states) :
    (d.apply (.removeState q)).diagram.Passed q := by
  have heffect := d.effect_apply (.removeState q)
  generalize d.apply (.removeState q) = edited at heffect ⊢
  cases heffect with
  | nothing hidle => exact absurd hq hidle
  | removeState _ => exact ⟨h.nodup_states.not_mem_erase, h.fresh q hq⟩

/-- A state that one of the edits removes is absent after them all. -/
theorem absent_of_removeState (mode : Mode) {before after : List Edit} {q : StateId}
    (hes : (before ++ .removeState q :: after).count .addState < UInt32.size)
    (hq : q ∈ ((new mode).applyAll before).diagram.states) :
    ((new mode).applyAll (before ++ .removeState q :: after)).diagram.Absent q := by
  have hnew := wellFormed_new mode
  have hid : (new mode).nextId.toNat + (before ++ .removeState q :: after).count .addState <
      UInt32.size := by
    change 0 + _ < _
    omega
  refine (hnew.applyAll _ hid).1.absent ?_
  rw [List.count_append, count_addState_cons] at hid
  obtain ⟨hbefore, hnext⟩ := hnew.applyAll before (by omega)
  have hremove := toNat_nextId_apply (d := ((new mode).applyAll before).diagram)
    (e := .removeState q) (by omega)
  rw [diagram_applyAll_append, diagram_applyAll_cons]
  exact ((hbefore.passed_removeState hq).applyAll after (by omega)).not_mem

/-! ### Numbers that are given -/

theorem filterMap_added?_changes_apply (d : Diagram) (e : Edit) :
    (d.apply e).changes.filterMap Change.added? = if e = .addState then [d.nextState] else [] := by
  have heffect := d.effect_apply e
  generalize d.apply e = edited at heffect ⊢
  cases heffect with
  | nothing hidle =>
      rw [if_neg hidle.ne_addState]
      rfl
  | removeState _ =>
      have hedges (es : List Edge) :
          (es.map fun e => Change.edgeRemoved e.source e.target).filterMap Change.added? = [] := by
        simp [List.filterMap_map, Function.comp_def, Change.added?]
      rw [List.filterMap_append, List.filterMap_append, hedges]
      split <;> rfl
  | _ => rfl

/-- The states announced have the numbers from the next one on. -/
theorem map_toNat_added?_changes (es : List Edit)
    (hid : d.nextId.toNat + es.count .addState < UInt32.size) :
    ((d.applyAll es).changes.filterMap Change.added?).map (·.raw.toNat) =
      List.range' d.nextId.toNat (es.count .addState) := by
  induction es generalizing d with
  | nil => rfl
  | cons e es ih =>
      rw [count_addState_cons] at hid ⊢
      have hnext := toNat_nextId_apply (d := d) (e := e) (by omega)
      have hrest := ih (d := (d.apply e).diagram) (by omega)
      have hfirst : ((d.apply e).changes.filterMap Change.added?).map (·.raw.toNat) =
          List.range' d.nextId.toNat ([e].count .addState) := by
        rw [filterMap_added?_changes_apply]
        by_cases he : e = .addState <;> simp [he, nextState]
      rw [applyAll, List.filterMap_append, List.map_append, hfirst, hrest, hnext,
        List.range'_append_1]

end Diagram

namespace Editor

variable {e : Editor} {a : Action} {as : List Action}

/-- A reply names a state as added where the diagram takes its next one. -/
theorem added?_perform (e : Editor) (a : Action) :
    (e.perform a).added? = if a = .edit .addState then some e.diagram.nextState else none := by
  have hcommit (edited : Except EditError Edited) : (e.commit .done edited).added? = none := by
    cases edited <;> rfl
  cases a with
  | edit x =>
      have hdone := hcommit (e.diagram.edit x)
      cases x with
      | addState => rfl
      | _ => exact hdone
  | connect source target text => exact hcommit _
  | editLabel source target text => exact hcommit _
  | run w =>
      rw [perform]
      cases e.run w <;> rfl
  | step w =>
      rw [perform]
      cases e.step w <;> rfl
  | clear => rfl

/-- What a reply names as added is announced as well. -/
theorem filterMap_added?_changes_perform (e : Editor) (a : Action) :
    (e.perform a).changes.filterMap Change.added? = (e.perform a).added?.toList := by
  have hchanges := congrArg Edited.changes (e.edited_perform a)
  change (e.perform a).changes = _ at hchanges
  rw [hchanges, added?_perform]
  cases hx : a.edit? with
  | none =>
      have ha : a ≠ .edit .addState := by
        intro ha
        rw [Action.edit?_eq_some_addState_iff.2 ha] at hx
        cases hx
      rw [if_neg ha]
      rfl
  | some x =>
      have ha : a = .edit .addState ↔ x = .addState := by
        rw [← Action.edit?_eq_some_addState_iff, hx, Option.some.injEq]
      simp only [Option.elim_some, Diagram.filterMap_added?_changes_apply, ha]
      split <;> rfl

theorem added_eq (e : Editor) (as : List Action) :
    e.added as = ((e.responses as).flatMap Response.changes).filterMap Change.added? := by
  induction as generalizing e with
  | nil => rfl
  | cons a as ih =>
      rw [responses, List.flatMap_cons, List.filterMap_append, filterMap_added?_changes_perform,
        ← ih, added, responses, List.filterMap_cons]
      cases (e.perform a).added? <;> rfl

theorem count_addState_filterMap_edit? (as : List Action) :
    (as.filterMap Action.edit?).count .addState = as.count (.edit .addState) := by
  rw [List.count_filterMap, List.count_eq_countP]
  refine List.countP_congr fun a _ => ?_
  simp [Action.edit?_eq_some_addState_iff]

theorem map_toNat_added (hid : e.diagram.nextId.toNat + as.count (.edit .addState) < UInt32.size) :
    (e.added as).map (·.raw.toNat) =
      List.range' e.diagram.nextId.toNat (as.count (.edit .addState)) := by
  rw [← count_addState_filterMap_edit?] at hid ⊢
  rw [added_eq, changes_responses, Diagram.map_toNat_added?_changes _ hid]

theorem pairwise_lt_added
    (hid : e.diagram.nextId.toNat + as.count (.edit .addState) < UInt32.size) :
    (e.added as).Pairwise (· < ·) := by
  have hascending : ((e.added as).map (·.raw.toNat)).Pairwise (· < ·) := by
    rw [map_toNat_added hid]
    exact List.pairwise_lt_range'
  rw [List.pairwise_map] at hascending
  exact hascending.imp fun hlt => UInt32.lt_iff_toNat_lt.2 hlt

/-- Whatever is done with a new editor, each addition of a state is answered with a state, as it is
announced; these are in ascending order, so that none is named twice. A state that one of the
actions removes is absent ever after. -/
theorem removed_states_stay_absent (settings : Settings) (as : List Action)
    (has : as.count (.edit .addState) < UInt32.size) :
    ((new settings).added as).length = as.count (.edit .addState) ∧
      ((new settings).added as).Nodup ∧ ((new settings).added as).Pairwise (· < ·) ∧
      (((new settings).responses as).flatMap Response.changes).filterMap Change.added? =
        (new settings).added as ∧
      ∀ before q after, as = before ++ .edit (.removeState q) :: after →
        q ∈ ((new settings).performAll before).diagram.states →
          ((new settings).performAll as).diagram.Absent q := by
  have hid : (new settings).diagram.nextId.toNat + as.count (.edit .addState) < UInt32.size := by
    change 0 + _ < _
    omega
  have hascending := pairwise_lt_added hid
  refine ⟨?_, hascending.nodup, hascending, (added_eq _ as).symm, ?_⟩
  · have hlength := congrArg List.length (map_toNat_added hid)
    rwa [List.length_map, List.length_range'] at hlength
  · intro before q after hsplit hq
    have hremove : (Action.edit (.removeState q)).edit? = some (.removeState q) := rfl
    rw [diagram_performAll] at hq ⊢
    rw [← count_addState_filterMap_edit?] at has
    rw [hsplit, List.filterMap_append, List.filterMap_cons_some hremove] at has ⊢
    exact Diagram.absent_of_removeState settings.mode has hq

/-- The state removed was initial and final and had a loop. The actions after that try to bring it
back, and a state that is added gets another number. -/
theorem removed_state_not_brought_back :
    let before : List Action := [.edit .addState, .edit .addState,
      .connect (.ofNat 0) (.ofNat 1) "a",
      .edit (.merge (.ofNat 1) (.ofNat 1) (.ofList [.char 'b'])), .edit (.toggleInitial (.ofNat 1)),
      .edit (.toggleFinal (.ofNat 1)), .step ['b']]
    let after : List Action := [.connect (.ofNat 0) (.ofNat 1) "a",
      .edit (.toggleFinal (.ofNat 1)), .edit .addState, .edit (.removeState (.ofNat 1)), .step [],
      .edit (.toggleInitial (.ofNat 1)),
      .edit (.relabel (.ofNat 2) (.ofNat 0) (.ofList [.epsilon])), .edit (.setMode .dfa),
      .edit .addState]
    let as := before ++ .edit (.removeState (.ofNat 1)) :: after
    let settings : Settings := ⟨.nfa⟩
    as.count (.edit .addState) < UInt32.size ∧ ((new settings).added as).Pairwise (· < ·) ∧
      (new settings).added as = [.ofNat 0, .ofNat 1, .ofNat 2, .ofNat 3] ∧
      .ofNat 1 ∈ ((new settings).performAll before).diagram.states ∧
      ((new settings).performAll as).diagram.states = [.ofNat 0, .ofNat 2, .ofNat 3] ∧
      ((new settings).performAll as).diagram.Absent (.ofNat 1) := by
  intro before after as settings
  have has : as.count (.edit .addState) < UInt32.size := by decide
  have hmem : .ofNat 1 ∈ ((new settings).performAll before).diagram.states := by decide
  obtain ⟨-, -, hascending, -, habsent⟩ := removed_states_stay_absent settings as has
  exact ⟨has, hascending, by decide, hmem, by decide, habsent before _ after rfl hmem⟩

end Editor

end FiniteAutomata
