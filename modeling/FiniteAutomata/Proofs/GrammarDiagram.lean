import FiniteAutomata.Grammar.Construction
import FiniteAutomata.Proofs.DiagramLabels
import FiniteAutomata.Proofs.GrammarStates

/-!
# Drawing the automaton of a grammar

The automaton of a grammar can also be drawn: its states are added, the start and the accepting
state are marked, and each production is merged into the label between two states. A label that is
merged adds its own moves and no others, so a drawing shows the moves that were merged, in whatever
order.
-/

namespace FiniteAutomata

namespace Diagram

def editAll (d : Diagram) : List Edit → Except EditError Diagram
  | [] => .ok d
  | e :: es => (d.edit e).bind fun edited => edited.diagram.editAll es

variable {d d' : Diagram} {es : List Edit}

theorem editAll_cons_of_edit {e : Edit} {edited : Edited} (h : d.edit e = .ok edited) :
    d.editAll (e :: es) = edited.diagram.editAll es := by
  rw [editAll, h]
  rfl

theorem edit_of_editAll_cons {e : Edit} (h : d.editAll (e :: es) = .ok d') :
    ∃ edited, d.edit e = .ok edited ∧ edited.diagram.editAll es = .ok d' := by
  cases he : d.edit e with
  | error f =>
      rw [editAll, he] at h
      cases h
  | ok edited =>
      rw [editAll_cons_of_edit he] at h
      exact ⟨edited, rfl, h⟩

theorem editAll_append_of_editAll (h : d.editAll es = .ok d') (fs : List Edit) :
    d.editAll (es ++ fs) = d'.editAll fs := by
  induction es generalizing d with
  | nil =>
      cases h
      rfl
  | cons e es ih =>
      obtain ⟨edited, hedit, hes⟩ := edit_of_editAll_cons h
      rw [List.cons_append, editAll_cons_of_edit hedit, ih hes]

/-- Where no edit is refused, the diagram is the one that the history of the edits makes. -/
theorem diagram_applyAll_of_editAll (h : d.editAll es = .ok d') :
    (d.applyAll es).diagram = d' := by
  induction es generalizing d with
  | nil => exact Except.ok.inj h
  | cons e es ih =>
      obtain ⟨edited, hedit, hes⟩ := edit_of_editAll_cons h
      rw [diagram_applyAll_cons, apply, hedit]
      exact ih hes

/-- The states added to an empty diagram are numbered from zero. -/
theorem editAll_replicate_addState (mode : Mode) (n : Nat) :
    (new mode).editAll (List.replicate n .addState) =
      .ok { new mode with states := (List.range n).map .ofNat, nextId := .ofNat n } := by
  induction n with
  | zero => rfl
  | succ n ih =>
      rw [List.replicate_succ', editAll_append_of_editAll ih, List.range_succ, List.map_append,
        UInt32.ofNat_add]
      rfl

/-! ### Moves that are merged -/

def mergeMove (m : Move) : Edit := .merge m.source m.target (.singleton m.symbol)

/-- The diagram `d'` is `d` with these moves, and no others, added to its table. -/
structure Gains (d : Diagram) (ms : List Move) (d' : Diagram) : Prop where
  wellFormed : d'.WellFormed
  states_eq : d'.states = d.states
  initial_eq : d'.initial = d.initial
  finals_eq : d'.finals = d.finals
  mode_eq : d'.mode = d.mode
  mem_table_iff : ∀ m, m ∈ d'.table ↔ m ∈ d.table ∨ m ∈ ms

theorem WellFormed.gains_nil (h : d.WellFormed) : d.Gains [] d :=
  ⟨h, rfl, rfl, rfl, rfl, fun _ => by simp⟩

theorem Gains.trans {d'' : Diagram} {ms ns : List Move} (h : d.Gains ms d') (h' : d'.Gains ns d'') :
    d.Gains (ms ++ ns) d'' where
  wellFormed := h'.wellFormed
  states_eq := h'.states_eq.trans h.states_eq
  initial_eq := h'.initial_eq.trans h.initial_eq
  finals_eq := h'.finals_eq.trans h.finals_eq
  mode_eq := h'.mode_eq.trans h.mode_eq
  mem_table_iff m := by rw [h'.mem_table_iff, h.mem_table_iff, List.mem_append, or_assoc]

theorem permits_merge_of_nfa {source target : StateId} (hmode : d.mode = .nfa)
    (hsource : source ∈ d.states) (htarget : target ∈ d.states) (label : Label) (a : Symbol) :
    d.permits source target (label ∪ .singleton a) = .ok () := by
  refine permits_eq_ok_iff.2 ⟨hsource, htarget, fun hempty => ?_, fun hdfa => ?_⟩
  · have ha : a ∈ label ∪ .singleton a := by simp
    simp [hempty] at ha
  · rw [hmode] at hdfa
    cases hdfa

theorem WellFormed.gains_mergeMove (h : d.WellFormed) (hmode : d.mode = .nfa) {m : Move}
    (hm : m.source ∈ d.states ∧ m.target ∈ d.states) :
    ∃ edited, d.edit (mergeMove m) = .ok edited ∧ d.Gains [m] edited.diagram := by
  have hpermits :=
    permits_merge_of_nfa hmode hm.1 hm.2 ((d.label? m.source m.target).getD ∅) m.symbol
  have hset := h.setsLabel hpermits
  refine ⟨_, relabel_of_permits hpermits, ?_⟩
  exact {
    wellFormed := h.setLabel hpermits
    states_eq := hset.states_eq
    initial_eq := hset.initial_eq
    finals_eq := hset.finals_eq
    mode_eq := hset.mode_eq
    mem_table_iff := by
      intro n
      rw [hset.mem_table_iff_of_merge h, List.mem_singleton, Move.ext_iff, OrderedSet.mem_singleton]
      tauto }

theorem WellFormed.gains_editAll (h : d.WellFormed) (hmode : d.mode = .nfa) {ms : List Move}
    (hms : ∀ m ∈ ms, m.source ∈ d.states ∧ m.target ∈ d.states) :
    ∃ d', d.editAll (ms.map mergeMove) = .ok d' ∧ d.Gains ms d' := by
  induction ms generalizing d with
  | nil => exact ⟨d, rfl, h.gains_nil⟩
  | cons m ms ih =>
      obtain ⟨hm, hms⟩ := List.forall_mem_cons.1 hms
      obtain ⟨edited, hedit, hgains⟩ := h.gains_mergeMove hmode hm
      rw [← hgains.states_eq] at hms
      obtain ⟨d', hrest, hgains'⟩ := ih hgains.wellFormed (hgains.mode_eq.trans hmode) hms
      refine ⟨d', ?_, hgains.trans hgains'⟩
      rw [List.map_cons, editAll_cons_of_edit hedit, hrest]

end Diagram

namespace Grammar

open Diagram

variable {g : Grammar}

def drawProduction (g : Grammar) : Variable × Alternative → Edit
  | (V, .epsilon) => .merge (g.stateOf V) g.acceptState (.singleton .epsilon)
  | (V, .terminal a) => .merge (g.stateOf V) g.acceptState (.singleton (.char a.letter))
  | (V, .step a B) => .merge (g.stateOf V) (g.stateOf B) (.singleton (.char a.letter))

def drawStates (g : Grammar) : List Edit :=
  List.replicate (g.vars.length + 1) .addState ++
    [.toggleInitial (g.stateOf g.start), .toggleFinal g.acceptState]

def drawing (g : Grammar) (ps : List (Variable × Alternative)) : List Edit :=
  g.drawStates ++ ps.map g.drawProduction

theorem drawProduction_eq (g : Grammar) (p : Variable × Alternative) :
    g.drawProduction p = mergeMove (p.2.moveIn g.vars p.1) := by
  obtain ⟨V, a⟩ := p
  cases a <;> rfl

/-- The diagram that has the states and the marks of the automaton, but no edges. -/
def canvas (g : Grammar) : Diagram :=
  { Diagram.new .nfa with
    states := (List.range (g.vars.length + 1)).map .ofNat
    nextId := .ofNat (g.vars.length + 1)
    initial := some (g.stateOf g.start)
    finals := .singleton g.acceptState }

theorem stateOf_mem_canvas {V : Variable} (hV : V ∈ g.vars) : g.stateOf V ∈ g.canvas.states := by
  have hlt := List.idxOf_lt_length_of_mem hV
  exact List.mem_map.2 ⟨_, List.mem_range.2 (by omega), rfl⟩

theorem acceptState_mem_canvas (g : Grammar) : g.acceptState ∈ g.canvas.states :=
  List.mem_map.2 ⟨_, List.mem_range.2 (Nat.lt_succ_self _), rfl⟩

theorem editAll_drawStates (g : Grammar) : (new .nfa).editAll g.drawStates = .ok g.canvas := by
  rw [drawStates, editAll_append_of_editAll (editAll_replicate_addState .nfa _)]
  have hstart : g.stateOf g.start ∈ g.canvas.states := stateOf_mem_canvas g.start_mem_vars
  have haccept : g.acceptState ∈ g.canvas.states := g.acceptState_mem_canvas
  have hfresh : g.acceptState ∉ (new .nfa).finals := OrderedSet.not_mem_empty _
  simp only [canvas] at hstart haccept
  simp only [editAll, edit, toggleInitial, toggleFinal, hstart, haccept, hfresh, if_true, if_false,
    Except.bind]
  rfl

theorem wellFormed_canvas (g : Grammar) : g.canvas.WellFormed := by
  rw [← diagram_applyAll_of_editAll g.editAll_drawStates]
  refine ((wellFormed_new .nfa).applyAll _ ?_).1
  have hlen := length_le_of_nodup g.nodup_vars
  have hmarks : [Edit.toggleInitial (g.stateOf g.start), .toggleFinal g.acceptState].count .addState
      = 0 := by simp
  rw [drawStates, List.count_append, List.count_replicate_self, hmarks]
  change 0 + (g.vars.length + 1 + 0) < 4294967296
  omega

theorem mem_moves_canvas {m : Move} (hm : m ∈ g.moves) :
    m.source ∈ g.canvas.states ∧ m.target ∈ g.canvas.states := by
  obtain ⟨V, a, ha, rfl⟩ := mem_table_automaton.1 (TransitionTable.mem_ofMoves.2 hm)
  have hV := stateOf_mem_canvas (left_mem_vars ha)
  cases a with
  | epsilon => exact ⟨hV, g.acceptState_mem_canvas⟩
  | terminal a => exact ⟨hV, g.acceptState_mem_canvas⟩
  | step a B => exact ⟨hV, stateOf_mem_canvas (next_mem_vars ha)⟩

/-- If a diagram has gained the moves of the grammar, in whatever order, it shows the automaton. -/
theorem snapshot_of_gains {ms : List Move} {d : Diagram} (hms : ∀ m, m ∈ ms ↔ m ∈ g.moves)
    (h : g.canvas.Gains ms d) : d.snapshot .nfa = .ok g.automaton := by
  have htable : d.table = g.automaton.table := TransitionTable.ext_mem fun m => by
    have hnone : m ∉ g.canvas.table := OrderedSet.not_mem_empty m
    rw [h.mem_table_iff, hms, or_iff_right hnone]
    exact TransitionTable.mem_ofMoves.symm
  have hfinals : d.finals ≠ ∅ := by
    rw [h.finals_eq]
    exact nofun
  refine snapshot_eq_ok_iff.2 ⟨_, h.initial_eq, hfinals, ?_⟩
  rw [htable, h.states_eq, h.finals_eq]
  rfl

/-- The automaton of a grammar can be drawn: the states are added, the start and the accepting state
are marked, and the productions are merged in any order. No edit is refused, and the diagram shows
the automaton. -/
theorem drawn_diagram_shows_automaton (g : Grammar) (ps : List (Variable × Alternative))
    (hps : ps.Perm g.productions) :
    ∃ d, (new .nfa).editAll (g.drawing ps) = .ok d ∧ d.snapshot .nfa = .ok g.automaton := by
  have hmoves : ∀ m, m ∈ ps.map (fun p => p.2.moveIn g.vars p.1) ↔ m ∈ g.moves := by
    intro m
    rw [moves_eq_map_productions]
    exact (hps.map _).mem_iff
  obtain ⟨d, hd, hgains⟩ := g.wellFormed_canvas.gains_editAll rfl
    fun m hm => mem_moves_canvas ((hmoves m).1 hm)
  refine ⟨d, ?_, snapshot_of_gains hmoves hgains⟩
  have hdraw : ps.map g.drawProduction =
      (ps.map fun p => p.2.moveIn g.vars p.1).map mergeMove := by
    rw [List.map_map]
    exact List.map_congr_left fun p _ => g.drawProduction_eq p
  rw [drawing, editAll_append_of_editAll g.editAll_drawStates, hdraw, hd]

/-- The production of the last rule is drawn first. It adds the symbol of an edge that is not there
yet; both edges of `S` get a second symbol later, and one of its productions adds nothing. -/
theorem drawing_in_another_order :
    let S : Variable := ⟨'S', by decide⟩
    let A : Variable := ⟨'A', by decide⟩
    let a : Terminal := ⟨'a', by decide⟩
    let b : Terminal := ⟨'b', by decide⟩
    let g : Grammar := ⟨[⟨S, [.step a A, .terminal b, .step b A, .step a A, .epsilon], by decide⟩,
      ⟨A, [.terminal a], by decide⟩], by decide, by decide⟩
    let ps : List (Variable × Alternative) := [(A, .terminal a), (S, .step b A), (S, .epsilon),
      (S, .step a A), (S, .terminal b), (S, .step a A)]
    ps.Perm g.productions ∧
      ∃ d, (new .nfa).editAll (g.drawing ps) = .ok d ∧ d.snapshot .nfa = .ok g.automaton ∧
        d.edges = [⟨.ofNat 1, .ofNat 2, .ofList [.char 'a']⟩,
          ⟨.ofNat 0, .ofNat 1, .ofList [.char 'a', .char 'b']⟩,
          ⟨.ofNat 0, .ofNat 2, .ofList [.epsilon, .char 'b']⟩] := by
  intro S A a b g ps
  have hps : ps.Perm g.productions := by decide
  obtain ⟨d, hd, hsnapshot⟩ := drawn_diagram_shows_automaton g ps hps
  have hedges : ((new .nfa).editAll (g.drawing ps)).map (·.edges) =
      .ok [⟨.ofNat 1, .ofNat 2, .ofList [.char 'a']⟩,
        ⟨.ofNat 0, .ofNat 1, .ofList [.char 'a', .char 'b']⟩,
        ⟨.ofNat 0, .ofNat 2, .ofList [.epsilon, .char 'b']⟩] := by decide
  rw [hd] at hedges
  exact ⟨hps, d, hd, hsnapshot, Except.ok.inj hedges⟩

end Grammar

end FiniteAutomata
