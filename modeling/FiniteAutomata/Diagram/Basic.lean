import FiniteAutomata.Automaton.Basic
import FiniteAutomata.Determinism

/-!
# Diagrams

A drawing lists states and edges in the order in which they were created and marks the initial and
the final states. A diagram is a drawing under edit: it also has a mode, the number of the next
state, and the transition table of its edges.
-/

namespace FiniteAutomata

structure Drawing where
  states : List StateId
  initial : Option StateId
  finals : StateSet
  edges : List Edge
  deriving DecidableEq

def Edge.joins (e : Edge) (source target : StateId) : Bool := e.source = source ∧ e.target = target

def Edge.touches (e : Edge) (q : StateId) : Bool := e.source = q ∨ e.target = q

def Edge.ends (e : Edge) : StateId × StateId := (e.source, e.target)

theorem Edge.joins_iff {e : Edge} {source target : StateId} :
    e.joins source target ↔ e.ends = (source, target) := by
  simp [joins, ends]

theorem Edge.touches_iff {e : Edge} {q : StateId} :
    e.touches q ↔ e.source = q ∨ e.target = q := by
  simp [touches]

/-- An edge after its label was set, if it is the one from `source` to `target`. -/
theorem Edge.relabelled_eq {e : Edge} {source target : StateId} {label : Label} :
    (if e.joins source target then { e with label } else e) =
      if e.joins source target then ⟨source, target, label⟩ else e := by
  split
  · next h =>
      obtain ⟨rfl, rfl⟩ := Prod.mk.inj (Edge.joins_iff.1 h)
      rfl
  · rfl

namespace Drawing

def blank : Drawing := ⟨[], none, ∅, []⟩

def label? (D : Drawing) (source target : StateId) : Option Label :=
  (D.edges.find? (·.joins source target)).map Edge.label

/-- The edges with `label` on the one from `source` to `target`: in its place if there is such an
edge, else on a new edge at the end. -/
def edgesWith (D : Drawing) (source target : StateId) (label : Label) : List Edge :=
  if D.edges.any (·.joins source target) then
    D.edges.map fun e => if e.joins source target then { e with label } else e
  else D.edges ++ [⟨source, target, label⟩]

theorem any_joins_iff {D : Drawing} {source target : StateId} :
    D.edges.any (·.joins source target) ↔ (source, target) ∈ D.edges.map Edge.ends := by
  simp only [List.any_eq_true, List.mem_map, Edge.joins_iff]

/-- The edge set anew is there, and of the others those that were there before. -/
theorem mem_edgesWith {D : Drawing} {source target : StateId} {label : Label} {e : Edge} :
    e ∈ D.edgesWith source target label ↔
      e = ⟨source, target, label⟩ ∨ e ∈ D.edges ∧ ¬ e.joins source target := by
  unfold edgesWith
  split
  · next h =>
      simp only [Edge.relabelled_eq, List.mem_map]
      obtain ⟨f, hf, hjoins⟩ := List.any_eq_true.1 h
      constructor
      · rintro ⟨e', he', rfl⟩
        by_cases hj : e'.joins source target
        · exact .inl (if_pos hj)
        · rw [if_neg hj]
          exact .inr ⟨he', hj⟩
      · rintro (rfl | ⟨he, hj⟩)
        · exact ⟨f, hf, if_pos hjoins⟩
        · exact ⟨e, he, if_neg hj⟩
  · next h =>
      have hnone : ∀ f ∈ D.edges, ¬ f.joins source target := by simpa using h
      rw [List.mem_append, List.mem_singleton]
      constructor
      · rintro (he | rfl)
        · exact .inr ⟨he, hnone e he⟩
        · exact .inl rfl
      · rintro (rfl | ⟨he, -⟩)
        · exact .inr rfl
        · exact .inl he

theorem forall_mem_edgesWith {D : Drawing} {source target : StateId} {label : Label}
    {P : Edge → Prop} (hnew : P ⟨source, target, label⟩) (hold : ∀ e ∈ D.edges, P e) :
    ∀ e ∈ D.edgesWith source target label, P e := by
  intro e he
  rcases mem_edgesWith.1 he with rfl | ⟨he, -⟩
  · exact hnew
  · exact hold e he

theorem map_ends_edgesWith (D : Drawing) (source target : StateId) (label : Label) :
    (D.edgesWith source target label).map Edge.ends =
      if (source, target) ∈ D.edges.map Edge.ends then D.edges.map Edge.ends
      else D.edges.map Edge.ends ++ [(source, target)] := by
  unfold edgesWith
  by_cases h : (source, target) ∈ D.edges.map Edge.ends
  · rw [if_pos (any_joins_iff.2 h), if_pos h, List.map_map]
    apply List.map_congr_left
    intro e _
    by_cases hj : e.joins source target <;> simp [hj, Edge.ends]
  · rw [if_neg (mt any_joins_iff.1 h), if_neg h, List.map_append]
    rfl

end Drawing

structure Diagram extends Drawing where
  mode : Mode
  nextId : UInt32
  table : TransitionTable
  deriving DecidableEq

namespace Diagram

def new (mode : Mode) : Diagram := { Drawing.blank with mode, nextId := 0, table := ∅ }

def nextState (d : Diagram) : StateId := ⟨d.nextId⟩

def withEdges (d : Diagram) (edges : List Edge) : Diagram :=
  { d with edges, table := .ofEdges edges }

/-- The automaton that the diagram shows now. A missing initial state is the fault named first. -/
def snapshot (d : Diagram) (mode : Mode) : Except SnapshotError Automaton :=
  match d.initial with
  | none => .error .missingInitial
  | some initial =>
    if d.finals.isEmpty then .error .missingFinal
    else .ok ⟨.ofList d.states, initial, d.finals, d.table, mode⟩

theorem snapshot_of_initial_eq_none {d : Diagram} (h : d.initial = none) (mode : Mode) :
    d.snapshot mode = .error .missingInitial := by simp only [snapshot, h]

theorem snapshot_of_initial_eq_some {d : Diagram} {q : StateId} (h : d.initial = some q)
    (mode : Mode) : d.snapshot mode = if d.finals = ∅ then .error .missingFinal
      else .ok ⟨.ofList d.states, q, d.finals, d.table, mode⟩ := by
  simp only [snapshot, h, OrderedSet.isEmpty_iff]

theorem snapshot_eq_ok_iff {d : Diagram} {mode : Mode} {A : Automaton} :
    d.snapshot mode = .ok A ↔ ∃ q, d.initial = some q ∧ d.finals ≠ ∅ ∧
      A = ⟨.ofList d.states, q, d.finals, d.table, mode⟩ := by
  cases hq : d.initial with
  | none => simp [snapshot_of_initial_eq_none hq]
  | some q =>
      rw [snapshot_of_initial_eq_some hq]
      by_cases hf : d.finals = ∅
      · simp [hf]
      · simp [hf, eq_comm]

theorem snapshot_eq_missingInitial_iff {d : Diagram} {mode : Mode} :
    d.snapshot mode = .error .missingInitial ↔ d.initial = none := by
  cases hq : d.initial with
  | none => simp [snapshot_of_initial_eq_none hq]
  | some q =>
      rw [snapshot_of_initial_eq_some hq]
      by_cases hf : d.finals = ∅ <;> simp [hf]

theorem snapshot_eq_missingFinal_iff {d : Diagram} {mode : Mode} :
    d.snapshot mode = .error .missingFinal ↔ d.initial ≠ none ∧ d.finals = ∅ := by
  cases hq : d.initial with
  | none => simp [snapshot_of_initial_eq_none hq]
  | some q =>
      rw [snapshot_of_initial_eq_some hq]
      by_cases hf : d.finals = ∅ <;> simp [hf]

end Diagram

end FiniteAutomata
