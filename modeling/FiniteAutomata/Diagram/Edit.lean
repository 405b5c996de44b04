import FiniteAutomata.Diagram.Basic

/-!
# Edits of a diagram

An edit yields the diagram after it and the changes that it announces, in order. Removals and
toggles that name an absent state or edge do nothing. An edit of a label is refused as a whole when
an endpoint is absent, when the label would be empty or, in a diagram of deterministic mode, when
the source would not be deterministic.
-/

namespace FiniteAutomata

inductive Change
  | stateAdded (q : StateId)
  | stateRemoved (q : StateId)
  | initialChanged (q : Option StateId)
  | finalChanged (q : StateId) (isFinal : Bool)
  | edgeChanged (source target : StateId) (label : Label)
  | edgeRemoved (source target : StateId)
  deriving DecidableEq

structure Edited where
  diagram : Diagram
  changes : List Change
  deriving DecidableEq

namespace Diagram

def addState (d : Diagram) : Edited where
  diagram := { d with states := d.states ++ [d.nextState], nextId := d.nextId + 1 }
  changes := [.stateAdded d.nextState]

def removeState (d : Diagram) (q : StateId) : Edited :=
  if q ∈ d.states then
    { diagram := withEdges
        { d with
          states := d.states.erase q
          initial := if d.initial = some q then none else d.initial
          finals := d.finals.erase q }
        (d.edges.filter (! ·.touches q))
      changes := (if d.initial = some q then [.initialChanged none] else []) ++
        (d.edges.filter (·.touches q)).map (fun e => .edgeRemoved e.source e.target) ++
        [.stateRemoved q] }
  else ⟨d, []⟩

/-- Makes `q` the initial state, or no state if it is `q` already. -/
def toggleInitial (d : Diagram) (q : StateId) : Edited :=
  if q ∈ d.states then
    let initial := if d.initial = some q then none else some q
    ⟨{ d with initial }, [.initialChanged initial]⟩
  else ⟨d, []⟩

def toggleFinal (d : Diagram) (q : StateId) : Edited :=
  if q ∈ d.states then
    if q ∈ d.finals then ⟨{ d with finals := d.finals.erase q }, [.finalChanged q false]⟩
    else ⟨{ d with finals := d.finals.insert q }, [.finalChanged q true]⟩
  else ⟨d, []⟩

def permits (d : Diagram) (source target : StateId) (label : Label) : Except EditError Unit :=
  if source ∉ d.states then .error (.unknownState source)
  else if target ∉ d.states then .error (.unknownState target)
  else if label.isEmpty then .error .emptyLabel
  else
    match d.mode with
    | .nfa => .ok ()
    | .dfa => Determinism.check d.edges source target label

theorem permits_eq_ok_iff {d : Diagram} {source target : StateId} {label : Label} :
    d.permits source target label = .ok () ↔ source ∈ d.states ∧ target ∈ d.states ∧ label ≠ ∅ ∧
      (d.mode = .dfa → Determinism.check d.edges source target label = .ok ()) := by
  unfold permits
  by_cases hs : source ∈ d.states
  · by_cases ht : target ∈ d.states
    · by_cases hl : label = ∅
      · simp [hs, ht, hl, OrderedSet.isEmpty_iff]
      · cases hm : d.mode <;> simp [hs, ht, hl, OrderedSet.isEmpty_iff]
    · simp [hs, ht]
  · simp [hs]

/-- Puts `label` on the edge from `source` to `target`, which is created if there is none. -/
def relabel (d : Diagram) (source target : StateId) (label : Label) : Except EditError Edited :=
  (d.permits source target label).map fun _ =>
    ⟨d.withEdges (d.edgesWith source target label), [.edgeChanged source target label]⟩

theorem relabel_of_permits {d : Diagram} {source target : StateId} {label : Label}
    (h : d.permits source target label = .ok ()) : d.relabel source target label =
      .ok ⟨d.withEdges (d.edgesWith source target label), [.edgeChanged source target label]⟩ := by
  rw [relabel, h]
  rfl

theorem relabel_of_refused {d : Diagram} {source target : StateId} {label : Label} {f : EditError}
    (h : d.permits source target label = .error f) : d.relabel source target label = .error f := by
  rw [relabel, h]
  rfl

def merge (d : Diagram) (source target : StateId) (label : Label) : Except EditError Edited :=
  d.relabel source target ((d.label? source target).getD ∅ ∪ label)

/-- Merges a label given in writing. A fault in the writing comes before any other. -/
def connect (d : Diagram) (source target : StateId) (text : String) : Except EditError Edited :=
  (Label.parse text).bind (d.merge source target)

def editLabel (d : Diagram) (source target : StateId) (text : String) : Except EditError Edited :=
  (Label.parse text).bind (d.relabel source target)

def disconnect (d : Diagram) (source target : StateId) : Edited :=
  if d.edges.any (·.joins source target) then
    ⟨d.withEdges (d.edges.filter (! ·.joins source target)), [.edgeRemoved source target]⟩
  else ⟨d, []⟩

/-- Edges that the mode would have refused stay as they are. -/
def setMode (d : Diagram) (mode : Mode) : Edited := ⟨{ d with mode }, []⟩

end Diagram

inductive Edit
  | addState
  | removeState (q : StateId)
  | toggleInitial (q : StateId)
  | toggleFinal (q : StateId)
  | merge (source target : StateId) (label : Label)
  | relabel (source target : StateId) (label : Label)
  | disconnect (source target : StateId)
  | setMode (mode : Mode)
  deriving DecidableEq

namespace Diagram

def edit (d : Diagram) : Edit → Except EditError Edited
  | .addState => .ok d.addState
  | .removeState q => .ok (d.removeState q)
  | .toggleInitial q => .ok (d.toggleInitial q)
  | .toggleFinal q => .ok (d.toggleFinal q)
  | .merge source target label => d.merge source target label
  | .relabel source target label => d.relabel source target label
  | .disconnect source target => .ok (d.disconnect source target)
  | .setMode mode => .ok (d.setMode mode)

end Diagram

end FiniteAutomata
