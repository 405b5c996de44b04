import FiniteAutomata.Diagram.Edit

/-!
# Histories of edits

Edits are applied one after another. One that is refused leaves the diagram as it is and announces
nothing.
-/

namespace FiniteAutomata.Diagram

def apply (d : Diagram) (e : Edit) : Edited :=
  match d.edit e with
  | .ok edited => edited
  | .error _ => ⟨d, []⟩

theorem apply_merge (d : Diagram) (source target : StateId) (label : Label) :
    d.apply (.merge source target label) =
      d.apply (.relabel source target ((d.label? source target).getD ∅ ∪ label)) := rfl

/-- A label is set where it is permitted; else nothing happens. -/
theorem apply_relabel_cases (d : Diagram) (source target : StateId) (label : Label) :
    d.permits source target label = .ok () ∧ d.apply (.relabel source target label) =
        ⟨d.withEdges (d.edgesWith source target label), [.edgeChanged source target label]⟩ ∨
      (∃ f, d.permits source target label = .error f) ∧
        d.apply (.relabel source target label) = ⟨d, []⟩ := by
  cases hp : d.permits source target label with
  | ok => exact .inl ⟨rfl, by rw [apply, edit, relabel_of_permits hp]⟩
  | error f => exact .inr ⟨⟨f, rfl⟩, by rw [apply, edit, relabel_of_refused hp]⟩

/-- An edit is idle if it would take away or mark what is absent, or set a label that is not
permitted. -/
def Idle (d : Diagram) : Edit → Prop
  | .addState | .setMode _ => False
  | .removeState q | .toggleInitial q | .toggleFinal q => q ∉ d.states
  | .merge source target label =>
    ∃ f, d.permits source target ((d.label? source target).getD ∅ ∪ label) = .error f
  | .relabel source target label => ∃ f, d.permits source target label = .error f
  | .disconnect source target => ¬ d.edges.any (·.joins source target)

theorem Idle.ne_addState {d : Diagram} {e : Edit} (h : d.Idle e) : e ≠ .addState := by
  rintro rfl
  exact h

inductive Effect (d : Diagram) : Edit → Edited → Prop
  | nothing {e : Edit} : d.Idle e → Effect d e ⟨d, []⟩
  | addState : Effect d .addState
      ⟨{ d with states := d.states ++ [d.nextState], nextId := d.nextId + 1 },
        [.stateAdded d.nextState]⟩
  | removeState {q : StateId} : q ∈ d.states → Effect d (.removeState q)
      ⟨withEdges
        { d with
          states := d.states.erase q
          initial := if d.initial = some q then none else d.initial
          finals := d.finals.erase q }
        (d.edges.filter (! ·.touches q)),
      (if d.initial = some q then [.initialChanged none] else []) ++
        (d.edges.filter (·.touches q)).map (fun e => .edgeRemoved e.source e.target) ++
        [.stateRemoved q]⟩
  | toggleInitial {q : StateId} : q ∈ d.states → Effect d (.toggleInitial q)
      ⟨{ d with initial := if d.initial = some q then none else some q },
        [.initialChanged (if d.initial = some q then none else some q)]⟩
  | markFinal {q : StateId} : q ∈ d.states → q ∉ d.finals → Effect d (.toggleFinal q)
      ⟨{ d with finals := d.finals.insert q }, [.finalChanged q true]⟩
  | unmarkFinal {q : StateId} : q ∈ d.states → q ∈ d.finals → Effect d (.toggleFinal q)
      ⟨{ d with finals := d.finals.erase q }, [.finalChanged q false]⟩
  | merge {source target : StateId} {more label : Label} :
      label = (d.label? source target).getD ∅ ∪ more → d.permits source target label = .ok () →
      Effect d (.merge source target more)
        ⟨d.withEdges (d.edgesWith source target label), [.edgeChanged source target label]⟩
  | relabel {source target : StateId} {label : Label} : d.permits source target label = .ok () →
      Effect d (.relabel source target label)
        ⟨d.withEdges (d.edgesWith source target label), [.edgeChanged source target label]⟩
  | disconnect {source target : StateId} : d.edges.any (·.joins source target) →
      Effect d (.disconnect source target)
        ⟨d.withEdges (d.edges.filter (! ·.joins source target)), [.edgeRemoved source target]⟩
  | setMode (mode : Mode) : Effect d (.setMode mode) ⟨{ d with mode }, []⟩

theorem effect_apply (d : Diagram) (e : Edit) : d.Effect e (d.apply e) := by
  cases e with
  | addState => exact .addState
  | removeState q =>
      simp only [apply, edit, removeState]
      split
      · next hq => exact .removeState hq
      · next hq => exact .nothing hq
  | toggleInitial q =>
      simp only [apply, edit, toggleInitial]
      split
      · next hq => exact .toggleInitial hq
      · next hq => exact .nothing hq
  | toggleFinal q =>
      simp only [apply, edit, toggleFinal]
      split
      · next hq =>
          split
          · next hf => exact .unmarkFinal hq hf
          · next hf => exact .markFinal hq hf
      · next hq => exact .nothing hq
  | merge source target more =>
      rw [apply_merge]
      rcases d.apply_relabel_cases source target _ with ⟨hpermits, happly⟩ | ⟨hrefused, happly⟩
      · rw [happly]
        exact .merge rfl hpermits
      · rw [happly]
        exact .nothing hrefused
  | relabel source target label =>
      rcases d.apply_relabel_cases source target label with
        ⟨hpermits, happly⟩ | ⟨hrefused, happly⟩
      · rw [happly]
        exact .relabel hpermits
      · rw [happly]
        exact .nothing hrefused
  | disconnect source target =>
      simp only [apply, edit, disconnect]
      split
      · next hany => exact .disconnect hany
      · next hany => exact .nothing hany
  | setMode mode => exact .setMode mode

/-- What an edit does to the edges: it leaves them, or drops some of them, or sets a label that is
permitted. Edges that change come with their table. -/
inductive EdgesAfter (d : Diagram) : List Edge → TransitionTable → Prop
  | same : EdgesAfter d d.edges d.table
  | dropped (keep : Edge → Bool) :
      EdgesAfter d (d.edges.filter keep) (.ofEdges (d.edges.filter keep))
  | labelled {source target : StateId} {label : Label} :
      d.permits source target label = .ok () →
      EdgesAfter d (d.edgesWith source target label) (.ofEdges (d.edgesWith source target label))

theorem edgesAfter_apply (d : Diagram) (e : Edit) :
    d.EdgesAfter (d.apply e).diagram.edges (d.apply e).diagram.table := by
  have heffect := d.effect_apply e
  generalize d.apply e = edited at heffect ⊢
  cases heffect with
  | removeState _ => exact .dropped _
  | merge _ hpermits => exact .labelled hpermits
  | relabel hpermits => exact .labelled hpermits
  | disconnect _ => exact .dropped _
  | _ => exact .same

def applyAll (d : Diagram) : List Edit → Edited
  | [] => ⟨d, []⟩
  | e :: rest =>
    ⟨((d.apply e).diagram.applyAll rest).diagram,
      (d.apply e).changes ++ ((d.apply e).diagram.applyAll rest).changes⟩

@[simp] theorem applyAll_nil (d : Diagram) : d.applyAll [] = ⟨d, []⟩ := rfl

theorem diagram_applyAll_cons (d : Diagram) (e : Edit) (es : List Edit) :
    (d.applyAll (e :: es)).diagram = ((d.apply e).diagram.applyAll es).diagram := rfl

theorem count_addState_cons (e : Edit) (es : List Edit) :
    (e :: es).count .addState = [e].count .addState + es.count .addState := by
  rw [← List.count_append, List.singleton_append]

theorem diagram_applyAll_append (d : Diagram) (es fs : List Edit) :
    (d.applyAll (es ++ fs)).diagram = ((d.applyAll es).diagram.applyAll fs).diagram := by
  induction es generalizing d with
  | nil => rfl
  | cons e es ih => exact ih (d.apply e).diagram

theorem changes_applyAll_append (d : Diagram) (es fs : List Edit) :
    (d.applyAll (es ++ fs)).changes =
      (d.applyAll es).changes ++ ((d.applyAll es).diagram.applyAll fs).changes := by
  induction es generalizing d with
  | nil => rfl
  | cons e es ih =>
    have h := ih (d.apply e).diagram
    simp only [List.cons_append, applyAll, h, List.append_assoc]

end FiniteAutomata.Diagram
