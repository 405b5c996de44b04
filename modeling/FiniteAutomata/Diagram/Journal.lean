import FiniteAutomata.Diagram.History

/-!
# Journals

The changes that edits announce make a journal. Replaying it on a blank drawing redraws the
diagram without looking at it.
-/

namespace FiniteAutomata.Drawing

/-- The drawing after one change. A state that is removed loses its final mark. -/
def replay (D : Drawing) : Change → Drawing
  | .stateAdded q => { D with states := D.states ++ [q] }
  | .stateRemoved q => { D with states := D.states.erase q, finals := D.finals.erase q }
  | .initialChanged q => { D with initial := q }
  | .finalChanged q true => { D with finals := D.finals.insert q }
  | .finalChanged q false => { D with finals := D.finals.erase q }
  | .edgeChanged source target label => { D with edges := D.edgesWith source target label }
  | .edgeRemoved source target =>
    { D with edges := D.edges.filter (! ·.joins source target) }

def replayAll (D : Drawing) (changes : List Change) : Drawing := changes.foldl replay D

@[simp] theorem replayAll_nil (D : Drawing) : D.replayAll [] = D := rfl

@[simp] theorem replayAll_append (D : Drawing) (cs ds : List Change) :
    D.replayAll (cs ++ ds) = (D.replayAll cs).replayAll ds := List.foldl_append

end FiniteAutomata.Drawing
