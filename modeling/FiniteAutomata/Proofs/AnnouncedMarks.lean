import FiniteAutomata.Diagram.History
import Mathlib.Data.List.Basic
import Mathlib.Data.List.Induction

/-!
# Marks and what is announced of them

The initial state is the one that was announced last. A state is final if this is what was announced
of it last, provided that its removal is taken for such an announcement: when a final state goes,
nothing but the removal itself says that its mark has gone. The mark of an initial state that goes
is announced as gone before.
-/

namespace FiniteAutomata

namespace Change

def initial? : Change → Option (Option StateId)
  | initialChanged q => some q
  | _ => none

def finalMark? (q : StateId) : Change → Option Bool
  | finalChanged p isFinal => if p = q then some isFinal else none
  | _ => none

/-- What a change says of the final mark of `q`, which a state that is removed loses. -/
def finalFate? (q : StateId) : Change → Option Bool
  | finalChanged p isFinal => if p = q then some isFinal else none
  | stateRemoved p => if p = q then some false else none
  | _ => none

theorem finalFate?_eq_finalMark? {q : StateId} {c : Change} (hc : c ≠ .stateRemoved q) :
    c.finalFate? q = c.finalMark? q := by
  cases c with
  | stateRemoved p => exact if_neg fun hp => hc (congrArg stateRemoved hp)
  | _ => rfl

end Change

section

variable {α : Type} {f : Change → Option α}

def latest? (f : Change → Option α) (cs : List Change) : Option α := (cs.filterMap f).getLast?

@[simp] theorem latest?_nil : latest? f [] = none := rfl

@[simp] theorem latest?_singleton (c : Change) : latest? f [c] = f c := by
  cases hc : f c <;> simp [latest?, hc]

theorem latest?_congr {g : Change → Option α} {cs : List Change} (h : ∀ c ∈ cs, f c = g c) :
    latest? f cs = latest? g cs := by
  rw [latest?, latest?, List.filterMap_congr h]

theorem latest?_append (cs ds : List Change) :
    latest? f (cs ++ ds) = (latest? f ds).or (latest? f cs) := by
  rw [latest?, List.filterMap_append, List.getLast?_append]
  rfl

/-- The edges that go with a state have no say in marks. -/
theorem latest?_append_removal (hf : ∀ source target, f (.edgeRemoved source target) = none)
    (cs : List Change) (edges : List Edge) (q : StateId) :
    latest? f (cs ++ edges.map (fun e => .edgeRemoved e.source e.target) ++ [.stateRemoved q]) =
      (f (.stateRemoved q)).or (latest? f cs) := by
  have hedges : latest? f (edges.map fun e => .edgeRemoved e.source e.target) = none := by
    rw [latest?, List.filterMap_map, List.filterMap_eq_nil_iff.2 fun e _ => hf e.source e.target]
    rfl
  rw [latest?_append, latest?_append, latest?_singleton, hedges, Option.none_or]

end

namespace Diagram

variable {d d' : Diagram} {cs ds : List Change} {q : StateId}

/-- The marks of the diagram are those that the changes announced. -/
structure Announced (d : Diagram) (cs : List Change) : Prop where
  initial_eq : d.initial = (latest? Change.initial? cs).join
  mem_finals_iff : ∀ q, q ∈ d.finals ↔ latest? (Change.finalFate? q) cs = some true

theorem announced_new (mode : Mode) : (new mode).Announced [] :=
  ⟨rfl, fun q => iff_of_false (OrderedSet.not_mem_empty q) nofun⟩

/-- Changes that say nothing of a mark leave it as it was. -/
theorem Announced.append (h : d.Announced cs)
    (hinitial : d'.initial = (latest? Change.initial? ds).getD d.initial)
    (hfinals : ∀ q, q ∈ d'.finals ↔
      (latest? (Change.finalFate? q) ds).getD (decide (q ∈ d.finals))) :
    d'.Announced (cs ++ ds) where
  initial_eq := by
    rw [hinitial, latest?_append]
    cases latest? Change.initial? ds with
    | none => exact h.initial_eq
    | some initial => rfl
  mem_finals_iff q := by
    rw [hfinals, latest?_append]
    cases latest? (Change.finalFate? q) ds with
    | none => simpa using h.mem_finals_iff q
    | some isFinal => simp

theorem Announced.apply (h : d.Announced cs) (e : Edit) :
    (d.apply e).diagram.Announced (cs ++ (d.apply e).changes) := by
  have heffect := d.effect_apply e
  generalize d.apply e = edited at heffect ⊢
  cases heffect with
  | @removeState q hq =>
      refine h.append ?_ fun p => ?_
      · rw [latest?_append_removal fun _ _ => rfl]
        by_cases hi : d.initial = some q <;> simp [Change.initial?, withEdges, hi]
      · rw [latest?_append_removal fun _ _ => rfl]
        by_cases hi : d.initial = some q <;> by_cases hp : q = p <;>
          simp [Change.finalFate?, withEdges, hi, hp, eq_comm]
  | @markFinal q hq hf =>
      refine h.append rfl fun p => ?_
      by_cases hp : q = p <;> simp [Change.finalFate?, hp, eq_comm]
  | @unmarkFinal q hq hf =>
      refine h.append rfl fun p => ?_
      by_cases hp : q = p <;> simp [Change.finalFate?, hp, eq_comm]
  | toggleInitial hq => exact h.append rfl fun p => by simp [Change.finalFate?]
  | _ => exact h.append rfl fun p => by simp [Change.finalFate?, withEdges]

theorem announced_applyAll (mode : Mode) (es : List Edit) :
    ((new mode).applyAll es).diagram.Announced ((new mode).applyAll es).changes := by
  induction es using List.reverseRecOn with
  | nil => exact announced_new mode
  | append_singleton es e ih =>
      rw [diagram_applyAll_append, changes_applyAll_append]
      simpa [applyAll] using ih.apply e

/-- After whatever edits of an empty diagram, the initial state is the one that was announced last,
and the final states are those that were marked and not removed since. So the announcements of final
marks are right as they stand for the states that were never removed. -/
theorem marks_follow_announcements (mode : Mode) (es : List Edit) :
    let edited := (new mode).applyAll es
    edited.diagram.initial = (latest? Change.initial? edited.changes).join ∧
      (∀ q, q ∈ edited.diagram.finals ↔
        latest? (Change.finalFate? q) edited.changes = some true) ∧
      ∀ q, .stateRemoved q ∉ edited.changes → (q ∈ edited.diagram.finals ↔
        latest? (Change.finalMark? q) edited.changes = some true) := by
  intro edited
  obtain ⟨hinitial, hfinals⟩ := announced_applyAll mode es
  refine ⟨hinitial, hfinals, fun q hq => ?_⟩
  have hmark : latest? (Change.finalFate? q) edited.changes =
      latest? (Change.finalMark? q) edited.changes :=
    latest?_congr fun c hc => Change.finalFate?_eq_finalMark? (ne_of_mem_of_not_mem hc hq)
  rw [← hmark]
  exact hfinals q

/-- The state that goes was initial and final. Its final mark is the one that the last announcement
of such a mark still names, unlike that of the other state, which stays. -/
theorem marks_announced_beside_removal :
    let es : List Edit := [.addState, .addState, .toggleInitial (.ofNat 0),
      .toggleFinal (.ofNat 1), .merge (.ofNat 0) (.ofNat 1) (.ofList [.char 'a']),
      .toggleFinal (.ofNat 0), .removeState (.ofNat 0)]
    let edited := (new .nfa).applyAll es
    edited.diagram.initial = (latest? Change.initial? edited.changes).join ∧
      latest? Change.initial? edited.changes = some none ∧
      .stateRemoved (.ofNat 1) ∉ edited.changes ∧
      (.ofNat 1 ∈ edited.diagram.finals ↔
        latest? (Change.finalMark? (.ofNat 1)) edited.changes = some true) ∧
      .ofNat 1 ∈ edited.diagram.finals := by
  intro es edited
  obtain ⟨hinitial, -, hfinals⟩ := marks_follow_announcements .nfa es
  have hkept : .stateRemoved (.ofNat 1) ∉ edited.changes := by decide
  exact ⟨hinitial, by decide, hkept, hfinals _ hkept, by decide⟩

/-- No change says of a final state that goes that it is final no more. -/
theorem final_mark_announced_after_removal :
    let edited := (new .nfa).applyAll [.addState, .toggleFinal (.ofNat 0), .removeState (.ofNat 0)]
    edited.changes = [.stateAdded (.ofNat 0), .finalChanged (.ofNat 0) true,
        .stateRemoved (.ofNat 0)] ∧
      latest? (Change.finalMark? (.ofNat 0)) edited.changes = some true ∧
      .ofNat 0 ∉ edited.diagram.finals := by decide

end Diagram

end FiniteAutomata
