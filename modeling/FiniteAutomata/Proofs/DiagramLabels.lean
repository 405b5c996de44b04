import FiniteAutomata.Distinct
import FiniteAutomata.Proofs.DiagramInvariant

/-!
# Diagrams read by their labels

In a well-formed diagram an ordered pair of states has the label of its only edge, and the table
holds a move exactly if its symbol is in the label between its ends. A label that is set changes
what is read between its own ends; the edges keep their order.
-/

namespace FiniteAutomata

/-- Edges after `e` was put among them: in the place of the one edge with its ends, or last if there
was none. -/
inductive Edge.PutInto (e : Edge) : List Edge → List Edge → Prop
  | inPlace {before after : List Edge} {old : Edge} : old.ends = e.ends →
      (∀ f ∈ before ++ after, f.ends ≠ e.ends) →
      PutInto e (before ++ old :: after) (before ++ e :: after)
  | last {edges : List Edge} : (∀ f ∈ edges, f.ends ≠ e.ends) → PutInto e edges (edges ++ [e])

theorem Edge.map_relabelled_eq_self {source target : StateId} {label : Label} {edges : List Edge}
    (h : ∀ e ∈ edges, e.ends ≠ (source, target)) :
    edges.map (fun e => if e.joins source target then { e with label } else e) = edges := by
  have hkeep : ∀ e ∈ edges, (if e.joins source target then { e with label } else e) = e :=
    fun e he => if_neg (mt Edge.joins_iff.1 (h e he))
  rw [List.map_congr_left hkeep, List.map_id']

theorem Drawing.putInto_edgesWith {D : Drawing} (hD : (D.edges.map Edge.ends).Nodup)
    (source target : StateId) (label : Label) :
    Edge.PutInto ⟨source, target, label⟩ D.edges (D.edgesWith source target label) := by
  unfold edgesWith
  by_cases hmem : (source, target) ∈ D.edges.map Edge.ends
  · rw [if_pos (any_joins_iff.2 hmem)]
    obtain ⟨old, hold, hends⟩ := List.mem_map.1 hmem
    obtain ⟨before, after, hedges⟩ := List.append_of_mem hold
    have hothers : ∀ f ∈ before ++ after, f.ends ≠ (source, target) := by
      rw [hedges, List.map_append, List.map_cons, List.nodup_middle, hends, ← List.map_append] at hD
      intro f hf hfends
      exact (List.nodup_cons.1 hD).1 (List.mem_map.2 ⟨f, hf, hfends⟩)
    obtain ⟨hbefore, hafter⟩ := List.forall_mem_append.1 hothers
    rw [hedges, List.map_append, List.map_cons, Edge.map_relabelled_eq_self hbefore,
      Edge.map_relabelled_eq_self hafter, Edge.relabelled_eq, if_pos (Edge.joins_iff.2 hends)]
    exact .inPlace hends hothers
  · rw [if_neg (mt any_joins_iff.1 hmem)]
    exact .last fun f hf hends => hmem (List.mem_map.2 ⟨f, hf, hends⟩)

namespace Diagram

variable {d : Diagram} {source target p q : StateId} {label : Label}

theorem WellFormed.label?_eq_some_iff (h : d.WellFormed) :
    d.label? p q = some label ↔ ⟨p, q, label⟩ ∈ d.edges := by
  have hfind : ∀ e, d.edges.find? (·.joins p q) = some e ↔ e ∈ d.edges ∧ e.ends = (p, q) :=
    fun e => find?_eq_some_iff_of_nodup_map h.nodup_ends fun _ => Edge.joins_iff
  simp only [Drawing.label?, Option.map_eq_some_iff, hfind]
  constructor
  · rintro ⟨e, ⟨he, hends⟩, rfl⟩
    obtain ⟨rfl, rfl⟩ := Prod.mk.inj hends
    exact he
  · intro he
    exact ⟨_, ⟨he, rfl⟩, rfl⟩

theorem WellFormed.mem_table_iff (h : d.WellFormed) {m : Move} :
    m ∈ d.table ↔ m.symbol ∈ (d.label? m.source m.target).getD ∅ := by
  have hlabel : m.symbol ∈ (d.label? m.source m.target).getD ∅ ↔
      ∃ label, d.label? m.source m.target = some label ∧ m.symbol ∈ label := by
    cases d.label? m.source m.target <;> simp
  simp only [hlabel, h.label?_eq_some_iff, h.table_eq, TransitionTable.mem_ofEdges]
  constructor
  · rintro ⟨e, he, hs, ha, ht⟩
    exact ⟨e.label, hs ▸ ht ▸ he, ha⟩
  · rintro ⟨label, he, ha⟩
    exact ⟨_, he, rfl, ha, rfl⟩

theorem WellFormed.label?_setLabel (h : d.WellFormed)
    (hpermits : d.permits source target label = .ok ()) (p q : StateId) :
    (d.withEdges (d.edgesWith source target label)).label? p q =
      if p = source ∧ q = target then some label else d.label? p q := by
  refine Option.ext fun l => ?_
  have hafter : (d.withEdges (d.edgesWith source target label)).label? p q = some l ↔
      ⟨p, q, l⟩ ∈ d.edgesWith source target label := (h.setLabel hpermits).label?_eq_some_iff
  rw [hafter, Drawing.mem_edgesWith, Edge.joins_iff, ← h.label?_eq_some_iff]
  by_cases hends : p = source ∧ q = target
  · simp [hends, Edge.ends, eq_comm]
  · simp [hends, Edge.ends, ← and_assoc]

/-- What setting a label makes of a diagram. Only one edge has changed, if any, and what is read
between other ends is as before. -/
structure SetsLabel (d : Diagram) (source target : StateId) (label : Label) (d' : Diagram) :
    Prop where
  edges : Edge.PutInto ⟨source, target, label⟩ d.edges d'.edges
  label?_eq : ∀ p q,
    d'.label? p q = if p = source ∧ q = target then some label else d.label? p q
  mem_targets_iff : ∀ p a q, q ∈ d'.table.targets p a ↔
    if p = source ∧ q = target then a ∈ label else q ∈ d.table.targets p a
  states_eq : d'.states = d.states
  initial_eq : d'.initial = d.initial
  finals_eq : d'.finals = d.finals
  mode_eq : d'.mode = d.mode
  nextId_eq : d'.nextId = d.nextId

theorem WellFormed.setsLabel (h : d.WellFormed)
    (hpermits : d.permits source target label = .ok ()) :
    d.SetsLabel source target label (d.withEdges (d.edgesWith source target label)) where
  edges := Drawing.putInto_edgesWith h.nodup_ends source target label
  label?_eq := h.label?_setLabel hpermits
  mem_targets_iff p a q := by
    rw [TransitionTable.mem_targets, (h.setLabel hpermits).mem_table_iff,
      h.label?_setLabel hpermits, TransitionTable.mem_targets, h.mem_table_iff]
    split <;> rfl
  states_eq := rfl
  initial_eq := rfl
  finals_eq := rfl
  mode_eq := rfl
  nextId_eq := rfl

/-- A label that is merged adds its own moves. -/
theorem SetsLabel.mem_table_iff_of_merge {d' : Diagram} {more : Label} (h : d.WellFormed)
    (hset : d.SetsLabel source target ((d.label? source target).getD ∅ ∪ more) d') {m : Move} :
    m ∈ d'.table ↔ m ∈ d.table ∨ m.source = source ∧ m.target = target ∧ m.symbol ∈ more := by
  rw [← TransitionTable.mem_targets, hset.mem_targets_iff, TransitionTable.mem_targets]
  by_cases hends : m.source = source ∧ m.target = target
  · obtain ⟨rfl, rfl⟩ := hends
    simp [h.mem_table_iff]
  · simp [hends, ← and_assoc]

end Diagram

end FiniteAutomata
