import FiniteAutomata.Grammar.Derivation
import FiniteAutomata.Proofs.GrammarStates
import FiniteAutomata.Proofs.PathAcceptance

/-!
# The language of a grammar's automaton

A word is derived from a variable exactly when a path spells it from the state of the variable to
the accepting state. A derivation becomes a path step by step; conversely the first move of a path
is that of an alternative, after which the path goes on at the next variable or is over.
-/

namespace FiniteAutomata.Grammar

open TransitionTable

variable {g : Grammar} {V : Variable}

theorem move_mem_table {a : Alternative} (ha : a ∈ g.alternatives V) :
    a.moveIn g.vars V ∈ g.automaton.table := mem_table_automaton.2 ⟨V, a, ha, rfl⟩

theorem source_moveIn (a : Alternative) (W : Variable) :
    (a.moveIn g.vars W).source = g.stateOf W := by cases a <;> rfl

/-- A move from the state of a variable is that of an alternative of this variable. -/
theorem exists_alternative_of_source {m : Move} (hV : V ∈ g.vars) (hm : m ∈ g.automaton.table)
    (hs : m.source = g.stateOf V) : ∃ a ∈ g.alternatives V, a.moveIn g.vars V = m := by
  obtain ⟨W, a, ha, rfl⟩ := mem_table_automaton.1 hm
  have hW : W ∈ g.vars := left_mem_vars ha
  rw [source_moveIn] at hs
  have hWV : W = V := (stateOf_inj hW hV).1 hs
  subst hWV
  exact ⟨a, ha, rfl⟩

theorem source_ne_acceptState {m : Move} (hm : m ∈ g.automaton.table) :
    m.source ≠ g.acceptState := by
  obtain ⟨W, a, ha, rfl⟩ := mem_table_automaton.1 hm
  rw [source_moveIn]
  exact stateOf_ne_acceptState (left_mem_vars ha)

/-- No move leaves the accepting state. -/
theorem eq_nil_of_isPath_acceptState {ms : List Move} {q : StateId}
    (h : g.automaton.table.IsPath g.acceptState ms q) : ms = [] := by
  cases ms with
  | nil => rfl
  | cons m ms =>
      obtain ⟨hm, hs, -⟩ := isPath_cons.1 h
      exact absurd hs (source_ne_acceptState hm)

theorem exists_isPath_of_derives {w : Word} (h : g.Derives V w) :
    ∃ ms, g.automaton.table.IsPath (g.stateOf V) ms g.acceptState ∧ spelled ms = w := by
  induction h with
  | epsilon ha => exact ⟨[_], isPath_singleton.2 ⟨move_mem_table ha, rfl, rfl⟩, rfl⟩
  | terminal ha => exact ⟨[_], isPath_singleton.2 ⟨move_mem_table ha, rfl, rfl⟩, rfl⟩
  | step ha _ ih =>
      obtain ⟨ms, hpath, hms⟩ := ih
      refine ⟨_ :: ms, isPath_cons.2 ⟨move_mem_table ha, rfl, hpath⟩, ?_⟩
      rw [← hms]
      rfl

theorem derives_of_isPath {ms : List Move} (hV : V ∈ g.vars)
    (h : g.automaton.table.IsPath (g.stateOf V) ms g.acceptState) : g.Derives V (spelled ms) := by
  -- The moves after the first start at the next variable, so the induction is for all of them.
  induction ms generalizing V with
  | nil => exact absurd (isPath_nil.1 h) (stateOf_ne_acceptState hV)
  | cons m ms ih =>
      obtain ⟨hm, hs, hrest⟩ := isPath_cons.1 h
      obtain ⟨a, ha, rfl⟩ := exists_alternative_of_source hV hm hs
      cases a with
      | epsilon =>
          rw [eq_nil_of_isPath_acceptState hrest]
          exact .epsilon ha
      | terminal a =>
          rw [eq_nil_of_isPath_acceptState hrest]
          exact .terminal ha
      | step a B => exact .step ha (ih (next_mem_vars ha) hrest)

theorem derives_iff_exists_isPath {w : Word} (hV : V ∈ g.vars) : g.Derives V w ↔
    ∃ ms, g.automaton.table.IsPath (g.stateOf V) ms g.acceptState ∧ spelled ms = w := by
  constructor
  · exact exists_isPath_of_derives
  · rintro ⟨ms, hpath, rfl⟩
    exact derives_of_isPath hV hpath

theorem accepts_automaton_iff {w : Word} : g.automaton.accepts w ↔ g.Derives g.start w := by
  have hnfa : g.automaton.accepts w = g.automaton.acceptsNfa w := rfl
  have hfinals : g.automaton.finals = .singleton g.acceptState := rfl
  have hinitial : g.automaton.initial = g.stateOf g.start := rfl
  rw [hnfa, Automaton.acceptsNfa_iff_exists_isPath, hfinals, hinitial,
    derives_iff_exists_isPath g.start_mem_vars]
  simp only [OrderedSet.mem_singleton, exists_eq_left]

theorem alternatives_eq_nil_of_not_mem (hV : V ∉ g.rules.map Rule.left) :
    g.alternatives V = [] := by
  rw [List.eq_nil_iff_forall_not_mem]
  intro a ha
  obtain ⟨r, hr, hleft, -⟩ := mem_alternatives.1 ha
  exact hV (List.mem_map.2 ⟨r, hr, hleft⟩)

/-- The automaton accepts what the start derives. A variable that occurs on the right of rules only
has a state like the others, but no alternatives, and derives nothing. -/
theorem automaton_accepts_derived_words (g : Grammar) :
    (∀ w, g.automaton.accepts w ↔ g.Derives g.start w) ∧
      ∀ V, V ∉ g.rules.map Rule.left → g.alternatives V = [] ∧ ∀ w, ¬ g.Derives V w := by
  refine ⟨fun w => accepts_automaton_iff, fun V hV => ?_⟩
  have hnil := alternatives_eq_nil_of_not_mem hV
  exact ⟨hnil, not_derives_of_alternatives_eq_nil hnil⟩

end FiniteAutomata.Grammar
