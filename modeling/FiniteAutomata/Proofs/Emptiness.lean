import FiniteAutomata.Proofs.DeterministicAcceptance
import FiniteAutomata.Proofs.GrammarDiagram
import FiniteAutomata.Proofs.GrammarLanguage
import FiniteAutomata.Transition.SimplePath

/-!
# Empty automata

What a search knows is in reach, and where moves lead from a state it has visited it knows as well.
So when its queue runs out no final state is in reach, and neither reading of the automaton accepts
a word. When a final state is found, a path without repetitions leads there, and this spells a word
with fewer letters than there are states.
-/

namespace FiniteAutomata

open TransitionTable

namespace Search

variable {x : StateSet} {p q : StateId} {rest more : List StateId}

def Knows (s : Search) (q : StateId) : Prop := q ∈ s.visited ∨ q ∈ s.queue

theorem knows_again (hq : q ∈ x) : Knows ⟨x, rest⟩ p ↔ Knows ⟨x, q :: rest⟩ p := by
  simp only [Knows, List.mem_cons]
  grind

theorem knows_visit : Knows ⟨x.insert q, rest ++ more.filter (· ∉ x.insert q)⟩ p ↔
    Knows ⟨x, q :: rest⟩ p ∨ p ∈ more := by
  simp only [Knows, OrderedSet.mem_insert, List.mem_append, List.mem_filter, List.mem_cons,
    decide_eq_true_eq]
  grind

end Search

namespace Automaton

variable {A : Automaton} {s s' : Search} {answer : Bool} {p q : StateId} {w : Word}

/-! ### The search -/

/-- What is true of a search from the initial state at every look. -/
structure Explores (A : Automaton) (s : Search) : Prop where
  knows_initial : s.Knows A.initial
  inReach : ∀ q, s.Knows q → A.InReach q
  not_mem_finals : ∀ q ∈ s.visited, q ∉ A.finals
  knows_target : ∀ m ∈ A.table, m.source ∈ s.visited → s.Knows m.target

theorem explores_start (A : Automaton) : A.Explores (.start A.initial) where
  knows_initial := .inr List.mem_cons_self
  inReach q hq := by
    obtain hq | hq := hq
    · exact absurd hq (OrderedSet.not_mem_empty q)
    · rw [List.mem_singleton.1 hq]
      exact .refl
  not_mem_finals q hq := absurd hq (OrderedSet.not_mem_empty q)
  knows_target m _ hm := absurd hm (OrderedSet.not_mem_empty m.source)

theorem Explores.look (h : A.Explores s) (hlook : A.look s = .inl s') : A.Explores s' := by
  have hlooked := A.looked_look s
  rw [hlook] at hlooked
  cases hlooked with
  | again hq =>
      exact {
        knows_initial := (Search.knows_again hq).2 h.knows_initial
        inReach := fun p hp => h.inReach p ((Search.knows_again hq).1 hp)
        not_mem_finals := h.not_mem_finals
        knows_target := fun m hm hs => (Search.knows_again hq).2 (h.knows_target m hm hs) }
  | @visit x q rest hq hfinal =>
      have hreach : A.InReach q := h.inReach q (.inr List.mem_cons_self)
      exact {
        knows_initial := Search.knows_visit.2 (.inl h.knows_initial)
        inReach := by
          intro p hp
          obtain hp | hp := Search.knows_visit.1 hp
          · exact h.inReach p hp
          · obtain ⟨m, hm, hs, rfl⟩ := mem_successors.1 hp
            exact Reaches.move (hs ▸ hreach) hm rfl
        not_mem_finals := by
          intro p hp
          obtain rfl | hp := OrderedSet.mem_insert.1 hp
          · exact hfinal
          · exact h.not_mem_finals p hp
        knows_target := by
          intro m hm hs
          obtain hs | hs := OrderedSet.mem_insert.1 hs
          · exact Search.knows_visit.2 (.inr (mem_successors.2 ⟨m, hm, hs, rfl⟩))
          · exact Search.knows_visit.2 (.inl (h.knows_target m hm hs)) }

/-- With its queue empty, a search has visited all that is in reach. -/
theorem Explores.mem_of_inReach {x : StateSet} (h : A.Explores ⟨x, []⟩) (hq : A.InReach q) :
    q ∈ x := by
  have hknows : ∀ {p}, Search.Knows ⟨x, []⟩ p → p ∈ x := fun hp => hp.resolve_right List.not_mem_nil
  induction hq with
  | refl => exact hknows h.knows_initial
  | move _ hm _ ih => exact hknows (h.knows_target _ hm ih)

theorem Explores.answer_iff (h : A.Explores s) (hlook : A.look s = .inr answer) :
    answer ↔ ∀ q ∈ A.finals, ¬ A.InReach q := by
  have hlooked := A.looked_look s
  rw [hlook] at hlooked
  cases hlooked with
  | exhausted =>
      refine iff_of_true rfl fun q hq hreach => ?_
      exact h.not_mem_finals q (h.mem_of_inReach hreach) hq
  | found _ hfinal =>
      refine iff_of_false Bool.false_ne_true fun hnone => ?_
      exact hnone _ hfinal (h.inReach _ (.inr List.mem_cons_self))

theorem Explores.search_iff (h : A.Explores s) :
    A.search s ↔ ∀ q ∈ A.finals, ¬ A.InReach q := by
  fun_induction A.search s with
  | case1 s s' hlook ih => exact ih (h.look hlook)
  | case2 s answer hlook => exact h.answer_iff hlook

theorem isEmpty_iff : A.isEmpty ↔ ∀ q ∈ A.finals, ¬ A.InReach q := A.explores_start.search_iff

/-! ### The words -/

theorem isEmpty_iff_forall_acceptsNfa : A.isEmpty ↔ ∀ w, ¬ A.acceptsNfa w := by
  simp only [isEmpty_iff, inReach_iff_exists_isPath, acceptsNfa_iff_exists_isPath, not_exists,
    not_and]
  exact ⟨fun h w q hq ms hms _ => h q hq ms hms, fun h q hq ms hms => h _ q hq ms hms rfl⟩

structure Closed (A : Automaton) : Prop where
  initial_mem : A.initial ∈ A.states
  target_mem : ∀ m ∈ A.table, m.target ∈ A.states

theorem Closed.exists_short_word (hA : A.Closed) (h : ¬ A.isEmpty) :
    ∃ w, A.acceptsNfa w ∧ w.length < A.states.size := by
  rw [isEmpty_iff] at h
  push Not at h
  obtain ⟨q, hq, hreach⟩ := h
  obtain ⟨ms, hms⟩ := inReach_iff_exists_isPath.1 hreach
  obtain ⟨ns, hns, hlength⟩ := hms.exists_length_lt hA.initial_mem hA.target_mem
  refine ⟨spelled ns, acceptsNfa_iff_exists_isPath.2 ⟨q, hq, ns, hns, rfl⟩, ?_⟩
  exact Nat.lt_of_le_of_lt (length_spelled_le ns) hlength

/-- The automata to be had: those that diagrams show, and those of grammars. -/
inductive Made : Automaton → Prop
  | snapshot {d : Diagram} {mode : Mode} {A : Automaton} : d.Reachable →
      d.snapshot mode = .ok A → Made A
  | grammar (g : Grammar) : Made g.automaton

theorem Made.closed (h : A.Made) : A.Closed := by
  cases h with
  | snapshot hd hA =>
      obtain ⟨hinitial, -, -, hmoves⟩ := hd.wellFormed.snapshot hA
      exact ⟨hinitial, fun m hm => (hmoves m hm).2⟩
  | grammar g =>
      refine ⟨OrderedSet.mem_ofList.2 (Grammar.stateOf_mem_canvas g.start_mem_vars), ?_⟩
      intro m hm
      exact OrderedSet.mem_ofList.2 (Grammar.mem_moves_canvas (mem_ofMoves.1 hm)).2

/-- The search has its answer after two looks more than there are moves, at the latest. The answer
is whether the nondeterministic reading accepts no word; then the deterministic one accepts none
either, and the converse holds if all states in reach are deterministic. Where a word is accepted,
so is one with fewer letters than there are states. A grammar's automaton is empty exactly if the
grammar derives nothing. -/
theorem search_decides_emptiness :
    (∀ A : Automaton,
      (∀ n, A.table.size + 2 ≤ n → A.searchWithin n (.start A.initial) = some A.isEmpty) ∧
      (A.isEmpty ↔ ∀ w, ¬ A.acceptsNfa w) ∧
      (A.Made → ¬ A.isEmpty → ∃ w, A.acceptsNfa w ∧ w.length < A.states.size) ∧
      (A.DeterministicInReach → (A.isEmpty ↔ ∀ w, ¬ A.acceptsDfa w)) ∧
      (A.isEmpty → ∀ w, ¬ A.acceptsDfa w)) ∧
    ∀ g : Grammar, g.automaton.isEmpty ↔ ∀ w, ¬ g.Derives g.start w := by
  refine ⟨fun A => ⟨fun n hn => ?_, isEmpty_iff_forall_acceptsNfa,
    fun hA h => hA.closed.exists_short_word h, fun hA => ?_, fun h w hw => ?_⟩, fun g => ?_⟩
  · apply searchWithin_eq
    rw [Search.weight_start]
    omega
  · simp only [isEmpty_iff_forall_acceptsNfa, hA.acceptsDfa_eq]
  · exact isEmpty_iff_forall_acceptsNfa.1 h w (acceptsNfa_of_acceptsDfa hw)
  · rw [isEmpty_iff_forall_acceptsNfa]
    exact forall_congr' fun w => not_congr Grammar.accepts_automaton_iff

/-- The first automaton goes round between `q0` and `q1` before it comes to the final state. The
second one starts from there, where no move goes on. -/
theorem emptiness_decided_beside_cycle :
    let d := ((Diagram.new .dfa).applyAll [.addState, .addState, .addState,
      .merge (.ofNat 0) (.ofNat 1) (.ofList [.char 'a']),
      .merge (.ofNat 1) (.ofNat 0) (.ofList [.char 'b']),
      .merge (.ofNat 1) (.ofNat 2) (.ofList [.char 'a']), .toggleInitial (.ofNat 0),
      .toggleFinal (.ofNat 2)]).diagram
    let A : Automaton := ⟨.ofList d.states, .ofNat 0, d.finals, d.table, .dfa⟩
    let B : Automaton := ⟨A.states, .ofNat 2, .singleton (.ofNat 0), A.table, .nfa⟩
    A.table.size = 3 ∧ A.searchWithin 5 (.start A.initial) = some A.isEmpty ∧ A.Made ∧
      ¬ A.isEmpty ∧ (∃ w, A.acceptsNfa w ∧ w.length < A.states.size) ∧ A.DeterministicInReach ∧
      (A.isEmpty ↔ ∀ w, ¬ A.acceptsDfa w) ∧ B.isEmpty ∧ ∀ w, ¬ B.acceptsDfa w := by
  intro d A B
  obtain ⟨hall, -⟩ := search_decides_emptiness
  obtain ⟨hanswer, -, hshort, hdfa, -⟩ := hall A
  obtain ⟨hanswerB, -, -, -, hnone⟩ := hall B
  have hd : d.KeptDeterministic := Diagram.keptDeterministic_of_inits (by decide)
  have hmade : A.Made := .snapshot ⟨.dfa, _, by decide, rfl⟩
    (Diagram.snapshot_eq_ok_iff.2 ⟨_, rfl, by decide, rfl⟩)
  have hfinds : A.searchWithin 5 (.start A.initial) = some false := by decide
  have hA : ¬ A.isEmpty := by
    rw [hanswer 5 (by decide)] at hfinds
    simpa using hfinds
  have hends : B.searchWithin 5 (.start B.initial) = some true := by decide
  have hB : B.isEmpty := by
    rw [hanswerB 5 (by decide)] at hends
    simpa using hends
  have hreach : A.DeterministicInReach := fun q _ => hd.deterministicAt q
  exact ⟨by decide, hanswer 5 (by decide), hmade, hA, hshort hmade hA, hreach, hdfa hreach, hB,
    hnone hB⟩

end Automaton

end FiniteAutomata
