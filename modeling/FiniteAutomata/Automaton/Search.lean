import FiniteAutomata.Automaton.Basic

/-!
# Searching for a final state

A search from the initial state finds out whether moves lead to a final one. Its queue holds states
that moves lead to, some of them several times; a state counts when it is first taken from the
queue, and the search stops at a final one. A move puts its target into the queue once at most, so
the queue runs out, whatever cycles there are.
-/

namespace FiniteAutomata

theorem countP_or_of_disjoint {α : Type} {p q : α → Prop} [DecidablePred p] [DecidablePred q]
    (h : ∀ a, p a → ¬ q a) (l : List α) :
    l.countP (fun a => p a ∨ q a) = l.countP (p ·) + l.countP (q ·) := by
  induction l with
  | nil => rfl
  | cons a l ih =>
    have ha := h a
    simp only [List.countP_cons, ih, decide_eq_true_eq]
    grind

namespace TransitionTable

variable {t : TransitionTable} {q r : StateId}

/-- The symbols that moves can have: the alphabet in order, then the empty symbol. -/
def symbols (t : TransitionTable) : List Symbol := t.alphabet.toList.map .char ++ [.epsilon]

theorem symbol_mem_symbols {m : Move} (hm : m ∈ t) : m.symbol ∈ t.symbols := by
  cases ha : m.symbol with
  | epsilon => exact List.mem_append_right _ List.mem_cons_self
  | char c =>
    have hc : c ∈ t.alphabet := by
      rw [alphabet, OrderedSet.mem_ofList, List.mem_filterMap]
      exact ⟨m, hm, Symbol.char?_eq_some_iff.2 ha⟩
    exact List.mem_append_left _ (List.mem_map_of_mem hc)

theorem nodup_symbols (t : TransitionTable) : t.symbols.Nodup := by
  have hchars : (t.alphabet.toList.map Symbol.char).Nodup := by
    refine List.pairwise_map.2 (t.alphabet.ascending.imp fun hlt h => ?_)
    rw [Symbol.char.inj h] at hlt
    exact Std.lt_irrefl hlt
  refine List.nodup_append.2 ⟨hchars, by simp, ?_⟩
  simp

theorem size_targets_le (t : TransitionTable) (q : StateId) (a : Symbol) :
    (t.targets q a).size ≤ t.moves.toList.countP fun m => m.source = q ∧ m.symbol = a := by
  rw [List.countP_eq_length_filter, ← List.length_map (f := Move.target)]
  exact OrderedSet.size_ofList_le _

def successors (t : TransitionTable) (q : StateId) : List StateId :=
  t.symbols.flatMap fun a => (t.targets q a).toList

theorem mem_successors : r ∈ t.successors q ↔ ∃ m ∈ t, m.source = q ∧ m.target = r := by
  simp only [successors, List.mem_flatMap, OrderedSet.mem_toList, mem_targets]
  refine ⟨fun h => ?_, fun h => ?_⟩
  · obtain ⟨a, -, hm⟩ := h
    exact ⟨_, hm, rfl, rfl⟩
  · obtain ⟨m, hm, rfl, rfl⟩ := h
    exact ⟨m.symbol, symbol_mem_symbols hm, hm⟩

theorem length_flatMap_targets_le (t : TransitionTable) (q : StateId) {as : List Symbol}
    (has : as.Nodup) : (as.flatMap fun a => (t.targets q a).toList).length ≤
      t.moves.toList.countP fun m => m.source = q ∧ m.symbol ∈ as := by
  induction as with
  | nil => exact Nat.zero_le _
  | cons a as ih =>
    obtain ⟨ha, has⟩ := List.nodup_cons.1 has
    have hdisjoint : ∀ m : Move, m.source = q ∧ m.symbol = a →
        ¬ (m.source = q ∧ m.symbol ∈ as) := fun m hm hm' => ha (hm.2 ▸ hm'.2)
    have hfirst : (t.targets q a).toList.length ≤ _ := t.size_targets_le q a
    have hrest := ih has
    simp only [List.mem_cons, and_or_left]
    rw [countP_or_of_disjoint hdisjoint, List.flatMap_cons, List.length_append]
    omega

/-- The symbols differ, so each successor stands for a move of its own. -/
theorem length_successors_le (t : TransitionTable) (q : StateId) :
    (t.successors q).length ≤ t.moves.toList.countP fun m => m.source = q := by
  refine Nat.le_trans (t.length_flatMap_targets_le q t.nodup_symbols)
    (List.countP_mono_left fun m _ hm => ?_)
  simp only [decide_eq_true_eq] at hm ⊢
  exact hm.1

end TransitionTable

/-- A search under way: the states taken from its queue so far, and those in the queue, the next one
first. -/
structure Search where
  visited : StateSet
  queue : List StateId
  deriving DecidableEq

namespace Search

def start (q : StateId) : Search := ⟨∅, [q]⟩

/-- What the queue can still come to: the states in it, and the moves that leave states not taken
from it yet. -/
def weight (t : TransitionTable) (s : Search) : Nat :=
  s.queue.length + t.moves.toList.countP fun m => m.source ∉ s.visited

theorem weight_start (t : TransitionTable) (q : StateId) : (start q).weight t = t.size + 1 := by
  simp [weight, start, TransitionTable.size, OrderedSet.size, Nat.add_comm]

/-- A state that is taken from the queue gives up its moves. -/
theorem countP_source_insert (t : TransitionTable) {x : StateSet} {q : StateId} (hq : q ∉ x) :
    (t.moves.toList.countP fun m => m.source ∉ x.insert q) +
      t.moves.toList.countP (·.source = q) = t.moves.toList.countP fun m => m.source ∉ x := by
  have hdisjoint : ∀ m : Move, m.source ∉ x.insert q → ¬ m.source = q := by
    intro m hm hq'
    exact hm (OrderedSet.mem_insert.2 (.inl hq'))
  rw [← countP_or_of_disjoint hdisjoint]
  refine List.countP_congr fun m _ => ?_
  simp only [decide_eq_true_eq, OrderedSet.mem_insert]
  grind

end Search

namespace Automaton

variable {A : Automaton} {s s' : Search} {answer : Bool}

/-- One look at the queue: the search goes on, or it has the answer. -/
def look (A : Automaton) (s : Search) : Search ⊕ Bool :=
  match s.queue with
  | [] => .inr true
  | q :: rest =>
    if q ∈ s.visited then .inl ⟨s.visited, rest⟩
    else if A.isFinal q then .inr false
    else
      .inl ⟨s.visited.insert q,
        rest ++ (A.table.successors q).filter (· ∉ s.visited.insert q)⟩

inductive Looked (A : Automaton) : Search → Search ⊕ Bool → Prop
  | exhausted {x : StateSet} : Looked A ⟨x, []⟩ (.inr true)
  | again {x : StateSet} {q : StateId} {rest : List StateId} : q ∈ x →
      Looked A ⟨x, q :: rest⟩ (.inl ⟨x, rest⟩)
  | found {x : StateSet} {q : StateId} {rest : List StateId} : q ∉ x → q ∈ A.finals →
      Looked A ⟨x, q :: rest⟩ (.inr false)
  | visit {x : StateSet} {q : StateId} {rest : List StateId} : q ∉ x → q ∉ A.finals →
      Looked A ⟨x, q :: rest⟩
        (.inl ⟨x.insert q, rest ++ (A.table.successors q).filter (· ∉ x.insert q)⟩)

theorem looked_look (A : Automaton) (s : Search) : A.Looked s (A.look s) := by
  obtain ⟨x, queue⟩ := s
  cases queue with
  | nil => exact .exhausted
  | cons q rest =>
    by_cases hx : q ∈ x
    · simp only [look, if_pos hx]
      exact .again hx
    · by_cases hf : q ∈ A.finals
      · simp only [look, if_neg hx, isFinal, hf, decide_true, if_true]
        exact .found hx hf
      · simp only [look, if_neg hx, isFinal, hf, decide_false, Bool.false_eq_true, if_false]
        exact .visit hx hf

theorem weight_lt_of_look (h : A.look s = .inl s') : s'.weight A.table < s.weight A.table := by
  have hlooked := A.looked_look s
  rw [h] at hlooked
  cases hlooked with
  | again _ => exact Nat.add_lt_add_right (Nat.lt_succ_self _) _
  | @visit x q rest hx _ =>
    have hcount := Search.countP_source_insert A.table hx
    have hfilter := List.length_filter_le (fun r => decide (r ∉ x.insert q)) (A.table.successors q)
    have hlength := A.table.length_successors_le q
    simp only [Search.weight, List.length_append, List.length_cons]
    omega

def search (A : Automaton) (s : Search) : Bool :=
  match _h : A.look s with
  | .inl s' => A.search s'
  | .inr answer => answer
termination_by s.weight A.table
decreasing_by exact weight_lt_of_look _h

theorem search_of_look_inl (h : A.look s = .inl s') : A.search s = A.search s' := by
  rw [search]
  split <;> simp_all

theorem search_of_look_inr (h : A.look s = .inr answer) : A.search s = answer := by
  rw [search]
  split <;> simp_all

/-- The answer of a search that may look at its queue `n` times, if it has one by then. -/
def searchWithin (A : Automaton) : Nat → Search → Option Bool
  | 0, _ => none
  | n + 1, s =>
    match A.look s with
    | .inl s' => A.searchWithin n s'
    | .inr answer => some answer

theorem searchWithin_eq {n : Nat} (h : s.weight A.table < n) :
    A.searchWithin n s = some (A.search s) := by
  induction n generalizing s with
  | zero => exact absurd h (Nat.not_lt_zero _)
  | succ n ih =>
    cases hlook : A.look s with
    | inl s' =>
      have hlt := weight_lt_of_look hlook
      rw [searchWithin, hlook, search_of_look_inl hlook]
      exact ih (by omega)
    | inr answer => rw [searchWithin, hlook, search_of_look_inr hlook]

end Automaton

end FiniteAutomata
