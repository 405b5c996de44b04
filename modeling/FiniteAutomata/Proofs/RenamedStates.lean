import FiniteAutomata.Proofs.Emptiness
import Mathlib.Data.Set.Function

/-!
# Automata with other states

Two automata are the same but for the names of their states if a bijection between the states takes
the initial state to the initial one, final states to final ones and moves to moves, and misses none
of them. A path of the one then becomes a path of the other that spells the same word, so that both
accept the same words.
-/

namespace FiniteAutomata

def Move.rename (f : StateId → StateId) (m : Move) : Move := ⟨f m.source, m.symbol, f m.target⟩

theorem spelled_map_rename (f : StateId → StateId) (ms : List Move) :
    spelled (ms.map (Move.rename f)) = spelled ms := List.filterMap_map

namespace Automaton

open TransitionTable

variable {A B : Automaton} {f : StateId → StateId} {p r : StateId} {ms ns : List Move} {w : Word}

/-- The renaming makes the automaton `B` of the automaton `A`. -/
structure IsIsomorphism (f : StateId → StateId) (A B : Automaton) : Prop where
  bijOn : Set.BijOn f {q | q ∈ A.states} {q | q ∈ B.states}
  initial_eq : f A.initial = B.initial
  mem_finals_iff : ∀ q ∈ A.states, q ∈ A.finals ↔ f q ∈ B.finals
  mem_table_iff : ∀ p ∈ A.states, ∀ q ∈ A.states, ∀ a,
    ⟨p, a, q⟩ ∈ A.table ↔ ⟨f p, a, f q⟩ ∈ B.table

namespace IsIsomorphism

theorem isPath (h : IsIsomorphism f A B) (hA : A.Closed) (hp : p ∈ A.states)
    (hms : A.table.IsPath p ms r) : B.table.IsPath (f p) (ms.map (Move.rename f)) (f r) := by
  induction ms generalizing p with
  | nil => exact isPath_nil.2 (congrArg f (isPath_nil.1 hms))
  | cons m ms ih =>
      obtain ⟨hm, rfl, hrest⟩ := isPath_cons.1 hms
      have htarget : m.target ∈ A.states := hA.target_mem m hm
      have hm' : m.rename f ∈ B.table := (h.mem_table_iff _ hp _ htarget m.symbol).1 hm
      exact isPath_cons.2 ⟨hm', rfl, ih htarget hrest⟩

/-- Where a path of `B` goes a path of `A` goes before it. -/
theorem exists_isPath (h : IsIsomorphism f A B) (hB : B.Closed) (hp : p ∈ A.states)
    (hns : B.table.IsPath (f p) ns r) :
    ∃ ms, ∃ q ∈ A.states, A.table.IsPath p ms q ∧ f q = r ∧ ms.map (Move.rename f) = ns := by
  induction ns generalizing p with
  | nil => exact ⟨[], p, hp, rfl, isPath_nil.1 hns, rfl⟩
  | cons n ns ih =>
      obtain ⟨hn, hsource, hrest⟩ := isPath_cons.1 hns
      obtain ⟨q, hq, htarget⟩ := h.bijOn.surjOn (hB.target_mem n hn)
      have hn' : (⟨f p, n.symbol, f q⟩ : Move) = n := Move.ext hsource.symm rfl htarget
      have hm : ⟨p, n.symbol, q⟩ ∈ A.table :=
        (h.mem_table_iff p hp q hq n.symbol).2 (hn'.symm ▸ hn)
      rw [← htarget] at hrest
      obtain ⟨ms, r', hr', hms, hend, hmap⟩ := ih hq hrest
      exact ⟨⟨p, n.symbol, q⟩ :: ms, r', hr', isPath_cons.2 ⟨hm, rfl, hms⟩, hend,
        congrArg₂ List.cons hn' hmap⟩

theorem acceptsNfa_iff (h : IsIsomorphism f A B) (hA : A.Closed) (hB : B.Closed) :
    A.acceptsNfa w ↔ B.acceptsNfa w := by
  rw [acceptsNfa_iff_exists_isPath, acceptsNfa_iff_exists_isPath, ← h.initial_eq]
  constructor
  · rintro ⟨q, hq, ms, hms, hw⟩
    have hmem : q ∈ A.states :=
      hms.mem_of_mem_statesAlong hA.initial_mem hA.target_mem q (end_mem_statesAlong hms)
    refine ⟨f q, (h.mem_finals_iff q hmem).1 hq, _, h.isPath hA hA.initial_mem hms, ?_⟩
    rw [spelled_map_rename, hw]
  · rintro ⟨r, hr, ns, hns, hw⟩
    obtain ⟨ms, q, hq, hms, rfl, rfl⟩ := h.exists_isPath hB hA.initial_mem hns
    exact ⟨q, (h.mem_finals_iff q hq).2 hr, ms, hms, by rw [← hw, spelled_map_rename]⟩

end IsIsomorphism

end Automaton

end FiniteAutomata
