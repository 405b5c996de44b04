import FiniteAutomata.Transition.Closure
import Mathlib.Logic.Relation

/-!
# Closures under empty moves

The states found by following empty moves are those that the relation of these moves, made
reflexive and transitive, relates to one of the first. They are the least set that holds the first
ones and that no empty move leaves.
-/

namespace FiniteAutomata.TransitionTable

variable {t : TransitionTable} {x y : StateSet} {p q : StateId}

def EpsilonClosed (t : TransitionTable) (x : StateSet) : Prop :=
  ∀ m ∈ t, m.symbol.isEpsilon → m.source ∈ x → m.target ∈ x

instance (t : TransitionTable) (x : StateSet) : Decidable (t.EpsilonClosed x) :=
  inferInstanceAs
    (Decidable (∀ m ∈ t.moves.toList, m.symbol.isEpsilon → m.source ∈ x → m.target ∈ x))

def EpsilonMove (t : TransitionTable) (p q : StateId) : Prop := ⟨p, .epsilon, q⟩ ∈ t

instance (t : TransitionTable) (p q : StateId) : Decidable (t.EpsilonMove p q) :=
  inferInstanceAs (Decidable ((⟨p, .epsilon, q⟩ : Move) ∈ t))

theorem epsilonClosed_epsilonClosure : t.EpsilonClosed (t.epsilonClosure x) := by
  intro m hm ha hs
  obtain ⟨p, hp, hreaches⟩ := mem_epsilonClosure_iff_reaches.1 hs
  exact mem_epsilonClosure_iff_reaches.2 ⟨p, hp, hreaches.move hm ha⟩

theorem EpsilonClosed.epsilonClosure_subset (hy : t.EpsilonClosed y) (hxy : ∀ q ∈ x, q ∈ y) :
    ∀ q ∈ t.epsilonClosure x, q ∈ y := by
  intro q hq
  obtain ⟨p, hp, hreaches⟩ := mem_epsilonClosure_iff_reaches.1 hq
  clear hq
  induction hreaches with
  | refl => exact hxy p hp
  | move _ hm ha ih => exact hy _ hm ha ih

theorem EpsilonClosed.epsilonClosure_eq (hx : t.EpsilonClosed x) : t.epsilonClosure x = x :=
  OrderedSet.ext_mem fun q =>
    ⟨hx.epsilonClosure_subset (fun _ h => h) q, mem_epsilonClosure_of_mem⟩

theorem epsilonClosure_mono (hxy : ∀ q ∈ x, q ∈ y) :
    ∀ q ∈ t.epsilonClosure x, q ∈ t.epsilonClosure y :=
  epsilonClosed_epsilonClosure.epsilonClosure_subset fun q hq =>
    mem_epsilonClosure_of_mem (hxy q hq)

theorem epsilonClosure_union (t : TransitionTable) (x y : StateSet) :
    t.epsilonClosure (x ∪ y) = t.epsilonClosure x ∪ t.epsilonClosure y := by
  refine OrderedSet.ext_mem fun q => ?_
  simp only [mem_epsilonClosure_iff_reaches, OrderedSet.mem_union, or_and_right, exists_or]

theorem reaches_epsilon_iff :
    t.Reaches Symbol.isEpsilon p q ↔ Relation.ReflTransGen t.EpsilonMove p q := by
  constructor
  · intro h
    induction h with
    | refl => exact .refl
    | @move m _ hm ha ih =>
        obtain ⟨source, symbol, target⟩ := m
        obtain rfl := Symbol.isEpsilon_iff.1 ha
        exact ih.tail hm
  · intro h
    induction h with
    | refl => exact .refl
    | tail _ hmove ih => exact .move ih hmove rfl

theorem epsilonClosed_of_hasEpsilon_eq_false (h : t.hasEpsilon = false) (x : StateSet) :
    t.EpsilonClosed x := by
  intro m hm ha
  have hnone : ¬ m.symbol.isEpsilon := List.any_eq_false.1 h m hm
  exact absurd ha hnone

/-- The closure of some states holds exactly what empty moves reach from them. Its stack runs out
after as many turns as there are states in the closure, which are no more than the states it starts
from and the moves together. The closure is the least set that holds the first states and that no
empty move leaves, so it keeps inclusions and unions, and closing it again adds nothing; nor does it
add anything in a table without empty moves. The states need not be ones that the table mentions. -/
theorem epsilonClosure_is_least_closed_set (t : TransitionTable) :
    (∀ x q, q ∈ t.epsilonClosure x ↔ ∃ p ∈ x, Relation.ReflTransGen t.EpsilonMove p q) ∧
      (∀ x n, t.closeWithin n (.start x) =
        if (t.epsilonClosure x).size ≤ n then some (t.epsilonClosure x) else none) ∧
      (∀ x, (t.epsilonClosure x).size ≤ x.size + t.size) ∧
      (∀ x, (∀ q ∈ x, q ∈ t.epsilonClosure x) ∧ t.EpsilonClosed (t.epsilonClosure x) ∧
        ∀ y, (∀ q ∈ x, q ∈ y) → t.EpsilonClosed y → ∀ q ∈ t.epsilonClosure x, q ∈ y) ∧
      (∀ x y, (∀ q ∈ x, q ∈ y) → ∀ q ∈ t.epsilonClosure x, q ∈ t.epsilonClosure y) ∧
      (∀ x, t.epsilonClosure (t.epsilonClosure x) = t.epsilonClosure x) ∧
      (∀ x y, t.epsilonClosure (x ∪ y) = t.epsilonClosure x ∪ t.epsilonClosure y) ∧
      (t.hasEpsilon = false → ∀ x, t.epsilonClosure x = x) := by
  refine ⟨fun x q => ?_, fun x n => t.closeWithin_start n x, t.size_epsilonClosure_le,
    fun x => ⟨?_, ?_, fun y hxy hy => ?_⟩, fun x y hxy => ?_, fun x => ?_, fun x y => ?_,
    fun hnone x => ?_⟩
  · simp only [mem_epsilonClosure_iff_reaches, reaches_epsilon_iff]
  · exact fun q hq => mem_epsilonClosure_of_mem hq
  · exact epsilonClosed_epsilonClosure
  · exact hy.epsilonClosure_subset hxy
  · exact epsilonClosure_mono hxy
  · exact epsilonClosed_epsilonClosure.epsilonClosure_eq
  · exact t.epsilonClosure_union x y
  · exact (epsilonClosed_of_hasEpsilon_eq_false hnone x).epsilonClosure_eq

/-- The empty moves go round between `q0`, `q1` and `q2`, and `q3` is reached by a letter only. No
move touches `q9`. The stack runs out after four turns. -/
theorem epsilonClosure_of_cycle :
    let t := ofMoves [⟨.ofNat 0, .epsilon, .ofNat 1⟩, ⟨.ofNat 1, .epsilon, .ofNat 2⟩,
      ⟨.ofNat 2, .epsilon, .ofNat 0⟩, ⟨.ofNat 2, .char 'a', .ofNat 3⟩]
    let u := ofMoves [⟨.ofNat 0, .char 'a', .ofNat 3⟩]
    let x : StateSet := .ofList [.ofNat 1, .ofNat 9]
    let y : StateSet := .ofList [.ofNat 0, .ofNat 1, .ofNat 2, .ofNat 9]
    (∀ q ∈ x, q ∈ y) ∧ t.EpsilonClosed y ∧ (∀ q ∈ t.epsilonClosure x, q ∈ y) ∧
      (∀ q ∈ t.epsilonClosure x, q ∈ t.epsilonClosure y) ∧ .ofNat 0 ∈ t.epsilonClosure x ∧
      t.closeWithin 3 (.start x) = none ∧ t.closeWithin 4 (.start x) = some y ∧
      u.hasEpsilon = false ∧ u.epsilonClosure x = x := by
  intro t u x y
  have hxy : ∀ q ∈ x, q ∈ y := by decide
  have hclosed : t.EpsilonClosed y := by decide
  have hnone : u.hasEpsilon = false := by decide
  obtain ⟨hmem, -, -, hleast, hmono, -⟩ := epsilonClosure_is_least_closed_set t
  obtain ⟨-, -, -, -, -, -, -, hfixed⟩ := epsilonClosure_is_least_closed_set u
  have hfirst : t.EpsilonMove (.ofNat 1) (.ofNat 2) := by decide
  have hsecond : t.EpsilonMove (.ofNat 2) (.ofNat 0) := by decide
  exact ⟨hxy, hclosed, (hleast x).2.2 y hxy hclosed, hmono x y hxy,
    (hmem x _).2 ⟨.ofNat 1, by decide, .tail (.single hfirst) hsecond⟩, by decide, by decide, hnone,
    hfixed hnone x⟩

end FiniteAutomata.TransitionTable
