import FiniteAutomata.Label

/-!
# Edges and moves

An edge joins a source to a target and carries a label. Each symbol of the label makes it one move.
Moves are ordered by source, then symbol, then target.
-/

namespace FiniteAutomata

structure Edge where
  source : StateId
  target : StateId
  label : Label
  deriving DecidableEq

@[ext] structure Move where
  source : StateId
  symbol : Symbol
  target : StateId
  deriving DecidableEq, Repr

def Edge.moves (e : Edge) : List Move := e.label.toList.map fun a => ⟨e.source, a, e.target⟩

theorem Edge.mem_moves {e : Edge} {m : Move} :
    m ∈ e.moves ↔ e.source = m.source ∧ m.symbol ∈ e.label ∧ e.target = m.target := by
  simp only [moves, List.mem_map, OrderedSet.mem_toList]
  constructor
  · rintro ⟨a, ha, rfl⟩
    exact ⟨rfl, ha, rfl⟩
  · rintro ⟨hs, ha, ht⟩
    exact ⟨m.symbol, ha, Move.ext hs rfl ht⟩

namespace Move

instance : LT Move := ⟨fun m n => m.source < n.source ∨ m.source = n.source ∧
  (m.symbol < n.symbol ∨ m.symbol = n.symbol ∧ m.target < n.target)⟩

instance : LE Move := ⟨fun m n => m < n ∨ m = n⟩

theorem lt_iff {m n : Move} : m < n ↔ m.source < n.source ∨ m.source = n.source ∧
    (m.symbol < n.symbol ∨ m.symbol = n.symbol ∧ m.target < n.target) := Iff.rfl

theorem le_iff_lt_or_eq {m n : Move} : m ≤ n ↔ m < n ∨ m = n := Iff.rfl

instance : DecidableLT Move := fun m n => decidable_of_iff' _ (lt_iff (m := m) (n := n))

theorem lt_trans {m n k : Move} (hmn : m < n) (hnk : n < k) : m < k := by
  grind [lt_iff]

theorem lt_irrefl (m : Move) : ¬ m < m := by
  grind [lt_iff]

theorem lt_trichotomy (m n : Move) : m < n ∨ m = n ∨ n < m := by
  grind [lt_iff, Move.ext]

instance : Std.IsLinearOrder Move where
  le_refl m := .inr rfl
  le_trans m n k := by grind [le_iff_lt_or_eq, lt_trans]
  le_antisymm m n := by grind [le_iff_lt_or_eq, lt_trans, lt_irrefl]
  le_total m n := by grind [le_iff_lt_or_eq, lt_trichotomy]

instance : Std.LawfulOrderLT Move where
  lt_iff m n := by grind [le_iff_lt_or_eq, lt_trans, lt_irrefl]

end Move

end FiniteAutomata
