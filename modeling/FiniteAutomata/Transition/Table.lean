import FiniteAutomata.Transition.Move

/-!
# Transition tables

A transition table is the set of moves of some edges. It depends on the moves alone: edges given in
another order, or a label spread over several edges, make the same table.
-/

namespace FiniteAutomata

structure TransitionTable where
  moves : OrderedSet Move
  deriving DecidableEq

namespace TransitionTable

instance : Membership Move TransitionTable := ⟨fun t m => m ∈ t.moves⟩

instance (m : Move) (t : TransitionTable) : Decidable (m ∈ t) :=
  inferInstanceAs (Decidable (m ∈ t.moves))

instance : EmptyCollection TransitionTable := ⟨⟨∅⟩⟩

theorem mem_moves {t : TransitionTable} {m : Move} : m ∈ t.moves ↔ m ∈ t := Iff.rfl

def ofMoves (moves : List Move) : TransitionTable := ⟨.ofList moves⟩

@[simp] theorem mem_ofMoves {moves : List Move} {m : Move} : m ∈ ofMoves moves ↔ m ∈ moves := by
  simp [ofMoves, ← mem_moves]

def ofEdges (edges : List Edge) : TransitionTable := ofMoves (edges.flatMap Edge.moves)

theorem mem_ofEdges {edges : List Edge} {m : Move} : m ∈ ofEdges edges ↔
    ∃ e ∈ edges, e.source = m.source ∧ m.symbol ∈ e.label ∧ e.target = m.target := by
  simp [ofEdges, Edge.mem_moves]

theorem ext_mem {t u : TransitionTable} (h : ∀ m, m ∈ t ↔ m ∈ u) : t = u := by
  cases t
  cases u
  exact congrArg mk (OrderedSet.ext_mem h)

def targets (t : TransitionTable) (q : StateId) (a : Symbol) : StateSet :=
  .ofList ((t.moves.toList.filter fun m => m.source = q ∧ m.symbol = a).map Move.target)

@[simp] theorem mem_targets {t : TransitionTable} {p q : StateId} {a : Symbol} :
    q ∈ t.targets p a ↔ ⟨p, a, q⟩ ∈ t := by
  simp only [targets, OrderedSet.mem_ofList, List.mem_map, List.mem_filter, decide_eq_true_eq]
  constructor
  · rintro ⟨m, ⟨hm, rfl, rfl⟩, rfl⟩
    exact hm
  · intro h
    exact ⟨⟨p, a, q⟩, ⟨h, rfl, rfl⟩, rfl⟩

/-- The entry of `q` and `a`. There is none when `q` cannot move on `a`. -/
def targets? (t : TransitionTable) (q : StateId) (a : Symbol) : Option StateSet :=
  if (t.targets q a).isEmpty then none else some (t.targets q a)

theorem targets?_eq_none_iff {t : TransitionTable} {p : StateId} {a : Symbol} :
    t.targets? p a = none ↔ ∀ q, ⟨p, a, q⟩ ∉ t := by
  have hempty : (t.targets p a).isEmpty ↔ ∀ q, ⟨p, a, q⟩ ∉ t := by
    simp only [OrderedSet.isEmpty_iff_forall_not_mem, mem_targets]
  rw [← hempty, targets?]
  split <;> simp [*]

theorem targets?_eq_some_iff {t : TransitionTable} {p : StateId} {a : Symbol} {x : StateSet} :
    t.targets? p a = some x ↔ (∃ q, ⟨p, a, q⟩ ∈ t) ∧ t.targets p a = x := by
  by_cases hmoves : ∃ q, ⟨p, a, q⟩ ∈ t
  · have hsome : t.targets? p a = some (t.targets p a) := by
      obtain ⟨q, hq⟩ := hmoves
      exact if_neg fun h => OrderedSet.isEmpty_iff_forall_not_mem.1 h q (mem_targets.2 hq)
    simp [hsome, hmoves]
  · simp [targets?_eq_none_iff.2 (not_exists.1 hmoves), hmoves]

def isEmpty (t : TransitionTable) : Bool := t.moves.isEmpty

theorem isEmpty_iff {t : TransitionTable} : t.isEmpty ↔ ∀ m, m ∉ t :=
  OrderedSet.isEmpty_iff_forall_not_mem

def size (t : TransitionTable) : Nat := t.moves.size

def hasEpsilon (t : TransitionTable) : Bool := t.moves.toList.any (·.symbol.isEpsilon)

theorem hasEpsilon_iff {t : TransitionTable} : t.hasEpsilon ↔ ∃ p q, ⟨p, .epsilon, q⟩ ∈ t := by
  simp only [hasEpsilon, List.any_eq_true, Symbol.isEpsilon_iff]
  constructor
  · rintro ⟨⟨p, a, q⟩, hm, rfl⟩
    exact ⟨p, q, hm⟩
  · rintro ⟨p, q, hm⟩
    exact ⟨⟨p, .epsilon, q⟩, hm, rfl⟩

def alphabet (t : TransitionTable) : OrderedSet Char :=
  .ofList (t.moves.toList.filterMap (·.symbol.char?))

theorem mem_alphabet {t : TransitionTable} {c : Char} :
    c ∈ t.alphabet ↔ ∃ p q, ⟨p, .char c, q⟩ ∈ t := by
  simp only [alphabet, OrderedSet.mem_ofList, List.mem_filterMap, Symbol.char?_eq_some_iff]
  constructor
  · rintro ⟨⟨p, a, q⟩, hm, rfl⟩
    exact ⟨p, q, hm⟩
  · rintro ⟨p, q, hm⟩
    exact ⟨⟨p, .char c, q⟩, hm, rfl⟩

def symbolsFrom (t : TransitionTable) (q : StateId) : OrderedSet Symbol :=
  .ofList ((t.moves.toList.filter (·.source = q)).map Move.symbol)

theorem mem_symbolsFrom {t : TransitionTable} {p : StateId} {a : Symbol} :
    a ∈ t.symbolsFrom p ↔ ∃ q, ⟨p, a, q⟩ ∈ t := by
  simp only [symbolsFrom, OrderedSet.mem_ofList, List.mem_map, List.mem_filter, decide_eq_true_eq]
  constructor
  · rintro ⟨⟨p, a, q⟩, ⟨hm, rfl⟩, rfl⟩
    exact ⟨q, hm⟩
  · rintro ⟨q, hm⟩
    exact ⟨⟨p, a, q⟩, ⟨hm, rfl⟩, rfl⟩

def outgoing (t : TransitionTable) (q : StateId) : List (Symbol × StateSet) :=
  (t.symbolsFrom q).toList.map fun a => (a, t.targets q a)

theorem mem_outgoing {t : TransitionTable} {q : StateId} {a : Symbol} {x : StateSet} :
    (a, x) ∈ t.outgoing q ↔ t.targets? q a = some x := by
  simp only [outgoing, List.mem_map, OrderedSet.mem_toList, mem_symbolsFrom, Prod.mk.injEq,
    targets?_eq_some_iff]
  constructor
  · rintro ⟨b, hmoves, rfl, hx⟩
    exact ⟨hmoves, hx⟩
  · rintro ⟨hmoves, hx⟩
    exact ⟨a, hmoves, rfl, hx⟩

theorem nodup_outgoing (t : TransitionTable) (q : StateId) :
    ((t.outgoing q).map Prod.fst).Nodup := by
  rw [outgoing, List.map_map]
  exact List.pairwise_map.2 ((t.symbolsFrom q).ascending.imp Std.ne_of_lt)

def mentions (t : TransitionTable) (q : StateId) : Bool :=
  t.moves.toList.any fun m => m.source = q ∨ m.target = q

theorem mentions_iff {t : TransitionTable} {q : StateId} :
    t.mentions q ↔ ∃ m ∈ t, m.source = q ∨ m.target = q := by
  simp [mentions, ← mem_moves]

end TransitionTable

end FiniteAutomata
