import FiniteAutomata.Storage.StateBits
import FiniteAutomata.Transition.Table
import Mathlib.Data.List.Perm.Subperm

/-!
# Tables stored by source and symbol

A stored table has entries. The entry of a state and a symbol is the set of states that the state
can move to on the symbol, kept in a row of bits. Entries come in no order, and are made and filled
edge by edge, move by move. Where they are written the moves are sorted.
-/

namespace FiniteAutomata

structure StoredTable (β : Type) where
  entries : Std.HashMap (StateId × Symbol) (StateBits β)

namespace StoredTable

section Entries

variable {β : Type}

def empty : StoredTable β := ⟨∅⟩

def targets? (t : StoredTable β) (q : StateId) (a : Symbol) : Option (StateBits β) :=
  t.entries[(q, a)]?

theorem targets?_insert (t : StoredTable β) (m : Move) (s : StateBits β) (q : StateId)
    (a : Symbol) : targets? ⟨t.entries.insert (m.source, m.symbol) s⟩ q a =
      if m.source = q ∧ m.symbol = a then some s else t.targets? q a := by
  simp [targets?, Std.HashMap.getElem?_insert]

theorem mem_toList {t : StoredTable β} {key : StateId × Symbol} {s : StateBits β} :
    (key, s) ∈ t.entries.toList ↔ t.targets? key.1 key.2 = some s :=
  Std.HashMap.mem_toList_iff_getElem?_eq_some

theorem mem_entries {t : StoredTable β} {key : StateId × Symbol} :
    key ∈ t.entries ↔ (t.targets? key.1 key.2).isSome :=
  Std.HashMap.mem_iff_isSome_getElem?

theorem nodup_keys (t : StoredTable β) : t.entries.keys.Nodup :=
  Std.HashMap.distinct_keys.imp ne_of_beq_false

def isEmpty (t : StoredTable β) : Bool := t.entries.isEmpty

def hasEpsilon (t : StoredTable β) : Bool := t.entries.keys.any (·.2.isEpsilon)

def alphabet (t : StoredTable β) : OrderedSet Char :=
  .ofList (t.entries.keys.filterMap (·.2.char?))

def outgoing (t : StoredTable β) (q : StateId) : List (Symbol × StateBits β) :=
  (t.entries.toList.filter (·.1.1 = q)).map fun ((_, a), s) => (a, s)

theorem mem_outgoing_iff {t : StoredTable β} {q : StateId} {a : Symbol} {s : StateBits β} :
    (a, s) ∈ t.outgoing q ↔ t.targets? q a = some s := by
  simp [outgoing, targets?]

theorem nodup_outgoing (t : StoredTable β) (q : StateId) :
    ((t.outgoing q).map Prod.fst).Nodup := by
  rw [outgoing, List.map_map]
  refine List.pairwise_map.2 ((Std.HashMap.distinct_keys_toList.filter _).imp_of_mem ?_)
  intro x y hx hy hxy heq
  have hx : x.1.1 = q := of_decide_eq_true (List.mem_filter.1 hx).2
  have hy : y.1.1 = q := of_decide_eq_true (List.mem_filter.1 hy).2
  exact ne_of_beq_false hxy (Prod.ext (hx.trans hy.symm) heq)

end Entries

variable {β : Type} [BitRow β]

/-- The target of a move goes into its entry, which is made if there is none. -/
def add? (t : StoredTable β) (m : Move) : Option (StoredTable β) :=
  let key := (m.source, m.symbol)
  ((t.entries[key]?.getD .empty).insert? m.target).map fun (_, s) => ⟨t.entries.insert key s⟩

def ofEdges? (edges : List Edge) : Option (StoredTable β) :=
  edges.foldlM (fun t e => e.moves.foldlM add? t) empty

def moves (t : StoredTable β) : List Move :=
  t.entries.toList.flatMap fun ((q, a), s) => s.members.map fun p => ⟨q, a, p⟩

def mentions (t : StoredTable β) (q : StateId) : Bool :=
  t.moves.any fun m => m.source = q ∨ m.target = q

def sortedMoves (t : StoredTable β) : List Move := t.moves.mergeSort fun m n => ¬ n < m

theorem mem_sortedMoves {t : StoredTable β} {m : Move} : m ∈ t.sortedMoves ↔ m ∈ t.moves :=
  List.mem_mergeSort

/-- Tables are compared entry by entry. -/
instance : BEq (StoredTable β) := ⟨fun t u =>
  t.entries.size == u.entries.size &&
    t.entries.toList.all fun (key, s) => u.entries[key]?.any (s == ·)⟩

theorem beq_iff {t u : StoredTable β} : t == u ↔ t.entries.size = u.entries.size ∧
    ∀ q a s, t.targets? q a = some s → ∃ r, u.targets? q a = some r ∧ s == r := by
  change (_ && List.all _ _) = true ↔ _
  simp [targets?, Option.any_eq_true]

theorem keys_perm_of_beq {t u : StoredTable β} (h : t == u) :
    t.entries.keys.Perm u.entries.keys := by
  obtain ⟨hsize, hentries⟩ := beq_iff.1 h
  have hsub : t.entries.keys ⊆ u.entries.keys := by
    intro key hkey
    rw [Std.HashMap.mem_keys, mem_entries, Option.isSome_iff_exists] at hkey ⊢
    obtain ⟨s, hs⟩ := hkey
    obtain ⟨r, hr, -⟩ := hentries _ _ _ hs
    exact ⟨r, hr⟩
  refine (List.subperm_of_subset t.nodup_keys hsub).perm_of_length_le ?_
  rw [Std.HashMap.length_keys, Std.HashMap.length_keys]
  exact Nat.le_of_eq hsize.symm

end StoredTable

end FiniteAutomata
