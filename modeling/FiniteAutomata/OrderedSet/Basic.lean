/-!
# Sets written in ascending order

An ordered set is the strictly ascending list of its members. Two sets with the same members are
therefore the same list, whatever operations built them.
-/

universe u v

namespace FiniteAutomata

structure OrderedSet (α : Type u) [LT α] where
  toList : List α
  ascending : toList.Pairwise (· < ·)
  deriving DecidableEq

namespace OrderedSet

section Views

variable {α : Type u} [LT α]

instance : Membership α (OrderedSet α) := ⟨fun s a => a ∈ s.toList⟩

instance [DecidableEq α] (a : α) (s : OrderedSet α) : Decidable (a ∈ s) :=
  inferInstanceAs (Decidable (a ∈ s.toList))

instance : EmptyCollection (OrderedSet α) := ⟨⟨[], .nil⟩⟩

instance : Inhabited (OrderedSet α) := ⟨∅⟩

/-- The hash is that of the members in order, so equal sets have equal hashes. -/
instance [Hashable α] : Hashable (OrderedSet α) := ⟨fun s => hash s.toList⟩

/-- The room asked for is advice: the set is the empty one. -/
def emptyWithCapacity (_room : Nat) : OrderedSet α := ∅

def singleton (a : α) : OrderedSet α := ⟨[a], List.pairwise_singleton _ a⟩

def size (s : OrderedSet α) : Nat := s.toList.length

def isEmpty (s : OrderedSet α) : Bool := s.toList.isEmpty

def only? (s : OrderedSet α) : Option α :=
  match s.toList with
  | [a] => some a
  | _ => none

def filter (p : α → Bool) (s : OrderedSet α) : OrderedSet α :=
  ⟨s.toList.filter p, s.ascending.filter p⟩

variable [DecidableEq α]

def erase (s : OrderedSet α) (a : α) : OrderedSet α := s.filter (· ≠ a)

def isSubset (s t : OrderedSet α) : Bool := s.toList.all (· ∈ t)

def intersects (s t : OrderedSet α) : Bool := s.toList.any (· ∈ t)

end Views

section Building

variable {α : Type u} [LT α] [LE α] [Std.IsLinearOrder α] [Std.LawfulOrderLT α] [DecidableLT α]

/-- The ascending list `l` with `a` in its place, unless it is there already. -/
def place (a : α) : List α → List α
  | [] => [a]
  | b :: l => if a < b then a :: b :: l else if b < a then b :: place a l else b :: l

theorem mem_place {a b : α} {l : List α} : b ∈ place a l ↔ b = a ∨ b ∈ l := by
  induction l with
  | nil => simp [place]
  | cons c l ih => grind [place]

theorem pairwise_place {a : α} {l : List α} (h : l.Pairwise (· < ·)) :
    (place a l).Pairwise (· < ·) := by
  induction l with
  | nil => simp [place]
  | cons c l ih =>
    have hl := List.pairwise_cons.1 h
    grind [place, mem_place, List.pairwise_cons]

def insert (s : OrderedSet α) (a : α) : OrderedSet α :=
  ⟨place a s.toList, pairwise_place s.ascending⟩

/-- Whether `a` was a member already, and the set with `a`. -/
def containsThenInsert [DecidableEq α] (s : OrderedSet α) (a : α) : Bool × OrderedSet α :=
  (a ∈ s, s.insert a)

def ofList (l : List α) : OrderedSet α := l.foldr (fun a s => s.insert a) ∅

def union (s t : OrderedSet α) : OrderedSet α := ofList (s.toList ++ t.toList)

instance : Union (OrderedSet α) := ⟨union⟩

def bind {β : Type v} [LT β] (s : OrderedSet β) (f : β → OrderedSet α) : OrderedSet α :=
  ofList (s.toList.flatMap fun b => (f b).toList)

end Building

end OrderedSet

end FiniteAutomata
