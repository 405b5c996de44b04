import FiniteAutomata.State

/-!
# Commands for sets of states

Sets of states stand at numbered places, each at first the empty set. A command makes the set at one
place anew or changes it, and leaves the others as they are.
-/

namespace FiniteAutomata

inductive SetOperation
  | new
  | withCapacity (room : Nat)
  | singleton (q : StateId)
  | ofList (qs : List StateId)
  | copy (place : Nat)
  | insert (q : StateId)
  | extend (qs : List StateId)
  | erase (q : StateId)
  | union (place : Nat)
  | clear
  deriving DecidableEq, Repr

/-- The operation gives the next set at the place. -/
structure SetCommand where
  place : Nat
  operation : SetOperation
  deriving DecidableEq, Repr

def putAt {σ : Type} (all : Nat → σ) (place : Nat) (s : σ) : Nat → σ :=
  fun r => if r = place then s else all r

/-- Sets related place by place stay so when related sets are put at one place. -/
theorem rel_putAt {σ τ : Type} {R : σ → τ → Prop} {all : Nat → σ} {all' : Nat → τ}
    (h : ∀ r, R (all r) (all' r)) {s : σ} {t : τ} (hst : R s t) (place r : Nat) :
    R (putAt all place s r) (putAt all' place t r) := by
  unfold putAt
  split
  · exact hst
  · exact h r

def SetOperation.sets (all : Nat → StateSet) (s : StateSet) : SetOperation → StateSet
  | new => ∅
  | withCapacity room => .emptyWithCapacity room
  | singleton q => .singleton q
  | ofList qs => .ofList qs
  | copy place => all place
  | insert q => s.insert q
  | extend qs => s ∪ .ofList qs
  | erase q => s.erase q
  | union place => s ∪ all place
  | clear => ∅

def SetCommand.sets (all : Nat → StateSet) (c : SetCommand) : Nat → StateSet :=
  putAt all c.place (c.operation.sets all (all c.place))

def setsAfter (cs : List SetCommand) : Nat → StateSet := cs.foldl SetCommand.sets fun _ => ∅

theorem setsAfter_concat (cs : List SetCommand) (c : SetCommand) :
    setsAfter (cs ++ [c]) = c.sets (setsAfter cs) := by
  simp [setsAfter]

end FiniteAutomata
