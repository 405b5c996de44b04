import FiniteAutomata.Json.Document
import FiniteAutomata.Storage.BitRow
import FiniteAutomata.Storage.SetCommand

/-!
# Sets of states in rows of bits

A set of states can be kept in a row of bits, the bit of a state being on when the state is in the
set. The row has the size that its history gave it: it grows for the states that come in and for
the sets it is joined with, and never shrinks. Where a bit beyond the row would be set there is no
answer.
-/

namespace FiniteAutomata

def StateId.index (q : StateId) : Nat := q.raw.toNat

structure StateBits (β : Type) where
  bits : β

namespace StateBits

variable {β : Type} [BitRow β]

def empty : StateBits β := ⟨BitRow.empty⟩

def emptyWithCapacity (room : Nat) : StateBits β := ⟨BitRow.ofSize room⟩

/-- Whether `q` is new, and the set with `q`. -/
def insert? (s : StateBits β) (q : StateId) : Option (Bool × StateBits β) :=
  let row := if BitRow.size s.bits ≤ q.index then BitRow.grow s.bits (q.index + 1) else s.bits
  (BitRow.put? row q.index).map fun (was, row) => (!was, ⟨row⟩)

def extend? (s : StateBits β) (qs : List StateId) : Option (StateBits β) :=
  qs.foldlM (fun s q => (s.insert? q).map Prod.snd) s

def ofList? (qs : List StateId) : Option (StateBits β) := empty.extend? qs

def singleton? (q : StateId) : Option (StateBits β) :=
  ((emptyWithCapacity (q.index + 1)).insert? q).map Prod.snd

def contains (s : StateBits β) (q : StateId) : Bool := BitRow.test s.bits q.index

/-- A state whose bit is beyond the row is not in the set. -/
def erase? (s : StateBits β) (q : StateId) : Option (StateBits β) :=
  if q.index < BitRow.size s.bits then (BitRow.set? s.bits q.index false).map mk else some s

def union (s t : StateBits β) : StateBits β :=
  let row :=
    if BitRow.size s.bits < BitRow.size t.bits then BitRow.grow s.bits (BitRow.size t.bits)
    else s.bits
  ⟨BitRow.union row t.bits⟩

def clear (s : StateBits β) : StateBits β := ⟨BitRow.clear s.bits⟩

def isEmpty (s : StateBits β) : Bool := BitRow.isClear s.bits

def size (s : StateBits β) : Nat := BitRow.count s.bits

def members (s : StateBits β) : List StateId := (BitRow.ones s.bits).map StateId.ofNat

def intersects (s t : StateBits β) : Bool := (BitRow.commonOnes s.bits t.bits).head?.isSome

def isSubset (s t : StateBits β) : Bool := s.members.all t.contains

def only? (s : StateBits β) : Option StateId :=
  match s.members with
  | [q] => some q
  | _ => none

theorem only?_eq_some_iff {s : StateBits β} {q : StateId} :
    s.only? = some q ↔ s.members = [q] := by
  unfold only?
  split <;> simp_all

/-- Sets are compared by their members, whatever the sizes of their rows. -/
instance : BEq (StateBits β) := ⟨fun s t => s.members == t.members⟩

theorem beq_iff {s t : StateBits β} : s == t ↔ s.members = t.members :=
  beq_iff_eq (a := s.members)

/-- What a hash of the set is computed from. -/
def hashed (s : StateBits β) : List UInt32 := s.members.map StateId.raw

def ofTokens? (ts : List Json.Token) : Option (StateBits β) :=
  (StateId.arrayOfTokens? ts).bind ofList?

def toTokens (s : StateBits β) : List Json.Token := StateId.arrayToTokens s.members

end StateBits

section Commands

variable {β : Type} [BitRow β]

def SetOperation.bits? (all : Nat → StateBits β) (s : StateBits β) :
    SetOperation → Option (StateBits β)
  | new => some .empty
  | withCapacity room => some (.emptyWithCapacity room)
  | singleton q => StateBits.singleton? q
  | ofList qs => StateBits.ofList? qs
  | copy place => some (all place)
  | insert q => (s.insert? q).map Prod.snd
  | extend qs => s.extend? qs
  | erase q => s.erase? q
  | union place => some (s.union (all place))
  | clear => some s.clear

def SetCommand.bits? (all : Nat → StateBits β) (c : SetCommand) : Option (Nat → StateBits β) :=
  (c.operation.bits? all (all c.place)).map (putAt all c.place)

variable (β) in
/-- The sets after some commands, if no bit beyond a row was set. -/
def bitsAfter? (cs : List SetCommand) : Option (Nat → StateBits β) :=
  cs.foldlM SetCommand.bits? fun _ => .empty

theorem bitsAfter?_concat (cs : List SetCommand) (c : SetCommand) :
    bitsAfter? β (cs ++ [c]) = (bitsAfter? β cs).bind c.bits? := by
  simp [bitsAfter?]

end Commands

end FiniteAutomata
