import FiniteAutomata.Editor
import FiniteAutomata.Json.Token

/-!
# Documents

Settings, modes, symbols, states and sets of states are read from JSON documents. A choice is
written as its name, or as an object whose one field has that name; the field holds the character
of a symbol that has one, and null otherwise. Settings are an object with the field `mode` or an
array of the mode; an absent mode has its default. A document holds one value and nothing after it.
-/

namespace FiniteAutomata

open Json

def Mode.ofName? (name : List Char) : Option Mode :=
  if name = "nfa".toList then some nfa else if name = "dfa".toList then some dfa else none

def Mode.cut? : List Token → Option (Mode × List Token)
  | .string name :: rest => (ofName? name).map fun m => (m, rest)
  | .openBrace :: .string name :: .colon :: .null :: .closeBrace :: rest =>
    (ofName? name).map fun m => (m, rest)
  | _ => none

def Mode.ofTokens? (ts : List Token) : Option Mode :=
  match cut? ts with
  | some (m, []) => some m
  | _ => none

def Settings.ofTokens? : List Token → Option Settings
  | [.openBrace, .closeBrace] => some default
  | [.openBracket, .closeBracket] => some default
  | .openBrace :: .string name :: .colon :: rest =>
    if name = "mode".toList then
      match Mode.cut? rest with
      | some (m, [.closeBrace]) => some ⟨m⟩
      | _ => none
    else none
  | .openBracket :: rest =>
    match Mode.cut? rest with
    | some (m, [.closeBracket]) => some ⟨m⟩
    | _ => none
  | _ => none

def Symbol.ofTokens? : List Token → Option Symbol
  | [.string name] => if name = "epsilon".toList then some epsilon else none
  | [.openBrace, .string name, .colon, .null, .closeBrace] =>
    if name = "epsilon".toList then some epsilon else none
  | [.openBrace, .string name, .colon, .string [c], .closeBrace] =>
    if name = "char".toList then some (char c) else none
  | _ => none

def StateId.ofNat? (n : Nat) : Option StateId := if n < UInt32.size then some (.ofNat n) else none

def StateId.ofTokens? : List Token → Option StateId
  | [.number n] => ofNat? n
  | _ => none

/-- The states after a comma each, up to the end of the array. -/
def StateId.moreOfTokens? : List Token → Option (List StateId)
  | [.closeBracket] => some []
  | .comma :: .number n :: rest => do return (← ofNat? n) :: (← moreOfTokens? rest)
  | _ => none

def StateId.arrayOfTokens? : List Token → Option (List StateId)
  | [.openBracket, .closeBracket] => some []
  | .openBracket :: .number n :: rest => do return (← ofNat? n) :: (← moreOfTokens? rest)
  | _ => none

/-- An array of states in any order, with any repetitions. -/
def StateSet.ofTokens? (ts : List Token) : Option StateSet :=
  (StateId.arrayOfTokens? ts).map .ofList

def StateId.arrayToTokens : List StateId → List Token
  | [] => [.openBracket, .closeBracket]
  | q :: qs => .openBracket :: .number q.raw.toNat ::
    (qs.flatMap (fun q => [.comma, .number q.raw.toNat]) ++ [.closeBracket])

theorem StateId.ofNat?_toNat (q : StateId) : ofNat? q.raw.toNat = some q := by
  simp [ofNat?, ofNat, UInt32.toNat_lt_size]

theorem StateId.moreOfTokens?_flatMap (qs : List StateId) :
    moreOfTokens? (qs.flatMap (fun q => [.comma, .number q.raw.toNat]) ++ [.closeBracket]) =
      some qs := by
  induction qs with
  | nil => rfl
  | cons q qs ih => simp [moreOfTokens?, ofNat?_toNat, ih]

theorem StateId.arrayOfTokens?_arrayToTokens (qs : List StateId) :
    arrayOfTokens? (arrayToTokens qs) = some qs := by
  cases qs with
  | nil => rfl
  | cons q qs => simp [arrayToTokens, arrayOfTokens?, ofNat?_toNat, moreOfTokens?_flatMap]

namespace Json

def read? {α : Type} (ofTokens? : List Token → Option α) (text : String) : Option α :=
  (tokens? text.toList).bind ofTokens?

end Json

end FiniteAutomata
