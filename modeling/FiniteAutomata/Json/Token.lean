/-!
# Tokens of JSON documents

The documents read here hold objects, arrays, strings, whole numbers and null, and nothing else is
a token. A string is given with its escapes resolved. Tabs, line ends and spaces may stand between
tokens.
-/

namespace FiniteAutomata.Json

inductive Token
  | openBrace
  | closeBrace
  | openBracket
  | closeBracket
  | colon
  | comma
  | null
  | string (text : List Char)
  | number (n : Nat)
  deriving DecidableEq, Repr

/-- The character that a letter after a backslash stands for, `u` apart. -/
def shortEscape? (c : Char) : Option Char :=
  [('\x22', '\x22'), ('\x5c', '\x5c'), ('/', '/'), ('b', '\x08'), ('f', '\x0c'), ('n', '\n'),
    ('r', '\r'), ('t', '\t')].lookup c

def hexDigit? (c : Char) : Option Nat :=
  if c.isDigit then some (c.toNat - '0'.toNat)
  else if 'a' ≤ c ∧ c ≤ 'f' then some (c.toNat - 'a'.toNat + 10)
  else if 'A' ≤ c ∧ c ≤ 'F' then some (c.toNat - 'A'.toNat + 10)
  else none

def hexUnit? (a b c d : Char) : Option Nat := do
  return ((← hexDigit? a) * 16 + (← hexDigit? b)) * 256 + (← hexDigit? c) * 16 + (← hexDigit? d)

def scalar? (n : Nat) : Option Char := if n.isValidChar then some (.ofNat n) else none

def pair? (high low : Nat) : Option Char :=
  if 0xd800 ≤ high ∧ high ≤ 0xdbff ∧ 0xdc00 ≤ low ∧ low ≤ 0xdfff then
    some (.ofNat (0x10000 + (high - 0xd800) * 0x400 + (low - 0xdc00)))
  else none

def cutChar? : List Char → Option (Char × List Char)
  | '\x5c' :: 'u' :: a :: b :: c :: d :: rest =>
    (hexUnit? a b c d).bind fun n =>
      match scalar? n, rest with
      | some x, _ => some (x, rest)
      | none, '\x5c' :: 'u' :: e :: f :: g :: h :: rest =>
        ((hexUnit? e f g h).bind (pair? n)).map fun x => (x, rest)
      | none, _ => none
  | '\x5c' :: c :: rest => (shortEscape? c).map fun x => (x, rest)
  | c :: rest => if c = '\x5c' ∨ c.toNat < 0x20 then none else some (c, rest)
  | [] => none

theorem length_lt_of_cutChar? {t r : List Char} {x : Char} (h : cutChar? t = some (x, r)) :
    r.length < t.length := by
  fun_cases cutChar? t with
  | case1 a b c d rest =>
    simp only [cutChar?, Option.bind_eq_some_iff] at h
    obtain ⟨n, -, h⟩ := h
    split at h <;> simp only [Option.some.injEq, Prod.mk.injEq, Option.map_eq_some_iff,
      reduceCtorEq] at h <;> simp only [List.length_cons] <;> grind
  | case2 c rest => grind [cutChar?, Option.map_eq_some_iff]
  | _ => grind [cutChar?]

def cutString? (t : List Char) : Option (List Char × List Char) :=
  if t.head? = some '\x22' then some ([], t.tail)
  else
    match _h : cutChar? t with
    | none => none
    | some (c, rest) => (cutString? rest).map fun (s, r) => (c :: s, r)
termination_by t.length
decreasing_by exact length_lt_of_cutChar? _h

theorem length_le_of_cutString? {t s r : List Char} (h : cutString? t = some (s, r)) :
    r.length ≤ t.length := by
  fun_induction cutString? t generalizing s r with
  | case1 t _ => grind
  | case2 => simp at h
  | case3 t _ c rest hc ih =>
    rw [Option.map_eq_some_iff] at h
    obtain ⟨⟨s', r'⟩, hs, he⟩ := h
    have := length_lt_of_cutChar? hc
    have := ih hs
    grind

/-- The value of decimal digits that do not start with a needless zero. -/
def numeral? : List Char → Option Nat
  | [] => none
  | ['0'] => some 0
  | '0' :: _ :: _ => none
  | digits => some (digits.foldl (fun n c => 10 * n + (c.toNat - '0'.toNat)) 0)

def isSpace (c : Char) : Bool := c = ' ' ∨ c = '\t' ∨ c = '\n' ∨ c = '\r'

def mark? (c : Char) : Option Token :=
  [('\x7b', Token.openBrace), ('\x7d', .closeBrace), ('[', .openBracket), (']', .closeBracket),
    (':', .colon), (',', .comma)].lookup c

def cutToken? : List Char → Option (Token × List Char)
  | [] => none
  | '\x22' :: rest => (cutString? rest).map fun (s, r) => (.string s, r)
  | 'n' :: 'u' :: 'l' :: 'l' :: rest => some (.null, rest)
  | c :: rest =>
    match mark? c with
    | some m => some (m, rest)
    | none =>
      if c.isDigit then
        (numeral? (c :: rest.takeWhile Char.isDigit)).map fun n =>
          (.number n, rest.dropWhile Char.isDigit)
      else none

theorem length_dropWhile_le (p : Char → Bool) (t : List Char) :
    (t.dropWhile p).length ≤ t.length := (List.dropWhile_sublist p).length_le

theorem length_lt_of_cutToken? {t r : List Char} {k : Token} (h : cutToken? t = some (k, r)) :
    r.length < t.length := by
  unfold cutToken? at h
  split at h
  · cases h
  · next rest =>
    obtain ⟨⟨s, r'⟩, hs, he⟩ := Option.map_eq_some_iff.1 h
    have := length_le_of_cutString? hs
    grind
  · grind
  · next c rest _ _ =>
    have hd := length_dropWhile_le Char.isDigit rest
    split at h
    · grind
    · split at h
      · obtain ⟨n, -, he⟩ := Option.map_eq_some_iff.1 h
        grind
      · cases h

def tokens? (t : List Char) : Option (List Token) :=
  match _ht : t.dropWhile isSpace with
  | [] => some []
  | c :: rest =>
    match _hk : cutToken? (c :: rest) with
    | none => none
    | some (k, r) => (tokens? r).map (k :: ·)
termination_by t.length
decreasing_by
  have hr := length_lt_of_cutToken? _hk
  have hd := length_dropWhile_le isSpace t
  rw [_ht] at hd
  omega

end FiniteAutomata.Json
