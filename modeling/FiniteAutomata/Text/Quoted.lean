import FiniteAutomata.Text.Graphic

/-!
# Quoted characters

A character is quoted between apostrophes. Five characters have short escapes besides the apostrophe
itself, other characters that are not graphic are given by their code point in hexadecimal.
-/

namespace FiniteAutomata.Text

/-- The letter after the backslash, for the characters with a short escape. -/
def shortEscape? (c : Char) : Option Char :=
  [('\x00', '0'), ('\t', 't'), ('\r', 'r'), ('\n', 'n'), ('\x27', '\x27'),
    ('\x5c', '\x5c')].lookup c

def escape (c : Char) : List Char :=
  match shortEscape? c with
  | some e => ['\x5c', e]
  | none =>
    if isGraphic c then [c] else ['\x5c', 'u', '\x7b'] ++ Nat.toDigits 16 c.toNat ++ ['\x7d']

def quote (c : Char) : String := .ofList (['\x27'] ++ escape c ++ ['\x27'])

end FiniteAutomata.Text
