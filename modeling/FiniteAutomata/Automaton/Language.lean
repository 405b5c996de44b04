import FiniteAutomata.Automaton.Acceptance

/-!
# Short words of a language

The accepted words up to a length are listed by length, and words of one length in the order of the
alphabet, the first letter counting most. A letter that the alphabet repeats is listed again.
-/

namespace FiniteAutomata

def wordsOfLength (alphabet : List Char) : Nat → List Word
  | 0 => [[]]
  | n + 1 => alphabet.flatMap fun c => (wordsOfLength alphabet n).map (c :: ·)

theorem mem_wordsOfLength {alphabet : List Char} {n : Nat} {w : Word} :
    w ∈ wordsOfLength alphabet n ↔ w.length = n ∧ ∀ c ∈ w, c ∈ alphabet := by
  induction n generalizing w with
  | zero => cases w <;> simp [wordsOfLength]
  | succ n ih => cases w <;> simp [wordsOfLength, ih, and_left_comm]

def Automaton.language (A : Automaton) (alphabet : List Char) (max : Nat) : List Word :=
  (List.range (max + 1)).flatMap fun n => (wordsOfLength alphabet n).filter A.accepts

end FiniteAutomata
