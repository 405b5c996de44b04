import FiniteAutomata.Automaton.Basic
import FiniteAutomata.Grammar.Basic

/-!
# Derivations

The words that a variable derives: nothing by an empty alternative, one letter by a terminal, and a
letter before a word of the next variable by a step. A variable without a rule derives no word.
-/

namespace FiniteAutomata

inductive Grammar.Derives (g : Grammar) : Variable → Word → Prop
  | epsilon {V : Variable} : .epsilon ∈ g.alternatives V → Derives g V []
  | terminal {V : Variable} {a : Terminal} : .terminal a ∈ g.alternatives V →
      Derives g V [a.letter]
  | step {V B : Variable} {a : Terminal} {w : Word} : .step a B ∈ g.alternatives V →
      Derives g B w → Derives g V (a.letter :: w)

theorem Grammar.not_derives_of_alternatives_eq_nil {g : Grammar} {V : Variable}
    (h : g.alternatives V = []) (w : Word) : ¬ g.Derives V w := by
  intro hd
  cases hd <;> simp_all

end FiniteAutomata
