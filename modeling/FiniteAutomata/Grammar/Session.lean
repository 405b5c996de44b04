import FiniteAutomata.Automaton.Acceptance
import FiniteAutomata.Grammar.Automaton
import FiniteAutomata.Grammar.Reader

/-!
# Grammar sessions

A session keeps the last grammar that could be read and tests words against it. Blank text stands
for a default grammar.
-/

namespace FiniteAutomata

structure GrammarSession where
  grammar? : Option Grammar
  deriving DecidableEq

namespace GrammarSession

def defaultText : String := "S -> aS | b | ε"

def new : GrammarSession := ⟨none⟩

def sourceText (text : String) : String :=
  if (Text.trim text.toList).isEmpty then defaultText else text

/-- Reads a new grammar. A fault leaves the session as it was. -/
def update (s : GrammarSession) (text : String) : GrammarSession × Except GrammarError Grammar :=
  match Grammar.parse (sourceText text) with
  | .ok g => (⟨some g⟩, .ok g)
  | .error f => (s, .error f)

/-- Whether the current grammar derives `w`. There is no answer before the first grammar. -/
def test (s : GrammarSession) (w : Word) : Option Bool := s.grammar?.map (·.automaton.accepts w)

inductive Call
  | update (text : String)
  | test (w : Word)
  deriving DecidableEq

inductive Answer
  | read (result : Except GrammarError Grammar)
  | tested (derived : Option Bool)

def respond (s : GrammarSession) : Call → GrammarSession × Answer
  | .update text => ((s.update text).1, .read (s.update text).2)
  | .test w => (s, .tested (s.test w))

def after (s : GrammarSession) (cs : List Call) : GrammarSession :=
  cs.foldl (fun s c => (s.respond c).1) s

def answers (s : GrammarSession) : List Call → List Answer
  | [] => []
  | c :: cs => (s.respond c).2 :: (s.respond c).1.answers cs

@[simp] theorem after_nil (s : GrammarSession) : s.after [] = s := rfl

@[simp] theorem after_cons (s : GrammarSession) (c : Call) (cs : List Call) :
    s.after (c :: cs) = (s.respond c).1.after cs := rfl

theorem after_append (s : GrammarSession) (cs ds : List Call) :
    s.after (cs ++ ds) = (s.after cs).after ds := List.foldl_append

end GrammarSession

end FiniteAutomata
