import FiniteAutomata.Transition.Closure

/-!
# Reading one character

A nondeterministic step takes every move on the character from every current state; a deterministic
step is defined only where there is one such move.
-/

namespace FiniteAutomata.TransitionTable

/-- The targets on `c` from the states in `x`, not closed under empty moves. -/
def step (t : TransitionTable) (x : StateSet) (c : Char) : StateSet :=
  x.bind fun q => t.targets q (.char c)

@[simp] theorem mem_step {t : TransitionTable} {x : StateSet} {c : Char} {q : StateId} :
    q ∈ t.step x c ↔ ∃ p ∈ x, ⟨p, .char c, q⟩ ∈ t := by
  simp [step]

/-- The moves taken from the states in `x` on `c`, each as its source and target, in order. -/
def fired (t : TransitionTable) (x : StateSet) (c : Char) : List (StateId × StateId) :=
  x.toList.flatMap fun p => (t.targets p (.char c)).toList.map fun q => (p, q)

@[simp] theorem mem_fired {t : TransitionTable} {x : StateSet} {c : Char} {p q : StateId} :
    (p, q) ∈ t.fired x c ↔ p ∈ x ∧ ⟨p, .char c, q⟩ ∈ t := by
  simp [fired]

def deterministicStep? (t : TransitionTable) (q : StateId) (c : Char) : Option StateId :=
  (t.targets q (.char c)).only?

theorem deterministicStep?_eq_some_iff_targets {t : TransitionTable} {p q : StateId} {c : Char} :
    t.deterministicStep? p c = some q ↔ t.targets p (.char c) = .singleton q :=
  OrderedSet.only?_eq_some_iff_eq_singleton

theorem deterministicStep?_eq_some_iff {t : TransitionTable} {p q : StateId} {c : Char} :
    t.deterministicStep? p c = some q ↔ ∀ r, ⟨p, .char c, r⟩ ∈ t ↔ r = q := by
  simp [deterministicStep?, OrderedSet.only?_eq_some_iff_mem]

end FiniteAutomata.TransitionTable
