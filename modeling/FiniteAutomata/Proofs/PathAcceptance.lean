import FiniteAutomata.Automaton.Acceptance
import FiniteAutomata.Transition.Path
import Mathlib.Data.List.Count
import Mathlib.Data.List.Induction

/-!
# Nondeterministic acceptance by paths

The states held after a word are the ends of the paths that spell it, so a word is accepted exactly
when a path that spells it ends in a final state. The induction is on the word from its end: the
last letter is read by one move, with empty moves after it.
-/

namespace FiniteAutomata

namespace TransitionTable

variable {t : TransitionTable} {x : StateSet}

theorem exists_isPath_of_mem_closure_step {q : StateId} {c : Char}
    (hq : q ∈ t.epsilonClosure (t.step x c)) :
    ∃ p ∈ x, ∃ m ns, m.symbol = .char c ∧ t.IsPath p (m :: ns) q ∧ spelled ns = [] := by
  obtain ⟨r, hr, ns, hpath, hns⟩ := mem_epsilonClosure.1 hq
  obtain ⟨p, hp, hm⟩ := mem_step.1 hr
  exact ⟨p, hp, ⟨p, .char c, r⟩, ns, rfl, isPath_cons.2 ⟨hm, rfl, hpath⟩, hns⟩

theorem mem_closure_step_of_isPath {p q : StateId} {c : Char} {m : Move} {ns : List Move}
    (hp : p ∈ x) (hm : m.symbol = .char c) (hpath : t.IsPath p (m :: ns) q)
    (hns : spelled ns = []) : q ∈ t.epsilonClosure (t.step x c) := by
  obtain ⟨hmt, hsource, htail⟩ := isPath_cons.1 hpath
  have he : (⟨p, .char c, m.target⟩ : Move) = m := Move.ext hsource.symm hm.symm rfl
  have hstep : m.target ∈ t.step x c := mem_step.2 ⟨p, hp, he ▸ hmt⟩
  exact mem_epsilonClosure.2 ⟨m.target, hstep, ns, htail, hns⟩

end TransitionTable

namespace Automaton

open TransitionTable

variable {A : Automaton} {w : Word}

theorem mem_initialConfiguration {q : StateId} :
    q ∈ A.initialConfiguration ↔ ∃ ms, A.table.IsPath A.initial ms q ∧ spelled ms = [] := by
  simp only [initialConfiguration, mem_epsilonClosure, OrderedSet.mem_singleton, exists_eq_left]

theorem mem_readNfa {q : StateId} :
    q ∈ A.readNfa w ↔ ∃ ms, A.table.IsPath A.initial ms q ∧ spelled ms = w := by
  induction w using List.reverseRecOn generalizing q with
  | nil => exact mem_initialConfiguration
  | append_singleton w c ih =>
      rw [readNfa_concat]
      constructor
      · intro hq
        obtain ⟨p, hp, m, ns, hm, hlast, hns⟩ := exists_isPath_of_mem_closure_step hq
        obtain ⟨ks, hks, hw⟩ := ih.1 hp
        refine ⟨ks ++ m :: ns, isPath_append.2 ⟨p, hks, hlast⟩, ?_⟩
        exact spelled_eq_concat_iff.2 ⟨ks, m, ns, rfl, hw, hm, hns⟩
      · rintro ⟨ms, hpath, hms⟩
        obtain ⟨ks, m, ns, rfl, hw, hm, hns⟩ := spelled_eq_concat_iff.1 hms
        obtain ⟨p, hks, hlast⟩ := isPath_append.1 hpath
        exact mem_closure_step_of_isPath (ih.2 ⟨ks, hks, hw⟩) hm hlast hns

/-- Moves lead to the state, whatever they read. -/
def InReach (A : Automaton) (q : StateId) : Prop := A.table.Reaches (fun _ => true) A.initial q

theorem inReach_iff_exists_isPath {q : StateId} :
    A.InReach q ↔ ∃ ms, A.table.IsPath A.initial ms q := by
  simp only [InReach, reaches_iff_exists_isPath, implies_true, and_true]

theorem inReach_of_mem_readNfa {q : StateId} (h : q ∈ A.readNfa w) : A.InReach q := by
  obtain ⟨ms, hpath, -⟩ := mem_readNfa.1 h
  exact inReach_iff_exists_isPath.2 ⟨ms, hpath⟩

theorem acceptsNfa_iff_exists_isPath :
    A.acceptsNfa w ↔ ∃ q ∈ A.finals, ∃ ms, A.table.IsPath A.initial ms q ∧ spelled ms = w := by
  simp only [acceptsNfa, OrderedSet.intersects_iff, mem_readNfa]
  constructor
  · rintro ⟨q, hq, hf⟩
    exact ⟨q, hf, hq⟩
  · rintro ⟨q, hf, hq⟩
    exact ⟨q, hq, hf⟩

/-- A path spells a word when its symbols, the empty ones deleted, are those that read the letters
of the word one by one. The letter `ε` is a letter like any other. -/
theorem nfa_reads_along_paths (A : Automaton) (w : Word) :
    (∀ q, q ∈ A.readNfa w ↔ ∃ ms, A.table.IsPath A.initial ms q ∧
        (ms.map Move.symbol).filter (· ≠ .epsilon) = w.map .char) ∧
      (A.acceptsNfa w ↔ ∃ q ∈ A.finals, ∃ ms, A.table.IsPath A.initial ms q ∧
        (ms.map Move.symbol).filter (· ≠ .epsilon) = w.map .char) ∧
      ∀ ms : List Move, (ms.map Move.symbol).filter (· ≠ .epsilon) = w.map .char →
        (ms.map Move.symbol).count (.char 'ε') = w.count 'ε' := by
  refine ⟨fun q => ?_, ?_, fun ms hms => ?_⟩
  · simp only [mem_readNfa, spelled_eq_iff]
  · simp only [acceptsNfa_iff_exists_isPath, spelled_eq_iff]
  · have hinj : Function.Injective Symbol.char := fun c d h => Symbol.char.inj h
    rw [← List.count_map_of_injective w Symbol.char hinj, ← hms, List.count_filter (by simp)]

end Automaton

end FiniteAutomata
