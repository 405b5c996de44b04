import FiniteAutomata.Run
import Mathlib.Data.Nat.Find

/-!
# The stages of a run

A run passes one stage for each letter that its automaton can read and then ends. `Run.Underway`
says what a run holds at a stage: the letters read and unread, and the configuration that reading
the same letters at once gives. A step leads from each stage to the next one, and from the last to
the verdict on the whole word.
-/

namespace FiniteAutomata

namespace Automaton

variable {A : Automaton} {w : Word}

/-- The configuration after `w` was read at once, if every deterministic step is defined. -/
def configuration? (A : Automaton) (w : Word) : Option Configuration :=
  match A.mode with
  | .nfa => some (.nondeterministic (A.readNfa w))
  | .dfa => (A.readDfa? w).map .deterministic

theorem configuration?_of_nfa (h : A.mode = .nfa) :
    A.configuration? w = some (.nondeterministic (A.readNfa w)) := by rw [configuration?, h]

theorem configuration?_of_dfa (h : A.mode = .dfa) :
    A.configuration? w = (A.readDfa? w).map .deterministic := by rw [configuration?, h]

theorem isSome_configuration?_of_append {u : Word} (h : (A.configuration? (w ++ u)).isSome) :
    (A.configuration? w).isSome := by
  cases hm : A.mode with
  | nfa =>
      rw [configuration?_of_nfa hm]
      rfl
  | dfa =>
      rw [configuration?_of_dfa hm, readDfa?_append] at h
      rw [configuration?_of_dfa hm]
      cases hq : A.readDfa? w with
      | none => simp [hq] at h
      | some q => rfl

/-- The length of the longest prefix of `w` that can be read. -/
def readable (A : Automaton) (w : Word) : Nat :=
  Nat.findGreatest (fun k => (A.configuration? (w.take k)).isSome) w.length

theorem readable_le_length (A : Automaton) (w : Word) : A.readable w ≤ w.length :=
  Nat.findGreatest_le _

theorem isSome_configuration?_nil (A : Automaton) : (A.configuration? []).isSome := by
  cases hm : A.mode with
  | nfa => rw [configuration?_of_nfa hm]; rfl
  | dfa => rw [configuration?_of_dfa hm]; rfl

theorem isSome_configuration?_take_iff {k : Nat} (hk : k ≤ w.length) :
    (A.configuration? (w.take k)).isSome ↔ k ≤ A.readable w := by
  constructor
  · intro h
    exact Nat.le_findGreatest hk h
  · intro h
    have hlast : (A.configuration? (w.take (A.readable w))).isSome :=
      Nat.findGreatest_spec (P := fun k => (A.configuration? (w.take k)).isSome) (Nat.zero_le _)
        (by rw [List.take_zero]; exact A.isSome_configuration?_nil)
    have hsplit : w.take (A.readable w) = w.take k ++ (w.take (A.readable w)).drop k := by
      have ht := (List.take_append_drop k (w.take (A.readable w))).symm
      rwa [List.take_take, Nat.min_eq_left h] at ht
    rw [hsplit] at hlast
    exact isSome_configuration?_of_append hlast

theorem readable_of_nfa (h : A.mode = .nfa) : A.readable w = w.length := by
  refine Nat.le_antisymm (A.readable_le_length w) ?_
  rw [← isSome_configuration?_take_iff (Nat.le_refl _), configuration?_of_nfa h]
  rfl

theorem isSome_readDfa?_take_iff (h : A.mode = .dfa) {k : Nat} (hk : k ≤ w.length) :
    (A.readDfa? (w.take k)).isSome ↔ k ≤ A.readable w := by
  rw [← isSome_configuration?_take_iff hk, configuration?_of_dfa h, Option.isSome_map]

theorem not_accepts_of_readable_lt (h : A.readable w < w.length) : A.accepts w = false := by
  cases hm : A.mode with
  | nfa =>
      rw [readable_of_nfa hm] at h
      exact absurd h (Nat.lt_irrefl _)
  | dfa =>
      have hnone : A.readDfa? w = none := by
        have hiff := isSome_readDfa?_take_iff hm (Nat.le_refl w.length)
        rw [List.take_length] at hiff
        exact Option.not_isSome_iff_eq_none.1 fun hs => absurd (hiff.1 hs) (by omega)
      simp only [accepts, hm, acceptsDfa, hnone, Option.any_none]

end Automaton

namespace Run

variable {A : Automaton} {w : Word} {k : Nat} {r : Run}

/-- The run of `w` on `A` when `k` letters are read and it is not over. -/
structure Underway (A : Automaton) (w : Word) (k : Nat) (r : Run) : Prop where
  automaton_eq : r.automaton = A
  consumed_eq : r.consumed = (w.take k).reverse
  unread_eq : r.unread = w.drop k
  configuration_eq : A.configuration? (w.take k) = some r.configuration
  verdict_eq : r.verdict? = none

theorem underway_start (A : Automaton) (w : Word) : Underway A w 0 (start A w) where
  automaton_eq := rfl
  consumed_eq := rfl
  unread_eq := rfl
  configuration_eq := by
    cases hm : A.mode with
    | nfa =>
        simp only [List.take_zero, A.configuration?_of_nfa hm, start, hm, Automaton.readNfa_nil]
    | dfa => simp [A.configuration?_of_dfa hm, start, hm]
  verdict_eq := rfl

namespace Underway

theorem position_eq (h : Underway A w k r) (hk : k ≤ w.length) : r.position = k := by
  rw [position, h.consumed_eq, List.length_reverse, List.length_take, Nat.min_eq_left hk]

theorem configuration_of_nfa (h : Underway A w k r) (hm : A.mode = .nfa) :
    r.configuration = .nondeterministic (A.readNfa (w.take k)) := by
  have hconf := h.configuration_eq
  rw [A.configuration?_of_nfa hm] at hconf
  exact (Option.some.inj hconf).symm

theorem exists_state_of_dfa (h : Underway A w k r) (hm : A.mode = .dfa) :
    ∃ q, A.readDfa? (w.take k) = some q ∧ r.configuration = .deterministic q := by
  have hconf := h.configuration_eq
  rw [A.configuration?_of_dfa hm] at hconf
  obtain ⟨q, hq, hr⟩ := Option.map_eq_some_iff.1 hconf
  exact ⟨q, hq, hr.symm⟩

theorem unread_eq_cons (h : Underway A w k r) (hk : k < w.length) :
    r.unread = w[k] :: w.drop (k + 1) := by
  rw [h.unread_eq, List.drop_eq_getElem_cons hk]

theorem deterministicStep?_eq (h : Underway A w k r) (hk : k < w.length) {q : StateId}
    (hq : A.readDfa? (w.take k) = some q) :
    r.automaton.table.deterministicStep? q w[k] = A.readDfa? (w.take (k + 1)) := by
  rw [List.take_succ_eq_append_getElem hk, A.readDfa?_concat, hq, h.automaton_eq]
  rfl

/-- While another letter can be read, a step reads it and leads to the next stage. -/
theorem advance (h : Underway A w k r) (hk : k < A.readable w) :
    (∃ fired, ∃ hw : k < w.length, r.advance.2 = .advanced w[k] fired) ∧
      Underway A w (k + 1) r.advance.1 := by
  have hw : k < w.length := Nat.lt_of_lt_of_le hk (A.readable_le_length w)
  have htake : w.take (k + 1) = w.take k ++ [w[k]] := List.take_succ_eq_append_getElem hw
  have hconsumed : w[k] :: r.consumed = (w.take (k + 1)).reverse := by
    rw [h.consumed_eq, htake, List.reverse_concat]
  rw [advance_of_unread_cons h.verdict_eq (h.unread_eq_cons hw)]
  cases hm : A.mode with
  | nfa =>
      rw [read_of_nondeterministic _ _ (h.configuration_of_nfa hm)]
      refine ⟨⟨_, hw, rfl⟩, h.automaton_eq, hconsumed, rfl, ?_, h.verdict_eq⟩
      rw [A.configuration?_of_nfa hm, htake, A.readNfa_concat, h.automaton_eq]
  | dfa =>
      obtain ⟨q, hq, hr⟩ := h.exists_state_of_dfa hm
      have hsome := (Automaton.isSome_readDfa?_take_iff hm (Nat.succ_le_of_lt hw)).2 hk
      obtain ⟨q', hq'⟩ := Option.isSome_iff_exists.1 hsome
      rw [read_of_deterministic _ _ hr ((h.deterministicStep?_eq hw hq).trans hq')]
      refine ⟨⟨_, hw, rfl⟩, h.automaton_eq, hconsumed, rfl, ?_, h.verdict_eq⟩
      rw [A.configuration?_of_dfa hm, hq']
      rfl

theorem judge_eq (h : Underway A w w.length r) : r.judge = .ofBool (A.accepts w) := by
  cases hm : A.mode with
  | nfa =>
      have hr := h.configuration_of_nfa hm
      rw [List.take_length] at hr
      simp only [judge, hr, h.automaton_eq, Automaton.accepts, hm, Automaton.acceptsNfa]
  | dfa =>
      obtain ⟨q, hq, hr⟩ := h.exists_state_of_dfa hm
      rw [List.take_length] at hq
      simp only [judge, hr, h.automaton_eq, Automaton.accepts, hm, Automaton.acceptsDfa, hq,
        Option.any_some]

/-- When no other letter can be read, a step ends the run with the verdict on the whole word. -/
theorem finish (h : Underway A w k r) (hk : k = A.readable w) :
    r.advance = r.finish (.ofBool (A.accepts w)) := by
  -- A letter is left only if a deterministic step is undefined there.
  by_cases hw : k < w.length
  · have haccepts : A.accepts w = false := Automaton.not_accepts_of_readable_lt (hk ▸ hw)
    have hm : A.mode = .dfa := by
      cases hm : A.mode with
      | nfa => rw [hk, Automaton.readable_of_nfa hm] at hw; omega
      | dfa => rfl
    obtain ⟨q, hq, hr⟩ := h.exists_state_of_dfa hm
    have hnone : A.readDfa? (w.take (k + 1)) = none := by
      have hiff := Automaton.isSome_readDfa?_take_iff hm (Nat.succ_le_of_lt hw)
      exact Option.not_isSome_iff_eq_none.1 fun hs => by have := hiff.1 hs; omega
    rw [advance_of_unread_cons h.verdict_eq (h.unread_eq_cons hw),
      read_of_stuck _ hr ((h.deterministicStep?_eq hw hq).trans hnone), haccepts]
    rfl
  · have hlen : k = w.length := by have := A.readable_le_length w; omega
    subst hlen
    have hunread : r.unread = [] := by rw [h.unread_eq, List.drop_length]
    rw [advance_of_unread_nil h.verdict_eq hunread, h.judge_eq]

end Underway

def after (A : Automaton) (w : Word) : Nat → Run
  | 0 => start A w
  | k + 1 => (after A w k).advance.1

theorem after_succ (A : Automaton) (w : Word) (k : Nat) :
    after A w (k + 1) = (after A w k).advance.1 := rfl

theorem underway_after (hk : k ≤ A.readable w) : Underway A w k (after A w k) := by
  induction k with
  | zero => exact underway_start A w
  | succ k ih =>
      have h := ih (by omega)
      exact (h.advance hk).2

theorem advance_after_readable (A : Automaton) (w : Word) :
    (after A w (A.readable w)).advance =
      (after A w (A.readable w)).finish (.ofBool (A.accepts w)) :=
  (underway_after (Nat.le_refl _)).finish rfl

theorem after_readable_succ (A : Automaton) (w : Word) : after A w (A.readable w + 1) =
    { after A w (A.readable w) with verdict? := some (.ofBool (A.accepts w)) } := by
  rw [after_succ, advance_after_readable]
  rfl

/-- Once it is over, a run stays as it is. -/
theorem after_of_readable_lt (hk : A.readable w < k) :
    after A w k = after A w (A.readable w + 1) := by
  induction k with
  | zero => omega
  | succ k ih =>
      by_cases hlast : k = A.readable w
      · rw [hlast]
      · have hv : (after A w (A.readable w + 1)).verdict? = some (.ofBool (A.accepts w)) := by
          rw [after_readable_succ]
        rw [after_succ, ih (by omega), advance_of_verdict hv]

theorem advance_after_of_readable_lt (hk : A.readable w < k) :
    (after A w k).advance = (after A w k, .finished (.ofBool (A.accepts w))) := by
  apply advance_of_verdict
  rw [after_of_readable_lt hk, after_readable_succ]

/-- From every stage a run is completed as by single steps. -/
theorem complete_after (A : Automaton) (w : Word) (k : Nat) :
    (after A w k).complete = (after A w (A.readable w + 1), .ofBool (A.accepts w)) := by
  by_cases hk : A.readable w < k
  · have hadvance := advance_after_of_readable_lt hk
    rw [complete_of_finished (congrArg Prod.snd hadvance), hadvance, after_of_readable_lt hk]
  -- By induction on the number of letters that can still be read.
  · induction hd : A.readable w - k generalizing k with
    | zero =>
        have hlast : k = A.readable w := by omega
        subst hlast
        have hadvance := advance_after_readable A w
        rw [complete_of_finished (congrArg Prod.snd hadvance), hadvance, after_readable_succ]
        rfl
    | succ d ih =>
        have hunder : Underway A w k (after A w k) := underway_after (by omega)
        obtain ⟨⟨fired, hw, hadvance⟩, -⟩ := hunder.advance (by omega)
        rw [complete_of_advanced hadvance, ← after_succ]
        exact ih (k + 1) (by omega) (by omega)

end Run

end FiniteAutomata
