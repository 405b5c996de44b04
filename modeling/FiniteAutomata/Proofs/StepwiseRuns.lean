import FiniteAutomata.Proofs.RunStages
import FiniteAutomata.Simulator
import Mathlib.Data.List.Induction

/-!
# Stepwise runs and acceptance

A simulator that was started on a word is given single steps and completions in any order. Whatever
it was told, it stands at a stage of the run: as many steps in as it was given, or at the end once
a completion is among them. Its configurations are therefore those of reading prefixes at once, and
its verdict is that of acceptance.
-/

namespace FiniteAutomata

theorem Automaton.mode_of_configuration?_eq_some {A : Automaton} {w : Word} {c : Configuration}
    (h : A.configuration? w = some c) : c.mode = A.mode := by
  cases hm : A.mode with
  | nfa =>
      rw [configuration?_of_nfa hm] at h
      rw [← Option.some.inj h]
      rfl
  | dfa =>
      rw [configuration?_of_dfa hm] at h
      obtain ⟨q, -, rfl⟩ := Option.map_eq_some_iff.1 h
      rfl

namespace Simulator

variable {A : Automaton} {w : Word} {s : Simulator} {r : Run}

theorem step_of_run_eq (h : s.run? = some r) : s.step = (⟨some r.advance.1⟩, some r.advance.2) := by
  rw [step, h]

theorem complete_of_run_eq (h : s.run? = some r) :
    s.complete = (⟨some r.complete.1⟩, some r.complete.2) := by rw [complete, h]

theorem eq_mk_of_run_eq (h : s.run? = some r) : s = ⟨some r⟩ := by
  cases s
  exact congrArg mk h

def stage (A : Automaton) (w : Word) (cs : List Command) : Nat :=
  if .complete ∈ cs then A.readable w + 1 else cs.length

theorem stage_of_not_mem {cs : List Command} (h : .complete ∉ cs) : stage A w cs = cs.length :=
  if_neg h

theorem readable_lt_stage {cs : List Command}
    (h : .complete ∈ cs ∨ A.readable w < cs.length) : A.readable w < stage A w cs := by
  unfold stage
  split
  · exact Nat.lt_succ_self _
  · next hc => exact h.resolve_left hc

theorem run_obeyAll (A : Automaton) (w : Word) (cs : List Command) :
    ((running A w).obeyAll cs).run? = some (.after A w (stage A w cs)) := by
  induction cs using List.reverseRecOn with
  | nil => rfl
  | append_singleton cs c ih =>
      rw [obeyAll_concat]
      cases c with
      | complete =>
          have hstage : stage A w (cs ++ [.complete]) = A.readable w + 1 := if_pos (by simp)
          rw [obey, complete_of_run_eq ih, Run.complete_after, hstage]
      | step =>
          rw [obey, step_of_run_eq ih, ← Run.after_succ]
          -- After a completion another step stays at the last stage.
          by_cases hc : .complete ∈ cs
          · have hbefore : stage A w cs = A.readable w + 1 := if_pos hc
            have hafter : stage A w (cs ++ [.step]) = A.readable w + 1 := if_pos (by simp [hc])
            rw [hbefore, hafter, Run.after_of_readable_lt (by omega)]
          · rw [stage_of_not_mem hc, stage_of_not_mem (by simp [hc]), List.length_append,
              List.length_singleton]

/-- What holds of the run `r` of a simulator that was started with `w` on `A` and then obeyed `cs`,
where `v` is the verdict. Letters are read one by one, as many as can be read. The next step gives
the verdict and changes nothing else; after it, or after a completion, all stays as it is. -/
structure Follows (A : Automaton) (w : Word) (v : Verdict) (cs : List Command) (r : Run) :
    Prop where
  run_eq : ((running A w).obeyAll cs).run? = some r
  position_le : r.position ≤ w.length
  mode_eq : r.configuration.mode = A.mode
  reading : .complete ∉ cs → cs.length ≤ A.readable w → r.position = cs.length ∧
    r.verdict? = none ∧ A.configuration? (w.take cs.length) = some r.configuration
  step_of_lt : .complete ∉ cs → cs.length < A.readable w → ∃ c fired, w[cs.length]? = some c ∧
    ((running A w).obeyAll cs).step.2 = some (.advanced c fired)
  step_of_eq : .complete ∉ cs → cs.length = A.readable w →
    ((running A w).obeyAll cs).step = (⟨some { r with verdict? := some v }⟩, some (.finished v))
  step_of_over : .complete ∈ cs ∨ A.readable w < cs.length → r.verdict? = some v ∧
    ((running A w).obeyAll cs).step = ((running A w).obeyAll cs, some (.finished v))
  complete_eq : ((running A w).obeyAll cs).complete =
    ((running A w).obeyAll (List.replicate (A.readable w + 1) .step), some v)

theorem position_and_mode_after (A : Automaton) (w : Word) (k : Nat) :
    (Run.after A w k).position ≤ w.length ∧ (Run.after A w k).configuration.mode = A.mode := by
  have hunder {k : Nat} (hk : k ≤ A.readable w) : (Run.after A w k).position ≤ w.length ∧
      (Run.after A w k).configuration.mode = A.mode := by
    have h : Run.Underway A w k (Run.after A w k) := Run.underway_after hk
    have hlen : k ≤ w.length := Nat.le_trans hk (A.readable_le_length w)
    refine ⟨?_, Automaton.mode_of_configuration?_eq_some h.configuration_eq⟩
    rw [h.position_eq hlen]
    exact hlen
  by_cases hk : k ≤ A.readable w
  · exact hunder hk
  · rw [Run.after_of_readable_lt (by omega), Run.after_readable_succ]
    exact hunder (Nat.le_refl _)

theorem run_obeyAll_of_not_mem {cs : List Command} (hc : .complete ∉ cs) :
    ((running A w).obeyAll cs).run? = some (.after A w cs.length) := by
  rw [run_obeyAll, stage_of_not_mem hc]

theorem follows_after (A : Automaton) (w : Word) (cs : List Command) :
    Follows A w (.ofBool (A.accepts w)) cs (.after A w (stage A w cs)) where
  run_eq := run_obeyAll A w cs
  position_le := (position_and_mode_after A w _).1
  mode_eq := (position_and_mode_after A w _).2
  reading hc hlen := by
    have h : Run.Underway A w cs.length (.after A w cs.length) := Run.underway_after hlen
    rw [stage_of_not_mem hc]
    have hw : cs.length ≤ w.length := Nat.le_trans hlen (A.readable_le_length w)
    exact ⟨h.position_eq hw, h.verdict_eq, h.configuration_eq⟩
  step_of_lt hc hlt := by
    have h : Run.Underway A w cs.length (.after A w cs.length) := Run.underway_after (by omega)
    obtain ⟨⟨fired, hw, hadvance⟩, -⟩ := h.advance hlt
    refine ⟨w[cs.length], fired, List.getElem?_eq_getElem hw, ?_⟩
    rw [step_of_run_eq (run_obeyAll_of_not_mem hc), hadvance]
  step_of_eq hc heq := by
    have h : Run.Underway A w cs.length (.after A w cs.length) := Run.underway_after (by omega)
    rw [step_of_run_eq (run_obeyAll_of_not_mem hc), h.finish heq, stage_of_not_mem hc]
    rfl
  step_of_over hover := by
    have hlt : A.readable w < stage A w cs := readable_lt_stage hover
    have hrun := run_obeyAll A w cs
    refine ⟨by rw [Run.after_of_readable_lt hlt, Run.after_readable_succ], ?_⟩
    rw [step_of_run_eq hrun, Run.advance_after_of_readable_lt hlt, ← eq_mk_of_run_eq hrun]
  complete_eq := by
    have hsteps : Command.complete ∉ List.replicate (A.readable w + 1) Command.step := by simp
    have hlast := run_obeyAll_of_not_mem (A := A) (w := w) hsteps
    rw [List.length_replicate] at hlast
    rw [complete_of_run_eq (run_obeyAll A w cs), Run.complete_after, ← eq_mk_of_run_eq hlast]

/-- A nondeterministic automaton reads the whole word, a deterministic one the longest prefix along
which its steps are defined. However the run is driven, by single steps or to its end, it goes
through these letters in order and ends with the verdict of acceptance. -/
theorem stepwise_run_follows_acceptance (A : Automaton) (w : Word) :
    A.readable w ≤ w.length ∧ (A.mode = .nfa → A.readable w = w.length) ∧
      (A.mode = .dfa → ∀ k ≤ w.length, (A.readDfa? (w.take k)).isSome ↔ k ≤ A.readable w) ∧
      ∃ v : Verdict, (v = .accepted ↔ A.accepts w) ∧ (A.readable w < w.length → v = .rejected) ∧
        ∀ cs, ∃ r, Follows A w v cs r := by
  refine ⟨A.readable_le_length w, fun hm => Automaton.readable_of_nfa hm, fun hm k hk => ?_,
    .ofBool (A.accepts w), ?_, fun hlt => ?_, fun cs => ⟨_, follows_after A w cs⟩⟩
  · exact Automaton.isSome_readDfa?_take_iff hm hk
  · cases A.accepts w <;> simp [Verdict.ofBool]
  · rw [Automaton.not_accepts_of_readable_lt hlt]
    rfl

end Simulator

end FiniteAutomata
