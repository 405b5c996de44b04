import FiniteAutomata.Distinct
import FiniteAutomata.Grammar.Automaton
import Mathlib.Data.List.Perm.Subperm

/-!
# The states of a grammar's automaton

There are at most 26 variables, so their numbers and that of the accepting state fit a state's 32
bits: variables that occur have states of their own, and none of them is the accepting one. The
moves of the automaton are then those of the alternatives, variable by variable.
-/

namespace FiniteAutomata

theorem Variable.toNat_letter_mem (V : Variable) : V.letter.toNat ∈ List.range' 65 26 := by
  have h : 'A'.val ≤ V.letter.val ∧ V.letter.val ≤ 'Z'.val := of_decide_eq_true V.isUpper
  rw [UInt32.le_iff_toNat_le, UInt32.le_iff_toNat_le] at h
  rw [List.mem_range'_1]
  exact ⟨h.1, Nat.lt_succ_of_le h.2⟩

theorem Variable.toNat_letter_injective :
    Function.Injective fun V : Variable => V.letter.toNat := by
  rintro ⟨c, hc⟩ ⟨d, hd⟩ h
  have hcd : c = d := Char.toNat_inj.1 h
  subst hcd
  rfl

theorem Terminal.eq_of_letter_eq {a b : Terminal} (h : a.letter = b.letter) : a = b := by
  cases a
  cases b
  cases h
  rfl

theorem length_le_of_nodup {vars : List Variable} (h : vars.Nodup) : vars.length ≤ 26 := by
  have hmap : (vars.map fun V => V.letter.toNat).Nodup := h.map Variable.toNat_letter_injective
  have hsub : (vars.map fun V => V.letter.toNat) ⊆ List.range' 65 26 := by
    intro n hn
    obtain ⟨V, -, rfl⟩ := List.mem_map.1 hn
    exact V.toNat_letter_mem
  have hle := (hmap.subperm hsub).length_le
  rwa [List.length_map, List.length_range'] at hle

namespace Grammar

variable {g : Grammar} {V : Variable}

theorem nodup_vars (g : Grammar) : g.vars.Nodup := nodup_eraseDups _

theorem length_vars_lt (g : Grammar) : g.vars.length < UInt32.size := by
  have h := length_le_of_nodup g.nodup_vars
  exact Nat.lt_of_le_of_lt h (by decide)

theorem start_mem_vars (g : Grammar) : g.start ∈ g.vars := by simp [vars, List.mem_eraseDups]

theorem find?_rules_eq_some_iff {r : Rule} :
    g.rules.find? (·.left = V) = some r ↔ r ∈ g.rules ∧ r.left = V :=
  find?_eq_some_iff_of_nodup_map g.nodup_left fun _ => decide_eq_true_iff

theorem mem_alternatives {a : Alternative} :
    a ∈ g.alternatives V ↔ ∃ r ∈ g.rules, r.left = V ∧ a ∈ r.right := by
  rw [alternatives]
  cases hf : g.rules.find? (·.left = V) with
  | none =>
      have hnone : ∀ r ∈ g.rules, r.left ≠ V := by simpa using hf
      constructor
      · intro ha
        simp at ha
      · rintro ⟨r, hr, hV, -⟩
        exact absurd hV (hnone r hr)
  | some r =>
      constructor
      · intro ha
        obtain ⟨hr, hV⟩ := find?_rules_eq_some_iff.1 hf
        exact ⟨r, hr, hV, ha⟩
      · rintro ⟨s, hs, hV, ha⟩
        have hrs : some r = some s := hf.symm.trans (find?_rules_eq_some_iff.2 ⟨hs, hV⟩)
        rw [Option.some.inj hrs]
        exact ha

theorem left_mem_vars {a : Alternative} (h : a ∈ g.alternatives V) : V ∈ g.vars := by
  obtain ⟨r, hr, rfl, -⟩ := mem_alternatives.1 h
  simp only [vars, List.mem_eraseDups, List.mem_cons, List.mem_flatMap]
  exact .inr ⟨r, hr, .inl rfl⟩

theorem next_mem_vars {a : Terminal} {B : Variable} (h : .step a B ∈ g.alternatives V) :
    B ∈ g.vars := by
  obtain ⟨r, hr, -, ha⟩ := mem_alternatives.1 h
  simp only [vars, List.mem_eraseDups, List.mem_cons, List.mem_flatMap, List.mem_filterMap]
  exact .inr ⟨r, hr, .inr ⟨_, ha, rfl⟩⟩

theorem stateOf_inj {W : Variable} (hV : V ∈ g.vars) (hW : W ∈ g.vars) :
    g.stateOf V = g.stateOf W ↔ V = W := by
  have hlen := g.length_vars_lt
  have hiV := List.idxOf_lt_length_of_mem hV
  have hiW := List.idxOf_lt_length_of_mem hW
  rw [stateOf, stateOf, Variable.stateIn, Variable.stateIn,
    StateId.ofNat_inj (by omega) (by omega), List.idxOf_inj hV]

theorem stateOf_ne_acceptState (hV : V ∈ g.vars) : g.stateOf V ≠ g.acceptState := by
  have hlen := g.length_vars_lt
  have hi := List.idxOf_lt_length_of_mem hV
  rw [stateOf, Variable.stateIn, acceptState, acceptIn, ne_eq,
    StateId.ofNat_inj (by omega) (by omega)]
  omega

theorem mem_table_automaton {m : Move} :
    m ∈ g.automaton.table ↔ ∃ V, ∃ a ∈ g.alternatives V, a.moveIn g.vars V = m := by
  simp only [automaton, TransitionTable.mem_ofMoves, moves, List.mem_flatMap, List.mem_map,
    mem_alternatives]
  constructor
  · rintro ⟨r, hr, a, ha, hm⟩
    exact ⟨r.left, a, ⟨r, hr, rfl, ha⟩, hm⟩
  · rintro ⟨V, a, ⟨r, hr, rfl, ha⟩, hm⟩
    exact ⟨r, hr, a, ha, hm⟩

end Grammar

end FiniteAutomata
