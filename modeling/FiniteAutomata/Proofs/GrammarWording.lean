import FiniteAutomata.Proofs.GrammarNumbering
import FiniteAutomata.Proofs.RenamedStates

/-!
# The wording of a grammar

A grammar is the same in other words if the start is the same and every variable has the same
alternatives, whatever their order, repetitions and rules. States are numbered in the order of the
words, so that the automaton may become another one. But the states that stand for the same variable
correspond to each other, and the accepting states do: the automata are isomorphic.
-/

namespace FiniteAutomata.Grammar

open Automaton

/-- The two grammars word the same productions from the same start. -/
structure Rewords (g h : Grammar) : Prop where
  start_eq : g.start = h.start
  mem_alternatives_iff : ∀ V a, a ∈ g.alternatives V ↔ a ∈ h.alternatives V

section

variable {g h : Grammar} {V : Variable} {q : StateId}

theorem Rewords.symm (hgh : g.Rewords h) : h.Rewords g :=
  ⟨hgh.start_eq.symm, fun V a => (hgh.mem_alternatives_iff V a).symm⟩

theorem rewords_iff : g.Rewords h ↔ g.start = h.start ∧
    (∀ r ∈ g.rules, ∀ a ∈ r.right, a ∈ h.alternatives r.left) ∧
    ∀ r ∈ h.rules, ∀ a ∈ r.right, a ∈ g.alternatives r.left := by
  have hleft : ∀ {g h : Grammar}, (∀ r ∈ g.rules, ∀ a ∈ r.right, a ∈ h.alternatives r.left) ↔
      ∀ V, ∀ a ∈ g.alternatives V, a ∈ h.alternatives V := by
    intro g h
    constructor
    · intro hrules V a ha
      obtain ⟨r, hr, rfl, hright⟩ := mem_alternatives.1 ha
      exact hrules r hr a hright
    · intro halts r hr a ha
      exact halts r.left a (mem_alternatives.2 ⟨r, hr, rfl, ha⟩)
  rw [hleft, hleft]
  constructor
  · intro hgh
    exact ⟨hgh.start_eq, fun V a => (hgh.mem_alternatives_iff V a).1,
      fun V a => (hgh.mem_alternatives_iff V a).2⟩
  · rintro ⟨hstart, hgh, hhg⟩
    exact ⟨hstart, fun V a => ⟨hgh V a, hhg V a⟩⟩

instance (g h : Grammar) : Decidable (g.Rewords h) := decidable_of_iff' _ rewords_iff

/-! ### Grammars that agree -/

theorem alternatives_left {r : Rule} (hr : r ∈ g.rules) : g.alternatives r.left = r.right := by
  rw [alternatives, find?_rules_eq_some_iff.2 ⟨hr, rfl⟩]
  rfl

theorem left_mem_of_alternatives_ne_nil (hV : g.alternatives V ≠ []) :
    V ∈ g.rules.map Rule.left := by
  by_contra hleft
  exact hV (alternatives_eq_nil_of_not_mem hleft)

/-- Rules in another order word the same productions. -/
theorem rewords_of_agrees (hgh : g.agrees h) : g.Rewords h := by
  simp only [agrees, decide_eq_true_eq, List.all_eq_true] at hgh
  obtain ⟨hstart, hlength, hrules⟩ := hgh
  have hsub : g.rules.map Rule.left ⊆ h.rules.map Rule.left := by
    intro V hV
    obtain ⟨r, hr, rfl⟩ := List.mem_map.1 hV
    exact left_mem_of_alternatives_ne_nil (hrules r hr ▸ r.right_ne_nil)
  have hperm : (g.rules.map Rule.left).Perm (h.rules.map Rule.left) :=
    (g.nodup_left.subperm hsub).perm_of_length_le (by simp [hlength])
  refine rewords_iff.2 ⟨hstart, fun r hr a ha => by rwa [hrules r hr], fun r hr a ha => ?_⟩
  obtain ⟨s, hs, hleft⟩ := List.mem_map.1 (hperm.mem_iff.2 (List.mem_map_of_mem hr))
  rw [← hleft, alternatives_left hs, ← hrules s hs, hleft, alternatives_left hr]
  exact ha

/-! ### Corresponding states -/

/-- The state of the automaton of `h` that stands for what `q` stands for in that of `g`. -/
def counterpart (g h : Grammar) (q : StateId) : StateId :=
  match g.vars.find? (g.stateOf · = q) with
  | some V => h.stateOf V
  | none => h.acceptState

theorem counterpart_stateOf (hV : V ∈ g.vars) : g.counterpart h (g.stateOf V) = h.stateOf V := by
  have hfind : g.vars.find? (g.stateOf · = g.stateOf V) = some V := by
    cases hf : g.vars.find? (g.stateOf · = g.stateOf V) with
    | none => exact absurd (by simp) (List.find?_eq_none.1 hf V hV)
    | some W =>
        have hWV : g.stateOf W = g.stateOf V := by simpa using List.find?_some hf
        exact congrArg some ((stateOf_inj (List.mem_of_find?_eq_some hf) hV).1 hWV)
  rw [counterpart, hfind]

theorem counterpart_acceptState (g h : Grammar) :
    g.counterpart h g.acceptState = h.acceptState := by
  have hfind : g.vars.find? (g.stateOf · = g.acceptState) = none :=
    List.find?_eq_none.2 fun V hV => by simpa using stateOf_ne_acceptState hV
  rw [counterpart, hfind]

theorem stateOf_mem_states (hV : V ∈ g.vars) : g.stateOf V ∈ g.automaton.states :=
  OrderedSet.mem_ofList.2 (stateOf_mem_canvas hV)

theorem acceptState_mem_states (g : Grammar) : g.acceptState ∈ g.automaton.states :=
  OrderedSet.mem_ofList.2 g.acceptState_mem_canvas

theorem mem_states_of_mem_table {m : Move} (hm : m ∈ g.automaton.table) :
    m.source ∈ g.automaton.states ∧ m.target ∈ g.automaton.states := by
  obtain ⟨hs, ht⟩ := mem_moves_canvas (TransitionTable.mem_ofMoves.1 hm)
  exact ⟨OrderedSet.mem_ofList.2 hs, OrderedSet.mem_ofList.2 ht⟩

theorem mem_states_iff : q ∈ g.automaton.states ↔
    (∃ V ∈ g.vars, g.stateOf V = q) ∨ q = g.acceptState := by
  constructor
  · intro hq
    simp only [automaton, OrderedSet.mem_ofList, List.mem_map, List.mem_range] at hq
    obtain ⟨i, hi, rfl⟩ := hq
    rcases Nat.lt_succ_iff_lt_or_eq.1 hi with hi | rfl
    · obtain ⟨V, hV⟩ := g.numberedInOrder.exists_variable i hi
      exact .inl ⟨V, stateOf?_eq_some_iff.1 hV⟩
    · exact .inr rfl
  · rintro (⟨V, hV, rfl⟩ | rfl)
    · exact stateOf_mem_states hV
    · exact g.acceptState_mem_states

namespace Rewords

theorem mem_vars (hgh : g.Rewords h) (hV : V ∈ g.vars) : V ∈ h.vars := by
  cases mem_vars_iff_occurs.1 hV with
  | @left r hr =>
      obtain ⟨a, ha⟩ := List.exists_mem_of_ne_nil _ r.right_ne_nil
      have halt : a ∈ g.alternatives r.left := mem_alternatives.2 ⟨r, hr, rfl, ha⟩
      exact left_mem_vars ((hgh.mem_alternatives_iff _ _).1 halt)
  | @next r a _ hr ha =>
      have halt : .step a V ∈ g.alternatives r.left := mem_alternatives.2 ⟨r, hr, rfl, ha⟩
      exact next_mem_vars ((hgh.mem_alternatives_iff _ _).1 halt)

theorem stateOf?_eq (hgh : g.Rewords h) (V : Variable) :
    h.stateOf? V = (g.stateOf? V).map (g.counterpart h) := by
  rw [stateOf?, stateOf?]
  by_cases hV : V ∈ g.vars
  · rw [if_pos hV, if_pos (hgh.mem_vars hV), Option.map_some, counterpart_stateOf hV]
  · rw [if_neg hV, if_neg (mt hgh.symm.mem_vars hV), Option.map_none]

theorem counterpart_mem_states (hgh : g.Rewords h) (hq : q ∈ g.automaton.states) :
    g.counterpart h q ∈ h.automaton.states := by
  rcases mem_states_iff.1 hq with ⟨V, hV, rfl⟩ | rfl
  · rw [counterpart_stateOf hV]
    exact stateOf_mem_states (hgh.mem_vars hV)
  · rw [counterpart_acceptState]
    exact h.acceptState_mem_states

theorem counterpart_counterpart (hgh : g.Rewords h) (hq : q ∈ g.automaton.states) :
    h.counterpart g (g.counterpart h q) = q := by
  rcases mem_states_iff.1 hq with ⟨V, hV, rfl⟩ | rfl
  · rw [counterpart_stateOf hV, counterpart_stateOf (hgh.mem_vars hV)]
  · rw [counterpart_acceptState, counterpart_acceptState]

/-- A production makes its move between the states that the grammar's own words number. -/
theorem rename_mem_table (hgh : g.Rewords h) {m : Move} (hm : m ∈ g.automaton.table) :
    m.rename (g.counterpart h) ∈ h.automaton.table := by
  obtain ⟨V, a, ha, rfl⟩ := mem_table_automaton.1 hm
  have hV : g.counterpart h (V.stateIn g.vars) = V.stateIn h.vars :=
    counterpart_stateOf (left_mem_vars ha)
  have haccept : g.counterpart h (acceptIn g.vars) = acceptIn h.vars :=
    g.counterpart_acceptState h
  have hmove : (a.moveIn g.vars V).rename (g.counterpart h) = a.moveIn h.vars V := by
    cases a with
    | epsilon => rw [Move.rename, Alternative.moveIn, hV, haccept, Alternative.moveIn]
    | terminal a => rw [Move.rename, Alternative.moveIn, hV, haccept, Alternative.moveIn]
    | step a B =>
        have hB : g.counterpart h (B.stateIn g.vars) = B.stateIn h.vars :=
          counterpart_stateOf (next_mem_vars ha)
        rw [Move.rename, Alternative.moveIn, hV, hB, Alternative.moveIn]
  rw [hmove]
  exact move_mem_table ((hgh.mem_alternatives_iff V a).1 ha)

theorem bijOn (hgh : g.Rewords h) : Set.BijOn (g.counterpart h)
    {q | q ∈ g.automaton.states} {q | q ∈ h.automaton.states} := by
  have hinv : Set.InvOn (h.counterpart g) (g.counterpart h)
      {q | q ∈ g.automaton.states} {q | q ∈ h.automaton.states} :=
    ⟨fun _ hq => hgh.counterpart_counterpart hq, fun _ hq => hgh.symm.counterpart_counterpart hq⟩
  exact hinv.bijOn (fun _ hq => hgh.counterpart_mem_states hq)
    fun _ hq => hgh.symm.counterpart_mem_states hq

theorem isIsomorphism (hgh : g.Rewords h) :
    IsIsomorphism (g.counterpart h) g.automaton h.automaton where
  bijOn := hgh.bijOn
  initial_eq := by
    have hinitial : g.counterpart h (g.stateOf g.start) = h.stateOf g.start :=
      counterpart_stateOf g.start_mem_vars
    rw [hgh.start_eq] at hinitial
    exact (congrArg _ (congrArg g.stateOf hgh.start_eq)).trans hinitial
  mem_finals_iff q hq := by
    have hfinals : ∀ {g : Grammar} {q}, q ∈ g.automaton.finals ↔ q = g.acceptState :=
      OrderedSet.mem_singleton
    rw [hfinals, hfinals]
    constructor
    · rintro rfl
      exact g.counterpart_acceptState h
    · intro haccept
      rw [← hgh.counterpart_counterpart hq, haccept, counterpart_acceptState]
  mem_table_iff p hp q hq a := by
    constructor
    · exact hgh.rename_mem_table
    · intro hm
      have hback := hgh.symm.rename_mem_table hm
      simpa only [Move.rename, hgh.counterpart_counterpart hp, hgh.counterpart_counterpart hq]
        using hback

end Rewords

end

/-- Exchanging two rules exchanges the numbers of their variables. -/
theorem exists_agrees_automaton_ne : ∃ g h : Grammar, g.agrees h ∧ g.automaton ≠ h.automaton := by
  let S : Rule := ⟨⟨'S', by decide⟩, [.epsilon], by decide⟩
  let A : Rule := ⟨⟨'A', by decide⟩, [.terminal ⟨'a', by decide⟩], by decide⟩
  let B : Rule := ⟨⟨'B', by decide⟩, [.epsilon], by decide⟩
  exact ⟨⟨[S, A, B], by decide, by decide⟩, ⟨[S, B, A], by decide, by decide⟩, by decide, by decide⟩

/-- Grammars that agree word the same productions. Whenever two grammars do, the state of a variable
corresponds to the state of this variable, and the accepting state to the accepting one; this is an
isomorphism of the automata, whose moves are all between their own states, so that they accept the
same words. The automata need not be equal, not even for grammars that agree. -/
theorem automata_of_two_wordings_isomorphic :
    (∀ g h : Grammar, g.agrees h → g.Rewords h) ∧
      (∀ g : Grammar, ∀ m ∈ g.automaton.table,
        m.source ∈ g.automaton.states ∧ m.target ∈ g.automaton.states) ∧
      (∀ g h : Grammar, g.Rewords h →
        (∀ V, h.stateOf? V = (g.stateOf? V).map (g.counterpart h)) ∧
        g.counterpart h g.acceptState = h.acceptState ∧
        IsIsomorphism (g.counterpart h) g.automaton h.automaton ∧
        ∀ w, g.automaton.accepts w ↔ h.automaton.accepts w) ∧
      ∃ g h : Grammar, g.agrees h ∧ g.automaton ≠ h.automaton := by
  refine ⟨fun g h => rewords_of_agrees, fun g m => mem_states_of_mem_table,
    fun g h hgh => ⟨hgh.stateOf?_eq, g.counterpart_acceptState h, hgh.isIsomorphism, fun w => ?_⟩,
    exists_agrees_automaton_ne⟩
  exact hgh.isIsomorphism.acceptsNfa_iff (Made.grammar g).closed (Made.grammar h).closed

/-- The second wording has the alternatives of `S` in another order and one of them twice, and `B`
before `A`. So the numbers of these two are exchanged. -/
theorem wordings_number_apart :
    let S : Variable := ⟨'S', by decide⟩
    let A : Variable := ⟨'A', by decide⟩
    let B : Variable := ⟨'B', by decide⟩
    let a : Terminal := ⟨'a', by decide⟩
    let b : Terminal := ⟨'b', by decide⟩
    let g : Grammar := ⟨[⟨S, [.step a A, .step b B, .epsilon], by decide⟩,
      ⟨A, [.step a S, .terminal b], by decide⟩], by decide, by decide⟩
    let h : Grammar := ⟨[⟨S, [.step b B, .epsilon, .step a A, .step b B], by decide⟩,
      ⟨A, [.terminal b, .step a S], by decide⟩], by decide, by decide⟩
    ¬ g.agrees h ∧ g.Rewords h ∧ g.automaton ≠ h.automaton ∧
      g.counterpart h (.ofNat 1) = .ofNat 2 ∧ g.counterpart h (.ofNat 2) = .ofNat 1 ∧
      IsIsomorphism (g.counterpart h) g.automaton h.automaton ∧
      h.automaton.accepts ['a', 'a', 'a', 'b'] := by
  intro S A B a b g h
  have hgh : g.Rewords h := by decide
  obtain ⟨-, -, hisomorphic, haccepts⟩ := automata_of_two_wordings_isomorphic.2.2.1 g h hgh
  have hderives : g.Derives S ['a', 'a', 'a', 'b'] :=
    .step (a := a) (B := A) (by decide) (.step (a := a) (B := S) (by decide)
      (.step (a := a) (B := A) (by decide) (.terminal (a := b) (by decide))))
  exact ⟨by decide, hgh, by decide, by decide, by decide, hisomorphic,
    (haccepts _).1 (accepts_automaton_iff.2 hderives)⟩

end FiniteAutomata.Grammar
