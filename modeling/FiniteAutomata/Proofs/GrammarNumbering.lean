import FiniteAutomata.Proofs.GrammarDiagram
import FiniteAutomata.Proofs.GrammarLanguage
import Mathlib.Data.List.Induction

/-!
# Numbering the variables of a grammar

The two passes that build an automaton from a grammar come to an end: no look-up fails. What is
built is the automaton of the grammar. Its states are numbered in the order in which variables first
occur, with the accepting state last, and its moves are those of the productions, one for each.
-/

namespace FiniteAutomata

/-! ### Numbers given one after another -/

namespace Numbering

def ofPlaces (vars : List Variable) : Numbering := vars.map fun V => (V, V.stateIn vars)

theorem lookup_map_pair (f : Variable → StateId) (vars : List Variable) (V : Variable) :
    (vars.map fun W => (W, f W)).lookup V = if V ∈ vars then some (f V) else none := by
  induction vars with
  | nil => rfl
  | cons W vars ih =>
      by_cases h : V = W
      · subst h
        simp
      · simp [List.lookup_cons, beq_false_of_ne h, h, ih]

theorem lookup_ofPlaces (vars : List Variable) (V : Variable) :
    (ofPlaces vars).lookup V = if V ∈ vars then some (V.stateIn vars) else none :=
  lookup_map_pair _ vars V

theorem intern_ofPlaces (vars : List Variable) (V : Variable) :
    (ofPlaces vars).intern V = ofPlaces (if V ∈ vars then vars else vars ++ [V]) := by
  rw [intern, lookup_ofPlaces]
  by_cases h : V ∈ vars
  · simp [h]
  · have hold : ∀ W ∈ vars, W.stateIn (vars ++ [V]) = W.stateIn vars := by
      intro W hW
      rw [Variable.stateIn, Variable.stateIn, List.idxOf_append_of_mem hW]
    have hnew : V.stateIn (vars ++ [V]) = .ofNat vars.length := by
      rw [Variable.stateIn, List.idxOf_append_of_notMem h, List.idxOf_cons_self, Nat.add_zero]
    have hmap : vars.map (fun W => (W, W.stateIn (vars ++ [V]))) = ofPlaces vars :=
      List.map_congr_left fun W hW => by rw [hold W hW]
    simp [h, ofPlaces, hnew, hmap]

/-- Variables that come again get no other number. -/
theorem foldl_intern (vars : List Variable) : vars.foldl intern [] = ofPlaces vars.eraseDups := by
  induction vars using List.reverseRecOn with
  | nil => rfl
  | append_singleton vars V ih =>
      rw [List.foldl_append, List.foldl_cons, List.foldl_nil, ih, intern_ofPlaces, eraseDups_concat]
      simp only [List.mem_eraseDups]

end Numbering

/-! ### The two passes -/

theorem TransitionTable.mem_ofEdges_cons {e : Edge} {es : List Edge} {m : Move} :
    m ∈ ofEdges (e :: es) ↔
      (e.source = m.source ∧ m.symbol ∈ e.label ∧ e.target = m.target) ∨ m ∈ ofEdges es := by
  simp [mem_ofEdges]

theorem Edge.mem_ofEdges_gather {m n : Move} {es : List Edge} :
    n ∈ TransitionTable.ofEdges (gather m es) ↔ n = m ∨ n ∈ TransitionTable.ofEdges es := by
  induction es with
  | nil =>
      cases n
      cases m
      simp [gather, TransitionTable.mem_ofEdges, and_left_comm, eq_comm]
  | cons e es ih =>
      rw [gather]
      split
      · next hjoins =>
          obtain ⟨hs, ht⟩ := Prod.mk.inj (joins_iff.1 hjoins)
          have hn : n = m ↔ e.source = n.source ∧ n.symbol = m.symbol ∧ e.target = n.target := by
            rw [hs, ht, Move.ext_iff, eq_comm, eq_comm (a := n.target)]
          rw [TransitionTable.mem_ofEdges_cons, TransitionTable.mem_ofEdges_cons, hn, ← or_assoc,
            OrderedSet.mem_insert, or_and_right, and_or_left]
      · rw [TransitionTable.mem_ofEdges_cons, ih, TransitionTable.mem_ofEdges_cons, or_left_comm]

theorem Alternative.next?_eq_some_iff {a : Alternative} {B : Variable} :
    a.next? = some B ↔ ∃ b, a = .step b B := by
  cases a <;> simp [next?]

namespace Grammar

theorem numbering_eq (g : Grammar) : g.numbering = .ofPlaces g.vars := by
  have hround : (fun (ns : Numbering) (r : Rule) =>
      r.right.foldl (fun ns a => a.next?.elim ns ns.intern) (ns.intern r.left)) = fun ns r =>
        (r.left :: r.right.filterMap Alternative.next?).foldl Numbering.intern ns := by
    funext ns r
    rw [List.foldl_cons, List.foldl_filterMap]
    congr 1
    funext ns a
    cases a.next? <;> rfl
  rw [numbering, hround, ← List.foldl_flatMap, vars, ← Numbering.foldl_intern, List.foldl_cons]

theorem lookup_numbering (g : Grammar) (V : Variable) : g.numbering.lookup V = g.stateOf? V := by
  rw [numbering_eq, Numbering.lookup_ofPlaces]
  rfl

theorem lookup_numbering_of_mem {g : Grammar} {V : Variable} (hV : V ∈ g.vars) :
    g.numbering.lookup V = some (g.stateOf V) := by
  rw [lookup_numbering, stateOf?, if_pos hV]

theorem mem_productions {g : Grammar} {p : Variable × Alternative} :
    p ∈ g.productions ↔ p.2 ∈ g.alternatives p.1 := by
  simp only [productions, List.mem_flatMap, List.mem_map, mem_alternatives]
  constructor
  · rintro ⟨r, hr, a, ha, rfl⟩
    exact ⟨r, hr, rfl, ha⟩
  · rintro ⟨r, hr, hV, ha⟩
    exact ⟨r, hr, p.2, ha, Prod.ext hV rfl⟩

theorem resolve?_eq {g : Grammar} {V : Variable} {a : Alternative} (ha : a ∈ g.alternatives V) :
    a.resolve? g.numbering g.acceptState V = some (a.moveIn g.vars V) := by
  have hV := lookup_numbering_of_mem (left_mem_vars ha)
  cases a with
  | epsilon => rw [Alternative.resolve?, hV]; rfl
  | terminal a => rw [Alternative.resolve?, hV]; rfl
  | step a B =>
      rw [Alternative.resolve?, hV, lookup_numbering_of_mem (next_mem_vars ha)]
      rfl

/-- No look-up fails, and the edges gathered have the moves of the productions. -/
theorem exists_foldlM_gather? {g : Grammar} {ps : List (Variable × Alternative)}
    (hps : ∀ p ∈ ps, p.2 ∈ g.alternatives p.1) (es : List Edge) :
    ∃ es', ps.foldlM (gather? g.numbering g.acceptState) es = some es' ∧
      ∀ m, m ∈ TransitionTable.ofEdges es' ↔
        m ∈ TransitionTable.ofEdges es ∨ m ∈ ps.map fun p => p.2.moveIn g.vars p.1 := by
  induction ps generalizing es with
  | nil => exact ⟨es, rfl, fun m => by simp⟩
  | cons p ps ih =>
      obtain ⟨hp, hps⟩ := List.forall_mem_cons.1 hps
      obtain ⟨es', hes', hmem⟩ := ih hps (Edge.gather (p.2.moveIn g.vars p.1) es)
      refine ⟨es', ?_, fun m => ?_⟩
      · rw [List.foldlM_cons, gather?, resolve?_eq hp]
        exact hes'
      · rw [hmem, Edge.mem_ofEdges_gather, List.map_cons, List.mem_cons, or_assoc, or_left_comm]

theorem states_ofPlaces {vars : List Variable} (h : vars.Nodup) :
    OrderedSet.ofList ((Numbering.ofPlaces vars).map Prod.snd ++ [acceptIn vars]) =
      .ofList ((List.range (vars.length + 1)).map StateId.ofNat) := by
  have hmap : (Numbering.ofPlaces vars).map Prod.snd = (List.range vars.length).map .ofNat := by
    refine List.ext_getElem (by simp [Numbering.ofPlaces]) fun i hi _ => ?_
    rw [List.length_map, Numbering.ofPlaces, List.length_map] at hi
    simp [Numbering.ofPlaces, Variable.stateIn, h.idxOf_getElem i hi]
  rw [hmap, List.range_succ, List.map_append]
  rfl

theorem construct?_eq (g : Grammar) :
    g.construct? = some (g.vars.map fun V => (V, g.stateOf V), g.automaton) := by
  have hps : ∀ p ∈ g.productions, p.2 ∈ g.alternatives p.1 := fun p hp => mem_productions.1 hp
  obtain ⟨es, hes, hmem⟩ := exists_foldlM_gather? hps []
  have haccept : StateId.ofNat g.numbering.length = g.acceptState := by
    rw [numbering_eq, Numbering.ofPlaces, List.length_map]
    rfl
  have htable : TransitionTable.ofEdges es = g.automaton.table := by
    refine TransitionTable.ext_mem fun m => ?_
    rw [hmem, ← moves_eq_map_productions]
    simp [TransitionTable.mem_ofEdges, automaton]
  have hstates : OrderedSet.ofList (g.numbering.map Prod.snd ++ [g.acceptState]) =
      g.automaton.states := by
    rw [numbering_eq]
    exact states_ofPlaces g.nodup_vars
  simp only [construct?, haccept, lookup_numbering_of_mem g.start_mem_vars, hes, htable, hstates,
    Option.bind_eq_bind, Option.bind_some]
  rw [numbering_eq]
  rfl

/-! ### The order of the states -/

/-- The variables as they stand in the grammar, the start before all. -/
def occurrences (g : Grammar) : List Variable :=
  g.start :: g.rules.flatMap fun r => r.left :: r.right.filterMap Alternative.next?

inductive Occurs (g : Grammar) : Variable → Prop
  | left {r : Rule} : r ∈ g.rules → Occurs g r.left
  | next {r : Rule} {a : Terminal} {B : Variable} : r ∈ g.rules → .step a B ∈ r.right → Occurs g B

theorem mem_vars_iff_occurs {g : Grammar} {V : Variable} : V ∈ g.vars ↔ g.Occurs V := by
  simp only [vars, List.mem_eraseDups, List.mem_cons, List.mem_flatMap, List.mem_filterMap,
    Alternative.next?_eq_some_iff]
  constructor
  · rintro (rfl | ⟨r, hr, rfl | ⟨_, ha, a, rfl⟩⟩)
    · exact .left (List.head_mem g.rules_ne_nil)
    · exact .left hr
    · exact .next hr ha
  · rintro (hr | ⟨hr, ha⟩)
    · exact .inr ⟨_, hr, .inl rfl⟩
    · exact .inr ⟨_, hr, .inr ⟨_, ha, _, rfl⟩⟩

section

variable {g : Grammar} {V W B : Variable} {p q : StateId}

theorem stateOf?_eq_some_iff : g.stateOf? V = some p ↔ V ∈ g.vars ∧ g.stateOf V = p := by
  rw [stateOf?]
  split <;> simp [*]

theorem eq_of_stateOf?_eq (hV : g.stateOf? V = some p) (hW : g.stateOf? W = some p) : V = W := by
  obtain ⟨hmemV, rfl⟩ := stateOf?_eq_some_iff.1 hV
  obtain ⟨hmemW, hWV⟩ := stateOf?_eq_some_iff.1 hW
  exact (stateOf_inj hmemV hmemW).1 hWV.symm

theorem stateOf?_ne_acceptState : g.stateOf? V ≠ some g.acceptState := by
  intro h
  obtain ⟨hV, haccept⟩ := stateOf?_eq_some_iff.1 h
  exact stateOf_ne_acceptState hV haccept

theorem stateOf_lt_iff (hV : V ∈ g.vars) (hW : W ∈ g.vars) :
    g.stateOf V < g.stateOf W ↔ g.occurrences.idxOf V < g.occurrences.idxOf W := by
  have hoccurrences : ∀ U ∈ g.vars, U ∈ g.occurrences := fun U hU => List.mem_eraseDups.1 hU
  have hlen := g.length_vars_lt
  have hiV := List.idxOf_lt_length_of_mem hV
  have hiW := List.idxOf_lt_length_of_mem hW
  rw [← idxOf_eraseDups_lt_iff (hoccurrences V hV) (hoccurrences W hW)]
  exact UInt32.ofNat_lt_iff_lt (Nat.lt_trans hiV hlen) (Nat.lt_trans hiW hlen)

/-- The variables that occur have the numbers below `n`, in the order of their first occurrences. -/
structure NumberedInOrder (g : Grammar) (n : Nat) : Prop where
  occurs_iff : ∀ V, g.Occurs V ↔ ∃ i < n, g.stateOf? V = some (.ofNat i)
  exists_variable : ∀ i < n, ∃ V, g.stateOf? V = some (.ofNat i)
  eq_of_eq : ∀ V W p, g.stateOf? V = some p → g.stateOf? W = some p → V = W
  lt_iff : ∀ V W p q, g.stateOf? V = some p → g.stateOf? W = some q →
    (p < q ↔ g.occurrences.idxOf V < g.occurrences.idxOf W)
  start_eq : g.stateOf? g.start = some (.ofNat 0)

theorem stateOf_start (g : Grammar) : g.stateOf g.start = .ofNat 0 := by
  rw [stateOf, Variable.stateIn, vars, List.eraseDups_cons, List.idxOf_cons_self]

theorem numberedInOrder (g : Grammar) : g.NumberedInOrder g.vars.length where
  occurs_iff V := by
    rw [← mem_vars_iff_occurs]
    constructor
    · intro hV
      exact ⟨_, List.idxOf_lt_length_of_mem hV, stateOf?_eq_some_iff.2 ⟨hV, rfl⟩⟩
    · rintro ⟨i, -, hV⟩
      exact (stateOf?_eq_some_iff.1 hV).1
  exists_variable i hi := by
    refine ⟨g.vars[i], stateOf?_eq_some_iff.2 ⟨List.getElem_mem hi, ?_⟩⟩
    rw [stateOf, Variable.stateIn, g.nodup_vars.idxOf_getElem i hi]
  eq_of_eq _ _ _ hV hW := eq_of_stateOf?_eq hV hW
  lt_iff V W p q hV hW := by
    obtain ⟨hmemV, rfl⟩ := stateOf?_eq_some_iff.1 hV
    obtain ⟨hmemW, rfl⟩ := stateOf?_eq_some_iff.1 hW
    exact stateOf_lt_iff hmemV hmemW
  start_eq := stateOf?_eq_some_iff.2 ⟨g.start_mem_vars, g.stateOf_start⟩

end

/-! ### One move for each production -/

def Makes (g : Grammar) (V : Variable) (m : Move) : Alternative → Prop
  | .epsilon =>
    g.stateOf? V = some m.source ∧ m.symbol = .epsilon ∧ m.target = g.acceptState
  | .terminal a =>
    g.stateOf? V = some m.source ∧ m.symbol = .char a.letter ∧ m.target = g.acceptState
  | .step a B =>
    g.stateOf? V = some m.source ∧ m.symbol = .char a.letter ∧ g.stateOf? B = some m.target

section

variable {g : Grammar} {V W : Variable} {a b : Alternative} {m : Move}

theorem makes_moveIn (ha : a ∈ g.alternatives V) : g.Makes V (a.moveIn g.vars V) a := by
  have hV : g.stateOf? V = some (g.stateOf V) := stateOf?_eq_some_iff.2 ⟨left_mem_vars ha, rfl⟩
  cases a with
  | epsilon => exact ⟨hV, rfl, rfl⟩
  | terminal a => exact ⟨hV, rfl, rfl⟩
  | step a B => exact ⟨hV, rfl, stateOf?_eq_some_iff.2 ⟨next_mem_vars ha, rfl⟩⟩

theorem Makes.stateOf?_eq (h : g.Makes V m a) : g.stateOf? V = some m.source := by
  cases a <;> exact h.1

/-- A move is made by one production only. -/
theorem Makes.unique (h : g.Makes V m a) (h' : g.Makes W m b) : V = W ∧ a = b := by
  refine ⟨eq_of_stateOf?_eq h.stateOf?_eq h'.stateOf?_eq, ?_⟩
  cases a with
  | epsilon =>
      cases b with
      | epsilon => rfl
      | terminal b => cases h.2.1.symm.trans h'.2.1
      | step b C => cases h.2.1.symm.trans h'.2.1
  | terminal a =>
      cases b with
      | epsilon => cases h.2.1.symm.trans h'.2.1
      | terminal b =>
          have hletter := Symbol.char.inj (h.2.1.symm.trans h'.2.1)
          rw [Terminal.eq_of_letter_eq hletter]
      | step b C => exact absurd (h'.2.2.trans (congrArg some h.2.2)) stateOf?_ne_acceptState
  | step a B =>
      cases b with
      | epsilon => cases h.2.1.symm.trans h'.2.1
      | terminal b => exact absurd (h.2.2.trans (congrArg some h'.2.2)) stateOf?_ne_acceptState
      | step b C =>
          have hletter := Symbol.char.inj (h.2.1.symm.trans h'.2.1)
          rw [Terminal.eq_of_letter_eq hletter, eq_of_stateOf?_eq h.2.2 h'.2.2]

/-- Each alternative of a variable makes one of the moves, and each move is made by one. -/
structure MirrorsProductions (g : Grammar) (t : TransitionTable) : Prop where
  mem_iff : ∀ V a, a ∈ g.alternatives V ↔ ∃ m ∈ t, g.Makes V m a
  exists_production : ∀ m ∈ t, ∃ V, ∃ a ∈ g.alternatives V, g.Makes V m a
  unique : ∀ m V a W b, g.Makes V m a → g.Makes W m b → V = W ∧ a = b

theorem mirrorsProductions (g : Grammar) : g.MirrorsProductions g.automaton.table where
  mem_iff V a := by
    constructor
    · intro ha
      exact ⟨_, move_mem_table ha, makes_moveIn ha⟩
    · rintro ⟨m, hm, hmakes⟩
      obtain ⟨W, b, hb, rfl⟩ := mem_table_automaton.1 hm
      obtain ⟨rfl, rfl⟩ := hmakes.unique (makes_moveIn hb)
      exact hb
  exists_production m hm := by
    obtain ⟨V, a, ha, rfl⟩ := mem_table_automaton.1 hm
    exact ⟨V, a, ha, makes_moveIn ha⟩
  unique _ _ _ _ _ h h' := h.unique h'

end

/-- The variables that occur in a grammar are the states of its automaton, numbered in the order of
their first occurrences with the start at 0. The last number is that of the accepting state, which
alone is final and which no move leaves. There is one move for each production and no other. The two
passes that build the automaton look up no variable that has no number. -/
theorem automaton_mirrors_productions (g : Grammar) :
    (∃ n ≤ 26, g.NumberedInOrder n ∧ g.acceptState = .ofNat n ∧
      ∀ q, q ∈ g.automaton.states ↔ ∃ i ≤ n, q = .ofNat i) ∧
      g.automaton.initial = .ofNat 0 ∧
      g.automaton.finals = .singleton g.acceptState ∧
      (∀ m ∈ g.automaton.table, m.source ≠ g.acceptState) ∧
      g.MirrorsProductions g.automaton.table ∧
      g.construct? = some (g.vars.map fun V => (V, g.stateOf V), g.automaton) := by
  refine ⟨⟨_, length_le_of_nodup g.nodup_vars, g.numberedInOrder, rfl, fun q => ?_⟩,
    g.stateOf_start, rfl, fun m hm => source_ne_acceptState hm, g.mirrorsProductions,
    g.construct?_eq⟩
  simp only [automaton, OrderedSet.mem_ofList, List.mem_map, List.mem_range, Nat.lt_succ_iff,
    eq_comm (a := q)]

/-- `B` has no rule of its own, and `C` does not occur before its rule. -/
example :
    let S : Variable := ⟨'S', by decide⟩
    let B : Variable := ⟨'B', by decide⟩
    let C : Variable := ⟨'C', by decide⟩
    let a : Terminal := ⟨'a', by decide⟩
    let g : Grammar := ⟨[⟨S, [.step a B, .step a S, .terminal a, .step a B], by decide⟩,
      ⟨C, [.epsilon], by decide⟩], by decide, by decide⟩
    g.construct?.map Prod.fst = some [(S, .ofNat 0), (B, .ofNat 1), (C, .ofNat 2)] ∧
      g.automaton.table = .ofMoves [⟨.ofNat 0, .char 'a', .ofNat 1⟩,
        ⟨.ofNat 0, .char 'a', .ofNat 0⟩, ⟨.ofNat 0, .char 'a', .ofNat 3⟩,
        ⟨.ofNat 2, .epsilon, .ofNat 3⟩] := by decide

end Grammar

end FiniteAutomata
