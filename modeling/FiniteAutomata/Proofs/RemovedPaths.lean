import FiniteAutomata.Proofs.PathAcceptance
import FiniteAutomata.Proofs.StateNumbers
import FiniteAutomata.Transition.SimplePath

/-!
# Paths that removals leave

A diagram from which a state or an edge was taken keeps those of its accepting paths that do not go
through what is gone, and gets no others. This holds of all its words at once, since the table that
is made anew has the moves of the old one that touch nothing removed.
-/

namespace FiniteAutomata

namespace TransitionTable

variable {t : TransitionTable} {p q r : StateId} {ms : List Move} {m : Move}

/-- If edges are kept for their ends, so are the moves between these. -/
theorem mem_ofEdges_filter_iff {edges : List Edge} {keep : Edge → Bool} {P : Prop}
    (h : ∀ e : Edge, e.source = m.source → e.target = m.target → (keep e ↔ P)) :
    m ∈ ofEdges (edges.filter keep) ↔ m ∈ ofEdges edges ∧ P := by
  simp only [mem_ofEdges, List.mem_filter]
  constructor
  · intro hm
    obtain ⟨e, ⟨he, hkeep⟩, hs, ha, ht⟩ := hm
    exact ⟨⟨e, he, hs, ha, ht⟩, (h e hs ht).1 hkeep⟩
  · intro hm
    obtain ⟨⟨e, he, hs, ha, ht⟩, hP⟩ := hm
    exact ⟨e, ⟨he, (h e hs ht).2 hP⟩, hs, ha, ht⟩

/-- A path does not come to a state if it neither starts there nor has a move from or to it. -/
theorem IsPath.not_mem_statesAlong_iff (h : t.IsPath p ms r) :
    q ∉ statesAlong p ms ↔ p ≠ q ∧ ∀ m ∈ ms, m.source ≠ q ∧ m.target ≠ q := by
  induction ms generalizing p with
  | nil => simp [statesAlong, eq_comm]
  | cons m ms ih =>
      obtain ⟨-, rfl, hrest⟩ := isPath_cons.1 h
      rw [statesAlong_cons, List.mem_cons, not_or, ih hrest, List.forall_mem_cons]
      constructor
      · intro haway
        obtain ⟨hsource, htarget, hmoves⟩ := haway
        exact ⟨Ne.symm hsource, ⟨Ne.symm hsource, htarget⟩, hmoves⟩
      · intro haway
        obtain ⟨hsource, ⟨-, htarget⟩, hmoves⟩ := haway
        exact ⟨Ne.symm hsource, htarget, hmoves⟩

end TransitionTable

namespace Automaton

open TransitionTable

variable {A B : Automaton} {w : Word} {ms : List Move} {q : StateId}

def AcceptingPath (A : Automaton) (w : Word) (ms : List Move) : Prop :=
  ∃ q ∈ A.finals, A.table.IsPath A.initial ms q ∧ spelled ms = w

theorem acceptsNfa_iff_exists_acceptingPath : A.acceptsNfa w ↔ ∃ ms, A.AcceptingPath w ms := by
  rw [acceptsNfa_iff_exists_isPath]
  constructor
  · intro h
    obtain ⟨q, hq, ms, hms⟩ := h
    exact ⟨ms, q, hq, hms⟩
  · intro h
    obtain ⟨ms, q, hq, hms⟩ := h
    exact ⟨q, hq, ms, hms⟩

/-- The automaton `B` is `A` without the state `q`, which is not the initial one. -/
structure LacksState (A : Automaton) (q : StateId) (B : Automaton) : Prop where
  initial_ne : A.initial ≠ q
  initial_eq : B.initial = A.initial
  finals_eq : B.finals = A.finals.erase q
  mem_table_iff : ∀ m, m ∈ B.table ↔ m ∈ A.table ∧ m.source ≠ q ∧ m.target ≠ q

theorem LacksState.acceptingPath_iff (h : A.LacksState q B) :
    B.AcceptingPath w ms ↔ A.AcceptingPath w ms ∧ q ∉ statesAlong A.initial ms := by
  unfold AcceptingPath
  simp only [h.initial_eq, h.finals_eq, OrderedSet.mem_erase, isPath_iff_of_mem_iff h.mem_table_iff]
  constructor
  · intro hB
    obtain ⟨r, ⟨hr, -⟩, ⟨hms, haway⟩, hw⟩ := hB
    exact ⟨⟨r, hr, hms, hw⟩, hms.not_mem_statesAlong_iff.2 ⟨h.initial_ne, haway⟩⟩
  · intro hA
    obtain ⟨⟨r, hr, hms, hw⟩, haway⟩ := hA
    have hend : r ≠ q := by
      rintro rfl
      exact haway (end_mem_statesAlong hms)
    exact ⟨r, ⟨hr, hend⟩, ⟨hms, (hms.not_mem_statesAlong_iff.1 haway).2⟩, hw⟩

/-- The automaton `B` is `A` with those of its moves alone that satisfy `P`. -/
structure KeepsMoves (A : Automaton) (P : Move → Prop) (B : Automaton) : Prop where
  initial_eq : B.initial = A.initial
  finals_eq : B.finals = A.finals
  mem_table_iff : ∀ m, m ∈ B.table ↔ m ∈ A.table ∧ P m

theorem KeepsMoves.acceptingPath_iff {P : Move → Prop} (h : A.KeepsMoves P B) :
    B.AcceptingPath w ms ↔ A.AcceptingPath w ms ∧ ∀ m ∈ ms, P m := by
  unfold AcceptingPath
  simp only [h.initial_eq, h.finals_eq, isPath_iff_of_mem_iff h.mem_table_iff]
  constructor
  · intro hB
    obtain ⟨r, hr, ⟨hms, hP⟩, hw⟩ := hB
    exact ⟨⟨r, hr, hms, hw⟩, hP⟩
  · intro hA
    obtain ⟨⟨r, hr, hms, hw⟩, hP⟩ := hA
    exact ⟨r, hr, ⟨hms, hP⟩, hw⟩

end Automaton

namespace Diagram

open TransitionTable Automaton

variable {d : Diagram} {mode : Mode} {A B : Automaton} {q source target : StateId}

/-- A removal does the same for a state that is not there, since there is nothing to take away. -/
theorem diagram_removeState (h : d.WellFormed) (q : StateId) :
    (d.removeState q).diagram = withEdges
      { d with
        states := d.states.erase q
        initial := if d.initial = some q then none else d.initial
        finals := d.finals.erase q }
      (d.edges.filter (! ·.touches q)) := by
  by_cases hq : q ∈ d.states
  · rw [removeState, if_pos hq]
  · have haway := h.absent hq
    have hfinals : d.finals.erase q = d.finals := by
      refine OrderedSet.ext_mem fun r => ?_
      rw [OrderedSet.mem_erase, and_iff_left_iff_imp]
      rintro hr rfl
      exact haway.not_mem_finals hr
    have hedges : d.edges.filter (! ·.touches q) = d.edges := by
      rw [List.filter_eq_self]
      intro e he
      simpa using haway.not_touches e he
    rw [removeState, if_neg hq, List.erase_of_not_mem hq, if_neg haway.initial_ne, hfinals, hedges,
      withEdges, ← h.table_eq]

theorem diagram_disconnect (h : d.WellFormed) (source target : StateId) :
    (d.disconnect source target).diagram =
      d.withEdges (d.edges.filter (! ·.joins source target)) := by
  unfold disconnect
  by_cases hany : d.edges.any (·.joins source target)
  · rw [if_pos hany]
  · have hedges : d.edges.filter (! ·.joins source target) = d.edges := by
      simpa [List.filter_eq_self] using hany
    rw [if_neg hany, hedges, withEdges, ← h.table_eq]

theorem mem_table_removeState (h : d.WellFormed) {m : Move} :
    m ∈ (d.removeState q).diagram.table ↔ m ∈ d.table ∧ m.source ≠ q ∧ m.target ≠ q := by
  rw [diagram_removeState h, h.table_eq]
  refine mem_ofEdges_filter_iff fun e hs ht => ?_
  simp [Edge.touches, hs, ht]

theorem mem_table_disconnect (h : d.WellFormed) {m : Move} :
    m ∈ (d.disconnect source target).diagram.table ↔
      m ∈ d.table ∧ ¬ (m.source = source ∧ m.target = target) := by
  rw [diagram_disconnect h, h.table_eq]
  refine mem_ofEdges_filter_iff fun e hs ht => ?_
  simp [Edge.joins, hs, ht, imp_iff_not_or]

theorem initial_removeState_eq_some_iff (h : d.WellFormed) {p : StateId} :
    (d.removeState q).diagram.initial = some p ↔ d.initial = some p ∧ p ≠ q := by
  rw [diagram_removeState h]
  change (if d.initial = some q then none else d.initial) = some p ↔ _
  by_cases hq : d.initial = some q
  · simp +contextual [hq, eq_comm]
  · rw [if_neg hq]
    refine ⟨fun hp => ⟨hp, ?_⟩, And.left⟩
    rintro rfl
    exact hq hp

theorem finals_removeState (h : d.WellFormed) :
    (d.removeState q).diagram.finals = d.finals.erase q := by
  rw [diagram_removeState h]
  rfl

theorem lacksState_of_removeState (h : d.WellFormed) (hA : d.snapshot mode = .ok A)
    (hB : (d.removeState q).diagram.snapshot mode = .ok B) : A.LacksState q B := by
  obtain ⟨p, hp, -, rfl⟩ := snapshot_eq_ok_iff.1 hA
  obtain ⟨r, hr, -, rfl⟩ := snapshot_eq_ok_iff.1 hB
  obtain ⟨hr', hne⟩ := (initial_removeState_eq_some_iff h).1 hr
  obtain rfl : p = r := Option.some.inj (hp.symm.trans hr')
  exact ⟨hne, rfl, finals_removeState h, fun m => mem_table_removeState h⟩

/-- There is a snapshot after a removal unless the initial state goes or the only final one. -/
theorem exists_snapshot_removeState_iff (h : d.WellFormed) (hA : d.snapshot mode = .ok A) :
    (∃ B, (d.removeState q).diagram.snapshot mode = .ok B) ↔
      A.initial ≠ q ∧ ∃ p ∈ A.finals, p ≠ q := by
  constructor
  · intro hB
    obtain ⟨B, hB⟩ := hB
    obtain ⟨_, -, hne, -⟩ := snapshot_eq_ok_iff.1 hB
    obtain ⟨p, hp⟩ := OrderedSet.exists_mem_of_ne_empty hne
    obtain ⟨_, -, -, rfl⟩ := snapshot_eq_ok_iff.1 hA
    rw [finals_removeState h, OrderedSet.mem_erase] at hp
    exact ⟨(lacksState_of_removeState h hA hB).initial_ne, p, hp⟩
  · intro hkept
    obtain ⟨hinitial, p, hp, hpq⟩ := hkept
    obtain ⟨r, hr, -, rfl⟩ := snapshot_eq_ok_iff.1 hA
    have hr' := (initial_removeState_eq_some_iff h).2 ⟨hr, hinitial⟩
    refine ⟨_, snapshot_eq_ok_iff.2 ⟨r, hr', fun hempty => ?_, rfl⟩⟩
    rw [finals_removeState h] at hempty
    exact OrderedSet.not_mem_empty p (hempty ▸ OrderedSet.mem_erase.2 ⟨hp, hpq⟩)

theorem exists_snapshot_disconnect (h : d.WellFormed) (hA : d.snapshot mode = .ok A)
    (source target : StateId) : ∃ B, (d.disconnect source target).diagram.snapshot mode = .ok B ∧
      A.KeepsMoves (fun m => ¬ (m.source = source ∧ m.target = target)) B := by
  obtain ⟨q, hq, hfinals, rfl⟩ := snapshot_eq_ok_iff.1 hA
  have hmoves : ∀ m, m ∈ (d.disconnect source target).diagram.table ↔
      m ∈ d.table ∧ ¬ (m.source = source ∧ m.target = target) := fun _ => mem_table_disconnect h
  rw [diagram_disconnect h] at hmoves ⊢
  exact ⟨_, snapshot_eq_ok_iff.2 ⟨q, hq, hfinals, rfl⟩, rfl, rfl, hmoves⟩

/-- What is accepted once a state is gone is what a path accepts that never comes to this state,
and once an edge is gone, what a path accepts that has no move between its ends. A state on no
accepting path is of no use to any word. There is an automaton after a removal unless the initial
state or the only final one was removed. -/
theorem removals_cut_paths (d : Diagram) (h : d.Reachable) (A : Automaton)
    (hA : d.snapshot .nfa = .ok A) :
    (∀ q, ((∃ B, (d.removeState q).diagram.snapshot .nfa = .ok B) ↔
        A.initial ≠ q ∧ ∃ p ∈ A.finals, p ≠ q) ∧
      ∀ B, (d.removeState q).diagram.snapshot .nfa = .ok B →
        (∀ w, B.acceptsNfa w ↔ ∃ ms, A.AcceptingPath w ms ∧ q ∉ statesAlong A.initial ms) ∧
          ((∀ w ms, A.AcceptingPath w ms → q ∉ statesAlong A.initial ms) →
            ∀ w, B.acceptsNfa w = A.acceptsNfa w)) ∧
    ∀ source target, ∃ B, (d.disconnect source target).diagram.snapshot .nfa = .ok B ∧
      ∀ w, B.acceptsNfa w ↔
        ∃ ms, A.AcceptingPath w ms ∧ ∀ m ∈ ms, ¬ (m.source = source ∧ m.target = target) := by
  refine ⟨fun q => ⟨exists_snapshot_removeState_iff h.wellFormed hA, fun B hB => ?_⟩,
    fun source target => ?_⟩
  · have hlacks := lacksState_of_removeState h.wellFormed hA hB
    refine ⟨fun w => ?_, fun haway w => ?_⟩
    · simp only [acceptsNfa_iff_exists_acceptingPath, hlacks.acceptingPath_iff]
    · rw [Bool.eq_iff_iff]
      simp only [acceptsNfa_iff_exists_acceptingPath, hlacks.acceptingPath_iff]
      exact exists_congr fun ms => and_iff_left_of_imp (haway w ms)
  · obtain ⟨B, hB, hkeeps⟩ := exists_snapshot_disconnect h.wellFormed hA source target
    refine ⟨B, hB, fun w => ?_⟩
    simp only [acceptsNfa_iff_exists_acceptingPath, hkeeps.acceptingPath_iff]

/-- From `q0` two edges on `a` lead on, to `q1` and to the final state `q2`. The word `ab` cannot do
without `q1`, the word `a` can, and no path from `q0` comes to `q3`. -/
theorem words_lost_and_kept :
    let d := ((new .nfa).applyAll [.addState, .addState, .addState, .addState,
      .merge (.ofNat 0) (.ofNat 1) (.ofList [.char 'a']),
      .merge (.ofNat 1) (.ofNat 2) (.ofList [.epsilon, .char 'b']),
      .merge (.ofNat 0) (.ofNat 2) (.ofList [.char 'a']),
      .merge (.ofNat 3) (.ofNat 1) (.ofList [.epsilon, .char 'a']), .toggleInitial (.ofNat 0),
      .toggleFinal (.ofNat 2)]).diagram
    let A : Automaton := ⟨.ofList d.states, .ofNat 0, d.finals, d.table, .nfa⟩
    d.Reachable ∧ d.snapshot .nfa = .ok A ∧ A.acceptsNfa ['a', 'b'] ∧
      (∃ B, (d.removeState (.ofNat 1)).diagram.snapshot .nfa = .ok B ∧ B.acceptsNfa ['a'] ∧
        ¬ B.acceptsNfa ['a', 'b']) ∧
      (∃ B, (d.removeState (.ofNat 3)).diagram.snapshot .nfa = .ok B ∧
        ∀ w, B.acceptsNfa w = A.acceptsNfa w) ∧
      (¬ ∃ B, (d.removeState (.ofNat 2)).diagram.snapshot .nfa = .ok B) ∧
      ∃ B, (d.disconnect (.ofNat 0) (.ofNat 1)).diagram.snapshot .nfa = .ok B ∧
        B.acceptsNfa ['a'] := by
  intro d A
  have h : d.Reachable := ⟨.nfa, _, by decide, rfl⟩
  have hA : d.snapshot .nfa = .ok A := snapshot_eq_ok_iff.2 ⟨_, rfl, by decide, rfl⟩
  have hlong : A.AcceptingPath ['a', 'b']
      [⟨.ofNat 0, .char 'a', .ofNat 1⟩, ⟨.ofNat 1, .char 'b', .ofNat 2⟩] := by
    refine ⟨.ofNat 2, by decide, isPath_cons.2 ⟨by decide, rfl, ?_⟩, rfl⟩
    exact isPath_singleton.2 ⟨by decide, rfl, rfl⟩
  have hshort : A.AcceptingPath ['a'] [⟨.ofNat 0, .char 'a', .ofNat 2⟩] :=
    ⟨.ofNat 2, by decide, isPath_singleton.2 ⟨by decide, rfl, rfl⟩, rfl⟩
  -- Nothing leads to `q3`, and what reads `b` leaves `q1`.
  let others : StateSet := .ofList [.ofNat 0, .ofNat 1, .ofNat 2]
  have htargets : ∀ m ∈ A.table.moves.toList, m.target ∈ others := by decide
  have hsources : ∀ m ∈ A.table.moves.toList, m.symbol = .char 'b' → m.source = .ofNat 1 := by
    decide
  have haway : ∀ w ms, A.AcceptingPath w ms → .ofNat 3 ∉ statesAlong A.initial ms := by
    intro w ms hms hmem
    obtain ⟨q, -, hpath, -⟩ := hms
    have habsent : .ofNat 3 ∉ others := by decide
    exact habsent (hpath.mem_of_mem_statesAlong (by decide) htargets _ hmem)
  have hneeds : ∀ ms, A.AcceptingPath ['a', 'b'] ms → .ofNat 1 ∈ statesAlong A.initial ms := by
    intro ms hms
    obtain ⟨q, -, hpath, hspelled⟩ := hms
    have hb : 'b' ∈ spelled ms := by
      rw [hspelled]
      decide
    obtain ⟨m, hm, hsymbol⟩ := List.mem_filterMap.1 hb
    by_contra hmem
    have hmoves := (hpath.not_mem_statesAlong_iff.1 hmem).2
    exact (hmoves m hm).1 (hsources m (hpath.mem m hm) (Symbol.char?_eq_some_iff.1 hsymbol))
  obtain ⟨hstate, hedge⟩ := removals_cut_paths d h A hA
  obtain ⟨B, hB⟩ := (hstate (.ofNat 1)).1.2 (by decide)
  obtain ⟨C, hC⟩ := (hstate (.ofNat 3)).1.2 (by decide)
  obtain ⟨D, hD, hDwords⟩ := hedge (.ofNat 0) (.ofNat 1)
  have hBwords := ((hstate (.ofNat 1)).2 B hB).1
  refine ⟨h, hA, acceptsNfa_iff_exists_acceptingPath.2 ⟨_, hlong⟩,
    ⟨B, hB, (hBwords _).2 ⟨_, hshort, by decide⟩, ?_⟩,
    ⟨C, hC, ((hstate (.ofNat 3)).2 C hC).2 haway⟩, ?_, D, hD, (hDwords _).2 ⟨_, hshort, by decide⟩⟩
  · rw [hBwords]
    intro hkept
    obtain ⟨ms, hms, hmem⟩ := hkept
    exact hmem (hneeds ms hms)
  · rw [(hstate (.ofNat 2)).1]
    decide

end Diagram

end FiniteAutomata
