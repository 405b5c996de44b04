import FiniteAutomata.Proofs.StoredSets
import FiniteAutomata.Storage.StoredTable

/-!
# What stored tables show

The moves of a stored table are those of its edges, and no entry is empty. So tables whose entries
agree are tables of the same moves, however the moves were spread over edges and in whatever order
they came. The sorted moves say the same.
-/

namespace FiniteAutomata.StoredTable

variable {β : Type} [BitRow β] {t u : StoredTable β} {R S : Move → Prop} {q : StateId} {a : Symbol}
  {s : StateBits β}

/-- The entries are the sets of targets that the moves in `R` have, where there are any. -/
structure Holds (t : StoredTable β) (R : Move → Prop) : Prop where
  of_some : ∀ {q a s}, t.targets? q a = some s →
    ∃ X : Finset StateId, s.Keeps X ∧ X.Nonempty ∧ ∀ p, p ∈ X ↔ R ⟨q, a, p⟩
  of_none : ∀ {q a}, t.targets? q a = none → ∀ p, ¬ R ⟨q, a, p⟩

theorem Holds.targets?_isSome_iff (h : t.Holds R) :
    (t.targets? q a).isSome ↔ ∃ p, R ⟨q, a, p⟩ := by
  cases hentry : t.targets? q a with
  | none => simpa using h.of_none hentry
  | some s =>
      obtain ⟨X, -, ⟨p, hp⟩, hX⟩ := h.of_some hentry
      exact iff_of_true rfl ⟨p, (hX p).1 hp⟩

theorem Holds.mem_entries_iff (h : t.Holds R) {key : StateId × Symbol} :
    key ∈ t.entries ↔ ∃ p, R ⟨key.1, key.2, p⟩ :=
  mem_entries.trans h.targets?_isSome_iff

theorem Holds.isEmpty_iff (h : t.Holds R) : t.isEmpty ↔ ∀ m, ¬ R m := by
  rw [isEmpty, Std.HashMap.isEmpty_iff_forall_not_mem]
  simp only [h.mem_entries_iff]
  constructor
  · intro hnone m hm
    exact hnone (m.source, m.symbol) ⟨m.target, hm⟩
  · rintro hnone key ⟨p, hp⟩
    exact hnone _ hp

theorem Holds.hasEpsilon_iff (h : t.Holds R) : t.hasEpsilon ↔ ∃ q p, R ⟨q, .epsilon, p⟩ := by
  simp [hasEpsilon, h.mem_entries_iff]

theorem Holds.mem_alphabet_iff (h : t.Holds R) (c : Char) :
    c ∈ t.alphabet ↔ ∃ q p, R ⟨q, .char c, p⟩ := by
  simp [alphabet, h.mem_entries_iff]

theorem Holds.keys_perm (ht : t.Holds R) (hu : u.Holds S) (h : ∀ m, R m ↔ S m) :
    t.entries.keys.Perm u.entries.keys := by
  refine (List.perm_ext_iff_of_nodup t.nodup_keys u.nodup_keys).2 fun key => ?_
  simp [ht.mem_entries_iff, hu.mem_entries_iff, h]

/-! ### Making a table -/

theorem holds_empty : (empty : StoredTable β).Holds fun _ => False where
  of_some h := by simp [targets?, empty] at h
  of_none _ _ := id

/-- Steps that bring in moves, taken one after another, bring in the moves of all of them. -/
theorem Holds.foldlM {α : Type} {f : StoredTable β → α → Option (StoredTable β)}
    {M : α → Move → Prop} (hf : ∀ {t R} (a : α), t.Holds R →
      ∃ u, f t a = some u ∧ u.Holds fun m => M a m ∨ R m) (h : t.Holds R) (l : List α) :
    ∃ u, l.foldlM f t = some u ∧ u.Holds fun m => (∃ a ∈ l, M a m) ∨ R m := by
  induction l generalizing t R with
  | nil => exact ⟨t, rfl, by simpa using h⟩
  | cons a l ih =>
      obtain ⟨u, hu, hholds⟩ := hf a h
      obtain ⟨v, hv, hholds⟩ := ih hholds
      refine ⟨v, by simpa [hu] using hv, ?_⟩
      simpa [or_assoc, or_left_comm] using hholds

variable [LawfulBitRow β]

theorem Holds.exists_keeps (h : t.Holds R) (q : StateId) (a : Symbol) :
    ∃ X : Finset StateId, ((t.targets? q a).getD .empty).Keeps X ∧ ∀ p, p ∈ X ↔ R ⟨q, a, p⟩ := by
  cases hentry : t.targets? q a with
  | none => exact ⟨∅, StateBits.keeps_empty, fun p => by simp [h.of_none hentry p]⟩
  | some s =>
      obtain ⟨X, hkeeps, -, hX⟩ := h.of_some hentry
      exact ⟨X, hkeeps, hX⟩

theorem Holds.add? (h : t.Holds R) (m : Move) :
    ∃ u, t.add? m = some u ∧ u.Holds fun n => n = m ∨ R n := by
  obtain ⟨X, hkeeps, hX⟩ := h.exists_keeps m.source m.symbol
  obtain ⟨s, hs, hkeeps⟩ := hkeeps.insert? m.target
  refine ⟨⟨t.entries.insert (m.source, m.symbol) s⟩, ?_, fun {q a} r hr => ?_, fun {q a} hr => ?_⟩
  · rw [targets?] at hs
    simp [StoredTable.add?, hs]
  · rw [targets?_insert] at hr
    split at hr
    · next hkey =>
        obtain ⟨rfl, rfl⟩ := hkey
        obtain rfl := Option.some.inj hr
        exact ⟨_, hkeeps, Finset.insert_nonempty .., fun p => by simp [hX, Move.ext_iff]⟩
    · next hkey =>
        obtain ⟨Y, hkeeps, hY, hR⟩ := h.of_some hr
        refine ⟨Y, hkeeps, hY, fun p => ?_⟩
        have hne : (⟨q, a, p⟩ : Move) ≠ m := by
          rintro rfl
          exact hkey ⟨rfl, rfl⟩
        simp [hR, hne]
  · rw [targets?_insert] at hr
    split at hr
    · cases hr
    · next hkey =>
        rintro p (rfl | hp)
        · exact hkey ⟨rfl, rfl⟩
        · exact h.of_none hr p hp

theorem Holds.addEdge? (h : t.Holds R) (e : Edge) :
    ∃ u, e.moves.foldlM StoredTable.add? t = some u ∧ u.Holds fun m => m ∈ e.moves ∨ R m := by
  simpa using h.foldlM (M := fun m n => n = m) (fun m h => h.add? m) e.moves

theorem exists_ofEdges? (edges : List Edge) : ∃ t : StoredTable β,
    ofEdges? edges = some t ∧ t.Holds (· ∈ TransitionTable.ofEdges edges) := by
  obtain ⟨t, ht, hholds⟩ := (holds_empty (β := β)).foldlM (fun e h => h.addEdge? e) edges
  refine ⟨t, ht, ?_⟩
  simpa [TransitionTable.mem_ofEdges, Edge.mem_moves] using hholds

theorem holds_of_ofEdges? {edges : List Edge} (h : ofEdges? edges = some t) :
    t.Holds (· ∈ TransitionTable.ofEdges edges) := by
  obtain ⟨u, hu, hholds⟩ := exists_ofEdges? (β := β) edges
  obtain rfl := Option.some.inj (h.symm.trans hu)
  exact hholds

/-! ### Questions -/

structure Answers (t : StoredTable β) (R : Move → Prop) : Prop where
  mem_moves_iff : ∀ m, m ∈ t.moves ↔ R m
  nodup_moves : t.moves.Nodup
  targets?_eq_none_iff : ∀ q a, t.targets? q a = none ↔ ∀ p, ¬ R ⟨q, a, p⟩
  contains_iff : ∀ q a s, t.targets? q a = some s → ∀ p, s.contains p ↔ R ⟨q, a, p⟩
  isEmpty_entry : ∀ q a s, t.targets? q a = some s → s.isEmpty = false
  isEmpty_iff : t.isEmpty ↔ ∀ m, ¬ R m
  hasEpsilon_iff : t.hasEpsilon ↔ ∃ q p, R ⟨q, .epsilon, p⟩
  mem_alphabet_iff : ∀ c, c ∈ t.alphabet ↔ ∃ q p, R ⟨q, .char c, p⟩
  mem_outgoing_iff : ∀ q a s, (a, s) ∈ t.outgoing q ↔ t.targets? q a = some s
  nodup_outgoing : ∀ q, ((t.outgoing q).map Prod.fst).Nodup
  mentions_iff : ∀ q, t.mentions q ↔ ∃ m, R m ∧ (m.source = q ∨ m.target = q)
  mem_sortedMoves_iff : ∀ m, m ∈ t.sortedMoves ↔ R m
  sortedMoves_ascending : t.sortedMoves.Pairwise (· < ·)

theorem Holds.mem_members_iff (h : t.Holds R) (hs : t.targets? q a = some s) {p : StateId} :
    p ∈ s.members ↔ R ⟨q, a, p⟩ := by
  obtain ⟨X, hkeeps, -, hX⟩ := h.of_some hs
  exact hkeeps.mem_members.trans (hX p)

theorem Holds.mem_moves_iff (h : t.Holds R) (m : Move) : m ∈ t.moves ↔ R m := by
  simp only [moves, List.mem_flatMap, List.mem_map]
  constructor
  · rintro ⟨⟨⟨q, a⟩, s⟩, hs, p, hp, rfl⟩
    exact (h.mem_members_iff (mem_toList.1 hs)).1 hp
  · intro hm
    cases hentry : t.targets? m.source m.symbol with
    | none => exact absurd hm (h.of_none hentry m.target)
    | some s =>
        exact ⟨((m.source, m.symbol), s), mem_toList.2 hentry, m.target,
          (h.mem_members_iff hentry).2 hm, rfl⟩

theorem Holds.nodup_moves (h : t.Holds R) : t.moves.Nodup := by
  refine List.nodup_flatMap.2 ⟨fun ⟨⟨q, a⟩, s⟩ hs => ?_, ?_⟩
  · obtain ⟨X, hkeeps, -, -⟩ := h.of_some (mem_toList.1 hs)
    exact hkeeps.nodup_members.map fun p p' hp => congrArg Move.target hp
  · refine Std.HashMap.distinct_keys_toList.imp fun {x y} hxy m hx hy => ?_
    obtain ⟨p, -, rfl⟩ := List.mem_map.1 hx
    obtain ⟨p', -, hp'⟩ := List.mem_map.1 hy
    exact ne_of_beq_false hxy (Prod.ext (congrArg Move.source hp').symm
      (congrArg Move.symbol hp').symm)

theorem Holds.sortedMoves_ascending (h : t.Holds R) : t.sortedMoves.Pairwise (· < ·) := by
  have hsorted : t.sortedMoves.Pairwise fun m n => decide (¬ n < m) :=
    List.pairwise_mergeSort (fun m n k => by grind) (fun m n => by grind) t.moves
  have hnodup : t.sortedMoves.Nodup := (List.mergeSort_perm ..).nodup_iff.2 h.nodup_moves
  exact hsorted.imp₂ (fun m n hle hne => by grind) hnodup

theorem Holds.mentions_iff (h : t.Holds R) (q : StateId) :
    t.mentions q ↔ ∃ m, R m ∧ (m.source = q ∨ m.target = q) := by
  simp [mentions, h.mem_moves_iff]

theorem Holds.answers (h : t.Holds R) : t.Answers R where
  mem_moves_iff := h.mem_moves_iff
  nodup_moves := h.nodup_moves
  targets?_eq_none_iff q a := by
    rw [← Option.not_isSome_iff_eq_none, h.targets?_isSome_iff, not_exists]
  contains_iff q a s hs p := by
    obtain ⟨X, hkeeps, -, hX⟩ := h.of_some hs
    exact hkeeps.contains_iff.trans (hX p)
  isEmpty_entry q a s hs := by
    obtain ⟨X, hkeeps, hne, -⟩ := h.of_some hs
    rw [← Bool.not_eq_true, hkeeps.isEmpty_iff]
    exact hne.ne_empty
  isEmpty_iff := h.isEmpty_iff
  hasEpsilon_iff := h.hasEpsilon_iff
  mem_alphabet_iff := h.mem_alphabet_iff
  mem_outgoing_iff _ _ _ := mem_outgoing_iff
  nodup_outgoing := nodup_outgoing t
  mentions_iff := h.mentions_iff
  mem_sortedMoves_iff m := mem_sortedMoves.trans (h.mem_moves_iff m)
  sortedMoves_ascending := h.sortedMoves_ascending

/-! ### Comparing tables -/

/-- No entry is empty, so none is missing in one of two tables of the same moves. -/
theorem Holds.beq_iff (ht : t.Holds R) (hu : u.Holds S) : t == u ↔ ∀ m, R m ↔ S m := by
  constructor
  · intro h
    obtain ⟨-, hentries⟩ := StoredTable.beq_iff.1 h
    rintro ⟨q, a, p⟩
    cases hentry : t.targets? q a with
    | some s =>
        obtain ⟨r, hr, hsr⟩ := hentries q a s hentry
        rw [← ht.mem_members_iff hentry, ← hu.mem_members_iff hr, StateBits.beq_iff.1 hsr]
    | none =>
        refine iff_of_false (ht.of_none hentry p) fun hp => ?_
        have hkey : (q, a) ∈ t.entries := by
          rw [← Std.HashMap.mem_keys, (keys_perm_of_beq h).mem_iff, Std.HashMap.mem_keys]
          exact hu.mem_entries_iff.2 ⟨p, hp⟩
        rw [mem_entries, hentry] at hkey
        cases hkey
  · intro h
    refine StoredTable.beq_iff.2 ⟨?_, fun q a s hs => ?_⟩
    · simpa using (ht.keys_perm hu h).length_eq
    · obtain ⟨X, hkeeps, ⟨p, hp⟩, hX⟩ := ht.of_some hs
      have hsome := hu.targets?_isSome_iff.2 ⟨p, (h _).1 ((hX p).1 hp)⟩
      obtain ⟨r, hr⟩ := Option.isSome_iff_exists.1 hsome
      obtain ⟨Y, hkeeps', -, hY⟩ := hu.of_some hr
      refine ⟨r, hr, StateBits.beq_iff.2 ((hkeeps.members_eq_members_iff hkeeps').2 ?_)⟩
      exact Finset.ext fun p => by rw [hX, hY, h]

theorem Holds.sortedMoves_eq_iff (ht : t.Holds R) (hu : u.Holds S) :
    t.sortedMoves = u.sortedMoves ↔ ∀ m, R m ↔ S m := by
  constructor
  · intro h m
    rw [← ht.mem_moves_iff, ← hu.mem_moves_iff, ← mem_sortedMoves, ← mem_sortedMoves, h]
  · intro h
    refine OrderedSet.eq_of_forall_mem_iff ht.sortedMoves_ascending hu.sortedMoves_ascending ?_
    intro m
    rw [mem_sortedMoves, mem_sortedMoves, ht.mem_moves_iff, hu.mem_moves_iff, h]

/-! ### The transition table beside it -/

/-- A table answers as a transition table does. Only the order of the entries of a state is its
own. -/
structure Mirrors (t : StoredTable β) (T : TransitionTable) : Prop where
  sortedMoves_eq : t.sortedMoves = T.moves.toList
  targets?_eq : ∀ q a, (t.targets? q a).map StateBits.members =
    (T.targets? q a).map OrderedSet.toList
  isEmpty_eq : t.isEmpty = T.isEmpty
  hasEpsilon_eq : t.hasEpsilon = T.hasEpsilon
  alphabet_eq : t.alphabet = T.alphabet
  outgoing_perm : ∀ q, ((t.outgoing q).map fun (a, s) => (a, s.members)).Perm
    ((T.outgoing q).map fun (a, x) => (a, x.toList))
  mentions_eq : ∀ q, t.mentions q = T.mentions q

variable {T : TransitionTable}

theorem Holds.map_targets? (h : t.Holds (· ∈ T)) (q : StateId) (a : Symbol) :
    (t.targets? q a).map StateBits.members = (T.targets? q a).map OrderedSet.toList := by
  cases hentry : t.targets? q a with
  | none => simp [TransitionTable.targets?_eq_none_iff.2 (h.of_none hentry)]
  | some s =>
      obtain ⟨X, hkeeps, ⟨p, hp⟩, hX⟩ := h.of_some hentry
      have hsome : T.targets? q a = some (T.targets q a) :=
        TransitionTable.targets?_eq_some_iff.2 ⟨⟨p, (hX p).1 hp⟩, rfl⟩
      rw [hsome]
      refine congrArg some ((hkeeps.members_eq_iff (T.targets q a).ascending).2 fun p => ?_)
      rw [hX, OrderedSet.mem_toList, TransitionTable.mem_targets]

theorem Holds.outgoing_perm (h : t.Holds (· ∈ T)) (q : StateId) :
    ((t.outgoing q).map fun (a, s) => (a, s.members)).Perm
      ((T.outgoing q).map fun (a, x) => (a, x.toList)) := by
  have hstored : ((t.outgoing q).map fun (a, s) => (a, s.members)).Nodup := by
    refine List.Nodup.of_map Prod.fst ?_
    simpa [Function.comp_def] using t.nodup_outgoing q
  have hlisted : ((T.outgoing q).map fun (a, x) => (a, x.toList)).Nodup := by
    refine List.Nodup.of_map Prod.fst ?_
    simpa [Function.comp_def] using T.nodup_outgoing q
  refine (List.perm_ext_iff_of_nodup hstored hlisted).2 fun ⟨a, l⟩ => ?_
  have hentry := h.map_targets? q a
  have hiff : (∃ s, t.targets? q a = some s ∧ s.members = l) ↔
      ∃ x, T.targets? q a = some x ∧ x.toList = l := by
    rw [← Option.map_eq_some_iff, ← Option.map_eq_some_iff, hentry]
  simpa [mem_outgoing_iff, TransitionTable.mem_outgoing] using hiff

theorem Holds.mirrors (h : t.Holds (· ∈ T)) : t.Mirrors T where
  sortedMoves_eq := OrderedSet.eq_of_forall_mem_iff h.sortedMoves_ascending T.moves.ascending
    fun m => mem_sortedMoves.trans (h.mem_moves_iff m)
  targets?_eq := h.map_targets?
  isEmpty_eq := Bool.eq_iff_iff.2 (h.isEmpty_iff.trans TransitionTable.isEmpty_iff.symm)
  hasEpsilon_eq := Bool.eq_iff_iff.2 (h.hasEpsilon_iff.trans TransitionTable.hasEpsilon_iff.symm)
  alphabet_eq := OrderedSet.ext_mem fun c =>
    (h.mem_alphabet_iff c).trans TransitionTable.mem_alphabet.symm
  outgoing_perm := h.outgoing_perm
  mentions_eq q := Bool.eq_iff_iff.2 ((h.mentions_iff q).trans TransitionTable.mentions_iff.symm)

/-- Whatever the edges, a stored table can be made of them. It answers by the moves that they make,
and as the transition table of the edges does. Two such tables are equal when their moves are the
same, and this is when their sorted moves are. -/
theorem stored_tables_show_their_moves (β : Type) [BitRow β] [LawfulBitRow β] :
    (∀ edges, ∃ t : StoredTable β, ofEdges? edges = some t ∧
      t.Answers (fun m => ∃ e ∈ edges,
        e.source = m.source ∧ m.symbol ∈ e.label ∧ e.target = m.target) ∧
      t.Mirrors (.ofEdges edges)) ∧
    ∀ (edges edges' : List Edge) (t t' : StoredTable β),
      ofEdges? edges = some t → ofEdges? edges' = some t' →
        (t == t' ↔ ∀ m, m ∈ t.moves ↔ m ∈ t'.moves) ∧
        (t == t' ↔ t.sortedMoves = t'.sortedMoves) ∧
        (t == t' ↔ TransitionTable.ofEdges edges = .ofEdges edges') := by
  constructor
  · intro edges
    obtain ⟨t, ht, hholds⟩ := exists_ofEdges? (β := β) edges
    refine ⟨t, ht, ?_, hholds.mirrors⟩
    simpa only [TransitionTable.mem_ofEdges] using hholds.answers
  · intro edges edges' t t' ht ht'
    have hholds := holds_of_ofEdges? ht
    have hholds' := holds_of_ofEdges? ht'
    have hbeq := hholds.beq_iff hholds'
    refine ⟨?_, ?_, ?_⟩
    · simpa only [hholds.mem_moves_iff, hholds'.mem_moves_iff] using hbeq
    · rw [hbeq, hholds.sortedMoves_eq_iff hholds']
    · rw [hbeq]
      exact ⟨TransitionTable.ext_mem, fun h m => by rw [h]⟩

/-- The edges of the second table come in another order, one label is spread over two of them, one
edge comes twice and one has no label. -/
theorem edges_in_pieces_make_one_table :
    let edges : List Edge := [⟨.ofNat 0, .ofNat 70, .ofList [.char 'a', .epsilon]⟩,
      ⟨.ofNat 0, .ofNat 1, .ofList [.char 'a']⟩]
    let edges' : List Edge := [⟨.ofNat 0, .ofNat 1, .ofList [.char 'a']⟩, ⟨.ofNat 1, .ofNat 0, ∅⟩,
      ⟨.ofNat 0, .ofNat 70, .ofList [.epsilon]⟩, ⟨.ofNat 0, .ofNat 70, .ofList [.char 'a']⟩,
      ⟨.ofNat 0, .ofNat 1, .ofList [.char 'a']⟩]
    ∃ t t' : StoredTable Bits, ofEdges? edges = some t ∧ ofEdges? edges' = some t' ∧
      (t == t') ∧ t.sortedMoves = t'.sortedMoves ∧
      t.sortedMoves = [⟨.ofNat 0, .epsilon, .ofNat 70⟩, ⟨.ofNat 0, .char 'a', .ofNat 1⟩,
        ⟨.ofNat 0, .char 'a', .ofNat 70⟩] ∧
      t'.targets? (.ofNat 1) .epsilon = none := by
  intro edges edges'
  obtain ⟨hmake, hcompare⟩ := stored_tables_show_their_moves Bits
  obtain ⟨t, ht, -, hmirrors⟩ := hmake edges
  obtain ⟨t', ht', -, hmirrors'⟩ := hmake edges'
  obtain ⟨-, hsorted, htable⟩ := hcompare edges edges' t t' ht ht'
  have hbeq : t == t' := htable.2 (by decide)
  refine ⟨t, t', ht, ht', hbeq, hsorted.1 hbeq, ?_, ?_⟩
  · rw [hmirrors.sortedMoves_eq]
    decide
  · rw [← Option.map_eq_none_iff, hmirrors'.targets?_eq]
    decide

end FiniteAutomata.StoredTable
