import FiniteAutomata.Transition.Table

/-!
# Empty moves

To close some states under empty moves, these are followed from each state that is found. The
states whose moves are still to be followed wait on a stack. A state is put there when it is found,
so once only, and when the stack runs out the states found are those that `Reaches` relates to one
of the first, whatever cycles there are.
-/

namespace FiniteAutomata

theorem countP_lt_countP {α : Type} {p q : α → Bool} {l : List α} (hpq : ∀ a ∈ l, p a → q a)
    {a : α} (ha : a ∈ l) (hp : ¬ p a) (hq : q a) : l.countP p < l.countP q := by
  induction l with
  | nil => simp at ha
  | cons b l ih =>
    have hle : l.countP p ≤ l.countP q := List.countP_mono_left fun c hc => hpq c (by simp [hc])
    have hb := hpq b (by simp)
    grind

/-- A closure under way: the states found so far, and those that wait, the next one first. -/
structure Closing where
  found : StateSet
  stack : List StateId
  deriving DecidableEq

namespace Closing

/-- The last of the states is the first to be taken. -/
def start (x : StateSet) : Closing := ⟨x, x.toList.reverse⟩

def add (s : Closing) (q : StateId) : Closing :=
  if q ∈ s.found then s else ⟨s.found.insert q, q :: s.stack⟩

def addAll (s : Closing) (qs : List StateId) : Closing := qs.foldl add s

variable {s : Closing} {p q : StateId} {qs : List StateId}

theorem addAll_cons (s : Closing) (q : StateId) (qs : List StateId) :
    s.addAll (q :: qs) = (s.add q).addAll qs := rfl

theorem mem_found_addAll : p ∈ (s.addAll qs).found ↔ p ∈ s.found ∨ p ∈ qs := by
  induction qs generalizing s with
  | nil => simp [addAll]
  | cons q qs ih =>
    rw [addAll_cons, ih, add]
    split
    · grind
    · simp only [OrderedSet.mem_insert, List.mem_cons]
      grind

theorem mem_stack_addAll :
    p ∈ (s.addAll qs).stack ↔ p ∈ s.stack ∨ p ∈ qs ∧ p ∉ s.found := by
  induction qs generalizing s with
  | nil => simp [addAll]
  | cons q qs ih =>
    rw [addAll_cons, ih, add]
    split
    · grind
    · simp only [OrderedSet.mem_insert, List.mem_cons]
      grind

/-- The states on the stack grow by as many as those found. -/
theorem size_found_addAll (s : Closing) (qs : List StateId) :
    s.stack.length ≤ (s.addAll qs).stack.length ∧
      (s.addAll qs).found.size + s.stack.length = s.found.size + (s.addAll qs).stack.length := by
  induction qs generalizing s with
  | nil => exact ⟨Nat.le_refl _, rfl⟩
  | cons q qs ih =>
    rw [addAll_cons]
    by_cases hq : q ∈ s.found
    · rw [add, if_pos hq]
      exact ih s
    · have hsize := OrderedSet.size_insert_of_not_mem hq
      have hrest := ih (s.add q)
      simp only [add, if_neg hq, List.length_cons] at hrest ⊢
      omega

/-- What the stack can still come to: the states on it, and the moves to states not found yet. -/
def weight (t : TransitionTable) (s : Closing) : Nat :=
  s.stack.length + t.moves.toList.countP fun m => m.target ∉ s.found

theorem weight_start_le (t : TransitionTable) (x : StateSet) :
    (start x).weight t ≤ x.size + t.size := by
  have hcount : (t.moves.toList.countP fun m => m.target ∉ x) ≤ t.size := List.countP_le_length
  simp only [weight, start, List.length_reverse]
  exact Nat.add_le_add_left hcount _

theorem weight_add_le {t : TransitionTable} {m : Move} (hm : m ∈ t) :
    (s.add m.target).weight t ≤ s.weight t := by
  by_cases hq : m.target ∈ s.found
  · have hsame : s.add m.target = s := if_pos hq
    exact Nat.le_of_eq (congrArg (weight t) hsame)
  · have hlt : (t.moves.toList.countP fun n => n.target ∉ s.found.insert m.target) <
        t.moves.toList.countP fun n => n.target ∉ s.found :=
      countP_lt_countP (by simp_all) hm (by simp) (by simpa using hq)
    simp only [weight, add, if_neg hq, List.length_cons]
    omega

theorem weight_addAll_le {t : TransitionTable} (h : ∀ q ∈ qs, ∃ m ∈ t, m.target = q) :
    (s.addAll qs).weight t ≤ s.weight t := by
  induction qs generalizing s with
  | nil => exact Nat.le_refl _
  | cons q qs ih =>
    obtain ⟨⟨m, hm, rfl⟩, hqs⟩ := List.forall_mem_cons.1 h
    exact Nat.le_trans (ih hqs) (weight_add_le hm)

end Closing

namespace TransitionTable

variable {t : TransitionTable} {s s' : Closing} {x : StateSet} {p q : StateId}

/-- One turn: the top of the stack, if there is one, makes way for the new states among those that
empty moves lead to from it. -/
def turn? (t : TransitionTable) (s : Closing) : Option Closing :=
  match s.stack with
  | [] => none
  | q :: rest =>
    match t.targets? q .epsilon with
    | none => some ⟨s.found, rest⟩
    | some y => some (Closing.addAll ⟨s.found, rest⟩ y.toList)

/-- Where there is no entry, there is no state to add. -/
theorem turn?_cons (t : TransitionTable) (x : StateSet) (q : StateId) (rest : List StateId) :
    t.turn? ⟨x, q :: rest⟩ = some (Closing.addAll ⟨x, rest⟩ (t.targets q .epsilon).toList) := by
  simp only [turn?]
  split
  · next hnone =>
    have hempty : (t.targets q .epsilon).toList = [] := by
      rw [List.eq_nil_iff_forall_not_mem]
      intro p hp
      exact targets?_eq_none_iff.1 hnone p (mem_targets.1 hp)
    rw [hempty]
    rfl
  · next hsome => rw [(targets?_eq_some_iff.1 hsome).2]

/-- All that a turn can do. -/
theorem exists_of_turn? (h : t.turn? s = some s') :
    ∃ q rest, s = ⟨s.found, q :: rest⟩ ∧
      s' = Closing.addAll ⟨s.found, rest⟩ (t.targets q .epsilon).toList := by
  obtain ⟨x, stack⟩ := s
  cases stack with
  | nil => cases h
  | cons q rest => exact ⟨q, rest, rfl, Option.some.inj (h.symm.trans (t.turn?_cons x q rest))⟩

theorem stack_eq_nil_of_turn? (h : t.turn? s = none) : s.stack = [] := by
  obtain ⟨x, stack⟩ := s
  cases stack with
  | nil => rfl
  | cons q rest =>
    rw [turn?_cons] at h
    cases h

theorem weight_lt_of_turn? (h : t.turn? s = some s') : s'.weight t < s.weight t := by
  obtain ⟨q, rest, hs, rfl⟩ := exists_of_turn? h
  have hle : (Closing.addAll ⟨s.found, rest⟩ (t.targets q .epsilon).toList).weight t ≤
      Closing.weight t ⟨s.found, rest⟩ :=
    Closing.weight_addAll_le fun p hp => ⟨_, mem_targets.1 hp, rfl⟩
  refine Nat.lt_of_le_of_lt hle ?_
  rw [hs]
  exact Nat.add_lt_add_right (Nat.lt_succ_self _) _

def close (t : TransitionTable) (s : Closing) : StateSet :=
  match _h : t.turn? s with
  | none => s.found
  | some s' => t.close s'
termination_by s.weight t
decreasing_by exact weight_lt_of_turn? _h

def epsilonClosure (t : TransitionTable) (x : StateSet) : StateSet := t.close (.start x)

theorem close_of_turn?_eq_none (h : t.turn? s = none) : t.close s = s.found := by
  rw [close]
  split <;> simp_all

theorem close_of_turn?_eq_some (h : t.turn? s = some s') : t.close s = t.close s' := by
  rw [close]
  split <;> simp_all

/-! ### What is found -/

/-- A walk from `p` along moves whose symbols are allowed. -/
inductive Reaches (t : TransitionTable) (allowed : Symbol → Bool) (p : StateId) : StateId → Prop
  | refl : Reaches t allowed p p
  | move {m : Move} : Reaches t allowed p m.source → m ∈ t → allowed m.symbol →
      Reaches t allowed p m.target

/-- What is true of the closure of `x` at every turn. -/
structure Closes (t : TransitionTable) (x : StateSet) (s : Closing) : Prop where
  mem_found : ∀ q ∈ x, q ∈ s.found
  reaches : ∀ q ∈ s.found, ∃ p ∈ x, t.Reaches Symbol.isEpsilon p q
  mem_found_of_mem_stack : ∀ q ∈ s.stack, q ∈ s.found
  target_mem : ∀ p ∈ s.found, p ∉ s.stack → ∀ q, ⟨p, .epsilon, q⟩ ∈ t → q ∈ s.found

theorem closes_start (t : TransitionTable) (x : StateSet) : t.Closes x (.start x) where
  mem_found _ hq := hq
  reaches q hq := ⟨q, hq, .refl⟩
  mem_found_of_mem_stack _ hq := List.mem_reverse.1 hq
  target_mem _ hp hwaits := absurd (List.mem_reverse.2 hp) hwaits

theorem Closes.turn (h : t.Closes x s) (hturn : t.turn? s = some s') : t.Closes x s' := by
  obtain ⟨q, rest, hs, rfl⟩ := exists_of_turn? hturn
  have hstack : s.stack = q :: rest := congrArg Closing.stack hs
  have hq : q ∈ s.found := h.mem_found_of_mem_stack q (hstack ▸ List.mem_cons_self)
  exact {
    mem_found := fun p hp => Closing.mem_found_addAll.2 (.inl (h.mem_found p hp))
    reaches := by
      intro p hp
      rcases Closing.mem_found_addAll.1 hp with hp | hp
      · exact h.reaches p hp
      · obtain ⟨r, hr, hreaches⟩ := h.reaches q hq
        exact ⟨r, hr, Reaches.move (m := ⟨q, .epsilon, p⟩) hreaches (mem_targets.1 hp) rfl⟩
    mem_found_of_mem_stack := by
      intro p hp
      refine Closing.mem_found_addAll.2 ?_
      rcases Closing.mem_stack_addAll.1 hp with hp | ⟨hp, -⟩
      · exact .inl (h.mem_found_of_mem_stack p (hstack ▸ List.mem_cons_of_mem q hp))
      · exact .inr hp
    target_mem := by
      -- A state that waits no more is the one just taken, or waited no more before.
      intro p hp hwaits r hr
      rw [Closing.mem_stack_addAll, not_or, not_and, Decidable.not_not] at hwaits
      have hp : p ∈ s.found := (Closing.mem_found_addAll.1 hp).elim id hwaits.2
      refine Closing.mem_found_addAll.2 ?_
      by_cases hpq : p = q
      · subst hpq
        exact .inr (mem_targets.2 hr)
      · refine .inl (h.target_mem p hp ?_ r hr)
        rw [hstack, List.mem_cons, not_or]
        exact ⟨hpq, hwaits.1⟩ }

theorem Closes.mem_found_iff (h : t.Closes x s) (hstack : s.stack = []) :
    q ∈ s.found ↔ ∃ p ∈ x, t.Reaches Symbol.isEpsilon p q := by
  refine ⟨h.reaches q, fun hq => ?_⟩
  obtain ⟨p, hp, hreaches⟩ := hq
  induction hreaches with
  | refl => exact h.mem_found p hp
  | @move m _ hm ha ih =>
    obtain ⟨source, symbol, target⟩ := m
    obtain rfl := Symbol.isEpsilon_iff.1 ha
    exact h.target_mem source ih (hstack ▸ List.not_mem_nil) target hm

theorem Closes.mem_close (h : t.Closes x s) :
    q ∈ t.close s ↔ ∃ p ∈ x, t.Reaches Symbol.isEpsilon p q := by
  fun_induction close t s with
  | case1 s hturn => exact h.mem_found_iff (stack_eq_nil_of_turn? hturn)
  | case2 s s' hturn ih => exact ih (h.turn hturn)

theorem mem_epsilonClosure_iff_reaches :
    q ∈ t.epsilonClosure x ↔ ∃ p ∈ x, t.Reaches Symbol.isEpsilon p q := (t.closes_start x).mem_close

theorem mem_epsilonClosure_of_mem (hq : q ∈ x) : q ∈ t.epsilonClosure x :=
  mem_epsilonClosure_iff_reaches.2 ⟨q, hq, .refl⟩

/-! ### How many turns there are -/

/-- The states found in `n` turns, if the stack has run out by then. -/
def closeWithin (t : TransitionTable) : Nat → Closing → Option StateSet
  | n, s =>
    match t.turn? s, n with
    | none, _ => some s.found
    | some _, 0 => none
    | some s', n + 1 => t.closeWithin n s'

/-- A turn takes one state from the stack and puts as many there as it finds. -/
theorem size_found_of_turn? (h : t.turn? s = some s') :
    s.found.size ≤ s'.found.size ∧
      s'.found.size + s.stack.length = s.found.size + s'.stack.length + 1 := by
  obtain ⟨q, rest, hs, rfl⟩ := exists_of_turn? h
  have hstack : s.stack.length = rest.length + 1 := congrArg (·.stack.length) hs
  obtain ⟨hle, hsize⟩ := Closing.size_found_addAll ⟨s.found, rest⟩ (t.targets q .epsilon).toList
  simp only at hle hsize
  omega

theorem size_found_le_size_close (t : TransitionTable) (s : Closing) :
    s.found.size ≤ (t.close s).size := by
  fun_induction close t s with
  | case1 s hturn => exact Nat.le_refl _
  | case2 s s' hturn ih => exact Nat.le_trans (size_found_of_turn? hturn).1 ih

/-- The turns that are left are the states on the stack and those still to be found. -/
theorem closeWithin_eq (t : TransitionTable) (n : Nat) (s : Closing) : t.closeWithin n s =
    if (t.close s).size + s.stack.length ≤ s.found.size + n then some (t.close s) else none := by
  fun_induction closeWithin t n s with
  | case1 n s hturn =>
    rw [close_of_turn?_eq_none hturn, stack_eq_nil_of_turn? hturn]
    exact (if_pos (Nat.le_add_right _ n)).symm
  | case2 s s' hturn =>
    have hsize := size_found_of_turn? hturn
    have hle := t.size_found_le_size_close s'
    rw [close_of_turn?_eq_some hturn, if_neg (by omega)]
  | case3 s s' n hturn ih =>
    have hsize := size_found_of_turn? hturn
    rw [ih, close_of_turn?_eq_some hturn]
    exact ite_congr (propext (by omega)) (fun _ => rfl) fun _ => rfl

/-- Each state of the closure is taken from the stack once. -/
theorem closeWithin_start (t : TransitionTable) (n : Nat) (x : StateSet) :
    t.closeWithin n (.start x) =
      if (t.epsilonClosure x).size ≤ n then some (t.epsilonClosure x) else none := by
  have hlength : (Closing.start x).stack.length = x.size := List.length_reverse
  have hturns : (t.epsilonClosure x).size + x.size ≤ x.size + n ↔
      (t.epsilonClosure x).size ≤ n := by omega
  rw [closeWithin_eq, hlength]
  exact ite_congr (propext hturns) (fun _ => rfl) fun _ => rfl

theorem size_close_add_length_stack_le (t : TransitionTable) (s : Closing) :
    (t.close s).size + s.stack.length ≤ s.found.size + s.weight t := by
  fun_induction close t s with
  | case1 s hturn =>
    rw [stack_eq_nil_of_turn? hturn]
    exact Nat.le_add_right _ _
  | case2 s s' hturn ih =>
    have hsize := size_found_of_turn? hturn
    have hlt := weight_lt_of_turn? hturn
    omega

theorem size_epsilonClosure_le (t : TransitionTable) (x : StateSet) :
    (t.epsilonClosure x).size ≤ x.size + t.size := by
  have hlength : (Closing.start x).stack.length = x.size := List.length_reverse
  have hclose := t.size_close_add_length_stack_le (.start x)
  have hstart := Closing.weight_start_le t x
  change (t.epsilonClosure x).size + _ ≤ x.size + _ at hclose
  omega

end TransitionTable

end FiniteAutomata
