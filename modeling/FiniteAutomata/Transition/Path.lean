import FiniteAutomata.Transition.Closure

/-!
# Paths

A path is a list of moves, each starting where the one before it ends. It spells the word of the
characters that its moves read; empty moves add nothing.
-/

namespace FiniteAutomata

def spelled (ms : List Move) : List Char := ms.filterMap (·.symbol.char?)

@[simp] theorem spelled_nil : spelled [] = [] := rfl

@[simp] theorem spelled_append (ms ns : List Move) :
    spelled (ms ++ ns) = spelled ms ++ spelled ns := List.filterMap_append

theorem spelled_cons_of_epsilon {m : Move} (h : m.symbol = .epsilon) (ms : List Move) :
    spelled (m :: ms) = spelled ms := by simp [spelled, h, Symbol.char?]

theorem spelled_cons_of_char {m : Move} {c : Char} (h : m.symbol = .char c) (ms : List Move) :
    spelled (m :: ms) = c :: spelled ms := by simp [spelled, h, Symbol.char?]

theorem spelled_eq_nil_iff {ms : List Move} :
    spelled ms = [] ↔ ∀ m ∈ ms, m.symbol.isEpsilon := by
  have h (a : Symbol) : a.char? = none ↔ a.isEpsilon := by cases a <;> simp [Symbol.char?]
  simp only [spelled, List.filterMap_eq_nil_iff, h]

theorem length_spelled_le (ms : List Move) : (spelled ms).length ≤ ms.length :=
  List.length_filterMap_le _ ms

/-- Moves that read a last character: those before it, the one that reads it, empty ones. -/
theorem spelled_eq_concat_iff {ms : List Move} {w : List Char} {c : Char} :
    spelled ms = w ++ [c] ↔ ∃ ks m ns,
      ms = ks ++ m :: ns ∧ spelled ks = w ∧ m.symbol = .char c ∧ spelled ns = [] := by
  constructor
  · intro h
    obtain ⟨ks, ls, rfl, hks, hls⟩ := List.filterMap_eq_append_iff.1 h
    obtain ⟨es, m, ns, rfl, hes, hm, hns⟩ := List.filterMap_eq_cons_iff.1 hls
    refine ⟨ks ++ es, m, ns, by rw [List.append_assoc], ?_, Symbol.char?_eq_some_iff.1 hm, hns⟩
    have hes' : spelled es = [] := List.filterMap_eq_nil_iff.2 hes
    rw [spelled_append, hes', List.append_nil]
    exact hks
  · rintro ⟨ks, m, ns, rfl, hks, hm, hns⟩
    rw [spelled_append, spelled_cons_of_char hm, hks, hns]

/-- Spelling a word is reading it once the empty symbols are deleted; the letter `ε` is no such
symbol. -/
theorem spelled_eq_iff {ms : List Move} {w : List Char} :
    spelled ms = w ↔ (ms.map Move.symbol).filter (· ≠ .epsilon) = w.map .char := by
  induction ms generalizing w with
  | nil => cases w <;> simp
  | cons m ms ih =>
      cases hm : m.symbol with
      | epsilon => simpa [spelled_cons_of_epsilon hm, hm] using ih
      | char c =>
          rw [spelled_cons_of_char hm]
          cases w with
          | nil => simp [hm]
          | cons d w =>
              simp only [List.cons.injEq, ih]
              simp [hm]

namespace TransitionTable

def IsPath (t : TransitionTable) : StateId → List Move → StateId → Prop
  | p, [], q => p = q
  | p, m :: ms, q => m ∈ t ∧ m.source = p ∧ t.IsPath m.target ms q

theorem isPath_nil {t : TransitionTable} {p q : StateId} : t.IsPath p [] q ↔ p = q := Iff.rfl

theorem isPath_cons {t : TransitionTable} {p q : StateId} {m : Move} {ms : List Move} :
    t.IsPath p (m :: ms) q ↔ m ∈ t ∧ m.source = p ∧ t.IsPath m.target ms q := Iff.rfl

theorem isPath_append {t : TransitionTable} {p q : StateId} {ms ns : List Move} :
    t.IsPath p (ms ++ ns) q ↔ ∃ r, t.IsPath p ms r ∧ t.IsPath r ns q := by
  induction ms generalizing p with
  | nil => simp [isPath_nil]
  | cons m ms ih =>
    simp only [List.cons_append, isPath_cons, ih]
    constructor
    · rintro ⟨hm, hp, r, hr, hq⟩
      exact ⟨r, ⟨hm, hp, hr⟩, hq⟩
    · rintro ⟨r, ⟨hm, hp, hr⟩, hq⟩
      exact ⟨hm, hp, r, hr, hq⟩

theorem isPath_singleton {t : TransitionTable} {p q : StateId} {m : Move} :
    t.IsPath p [m] q ↔ m ∈ t ∧ m.source = p ∧ m.target = q := by
  simp [isPath_cons, isPath_nil]

theorem IsPath.mem {t : TransitionTable} {p q : StateId} {ms : List Move} (h : t.IsPath p ms q) :
    ∀ m ∈ ms, m ∈ t := by
  induction ms generalizing p with
  | nil => exact nofun
  | cons m ms ih =>
    obtain ⟨hm, -, hrest⟩ := isPath_cons.1 h
    exact List.forall_mem_cons.2 ⟨hm, ih hrest⟩

/-- The states on a path from `p`: the one it starts from and those its moves lead to. -/
def statesAlong (p : StateId) (ms : List Move) : List StateId := p :: ms.map Move.target

theorem statesAlong_cons (p : StateId) (m : Move) (ms : List Move) :
    statesAlong p (m :: ms) = p :: statesAlong m.target ms := rfl

theorem end_mem_statesAlong {t : TransitionTable} {p q : StateId} {ms : List Move}
    (h : t.IsPath p ms q) : q ∈ statesAlong p ms := by
  induction ms generalizing p with
  | nil => exact List.mem_singleton.2 (isPath_nil.1 h).symm
  | cons m ms ih => exact List.mem_cons_of_mem p (ih (isPath_cons.1 h).2.2)

/-- A path in a part of a table is a path in the table that keeps to this part. -/
theorem isPath_iff_of_mem_iff {t u : TransitionTable} {P : Move → Prop}
    (h : ∀ m, m ∈ u ↔ m ∈ t ∧ P m) {p q : StateId} {ms : List Move} :
    u.IsPath p ms q ↔ t.IsPath p ms q ∧ ∀ m ∈ ms, P m := by
  induction ms generalizing p with
  | nil => simp [isPath_nil]
  | cons m ms ih =>
    simp only [isPath_cons, ih, h, List.forall_mem_cons]
    refine ⟨fun hu => ?_, fun ht => ?_⟩
    · obtain ⟨⟨hm, hP⟩, hsource, hrest, hall⟩ := hu
      exact ⟨⟨hm, hsource, hrest⟩, hP, hall⟩
    · obtain ⟨⟨hm, hsource, hrest⟩, hP, hall⟩ := ht
      exact ⟨⟨hm, hP⟩, hsource, hrest, hall⟩

/-- A state is reached exactly when a path along allowed symbols leads to it. -/
theorem reaches_iff_exists_isPath {t : TransitionTable} {allowed : Symbol → Bool} {p q : StateId} :
    t.Reaches allowed p q ↔ ∃ ms, t.IsPath p ms q ∧ ∀ m ∈ ms, allowed m.symbol := by
  constructor
  · intro h
    induction h with
    | refl => exact ⟨[], rfl, by simp⟩
    | @move m _ hm ha ih =>
      obtain ⟨ms, hp, hms⟩ := ih
      refine ⟨ms ++ [m], isPath_append.2 ⟨_, hp, isPath_singleton.2 ⟨hm, rfl, rfl⟩⟩, ?_⟩
      simpa [or_imp, forall_and] using ⟨hms, ha⟩
  · rintro ⟨ms, hp, hms⟩
    suffices H : ∀ r, t.Reaches allowed p r → t.IsPath r ms q → t.Reaches allowed p q from
      H p .refl hp
    clear hp
    induction ms with
    | nil =>
      intro r hr hq
      exact isPath_nil.1 hq ▸ hr
    | cons m ms ih =>
      rintro _ hr ⟨hm, rfl, hq⟩
      exact ih (fun n hn => hms n (by simp [hn])) m.target (.move hr hm (hms m (by simp))) hq

/-- The closure holds the ends of the paths that read nothing. -/
theorem mem_epsilonClosure {t : TransitionTable} {x : StateSet} {q : StateId} :
    q ∈ t.epsilonClosure x ↔ ∃ p ∈ x, ∃ ms, t.IsPath p ms q ∧ spelled ms = [] := by
  simp only [mem_epsilonClosure_iff_reaches, reaches_iff_exists_isPath, spelled_eq_nil_iff]

end TransitionTable

end FiniteAutomata
