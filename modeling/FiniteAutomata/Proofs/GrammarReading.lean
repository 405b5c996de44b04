import FiniteAutomata.Proofs.GrammarStates
import FiniteAutomata.Proofs.NotationLines

/-!
# Reading a whole text

The rules of the lines that are not blank are gathered one by one, each keeping what the notation
says of the grammar so far. A text that is refused is refused for its first line with a fault.
-/

namespace FiniteAutomata

open Notation Text

theorem exists_forall₂_iff {α β : Type} {R : α → β → Prop} {l : List α} :
    (∃ ys, List.Forall₂ R l ys) ↔ ∀ x ∈ l, ∃ y, R x y := by
  induction l with
  | nil => simp
  | cons x l ih =>
      simp only [List.forall₂_cons_left_iff, List.forall_mem_cons, ← ih]
      constructor
      · intro h
        obtain ⟨_, y, ys, hy, hys, rfl⟩ := h
        exact ⟨⟨y, hy⟩, ys, hys⟩
      · intro h
        obtain ⟨⟨y, hy⟩, ys, hys⟩ := h
        exact ⟨y :: ys, y, ys, hy, hys, rfl⟩

theorem Rule.injective_sides : Function.Injective fun r : Rule => (r.left, r.right) := by
  intro r s hsides
  obtain ⟨left, right, _⟩ := r
  obtain ⟨left', right', _⟩ := s
  obtain ⟨rfl, rfl⟩ := Prod.mk.inj hsides
  rfl

namespace Grammar

theorem eq_of_rules_eq {g h : Grammar} (hrules : g.rules = h.rules) : g = h := by
  obtain ⟨rules, _, _⟩ := g
  obtain ⟨rules', _, _⟩ := h
  obtain rfl : rules = rules' := hrules
  rfl

theorem start_add (g : Grammar) (r : Rule) : (g.add r).start = g.start := by
  obtain ⟨rules, hne, hnodup⟩ := g
  cases rules with
  | nil => exact absurd rfl hne
  | cons s rest => by_cases hs : s.left = r.left <;> simp [start, add, addRule, Rule.extend, hs]

theorem alternatives_add (g : Grammar) (r : Rule) (V : Variable) :
    (g.add r).alternatives V = g.alternatives V ++ if r.left = V then r.right else [] := by
  obtain ⟨rules, hne, hnodup⟩ := g
  simp only [add, alternatives]
  clear hne hnodup
  induction rules with
  | nil => by_cases hV : r.left = V <;> simp [addRule, hV]
  | cons s rest ih =>
      by_cases hs : s.left = r.left
      · by_cases hV : r.left = V <;> simp [addRule, Rule.extend, hs, hV]
      · by_cases hV : s.left = V
        · subst hV
          simp [addRule, hs, Ne.symm hs]
        · simpa [addRule, hs, hV] using ih

theorem map_eq_map_alternatives (g : Grammar) :
    g.rules.map (fun r => (r.left, r.right)) =
      (g.rules.map Rule.left).map fun V => (V, g.alternatives V) := by
  rw [List.map_map]
  refine List.map_congr_left fun r hr => ?_
  have hfind : g.rules.find? (·.left = r.left) = some r := find?_rules_eq_some_iff.2 ⟨hr, rfl⟩
  simp [alternatives, hfind]

end Grammar

namespace Notation.Gathers

variable {rs : List Rule} {g h : Grammar}

theorem single (r : Rule) : Gathers [r] (.single r) where
  start_eq := rfl
  map_left_eq := rfl
  alternatives_eq V := by
    by_cases hV : r.left = V <;> simp [Grammar.alternatives, Grammar.single, hV]

theorem add (hg : Gathers rs g) (r : Rule) : Gathers (rs ++ [r]) (g.add r) where
  start_eq := by
    have hne : rs ≠ [] := by
      intro hnil
      simpa [hnil] using hg.start_eq
    rw [List.head?_append_of_ne_nil _ hne, hg.start_eq, Grammar.start_add]
  map_left_eq := by
    change (Grammar.addRule r g.rules).map Rule.left = _
    rw [Grammar.map_left_addRule, hg.map_left_eq, List.map_append, List.map_singleton,
      eraseDups_concat]
    simp only [List.mem_eraseDups]
  alternatives_eq V := by
    rw [Grammar.alternatives_add, hg.alternatives_eq, List.filter_append, List.flatMap_append]
    by_cases hV : r.left = V <;> simp [hV]

theorem foldl_add (hg : Gathers rs g) (more : List Rule) :
    Gathers (rs ++ more) (more.foldl Grammar.add g) := by
  induction more generalizing rs g with
  | nil => rwa [List.append_nil]
  | cons r more ih => simpa using ih (hg.add r)

/-- A grammar is determined by its variables and their alternatives. -/
theorem unique (hg : Gathers rs g) (hh : Gathers rs h) : g = h := by
  have hrules : g.rules.map (fun r => (r.left, r.right)) =
      h.rules.map (fun r => (r.left, r.right)) := by
    rw [g.map_eq_map_alternatives, h.map_eq_map_alternatives, hg.map_left_eq, hh.map_left_eq]
    exact List.map_congr_left fun V _ => by rw [hg.alternatives_eq, hh.alternatives_eq]
  exact Grammar.eq_of_rules_eq (List.map_injective_iff.2 Rule.injective_sides hrules)

end Notation.Gathers

namespace Grammar

theorem ofRules?_eq_some_iff {rs : List Rule} {g : Grammar} :
    ofRules? rs = some g ↔ Gathers rs g := by
  cases rs with
  | nil =>
      constructor
      · intro h
        cases h
      · intro h
        cases h.start_eq
  | cons r more =>
      have hgathers : Gathers (r :: more) (more.foldl add (single r)) :=
        (Gathers.single r).foldl_add more
      constructor
      · intro h
        cases h
        exact hgathers
      · intro h
        exact congrArg some (hgathers.unique h)

theorem ofRules?_eq_none_iff {rs : List Rule} : ofRules? rs = none ↔ rs = [] := by
  cases rs <;> simp [ofRules?]

/-! ### The lines -/

variable {line : Nat} {text : List Char} {rest : List (List Char)} {rs : List Rule}
  {f : GrammarError}

theorem readLines_cons_of_blank (h : trim text = []) :
    readLines line (text :: rest) = readLines (line + 1) rest := by
  simp [readLines, h]

theorem readLines_cons_eq_ok_iff (h : trim text ≠ []) : readLines line (text :: rest) = .ok rs ↔
    ∃ r more, Writes (trim text) r ∧ readLines (line + 1) rest = .ok more ∧ rs = r :: more := by
  simp [readLines, h, bind_eq_ok_iff, readProduction_eq_ok_iff, pure, Except.pure,
    eq_comm (a := rs)]

theorem readLines_cons_eq_error_iff (h : trim text ≠ []) :
    readLines line (text :: rest) = .error f ↔ LineFault line (trim text) f ∨
      (∃ r, Writes (trim text) r) ∧ readLines (line + 1) rest = .error f := by
  simp [readLines, h, bind_eq_error_iff, readProduction_eq_ok_iff, readProduction_eq_error_iff,
    pure, Except.pure]

theorem readLines_eq_ok_iff {texts : List (List Char)} : readLines line texts = .ok rs ↔
    List.Forall₂ Writes ((texts.map trim).filter (· ≠ [])) rs := by
  induction texts generalizing line rs with
  | nil => simp [readLines, eq_comm]
  | cons text rest ih =>
      by_cases h : trim text = []
      · rw [readLines_cons_of_blank h, ih, List.map_cons, List.filter_cons_of_neg (by simp [h])]
      · rw [readLines_cons_eq_ok_iff h, List.map_cons, List.filter_cons_of_pos (by simp [h]),
          List.forall₂_cons_left_iff]
        simp only [ih]

theorem readLines_eq_error_iff {texts : List (List Char)} :
    readLines line texts = .error f ↔ ∃ before text after, texts = before ++ text :: after ∧
      (∀ t ∈ before, trim t = [] ∨ ∃ r, Writes (trim t) r) ∧ trim text ≠ [] ∧
      LineFault (line + before.length) (trim text) f := by
  induction texts generalizing line with
  | nil => simp [readLines]
  | cons text rest ih =>
      have hnext : ∀ n, line + 1 + n = line + (n + 1) := by omega
      rw [first_cons_iff (Q := fun n t => trim t ≠ [] ∧ LineFault (line + n) (trim t) f)]
      by_cases h : trim text = []
      · simp [readLines_cons_of_blank h, ih, h, hnext]
      · simp [readLines_cons_eq_error_iff h, ih, h, hnext]

/-! ### The text -/

theorem parse_eq_ok_iff {text : String} {g : Grammar} : parse text = .ok g ↔
    ∃ rs, List.Forall₂ Writes (contents text) rs ∧ Gathers rs g := by
  rw [parse, bind_eq_ok_iff]
  refine exists_congr fun rs => and_congr readLines_eq_ok_iff ?_
  rw [← ofRules?_eq_some_iff]
  cases ofRules? rs <;> simp

theorem parse_eq_error_iff {text : String} {f : GrammarError} :
    parse text = .error f ↔ FirstFault text f := by
  have hblank : readLines 1 (lines text) = .ok [] ↔ contents text = [] := by
    rw [readLines_eq_ok_iff, List.forall₂_nil_right_iff]
    rfl
  rw [parse, bind_eq_error_iff]
  constructor
  · intro h
    cases h with
    | inl h =>
        obtain ⟨before, line, after, hlines, hbefore, hne, hfault⟩ := readLines_eq_error_iff.1 h
        rw [Nat.add_comm] at hfault
        exact .line hlines hbefore hne hfault
    | inr h =>
        obtain ⟨rs, hrs, hnone⟩ := h
        cases rs with
        | nil =>
            cases hnone
            exact .noProductions (hblank.1 hrs)
        | cons r more => cases hnone
  · intro h
    cases h with
    | noProductions hnil => exact .inr ⟨[], hblank.2 hnil, rfl⟩
    | line hlines hbefore hne hfault =>
        rw [Nat.add_comm] at hfault
        exact .inl (readLines_eq_error_iff.2 ⟨_, _, _, hlines, hbefore, hne, hfault⟩)

/-- The marks between lines are blank, so a text is blank if its lines are. -/
theorem contents_eq_nil_iff {text : String} :
    contents text = [] ↔ ∀ c ∈ text.toList, isBlank c := by
  have hmark : isBlank '\n' := by decide
  have hlines : (∀ l ∈ lines text, ∀ c ∈ l, isBlank c) ↔ ∀ c ∈ text.toList, isBlank c :=
    forall_mem_splitOn_iff hmark
  rw [← hlines]
  simp [contents, List.filter_eq_nil_iff, trim_eq_nil_iff]

/-- A text is read as a grammar exactly if it has a line that is not blank and each such line writes
a rule, and the grammar is then the one that gathers these rules. Otherwise the fault is that of the
first line that has one. There are no productions exactly if all characters are blank. -/
theorem parse_reads_notation (text : String) :
    ((∃ g, parse text = .ok g) ↔
      contents text ≠ [] ∧ ∀ content ∈ contents text, ∃ r, Writes content r) ∧
    (∀ g, parse text = .ok g ↔ ∃ rs, List.Forall₂ Writes (contents text) rs ∧ Gathers rs g) ∧
    (∀ f, parse text = .error f ↔ FirstFault text f) ∧
    (parse text = .error .noProductions ↔ ∀ c ∈ text.toList, isBlank c) := by
  refine ⟨?_, fun g => parse_eq_ok_iff, fun f => parse_eq_error_iff, ?_⟩
  · rw [← exists_forall₂_iff]
    constructor
    · intro h
      obtain ⟨g, hg⟩ := h
      obtain ⟨rs, hrs, hgathers⟩ := parse_eq_ok_iff.1 hg
      refine ⟨fun hnil => ?_, rs, hrs⟩
      rw [hnil, List.forall₂_nil_left_iff] at hrs
      simpa [hrs] using hgathers.start_eq
    · intro h
      obtain ⟨hne, rs, hrs⟩ := h
      cases hof : ofRules? rs with
      | none =>
          rw [ofRules?_eq_none_iff.1 hof, List.forall₂_nil_right_iff] at hrs
          exact absurd hrs hne
      | some g => exact ⟨g, parse_eq_ok_iff.2 ⟨rs, hrs, ofRules?_eq_some_iff.1 hof⟩⟩
  · rw [parse_eq_error_iff, ← contents_eq_nil_iff]
    constructor
    · intro h
      cases h with
      | noProductions hnil => exact hnil
      | line _ _ _ hfault => cases hfault
    · exact .noProductions

/-- Blank lines have numbers. -/
example : parse "S -> a\n\nS -> ab" = .error (.notRightLinear 3 "ab") := by rfl

end Grammar

end FiniteAutomata
