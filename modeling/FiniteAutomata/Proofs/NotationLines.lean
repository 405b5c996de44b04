import FiniteAutomata.Grammar.Notation
import FiniteAutomata.Grammar.Reader
import FiniteAutomata.InOrder
import FiniteAutomata.Text.Case
import FiniteAutomata.Text.Trim
import Mathlib.Data.List.Infix

/-!
# Reading one line of a grammar

Each reader of a part of a line gives a value exactly when the notation does, and a reader of
several parts fails with the first of them that has a fault.
-/

namespace FiniteAutomata

open Notation Text

/-! ### The sides -/

/-- Where the reader goes on past a character no arrow begins. -/
theorem arrow_not_at_head {c : Char} {rest : List Char}
    (h : ∀ rest', c = '-' → rest = '>' :: rest' → False) : ¬ arrow <+: c :: rest := by
  intro harrow
  obtain ⟨rest', heq⟩ := harrow
  obtain ⟨rfl, hrest⟩ := List.cons.inj heq
  exact h rest' rfl hrest.symm

theorem cutArrow?_eq_none_iff {t : List Char} : cutArrow? t = none ↔ ¬ arrow <:+: t := by
  fun_induction cutArrow? t with
  | case1 => simp [arrow]
  | case2 rest => simp [arrow, List.infix_cons_iff]
  | case3 c rest h ih =>
      rw [Option.map_eq_none_iff, ih, List.infix_cons_iff, not_or,
        and_iff_right (arrow_not_at_head h)]

theorem cutArrow?_eq_some_iff {t l r : List Char} :
    cutArrow? t = some (l, r) ↔ t = l ++ arrow ++ r ∧ ¬ arrow <:+: l := by
  fun_induction cutArrow? t generalizing l with
  | case1 => simp [arrow]
  | case2 rest =>
      constructor
      · intro h
        obtain ⟨rfl, rfl⟩ := Prod.mk.inj (Option.some.inj h)
        exact ⟨rfl, by simp [arrow]⟩
      · intro h
        obtain ⟨ht, hl⟩ := h
        match l with
        | [] =>
            obtain rfl : rest = r := by simpa [arrow] using ht
            rfl
        | [c] => simp [arrow] at ht
        | c :: d :: l =>
            obtain ⟨rfl, rfl, -⟩ : '-' = c ∧ '>' = d ∧ rest = l ++ arrow ++ r := by simpa using ht
            exact absurd ⟨[], l, rfl⟩ hl
  | case3 c rest h ih =>
      rw [Option.map_eq_some_iff]
      constructor
      · intro hcut
        obtain ⟨⟨left, right⟩, hrest, heq⟩ := hcut
        obtain ⟨rfl, rfl⟩ := Prod.mk.inj heq
        obtain ⟨rfl, hleft⟩ := ih.1 hrest
        have hnone : ¬ arrow <+: c :: left := fun harrow =>
          arrow_not_at_head h (harrow.trans ⟨arrow ++ right, by simp⟩)
        exact ⟨rfl, by rw [List.infix_cons_iff, not_or]; exact ⟨hnone, hleft⟩⟩
      · intro ht
        obtain ⟨ht, hl⟩ := ht
        cases l with
        | nil => exact absurd ⟨r, ht.symm⟩ (arrow_not_at_head h)
        | cons d l =>
            obtain ⟨rfl, hrest⟩ := List.cons.inj ht
            have hl' : ¬ arrow <:+: l := fun harrow =>
              hl (harrow.trans (List.suffix_cons c l).isInfix)
            exact ⟨(l, r), ih.2 ⟨hrest, hl'⟩, rfl⟩

theorem hasSides_iff {content left right : List Char} : HasSides content left right ↔
    cutArrow? content = some (left, right) ∧ cutArrow? right = none := by
  rw [HasSides, cutArrow?_eq_some_iff, cutArrow?_eq_none_iff, and_assoc]

theorem sides?_eq_some_iff {content l r : List Char} : sides? content = some (l, r) ↔
    ∃ left right, HasSides content left right ∧ trim left ≠ [] ∧ trim right ≠ [] ∧
      trim left = l ∧ trim right = r := by
  simp only [hasSides_iff, sides?]
  cases cutArrow? content with
  | none => simp
  | some sides =>
      obtain ⟨left, right⟩ := sides
      cases hnext : cutArrow? right with
      | none => simp [hnext, and_assoc]
      | some _ => simp [hnext]

theorem sides?_eq_none_iff {content : List Char} : sides? content = none ↔
    ∀ left right, HasSides content left right → trim left = [] ∨ trim right = [] := by
  simp only [hasSides_iff, sides?]
  cases cutArrow? content with
  | none => simp
  | some sides =>
      obtain ⟨left, right⟩ := sides
      cases hnext : cutArrow? right with
      | none => simp [hnext, or_iff_not_imp_left]
      | some _ => simp [hnext]

/-! ### The alternatives -/

@[simp]
theorem Variable.ofChar?_eq_some_iff {c : Char} {V : Variable} :
    Variable.ofChar? c = some V ↔ c = V.letter := by
  constructor
  · intro h
    obtain ⟨hc, hsome⟩ := Option.dite_none_right_eq_some.1 h
    cases hsome
    rfl
  · intro h
    subst h
    exact dif_pos V.isUpper

@[simp]
theorem Terminal.ofChar?_eq_some_iff {c : Char} {a : Terminal} :
    Terminal.ofChar? c = some a ↔ c = a.letter := by
  constructor
  · intro h
    obtain ⟨hc, hsome⟩ := Option.dite_none_right_eq_some.1 h
    cases hsome
    rfl
  · intro h
    subst h
    exact dif_pos a.isLowerOrDigit

theorem Variable.read?_eq_some_iff {t : List Char} {V : Variable} :
    Variable.read? t = some V ↔ t = [V.letter] := by
  fun_cases Variable.read? t with
  | case1 c => simp
  | case2 t h =>
      have ht : t ≠ [V.letter] := h V.letter
      simp [ht]

theorem isEpsilonWord_iff {piece : List Char} :
    isEpsilonWord piece ↔ Spells piece .epsilon := by
  have hword : piece.map Char.toLower = "epsilon".toList ↔
      List.Forall₂ (fun c d => c = d ∨ c = d.toUpper) piece
        ['e', 'p', 's', 'i', 'l', 'o', 'n'] := map_toLower_eq_iff (by simp)
  rw [isEpsilonWord, decide_eq_true_iff, hword]
  constructor
  · intro h
    obtain rfl | rfl | h := h
    · exact .sign
    · exact .short
    · exact .word h
  · intro h
    cases h with
    | sign => exact .inl rfl
    | short => exact .inr (.inl rfl)
    | word h => exact .inr (.inr h)

theorem not_spells_epsilon_terminal (a : Terminal) : ¬ Spells [a.letter] .epsilon := by
  generalize hpiece : [a.letter] = piece
  intro h
  cases h with
  | sign =>
      have ha := a.isLowerOrDigit
      rw [(List.cons.inj hpiece).1] at ha
      exact absurd ha (by decide)
  | short => simp at hpiece
  | word h => simpa [← hpiece] using h.length_eq

theorem not_spells_epsilon_pair (c d : Char) : ¬ Spells [c, d] .epsilon := by
  intro h
  cases h with
  | word h => simpa using h.length_eq

/-- No piece is both the empty alternative and another one. -/
theorem spells_iff_of_epsilon {piece : List Char} {a : Alternative}
    (h : Spells piece .epsilon) : Spells piece a ↔ .epsilon = a := by
  constructor
  · intro ha
    cases ha with
    | sign => rfl
    | short => rfl
    | word _ => rfl
    | terminal a => exact absurd h (not_spells_epsilon_terminal a)
    | step a B => exact absurd h (not_spells_epsilon_pair a.letter B.letter)
  · intro ha
    exact ha ▸ h

theorem Alternative.read?_eq_some_iff {piece : List Char} {a : Alternative} :
    Alternative.read? piece = some a ↔ Spells piece a := by
  unfold Alternative.read?
  by_cases hepsilon : isEpsilonWord piece
  · rw [if_pos hepsilon, spells_iff_of_epsilon (isEpsilonWord_iff.1 hepsilon),
      Option.some_inj]
  · rw [if_neg hepsilon]
    constructor
    · intro h
      match piece with
      | [c] =>
          obtain ⟨b, hb, rfl⟩ := Option.map_eq_some_iff.1 h
          rw [Terminal.ofChar?_eq_some_iff.1 hb]
          exact .terminal b
      | [c, d] =>
          obtain ⟨b, hb, hd⟩ := Option.bind_eq_some_iff.1 h
          obtain ⟨B, hB, rfl⟩ := Option.map_eq_some_iff.1 hd
          rw [Terminal.ofChar?_eq_some_iff.1 hb, Variable.ofChar?_eq_some_iff.1 hB]
          exact .step b B
      | [] => exact nomatch h
      | _ :: _ :: _ :: _ => exact nomatch h
    · intro h
      cases h with
      | sign => exact absurd (isEpsilonWord_iff.2 .sign) hepsilon
      | short => exact absurd (isEpsilonWord_iff.2 .short) hepsilon
      | word h => exact absurd (isEpsilonWord_iff.2 (.word h)) hepsilon
      | terminal b =>
          have hb : Terminal.ofChar? b.letter = some b := Terminal.ofChar?_eq_some_iff.2 rfl
          simp [hb]
      | step b B =>
          have hb : Terminal.ofChar? b.letter = some b := Terminal.ofChar?_eq_some_iff.2 rfl
          have hB : Variable.ofChar? B.letter = some B := Variable.ofChar?_eq_some_iff.2 rfl
          simp [hb, hB]

/-! ### The pieces -/

theorem pieces_ne_nil (right : List Char) : pieces right ≠ [] := by
  simp [pieces, List.splitOn_ne_nil]

theorem pieces_trim (right : List Char) : pieces (trim right) = pieces right :=
  map_trim_splitOn_trim (by decide) right

/-- A blank right side is one piece that spells nothing. -/
theorem trim_ne_nil_of_spells {right : List Char} {as : List Alternative}
    (h : List.Forall₂ Spells (pieces right) as) : trim right ≠ [] := by
  intro hblank
  rw [← pieces_trim, hblank] at h
  obtain ⟨a, as, hspells, -, -⟩ := List.forall₂_cons_left_iff.1 h
  exact nomatch hspells

namespace Grammar

variable {line : Nat} {content left right piece : List Char} {pieces : List (List Char)}
  {V : Variable} {r : Rule} {f : GrammarError}

theorem readAlternative_eq_ok_iff (line : Nat) {a : Alternative} :
    readAlternative line piece = .ok a ↔ Spells piece a := by
  rw [← Alternative.read?_eq_some_iff, readAlternative]
  cases Alternative.read? piece with
  | none => simp
  | some b => simp

theorem readAlternative_eq_error_iff : readAlternative line piece = .error f ↔
    (∀ a, ¬ Spells piece a) ∧ f = .notRightLinear line (.ofList piece) := by
  simp only [← Alternative.read?_eq_some_iff, readAlternative]
  cases Alternative.read? piece with
  | none => simp [eq_comm]
  | some b => simp

theorem readRule_eq_ok_iff {h : pieces ≠ []} : readRule line V pieces h = .ok r ↔
    V = r.left ∧ List.Forall₂ Spells pieces r.right := by
  rw [← mapM_eq_ok_iff fun _ _ => readAlternative_eq_ok_iff line]
  obtain ⟨left, right, hright⟩ := r
  fun_cases readRule line V pieces h with
  | case1 piece rest => by_cases hV : V = left <;> simp [bind_eq_ok_iff, pure, Except.pure, hV]

theorem readRule_eq_error_iff {h : pieces ≠ []} : readRule line V pieces h = .error f ↔
    ∃ before piece after, pieces = before ++ piece :: after ∧
      (∀ p ∈ before, ∃ a, Spells p a) ∧ (∀ a, ¬ Spells piece a) ∧
      f = .notRightLinear line (.ofList piece) := by
  simp only [← readAlternative_eq_error_iff]
  rw [← mapM_eq_error_iff fun _ _ => readAlternative_eq_ok_iff line]
  fun_cases readRule line V pieces h with
  | case1 piece rest => simp [bind_eq_error_iff, pure, Except.pure]

/-! ### The line -/

theorem readProduction_of_no_sides
    (h : ∀ left right, HasSides content left right → trim left = [] ∨ trim right = []) :
    readProduction line content = .error (.invalidLine line (.ofList content)) := by
  simp only [readProduction, sides?_eq_none_iff.2 h]

theorem readProduction_of_not_variable (h : HasSides content left right) (hleft : trim left ≠ [])
    (hright : trim right ≠ []) (hV : ∀ V : Variable, trim left ≠ [V.letter]) :
    readProduction line content = .error (.invalidVariable line (.ofList (trim left))) := by
  have hsides : sides? content = some (trim left, trim right) :=
    sides?_eq_some_iff.2 ⟨left, right, h, hleft, hright, rfl, rfl⟩
  have hnone : Variable.read? (trim left) = none :=
    Option.eq_none_iff_forall_ne_some.2 fun V h => hV V (Variable.read?_eq_some_iff.1 h)
  simp only [readProduction, hsides, hnone]

theorem readProduction_of_variable (h : HasSides content left right)
    (hV : trim left = [V.letter]) (hright : trim right ≠ []) :
    readProduction line content =
      readRule line V (Notation.pieces right) (pieces_ne_nil right) := by
  have hsides : sides? content = some (trim left, trim right) :=
    sides?_eq_some_iff.2 ⟨left, right, h, by simp [hV], hright, rfl, rfl⟩
  have hsome : Variable.read? (trim left) = some V := Variable.read?_eq_some_iff.2 hV
  simp only [readProduction, hsides, hsome]
  congr 1
  exact pieces_trim right

/-- What a line can be: it lacks a side, or has no variable on its left, or leaves the rest to its
alternatives. -/
theorem line_cases (content : List Char) :
    (∀ left right, HasSides content left right → trim left = [] ∨ trim right = []) ∨
      (∃ left right, HasSides content left right ∧ trim left ≠ [] ∧ trim right ≠ [] ∧
        ∀ V : Variable, trim left ≠ [V.letter]) ∨
      ∃ left right, ∃ V : Variable, HasSides content left right ∧ trim left = [V.letter] ∧
        trim right ≠ [] := by
  by_cases hsides : ∀ left right, HasSides content left right → trim left = [] ∨ trim right = []
  · exact .inl hsides
  · obtain ⟨left, right, h, hleft, hright⟩ : ∃ left right, HasSides content left right ∧
        trim left ≠ [] ∧ trim right ≠ [] := by simpa using hsides
    by_cases hV : ∃ V : Variable, trim left = [V.letter]
    · obtain ⟨V, hV⟩ := hV
      exact .inr (.inr ⟨left, right, V, h, hV, hright⟩)
    · exact .inr (.inl ⟨left, right, h, hleft, hright, not_exists.1 hV⟩)

theorem readProduction_eq_ok_iff : readProduction line content = .ok r ↔ Writes content r := by
  constructor
  · intro hr
    obtain hsides | ⟨left, right, h, hleft, hright, hV⟩ | ⟨left, right, V, h, hV, hright⟩ :=
      line_cases content
    · rw [readProduction_of_no_sides hsides] at hr
      cases hr
    · rw [readProduction_of_not_variable h hleft hright hV] at hr
      cases hr
    · rw [readProduction_of_variable h hV hright] at hr
      obtain ⟨rfl, hspells⟩ := readRule_eq_ok_iff.1 hr
      exact ⟨left, right, h, hV, hspells⟩
  · intro hwrites
    obtain ⟨left, right, h, hV, hspells⟩ := hwrites
    rw [readProduction_of_variable h hV (trim_ne_nil_of_spells hspells)]
    exact readRule_eq_ok_iff.2 ⟨rfl, hspells⟩

theorem readProduction_eq_error_iff :
    readProduction line content = .error f ↔ LineFault line content f := by
  constructor
  · intro hf
    obtain hsides | ⟨left, right, h, hleft, hright, hV⟩ | ⟨left, right, V, h, hV, hright⟩ :=
      line_cases content
    · rw [readProduction_of_no_sides hsides] at hf
      cases hf
      exact .sides hsides
    · rw [readProduction_of_not_variable h hleft hright hV] at hf
      cases hf
      exact .left h hleft hright hV
    · rw [readProduction_of_variable h hV hright] at hf
      obtain ⟨before, piece, after, hpieces, hbefore, hnone, rfl⟩ := readRule_eq_error_iff.1 hf
      exact .piece h hV hright hpieces hbefore hnone
  · intro hfault
    cases hfault with
    | sides hsides => exact readProduction_of_no_sides hsides
    | left h hleft hright hV => exact readProduction_of_not_variable h hleft hright hV
    | piece h hV hright hpieces hbefore hnone =>
        rw [readProduction_of_variable h hV hright]
        exact readRule_eq_error_iff.2 ⟨_, _, _, hpieces, hbefore, hnone, rfl⟩

end Grammar

end FiniteAutomata
