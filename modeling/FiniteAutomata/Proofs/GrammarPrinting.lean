import FiniteAutomata.Grammar.Printer
import FiniteAutomata.Proofs.GrammarReading

/-!
# Reading what was printed

A printed grammar has one line for each of its rules, and each line writes its rule: the letters of
a rule are no blanks and no part of a bar or an arrow, so nothing is cut or trimmed in the wrong
place. Printing is therefore undone by reading, and what a text reads as, once printed, is its
normal form.
-/

namespace FiniteAutomata

open Notation Text

/-- The character stands for itself: it is no blank and no part of a bar or an arrow. -/
structure IsLetter (c : Char) : Prop where
  not_isBlank : ¬ isBlank c
  ne_bar : c ≠ '|'
  ne_dash : c ≠ '-'

theorem isLetter_of_toNat {c : Char} (h : 48 ≤ c.toNat) (h' : c.toNat ≤ 122) : IsLetter c where
  not_isBlank := not_isBlank_of_toNat (by omega) (by omega)
  ne_bar := by
    rintro rfl
    exact absurd h' (by decide)
  ne_dash := by
    rintro rfl
    exact absurd h (by decide)

theorem trim_eq_self_of_isLetter {t : List Char} (h : ∀ c ∈ t, IsLetter c) : trim t = t :=
  trim_eq_self (fun c hc => (h c (List.mem_of_mem_head? hc)).not_isBlank)
    fun c hc => (h c (List.mem_of_mem_getLast? hc)).not_isBlank

theorem Variable.isLetter_letter (V : Variable) : IsLetter V.letter := by
  have h := List.mem_range'_1.1 V.toNat_letter_mem
  exact isLetter_of_toNat (by omega) (by omega)

theorem Terminal.isLetter_letter (a : Terminal) : IsLetter a.letter := by
  have h := a.isLowerOrDigit
  rw [Bool.or_eq_true, isLower_iff, Char.isDigit_iff_toNat] at h
  change _ ∨ 48 ≤ _ ∧ _ ≤ 57 at h
  exact isLetter_of_toNat (by omega) (by omega)

/-! ### The alternatives -/

namespace Alternative

theorem isLetter_of_mem_write (a : Alternative) : ∀ c ∈ a.write, IsLetter c := by
  cases a with
  | epsilon =>
      have hsign : IsLetter 'ε' := ⟨by decide, by decide, by decide⟩
      exact List.forall_mem_singleton.2 hsign
  | terminal a => exact List.forall_mem_singleton.2 a.isLetter_letter
  | step a B =>
      exact List.forall_mem_cons.2
        ⟨a.isLetter_letter, List.forall_mem_singleton.2 B.isLetter_letter⟩

theorem write_ne_nil (a : Alternative) : a.write ≠ [] := by cases a <;> exact List.cons_ne_nil _ _

theorem spells_write (a : Alternative) : Spells a.write a := by cases a <;> constructor

end Alternative

/-! ### The lines -/

namespace Rule

def writeRight (r : Rule) : List Char :=
  ' ' :: " | ".toList.intercalate (r.right.map Alternative.write)

theorem write_eq (r : Rule) : r.write = [r.left.letter, ' '] ++ arrow ++ r.writeRight := rfl

/-- Beside letters there are only blanks and bars. -/
theorem not_mem_writeRight (r : Rule) {c : Char} (hc : ¬ IsLetter c) (hblank : c ≠ ' ')
    (hbar : c ≠ '|') : c ∉ r.writeRight := by
  have hbetween : ∀ d ∈ " | ".toList, d ≠ c := by simp [hblank.symm, hbar.symm]
  have hwritten : ∀ l ∈ r.right.map Alternative.write, ∀ d ∈ l, d ≠ c := by
    intro l hl d hd hdc
    obtain ⟨a, -, rfl⟩ := List.mem_map.1 hl
    exact hc (hdc ▸ a.isLetter_of_mem_write d hd)
  rw [writeRight, List.mem_cons, not_or]
  exact ⟨hblank, fun h => forall_mem_intercalate hbetween hwritten c h rfl⟩

theorem isLetter_of_mem_getLast?_write (r : Rule) : ∀ c ∈ r.write.getLast?, IsLetter c := by
  have hne : r.right.map Alternative.write ≠ [] := mt List.map_eq_nil_iff.1 r.right_ne_nil
  obtain ⟨a, -, ha⟩ := List.mem_map.1 (List.getLast_mem hne)
  obtain ⟨s, hs⟩ := exists_intercalate_eq_append_getLast " | ".toList hne
  intro _ hc
  rw [write_eq, writeRight, hs, ← ha, ← List.cons_append, ← List.append_assoc,
    List.getLast?_append_of_ne_nil _ a.write_ne_nil] at hc
  exact a.isLetter_of_mem_write _ (List.mem_of_mem_getLast? hc)

theorem trim_write (r : Rule) : trim r.write = r.write :=
  trim_eq_self (fun _ hc => Option.some.inj hc ▸ r.left.isLetter_letter.not_isBlank)
    fun c hc => (r.isLetter_of_mem_getLast?_write c hc).not_isBlank

theorem newline_not_mem_write (r : Rule) : '\n' ∉ r.write := by
  have hnewline : ¬ IsLetter '\n' := fun h => h.not_isBlank (by decide)
  have hleft : '\n' ≠ r.left.letter := fun h => hnewline (h ▸ r.left.isLetter_letter)
  have hright := r.not_mem_writeRight hnewline (by decide) (by decide)
  simp [write_eq, arrow, hleft, hright]

theorem pieces_writeRight (r : Rule) : pieces r.writeRight = r.right.map Alternative.write := by
  have hblank : ∀ c ∈ [' '], isBlank c := List.forall_mem_singleton.2 (by decide)
  have hbar : ¬ isBlank '|' := by decide
  have hne : r.right.map Alternative.write ≠ [] := mt List.map_eq_nil_iff.1 r.right_ne_nil
  have hpieces : ∀ l ∈ r.right.map Alternative.write, '|' ∉ l ∧ trim l = l := by
    intro l hl
    obtain ⟨a, -, rfl⟩ := List.mem_map.1 hl
    exact ⟨fun h => (a.isLetter_of_mem_write _ h).ne_bar rfl,
      trim_eq_self_of_isLetter a.isLetter_of_mem_write⟩
  rw [pieces, writeRight, ← List.singleton_append, map_trim_splitOn_append_left hbar hblank]
  exact map_trim_splitOn_intercalate hbar hblank hblank hne hpieces

theorem writes_write (r : Rule) : Writes r.write r := by
  have harrow : ∀ {t : List Char}, '-' ∉ t → ¬ arrow <:+: t := fun ht h =>
    ht (h.subset (List.mem_cons_self ..))
  have hleft : '-' ∉ [r.left.letter, ' '] := by simp [r.left.isLetter_letter.ne_dash.symm]
  have hright : '-' ∉ r.writeRight :=
    r.not_mem_writeRight (fun h => h.ne_dash rfl) (by decide) (by decide)
  refine ⟨_, _, ⟨r.write_eq, harrow hleft, harrow hright⟩, ?_, ?_⟩
  · have hblank : ∀ c ∈ [' '], isBlank c := List.forall_mem_singleton.2 (by decide)
    have hletter : ∀ c ∈ [r.left.letter], IsLetter c :=
      List.forall_mem_singleton.2 r.left.isLetter_letter
    exact (trim_append_right hblank).trans (trim_eq_self_of_isLetter hletter)
  · rw [pieces_writeRight, List.forall₂_map_left_iff, List.forall₂_same]
    exact fun a _ => a.spells_write

end Rule

/-! ### The text -/

namespace Grammar

theorem contents_print (g : Grammar) : contents g.print = g.rules.map Rule.write := by
  have hne : g.rules.map Rule.write ≠ [] := mt List.map_eq_nil_iff.1 g.rules_ne_nil
  have hlines : lines g.print = g.rules.map Rule.write := by
    rw [lines, print, String.toList_ofList]
    refine List.splitOn_intercalate '\n' (fun l hl => ?_) hne
    obtain ⟨r, -, rfl⟩ := List.mem_map.1 hl
    exact r.newline_not_mem_write
  have htrim : g.rules.map (trim ∘ Rule.write) = g.rules.map Rule.write :=
    List.map_congr_left fun r _ => r.trim_write
  rw [contents, hlines, List.map_map, htrim, List.filter_eq_self]
  intro l hl
  obtain ⟨r, -, rfl⟩ := List.mem_map.1 hl
  simp [Rule.write]

theorem gathers_rules (g : Grammar) : Gathers g.rules g where
  start_eq := by rw [List.head?_eq_some_head g.rules_ne_nil]; rfl
  map_left_eq := (eraseDups_eq_self g.nodup_left).symm
  alternatives_eq V := by
    rw [filter_eq_toList_find?_of_nodup_map g.nodup_left fun _ => decide_eq_true_iff, alternatives]
    cases g.rules.find? (·.left = V) <;> simp

theorem parse_print (g : Grammar) : parse g.print = .ok g := by
  refine parse_eq_ok_iff.2 ⟨g.rules, ?_, g.gathers_rules⟩
  rw [contents_print, List.forall₂_map_left_iff, List.forall₂_same]
  exact fun r _ => r.writes_write

/-- Every grammar is read back from what it is printed as, with the same rules in the same order.
So a text reads as a grammar exactly if it reads as something that is printed alike. -/
theorem printed_grammars_read_back (g : Grammar) : parse g.print = .ok g ∧
    ∀ text, (parse text).map print = .ok g.print ↔ parse text = .ok g := by
  refine ⟨g.parse_print, fun text => ?_⟩
  cases parse text with
  | error f => exact iff_of_false nofun nofun
  | ok h =>
      constructor
      · intro hprint
        -- What the text reads as is read back from the same print.
        have hparse := h.parse_print
        rw [Except.ok.inj hprint, g.parse_print] at hparse
        exact hparse.symm
      · intro heq
        rw [heq]
        rfl

/-- The normal form of a text with a rule in two lines. -/
example : (parse "S->aS|b\nA -> EPSilon\n\nS -> b").map print =
    .ok "S -> aS | b | b\nA -> ε" := by rfl

end Grammar

end FiniteAutomata
