import FiniteAutomata.Text.Blank
import Mathlib.Data.List.TakeWhile

/-!
# Trimmed texts and their pieces

Blanks at the ends of a text do not change what trimming leaves of it, and none is lost but these.
Nor do they change the pieces that a mark cuts a text into, once each piece is trimmed.
-/

namespace FiniteAutomata.Text

theorem trimEnd_append_of_blank {t v : List Char} (h : ∀ c ∈ v, isBlank c) :
    trimEnd (t ++ v) = trimEnd t := by
  have hreverse : ∀ c ∈ v.reverse, isBlank c := fun c hc => h c (List.mem_reverse.1 hc)
  rw [trimEnd, List.reverse_append, List.dropWhile_append_of_pos hreverse, trimEnd]

theorem trim_append_left {t u : List Char} (h : ∀ c ∈ u, isBlank c) : trim (u ++ t) = trim t := by
  rw [trim, trimStart, List.dropWhile_append_of_pos h, trim, trimStart]

theorem trim_append_right {t v : List Char} (h : ∀ c ∈ v, isBlank c) :
    trim (t ++ v) = trim t := by
  rw [trim, trimStart, List.dropWhile_append]
  split
  · next ht =>
      rw [trim, trimStart, List.isEmpty_iff.1 ht, ← List.append_nil (v.dropWhile isBlank),
        List.dropWhile_eq_nil_iff.2 h, List.append_nil]
  · rw [trimEnd_append_of_blank h, trim, trimStart]

theorem exists_eq_append_trimEnd (t : List Char) :
    ∃ v, (∀ c ∈ v, isBlank c) ∧ t = trimEnd t ++ v := by
  refine ⟨(t.reverse.takeWhile isBlank).reverse, fun c hc => ?_, ?_⟩
  · exact List.mem_takeWhile_imp (List.mem_reverse.1 hc)
  · rw [trimEnd, ← List.reverse_append, List.takeWhile_append_dropWhile, List.reverse_reverse]

/-- A text is what trimming leaves of it, between blanks. -/
theorem exists_eq_append_trim (t : List Char) :
    ∃ u v, (∀ c ∈ u, isBlank c) ∧ (∀ c ∈ v, isBlank c) ∧ t = u ++ (trim t ++ v) := by
  obtain ⟨v, hv, ht⟩ := exists_eq_append_trimEnd (trimStart t)
  refine ⟨t.takeWhile isBlank, v, fun c hc => List.mem_takeWhile_imp hc, hv, ?_⟩
  rw [trim, ← ht, trimStart, List.takeWhile_append_dropWhile]

theorem trim_eq_nil_iff {t : List Char} : trim t = [] ↔ ∀ c ∈ t, isBlank c := by
  constructor
  · intro h
    obtain ⟨u, v, hu, hv, ht⟩ := exists_eq_append_trim t
    rw [h, List.nil_append] at ht
    rw [ht, List.forall_mem_append]
    exact ⟨hu, hv⟩
  · intro h
    rw [← List.append_nil t, trim_append_left h]
    rfl

theorem mem_of_mem_trim {t : List Char} {c : Char} (h : c ∈ trim t) : c ∈ t := by
  obtain ⟨u, v, -, -, ht⟩ := exists_eq_append_trim t
  rw [ht]
  exact List.mem_append_right _ (List.mem_append_left _ h)

@[simp] theorem trim_trim (t : List Char) : trim (trim t) = trim t := by
  obtain ⟨u, v, hu, hv, ht⟩ := exists_eq_append_trim t
  calc trim (trim t)
    _ = trim (u ++ (trim t ++ v)) := by rw [trim_append_left hu, trim_append_right hv]
    _ = trim t := by rw [← ht]

theorem trimStart_eq_self {t : List Char} (h : ∀ c ∈ t.head?, ¬ isBlank c) : trimStart t = t := by
  cases t with
  | nil => rfl
  | cons c t => exact List.dropWhile_cons_of_neg (h c rfl)

/-- Nothing is trimmed from a text with blanks at neither end. -/
theorem trim_eq_self {t : List Char} (hfirst : ∀ c ∈ t.head?, ¬ isBlank c)
    (hlast : ∀ c ∈ t.getLast?, ¬ isBlank c) : trim t = t := by
  rw [← List.head?_reverse] at hlast
  have hend : trimEnd t = t := by
    change (trimStart t.reverse).reverse = t
    rw [trimStart_eq_self hlast, List.reverse_reverse]
  rw [trim, trimStart_eq_self hfirst, hend]

/-- A property that the mark has holds throughout the pieces if it holds throughout the text. -/
theorem forall_mem_splitOn_iff {P : Char → Prop} {mark : Char} (hmark : P mark) {t : List Char} :
    (∀ piece ∈ t.splitOn mark, ∀ c ∈ piece, P c) ↔ ∀ c ∈ t, P c := by
  induction t with
  | nil => simp
  | cons c t ih =>
      rw [List.splitOn_cons_eq_if_modifyHead]
      by_cases hc : c = mark
      · simp [hc, hmark, ih]
      · cases hs : t.splitOn mark with
        | nil => exact absurd hs (List.splitOn_ne_nil mark t)
        | cons piece pieces =>
            rw [hs] at ih
            simp only [beq_iff_eq, hc, if_false, List.modifyHead_cons, List.forall_mem_cons,
              and_assoc, ← ih]

theorem not_mem_of_mem_splitOn {mark : Char} {t : List Char} :
    ∀ piece ∈ t.splitOn mark, mark ∉ piece := by
  induction t with
  | nil => simp
  | cons c t ih =>
      rw [List.splitOn_cons_eq_if_modifyHead]
      by_cases hc : c = mark
      · simpa [hc] using ih
      · cases hs : t.splitOn mark with
        | nil => exact absurd hs (List.splitOn_ne_nil mark t)
        | cons piece pieces =>
            rw [hs] at ih
            simpa [hc, Ne.symm hc] using ih

variable {mark : Char} {t u v : List Char}

theorem map_trim_splitOn_append_left (hmark : ¬ isBlank mark) (hu : ∀ c ∈ u, isBlank c) :
    ((u ++ t).splitOn mark).map trim = (t.splitOn mark).map trim := by
  have hmu : mark ∉ u := fun h => hmark (hu mark h)
  by_cases ht : mark ∈ t
  · obtain ⟨x, y, rfl, hx⟩ := List.eq_append_cons_of_mem ht
    have hux : mark ∉ u ++ x := by simp [hmu, hx]
    rw [← List.append_assoc, List.splitOn_append_cons_self_of_not_mem hux,
      List.splitOn_append_cons_self_of_not_mem hx, List.map_cons, List.map_cons,
      trim_append_left hu]
  · have hut : mark ∉ u ++ t := by simp [hmu, ht]
    rw [List.splitOn_eq_singleton hut, List.splitOn_eq_singleton ht, List.map_singleton,
      List.map_singleton, trim_append_left hu]

theorem map_trim_splitOn_append_right (hmark : ¬ isBlank mark) (hv : ∀ c ∈ v, isBlank c) :
    ((t ++ v).splitOn mark).map trim = (t.splitOn mark).map trim := by
  have hmv : mark ∉ v := fun h => hmark (hv mark h)
  by_cases ht : mark ∈ t
  -- The text is cut at its last mark.
  · obtain ⟨x, y, hxy, hx⟩ := List.eq_append_cons_of_mem (List.mem_reverse.2 ht)
    have hlast : t = y.reverse ++ mark :: x.reverse := by
      rw [← List.reverse_reverse t, hxy]
      simp
    have hx' : mark ∉ x.reverse := by simpa using hx
    have hxv : mark ∉ x.reverse ++ v := by simp [hx, hmv]
    rw [hlast, List.append_assoc, List.cons_append, List.splitOn_append_cons_self,
      List.splitOn_append_cons_self, List.splitOn_eq_singleton hx', List.splitOn_eq_singleton hxv,
      List.map_append, List.map_append, List.map_singleton, List.map_singleton,
      trim_append_right hv]
  · have htv : mark ∉ t ++ v := by simp [ht, hmv]
    rw [List.splitOn_eq_singleton htv, List.splitOn_eq_singleton ht, List.map_singleton,
      List.map_singleton, trim_append_right hv]

theorem map_trim_splitOn_trim (hmark : ¬ isBlank mark) (t : List Char) :
    ((trim t).splitOn mark).map trim = (t.splitOn mark).map trim := by
  obtain ⟨u, v, hu, hv, ht⟩ := exists_eq_append_trim t
  calc ((trim t).splitOn mark).map trim
    _ = ((u ++ (trim t ++ v)).splitOn mark).map trim := by
      rw [map_trim_splitOn_append_left hmark hu, map_trim_splitOn_append_right hmark hv]
    _ = (t.splitOn mark).map trim := by rw [← ht]

/-- Trimmed pieces hold no mark and are not trimmed further. -/
theorem forall_mem_map_trim_splitOn (mark : Char) (t : List Char) :
    ∀ piece ∈ (t.splitOn mark).map trim, mark ∉ piece ∧ trim piece = piece := by
  rw [List.forall_mem_map]
  intro piece hpiece
  exact ⟨fun h => not_mem_of_mem_splitOn piece hpiece (mem_of_mem_trim h), trim_trim piece⟩

theorem forall_mem_intercalate {P : Char → Prop} {sep : List Char} {ls : List (List Char)}
    (hsep : ∀ c ∈ sep, P c) (hls : ∀ l ∈ ls, ∀ c ∈ l, P c) : ∀ c ∈ sep.intercalate ls, P c := by
  induction ls with
  | nil => exact nofun
  | cons l ls ih =>
      obtain ⟨hl, hls⟩ := List.forall_mem_cons.1 hls
      cases ls with
      | nil => rwa [List.intercalate_singleton]
      | cons l' ls =>
          rw [List.intercalate_cons_cons, List.forall_mem_append, List.forall_mem_append]
          exact ⟨⟨hl, hsep⟩, ih hls⟩

theorem exists_intercalate_eq_append_getLast (sep : List Char) {ls : List (List Char)}
    (hne : ls ≠ []) : ∃ s, sep.intercalate ls = s ++ ls.getLast hne := by
  induction ls with
  | nil => exact absurd rfl hne
  | cons l ls ih =>
      cases ls with
      | nil => exact ⟨[], List.intercalate_singleton⟩
      | cons l' ls =>
          obtain ⟨s, hs⟩ := ih (List.cons_ne_nil l' ls)
          rw [List.getLast_cons_cons]
          exact ⟨l ++ sep ++ s,
            by rw [List.intercalate_cons_cons, hs, List.append_assoc (l ++ sep)]⟩

/-- Texts written with a mark between them, and blanks around it, are the pieces that the mark cuts
this into. -/
theorem map_trim_splitOn_intercalate {mark : Char} {u v : List Char} {ls : List (List Char)}
    (hmark : ¬ isBlank mark) (hu : ∀ c ∈ u, isBlank c) (hv : ∀ c ∈ v, isBlank c) (hne : ls ≠ [])
    (hls : ∀ l ∈ ls, mark ∉ l ∧ trim l = l) :
    (((u ++ mark :: v).intercalate ls).splitOn mark).map trim = ls := by
  induction ls with
  | nil => exact absurd rfl hne
  | cons l ls ih =>
      obtain ⟨⟨hl, htrim⟩, hls⟩ := List.forall_mem_cons.1 hls
      cases ls with
      | nil =>
          rw [List.intercalate_singleton, List.splitOn_eq_singleton hl, List.map_singleton, htrim]
      | cons l' ls =>
          have hlu : mark ∉ l ++ u := by
            rw [List.mem_append, not_or]
            exact ⟨hl, fun h => hmark (hu mark h)⟩
          have hshape : (u ++ mark :: v).intercalate (l :: l' :: ls) =
              (l ++ u) ++ mark :: (v ++ (u ++ mark :: v).intercalate (l' :: ls)) := by
            rw [List.intercalate_cons_cons]
            simp
          rw [hshape, List.splitOn_append_cons_self_of_not_mem hlu, List.map_cons,
            trim_append_right hu, htrim, map_trim_splitOn_append_left hmark hv,
            ih (List.cons_ne_nil l' ls) hls]

end FiniteAutomata.Text
