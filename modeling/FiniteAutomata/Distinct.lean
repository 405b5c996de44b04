import Mathlib.Data.List.Induction
import Mathlib.Data.List.Nodup

/-!
# Lists without repetitions

Dropping repetitions leaves each entry once, where it came first. In a list whose entries have
distinct keys, what is found under a key is what the list holds under it.
-/

namespace FiniteAutomata

theorem nodup_eraseDups {α : Type} [BEq α] [LawfulBEq α] (l : List α) : l.eraseDups.Nodup := by
  induction h : l.length using Nat.strongRecOn generalizing l with
  | ind n ih =>
      cases l with
      | nil => simp
      | cons a l =>
          have hlen : (l.filter fun b => !b == a).length < n := by
            have hle := List.length_filter_le (fun b => !b == a) l
            simp only [List.length_cons] at h
            omega
          rw [List.eraseDups_cons, List.nodup_cons]
          exact ⟨by simp [List.mem_eraseDups], ih _ hlen _ rfl⟩

theorem eraseDups_concat {α : Type} [DecidableEq α] (l : List α) (a : α) :
    (l ++ [a]).eraseDups = if a ∈ l then l.eraseDups else l.eraseDups ++ [a] := by
  rw [List.eraseDups_append]
  by_cases h : a ∈ l <;> simp [List.removeAll, List.eraseDups_cons, h]

theorem eraseDups_eq_self {α : Type} [DecidableEq α] {l : List α} (h : l.Nodup) :
    l.eraseDups = l := by
  induction l with
  | nil => rfl
  | cons a l ih =>
      obtain ⟨ha, hl⟩ := List.nodup_cons.1 h
      have hkeep : l.filter (fun b => !b == a) = l := by
        refine List.filter_eq_self.2 fun b hb => ?_
        have hne : b ≠ a := fun hba => ha (hba ▸ hb)
        simp [hne]
      rw [List.eraseDups_cons, hkeep, ih hl]

theorem idxOf_concat {α : Type} [DecidableEq α] {l : List α} {a c : α} (hc : c ∉ l)
    (ha : a ∈ l ++ [c]) : (l ++ [c]).idxOf a = if a = c then l.length else l.idxOf a := by
  split
  · next h => rw [h, List.idxOf_append_of_notMem hc, List.idxOf_cons_self, Nat.add_zero]
  · next h => exact List.idxOf_append_of_mem (by simpa [h] using ha)

/-- Without repetitions the entries stand in the order in which they came first. -/
theorem idxOf_eraseDups_lt_iff {α : Type} [DecidableEq α] {l : List α} {a b : α} (ha : a ∈ l)
    (hb : b ∈ l) : l.eraseDups.idxOf a < l.eraseDups.idxOf b ↔ l.idxOf a < l.idxOf b := by
  induction l using List.reverseRecOn with
  | nil => cases ha
  | append_singleton l c ih =>
      have hsplit : ∀ x ∈ l ++ [c], x = c ∨ x ∈ l := by simp [or_comm]
      have hkept : ∀ x, x ∈ l.eraseDups ↔ x ∈ l := fun x => List.mem_eraseDups
      rw [eraseDups_concat]
      by_cases hc : c ∈ l
      · have hold : ∀ x ∈ l ++ [c], x ∈ l := fun x hx => (hsplit x hx).elim (· ▸ hc) id
        rw [if_pos hc, List.idxOf_append_of_mem (hold a ha), List.idxOf_append_of_mem (hold b hb)]
        exact ih (hold a ha) (hold b hb)
      · have hc' : c ∉ l.eraseDups := mt (hkept c).1 hc
        have hmem : ∀ x ∈ l ++ [c], x ∈ l.eraseDups ++ [c] := by simp [hkept]
        have hlt : ∀ x ∈ l, l.idxOf x < l.length ∧ l.eraseDups.idxOf x < l.eraseDups.length :=
          fun x hx => ⟨List.idxOf_lt_length_of_mem hx,
            List.idxOf_lt_length_of_mem ((hkept x).2 hx)⟩
        rw [if_neg hc, idxOf_concat hc' (hmem a ha), idxOf_concat hc' (hmem b hb),
          idxOf_concat hc ha, idxOf_concat hc hb]
        -- What is new comes after all that was there, with repetitions or without.
        have hne : ∀ x ∈ l, x ≠ c := fun x hx h => hc (h ▸ hx)
        rcases hsplit a ha with hac | ha
        · rcases hsplit b hb with hbc | hb
          · rw [if_pos hac, if_pos hbc, if_pos hac, if_pos hbc]
            omega
          · rw [if_pos hac, if_neg (hne b hb), if_pos hac, if_neg (hne b hb)]
            have := hlt b hb
            omega
        · rw [if_neg (hne a ha), if_neg (hne a ha)]
          rcases hsplit b hb with hbc | hb
          · rw [if_pos hbc, if_pos hbc]
            have := hlt a ha
            omega
          · rw [if_neg (hne b hb), if_neg (hne b hb)]
            exact ih ha hb

theorem find?_eq_some_iff_of_nodup_map {α β : Type} {key : α → β} {l : List α}
    (hl : (l.map key).Nodup) {p : α → Bool} {k : β} (hp : ∀ a, p a ↔ key a = k) {a : α} :
    l.find? p = some a ↔ a ∈ l ∧ key a = k := by
  constructor
  · intro hf
    exact ⟨List.mem_of_find?_eq_some hf, (hp a).1 (List.find?_some hf)⟩
  · rintro ⟨ha, hk⟩
    cases hf : l.find? p with
    | none => exact absurd ((hp a).2 hk) (List.find?_eq_none.1 hf a ha)
    | some b =>
        have hb : key b = k := (hp b).1 (List.find?_some hf)
        exact congrArg some (List.inj_on_of_nodup_map hl (List.mem_of_find?_eq_some hf) ha
          (hb.trans hk.symm))

theorem filter_eq_toList_find?_of_nodup_map {α β : Type} {key : α → β} {l : List α}
    (hl : (l.map key).Nodup) {p : α → Bool} {k : β} (hp : ∀ a, p a ↔ key a = k) :
    l.filter p = (l.find? p).toList := by
  induction l with
  | nil => rfl
  | cons a l ih =>
      obtain ⟨ha, hl⟩ := List.nodup_cons.1 hl
      by_cases hpa : p a
      · have hothers : ∀ b ∈ l, ¬ p b := fun b hb hpb =>
          ha (List.mem_map.2 ⟨b, hb, ((hp b).1 hpb).trans ((hp a).1 hpa).symm⟩)
        rw [List.filter_cons_of_pos hpa, List.find?_cons_of_pos hpa,
          List.filter_eq_nil_iff.2 hothers]
        rfl
      · rw [List.filter_cons_of_neg hpa, List.find?_cons_of_neg hpa, ih hl]

end FiniteAutomata
