import Mathlib.Data.Char
import Mathlib.Data.List.Forall2

/-!
# Letters of either case

Only the letters of ASCII have a case.
-/

namespace FiniteAutomata.Text

theorem toNat_toLower (c : Char) :
    c.toLower.toNat = if 65 ≤ c.toNat ∧ c.toNat ≤ 90 then c.toNat + 32 else c.toNat := by
  have hupper : c.val ≥ 'A'.val ∧ c.val ≤ 'Z'.val ↔ 65 ≤ c.toNat ∧ c.toNat ≤ 90 := by
    simp [ge_iff_le, UInt32.le_iff_toNat_le]
  unfold Char.toLower
  by_cases h : c.val ≥ 'A'.val ∧ c.val ≤ 'Z'.val
  · rw [dif_pos h, if_pos (hupper.1 h)]
    have h' : c.val.toNat ≤ 90 := (hupper.1 h).2
    change (c.val.toNat + 32) % 4294967296 = c.val.toNat + 32
    omega
  · rw [dif_neg h, if_neg (mt hupper.2 h)]

theorem toNat_toUpper (c : Char) :
    c.toUpper.toNat = if 97 ≤ c.toNat ∧ c.toNat ≤ 122 then c.toNat - 32 else c.toNat := by
  have hlower : 'a'.val ≤ c.val ∧ c.val ≤ 'z'.val ↔ 97 ≤ c.toNat ∧ c.toNat ≤ 122 := by
    simp [UInt32.le_iff_toNat_le]
  unfold Char.toUpper
  by_cases h : 'a'.val ≤ c.val ∧ c.val ≤ 'z'.val
  · rw [dif_pos h, if_pos (hlower.1 h)]
    have h' : 97 ≤ c.val.toNat := (hlower.1 h).1
    have hlt := c.val.toNat_lt
    -- The difference of the cases is negative, so it is added modulo `2 ^ 32`.
    have hdiff : ('A'.val - 'a'.val).toNat = 2 ^ 32 - 32 := by decide
    change (c.val + ('A'.val - 'a'.val)).toNat = c.val.toNat - 32
    rw [UInt32.toNat_add, hdiff]
    omega
  · rw [dif_neg h, if_neg (mt hlower.2 h)]

theorem isLower_iff {c : Char} : c.isLower ↔ 97 ≤ c.toNat ∧ c.toNat ≤ 122 := by
  change (decide (c.val ≥ 'a'.val) && decide (c.val ≤ 'z'.val)) = true ↔ _
  simp [ge_iff_le, UInt32.le_iff_toNat_le]

theorem toLower_eq_iff {c d : Char} (hd : d.isLower) :
    c.toLower = d ↔ c = d ∨ c = d.toUpper := by
  have hd' := isLower_iff.1 hd
  rw [← Char.toNat_inj, ← Char.toNat_inj, ← Char.toNat_inj, toNat_toLower, toNat_toUpper,
    if_pos hd']
  split <;> omega

theorem map_toLower_eq_iff {t w : List Char} (hw : ∀ d ∈ w, d.isLower) :
    t.map Char.toLower = w ↔ List.Forall₂ (fun c d => c = d ∨ c = d.toUpper) t w := by
  induction w generalizing t with
  | nil => simp
  | cons d w ih =>
      obtain ⟨hd, hw⟩ := List.forall_mem_cons.1 hw
      cases t with
      | nil => simp
      | cons c t => rw [List.map_cons, List.cons.injEq, List.forall₂_cons, toLower_eq_iff hd, ih hw]

end FiniteAutomata.Text
