import Mathlib.Data.List.Forall2

/-!
# Readers of several parts

A reader that takes parts one after another gives the values of all of them, or the fault of the
first one that has a fault.
-/

namespace FiniteAutomata

variable {α β ε : Type} {f : α → Except ε β}

theorem bind_eq_ok_iff {x : Except ε α} {b : β} :
    x >>= f = .ok b ↔ ∃ a, x = .ok a ∧ f a = .ok b := by
  cases x <;> simp [bind, Except.bind]

theorem bind_eq_error_iff {x : Except ε α} {e : ε} :
    x >>= f = .error e ↔ x = .error e ∨ ∃ a, x = .ok a ∧ f a = .error e := by
  cases x <;> simp [bind, Except.bind]

theorem mapM_cons_eq_ok_iff {x : α} {l : List α} {ys : List β} : (x :: l).mapM f = .ok ys ↔
    ∃ y zs, f x = .ok y ∧ l.mapM f = .ok zs ∧ ys = y :: zs := by
  simp [List.mapM_cons, bind_eq_ok_iff, pure, Except.pure, eq_comm (a := ys)]

theorem mapM_cons_eq_error_iff {x : α} {l : List α} {e : ε} : (x :: l).mapM f = .error e ↔
    f x = .error e ∨ (∃ y, f x = .ok y) ∧ l.mapM f = .error e := by
  simp [List.mapM_cons, bind_eq_error_iff, pure, Except.pure]

theorem mapM_eq_ok_iff {R : α → β → Prop} (hR : ∀ x y, f x = .ok y ↔ R x y) {l : List α}
    {ys : List β} : l.mapM f = .ok ys ↔ List.Forall₂ R l ys := by
  induction l generalizing ys with
  | nil => simp [pure, Except.pure, eq_comm]
  | cons x l ih => simp only [mapM_cons_eq_ok_iff, hR, ih, List.forall₂_cons_left_iff]

/-- The first element of its kind is the head of a list, or the head is to be passed over. -/
theorem first_cons_iff {P : α → Prop} {Q : Nat → α → Prop} {x : α} {l : List α} :
    (∃ before y after, x :: l = before ++ y :: after ∧ (∀ z ∈ before, P z) ∧ Q before.length y) ↔
      Q 0 x ∨ P x ∧ ∃ before y after, l = before ++ y :: after ∧ (∀ z ∈ before, P z) ∧
        Q (before.length + 1) y := by
  constructor
  · intro h
    obtain ⟨before, y, after, hl, hbefore, hy⟩ := h
    cases before with
    | nil =>
        obtain ⟨rfl, -⟩ := List.cons.inj hl
        exact .inl hy
    | cons z before =>
        obtain ⟨rfl, rfl⟩ := List.cons.inj hl
        obtain ⟨hx, hbefore⟩ := List.forall_mem_cons.1 hbefore
        exact .inr ⟨hx, before, y, after, rfl, hbefore, hy⟩
  · intro h
    cases h with
    | inl hx => exact ⟨[], x, l, rfl, by simp, hx⟩
    | inr h =>
        obtain ⟨hx, before, y, after, rfl, hbefore, hy⟩ := h
        exact ⟨x :: before, y, after, rfl, List.forall_mem_cons.2 ⟨hx, hbefore⟩, hy⟩

theorem mapM_eq_error_iff {R : α → β → Prop} (hR : ∀ x y, f x = .ok y ↔ R x y) {l : List α}
    {e : ε} : l.mapM f = .error e ↔
      ∃ before x after, l = before ++ x :: after ∧ (∀ y ∈ before, ∃ b, R y b) ∧ f x = .error e := by
  induction l with
  | nil => simp [pure, Except.pure]
  | cons x l ih =>
      simp only [mapM_cons_eq_error_iff, ih, hR]
      exact (first_cons_iff (P := fun y => ∃ b, R y b) (Q := fun _ y => f y = .error e)).symm

end FiniteAutomata
