import FiniteAutomata.OrderedSet.Basic

/-!
# Members of ordered sets

What each operation does is stated by the members of its result. `ext_mem` is what makes this
enough: a set is determined by its members.
-/

universe u v

namespace FiniteAutomata.OrderedSet

section Views

variable {α : Type u} [LT α]

@[simp] theorem mem_toList {s : OrderedSet α} {a : α} : a ∈ s.toList ↔ a ∈ s := Iff.rfl

@[simp] theorem not_mem_empty (a : α) : a ∉ (∅ : OrderedSet α) := List.not_mem_nil

@[simp] theorem toList_empty : (∅ : OrderedSet α).toList = [] := rfl

@[simp] theorem emptyWithCapacity_eq (n : Nat) : emptyWithCapacity n = (∅ : OrderedSet α) := rfl

@[simp] theorem mem_singleton {a b : α} : b ∈ singleton a ↔ b = a := List.mem_singleton

@[simp] theorem mem_filter {p : α → Bool} {s : OrderedSet α} {a : α} :
    a ∈ s.filter p ↔ a ∈ s ∧ p a := List.mem_filter

theorem isEmpty_iff_forall_not_mem {s : OrderedSet α} : s.isEmpty ↔ ∀ a, a ∉ s := by
  simp only [isEmpty, List.isEmpty_iff, ← mem_toList, List.eq_nil_iff_forall_not_mem]

theorem isEmpty_iff {s : OrderedSet α} : s.isEmpty ↔ s = ∅ := by
  cases s with
  | mk l h => cases l <;> simp [isEmpty, EmptyCollection.emptyCollection]

theorem exists_mem_of_ne_empty {s : OrderedSet α} (h : s ≠ ∅) : ∃ a, a ∈ s := by
  refine List.exists_mem_of_ne_nil s.toList fun hnil => h (isEmpty_iff.1 ?_)
  exact List.isEmpty_iff.2 hnil

theorem only?_eq_some_iff {s : OrderedSet α} {a : α} : s.only? = some a ↔ s.toList = [a] := by
  unfold only?
  split <;> simp_all

theorem only?_eq_some_iff_eq_singleton {s : OrderedSet α} {a : α} :
    s.only? = some a ↔ s = singleton a := by
  rw [only?_eq_some_iff]
  cases s
  simp [singleton]

variable [DecidableEq α]

@[simp] theorem mem_erase {s : OrderedSet α} {a b : α} : b ∈ s.erase a ↔ b ∈ s ∧ b ≠ a := by
  simp [erase]

@[simp] theorem isSubset_iff {s t : OrderedSet α} : s.isSubset t ↔ ∀ a ∈ s, a ∈ t := by
  simp [isSubset]

@[simp] theorem intersects_iff {s t : OrderedSet α} : s.intersects t ↔ ∃ a ∈ s, a ∈ t := by
  simp [intersects]

end Views

section Building

variable {α : Type u} [LT α] [LE α] [Std.IsLinearOrder α] [Std.LawfulOrderLT α]

theorem eq_of_forall_mem_iff {l m : List α} (hl : l.Pairwise (· < ·)) (hm : m.Pairwise (· < ·))
    (h : ∀ a, a ∈ l ↔ a ∈ m) : l = m := by
  induction l generalizing m with
  | nil => exact (List.eq_nil_iff_forall_not_mem.2 fun a ha => by simpa using (h a).2 ha).symm
  | cons b l ih =>
    cases m with
    | nil => exact absurd ((h b).1 (by simp)) (by simp)
    | cons c m =>
      rw [List.pairwise_cons] at hl hm
      have hbc : b = c := by
        have hb := (h b).1 (by simp)
        have hc := (h c).2 (by simp)
        grind
      subst hbc
      refine congrArg (b :: ·) (ih hl.2 hm.2 fun a => ?_)
      have ha := h a
      grind

/-- A set is determined by its members. -/
theorem ext_mem {s t : OrderedSet α} (h : ∀ a, a ∈ s ↔ a ∈ t) : s = t := by
  cases s with
  | mk l hl =>
    cases t with
    | mk m hm =>
      have hlm : l = m := eq_of_forall_mem_iff hl hm h
      subst hlm
      rfl

omit [Std.IsLinearOrder α] in
theorem size_le_one_iff {s : OrderedSet α} : s.size ≤ 1 ↔ ∀ a ∈ s, ∀ b ∈ s, a = b := by
  obtain ⟨l, hl⟩ := s
  change l.length ≤ 1 ↔ ∀ a ∈ l, ∀ b ∈ l, a = b
  match l with
  | [] => simp
  | [a] => simp
  | a :: b :: l =>
      have hab : a < b := List.rel_of_pairwise_cons hl List.mem_cons_self
      simp only [List.length_cons, Nat.reduceLeDiff, false_iff]
      intro h
      rw [h a (by simp) b (by simp)] at hab
      exact Std.lt_irrefl hab

theorem only?_eq_some_iff_mem {s : OrderedSet α} {a : α} :
    s.only? = some a ↔ ∀ b, b ∈ s ↔ b = a := by
  rw [only?_eq_some_iff]
  constructor
  · intro h b
    rw [← mem_toList, h, List.mem_singleton]
  · intro h
    exact congrArg toList (ext_mem (t := singleton a) fun b => by simpa using h b)

variable [DecidableLT α]

@[simp] theorem mem_insert {s : OrderedSet α} {a b : α} : b ∈ s.insert a ↔ b = a ∨ b ∈ s :=
  mem_place

@[simp] theorem mem_ofList {l : List α} {a : α} : a ∈ ofList l ↔ a ∈ l := by
  induction l with
  | nil => simp [ofList]
  | cons b l ih => simpa [ofList] using or_congr Iff.rfl ih

@[simp] theorem mem_union {s t : OrderedSet α} {a : α} : a ∈ s ∪ t ↔ a ∈ s ∨ a ∈ t := by
  change a ∈ ofList (s.toList ++ t.toList) ↔ _
  simp

@[simp] theorem mem_bind {β : Type v} [LT β] {s : OrderedSet β} {f : β → OrderedSet α} {a : α} :
    a ∈ s.bind f ↔ ∃ b ∈ s, a ∈ f b := by
  simp [bind]

omit [LE α] [Std.IsLinearOrder α] [Std.LawfulOrderLT α] in
theorem length_place_le (a : α) (l : List α) : (place a l).length ≤ l.length + 1 := by
  induction l with
  | nil => exact Nat.le_refl _
  | cons b l ih => grind [place]

theorem length_place_of_not_mem {a : α} {l : List α} (h : a ∉ l) :
    (place a l).length = l.length + 1 := by
  induction l with
  | nil => rfl
  | cons b l ih => grind [place]

theorem size_insert_of_not_mem {s : OrderedSet α} {a : α} (h : a ∉ s) :
    (s.insert a).size = s.size + 1 := length_place_of_not_mem h

theorem size_ofList_le (l : List α) : (ofList l).size ≤ l.length := by
  induction l with
  | nil => exact Nat.le_refl _
  | cons a l ih => exact Nat.le_trans (length_place_le a _) (Nat.succ_le_succ ih)

@[simp] theorem ofList_toList (s : OrderedSet α) : ofList s.toList = s := ext_mem (by simp)

end Building

end FiniteAutomata.OrderedSet
