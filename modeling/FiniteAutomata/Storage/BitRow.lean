/-!
# Rows of bits

A row of bits has a size and can grow. It can be asked for any bit, those beyond it being off, but
only its own bits can be set. The laws say what a row does, and nothing of what happens when a bit
beyond the row is set. `Bits` is a row that keeps its bits in a word.
-/

namespace FiniteAutomata

class BitRow (β : Type) where
  empty : β
  /-- A row of the given size. -/
  ofSize : Nat → β
  size : β → Nat
  test : β → Nat → Bool
  /-- The row with the given size, unless it is larger already. -/
  grow : β → Nat → β
  /-- Whether a bit of the row was on, and the row with the bit on. -/
  put? : β → Nat → Option (Bool × β)
  /-- The row with one of its bits as given. -/
  set? : β → Nat → Bool → Option β
  clear : β → β
  union : β → β → β
  isClear : β → Bool
  count : β → Nat
  /-- The indices of the bits that are on. -/
  ones : β → List Nat
  /-- The indices of the bits that are on in both rows. -/
  commonOnes : β → β → List Nat

open BitRow

class LawfulBitRow (β : Type) [BitRow β] : Prop where
  test_empty (i : Nat) : test (empty : β) i = false
  test_ofSize (n i : Nat) : test (ofSize n : β) i = false
  lt_size_of_test {b : β} {i : Nat} : test b i → i < size b
  size_grow (b : β) (n : Nat) : size (grow b n) = max (size b) n
  test_grow (b : β) (n i : Nat) : test (grow b n) i = test b i
  put?_eq_some {b : β} {i : Nat} : i < size b →
    ∃ c, put? b i = some (test b i, c) ∧ ∀ j, test c j = if j = i then true else test b j
  set?_eq_some {b : β} {i : Nat} (x : Bool) : i < size b →
    ∃ c, set? b i x = some c ∧ ∀ j, test c j = if j = i then x else test b j
  test_clear (b : β) (i : Nat) : test (clear b) i = false
  test_union {a b : β} : size b ≤ size a → ∀ i, test (union a b) i = (test a i || test b i)
  isClear_iff {b : β} : isClear b ↔ ∀ i, test b i = false
  count_eq (b : β) : count b = (List.range (size b)).countP (test b)
  ones_eq (b : β) : ones b = (List.range (size b)).filter (test b)
  mem_commonOnes {a b : β} {i : Nat} : i ∈ commonOnes a b ↔ test a i ∧ test b i

namespace LawfulBitRow

variable {β : Type} [BitRow β] [LawfulBitRow β] {c : Prop} [Decidable c]

theorem test_ite_grow (b : β) (n i : Nat) : test (if c then grow b n else b) i = test b i := by
  split
  · exact test_grow b n i
  · rfl

theorem le_size_ite_grow {b : β} {n : Nat} (h : ¬ c → n ≤ size b) :
    n ≤ size (if c then grow b n else b) := by
  split
  · rw [size_grow]
    exact Nat.le_max_right ..
  · exact h ‹_›

end LawfulBitRow

structure Bits where
  size : Nat
  word : BitVec size

namespace Bits

def write (b : Bits) (i : Nat) (x : Bool) : Bits :=
  ⟨b.size, if x then b.word ||| .twoPow _ i else b.word &&& ~~~ .twoPow _ i⟩

theorem getLsbD_write {b : Bits} {i : Nat} (hi : i < b.size) (x : Bool) (j : Nat) :
    (b.write i x).word.getLsbD j = if j = i then x else b.word.getLsbD j := by
  have hbeyond := b.word.getLsbD_of_ge j
  cases x <;> simp [write, BitVec.getLsbD_twoPow] <;> grind

instance : BitRow Bits where
  empty := ⟨0, 0⟩
  ofSize n := ⟨n, 0⟩
  size := size
  test b := b.word.getLsbD
  grow b n := ⟨max b.size n, b.word.setWidth _⟩
  put? b i := if i < b.size then some (b.word.getLsbD i, b.write i true) else none
  set? b i x := if i < b.size then some (b.write i x) else none
  clear b := ⟨b.size, 0⟩
  union a b := ⟨max a.size b.size, a.word.setWidth _ ||| b.word.setWidth _⟩
  isClear b := b.word = 0
  count b := (List.range b.size).countP b.word.getLsbD
  ones b := (List.range b.size).filter b.word.getLsbD
  commonOnes a b := (List.range a.size).filter fun i => a.word.getLsbD i && b.word.getLsbD i

theorem test_eq (b : Bits) (i : Nat) : test b i = b.word.getLsbD i := rfl

theorem getLsbD_setWidth_max (b : Bits) (n i : Nat) :
    (b.word.setWidth (max b.size n)).getLsbD i = b.word.getLsbD i := by
  have hbeyond := b.word.getLsbD_of_ge i
  grind [BitVec.getLsbD_setWidth]

instance : LawfulBitRow Bits where
  test_empty i := BitVec.getLsbD_zero
  test_ofSize n i := BitVec.getLsbD_zero
  lt_size_of_test := BitVec.lt_of_getLsbD
  size_grow b n := rfl
  test_grow b n i := b.getLsbD_setWidth_max n i
  put?_eq_some h := ⟨_, if_pos h, getLsbD_write h true⟩
  set?_eq_some x h := ⟨_, if_pos h, getLsbD_write h x⟩
  test_clear b i := BitVec.getLsbD_zero
  test_union {a b} _ i := by
    have ha := a.getLsbD_setWidth_max b.size i
    have hb := b.getLsbD_setWidth_max a.size i
    rw [Nat.max_comm] at hb
    exact BitVec.getLsbD_or.trans (by rw [ha, hb]; rfl)
  isClear_iff {b} := by
    simp only [isClear, decide_eq_true_eq, test_eq]
    constructor
    · intro h i
      rw [h, BitVec.ofNat_eq_ofNat, BitVec.getLsbD_zero]
    · intro h
      exact BitVec.eq_of_getLsbD_eq fun i _ => by simp [h]
  count_eq b := rfl
  ones_eq b := rfl
  mem_commonOnes {a b i} := by
    have hlt := a.word.lt_of_getLsbD (i := i)
    simp only [commonOnes, List.mem_filter, List.mem_range, Bool.and_eq_true, test_eq]
    exact ⟨And.right, fun h => ⟨hlt h.1, h⟩⟩

end Bits

end FiniteAutomata
