import FiniteAutomata.OrderedSet.Lemmas
import FiniteAutomata.Text.Braces

/-!
# States

A state is a number of 32 bits, written `q` and the number. Sets of states are ordered by it.
-/

namespace FiniteAutomata

structure StateId where
  raw : UInt32
  deriving DecidableEq, Hashable, Repr

namespace StateId

def ofNat (n : Nat) : StateId := ⟨.ofNat n⟩

theorem ofNat_inj {m n : Nat} (hm : m < UInt32.size) (hn : n < UInt32.size) :
    ofNat m = ofNat n ↔ m = n := by
  constructor
  · intro h
    have hraw := congrArg (fun q => q.raw.toNat) h
    simpa [ofNat, UInt32.toNat_ofNat_of_lt' hm, UInt32.toNat_ofNat_of_lt' hn] using hraw
  · intro h
    rw [h]

instance : LE StateId := ⟨fun p q => p.raw ≤ q.raw⟩

instance : LT StateId := ⟨fun p q => p.raw < q.raw⟩

instance : DecidableLT StateId := fun p q => inferInstanceAs (Decidable (p.raw < q.raw))

theorem lt_iff_raw_lt {p q : StateId} : p < q ↔ p.raw < q.raw := Iff.rfl

theorem eq_iff_raw_eq {p q : StateId} : p = q ↔ p.raw = q.raw := by
  cases p
  cases q
  simp

instance : Std.IsLinearOrder StateId where
  le_refl p := Std.le_refl p.raw
  le_trans _ _ _ hpq hqr := Std.le_trans (α := UInt32) hpq hqr
  le_antisymm _ _ hpq hqp := eq_iff_raw_eq.2 (Std.le_antisymm (α := UInt32) hpq hqp)
  le_total p q := Std.le_total (a := p.raw) (b := q.raw)

instance : Std.LawfulOrderLT StateId where
  lt_iff p q := Std.lt_iff_le_and_not_ge (a := p.raw) (b := q.raw)

protected def toString (q : StateId) : String := s!"q{q.raw.toNat}"

instance : ToString StateId := ⟨StateId.toString⟩

end StateId

abbrev StateSet := OrderedSet StateId

def StateSet.describe (s : StateSet) : String := Text.inBraces (s.toList.map toString)

end FiniteAutomata
