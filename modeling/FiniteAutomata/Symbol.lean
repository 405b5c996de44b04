import FiniteAutomata.OrderedSet.Lemmas

/-!
# Symbols

A transition reads a character or nothing. The symbol for nothing is written `ε` and comes before
every character. `Symbol.char 'ε'` reads the letter itself: the two symbols are written alike, but
only `Symbol.ofChar` takes the letter to mean nothing.
-/

namespace FiniteAutomata

inductive Symbol
  | epsilon
  | char (c : Char)
  deriving DecidableEq, Repr

namespace Symbol

def ofChar (c : Char) : Symbol := if c = 'ε' then epsilon else char c

def isEpsilon : Symbol → Bool
  | epsilon => true
  | char _ => false

def char? : Symbol → Option Char
  | epsilon => none
  | char c => some c

instance : Hashable Symbol := ⟨fun a => hash (a.char?.map Char.toNat)⟩

def glyph : Symbol → Char
  | epsilon => 'ε'
  | char c => c

@[simp] theorem isEpsilon_iff {a : Symbol} : a.isEpsilon ↔ a = epsilon := by
  cases a <;> simp [isEpsilon]

@[simp] theorem char?_eq_some_iff {a : Symbol} {c : Char} : a.char? = some c ↔ a = char c := by
  cases a <;> simp [char?]

theorem ofChar_eq_char_iff {c d : Char} : ofChar c = char d ↔ c = d ∧ d ≠ 'ε' := by
  by_cases hc : c = 'ε'
  · simp +contextual [ofChar, hc, eq_comm]
  · rw [ofChar, if_neg hc, char.injEq]
    exact ⟨fun h => ⟨h, h ▸ hc⟩, And.left⟩

theorem ofChar_glyph {a : Symbol} (h : a ≠ char 'ε') : ofChar a.glyph = a := by
  cases a with
  | epsilon => rfl
  | char c =>
    have hc : c ≠ 'ε' := fun e => h (congrArg char e)
    simp [glyph, ofChar, hc]

protected def le : Symbol → Symbol → Prop
  | epsilon, _ => True
  | char _, epsilon => False
  | char c, char d => c ≤ d

protected def lt : Symbol → Symbol → Prop
  | _, epsilon => False
  | epsilon, char _ => True
  | char c, char d => c < d

instance : LE Symbol := ⟨Symbol.le⟩

instance : LT Symbol := ⟨Symbol.lt⟩

@[simp] theorem epsilon_le (a : Symbol) : epsilon ≤ a := True.intro

@[simp] theorem not_char_le_epsilon (c : Char) : ¬ char c ≤ epsilon := id

@[simp] theorem char_le_char {c d : Char} : char c ≤ char d ↔ c ≤ d := Iff.rfl

@[simp] theorem not_lt_epsilon (a : Symbol) : ¬ a < epsilon := by
  cases a <;> exact id

@[simp] theorem epsilon_lt_char (c : Char) : epsilon < char c := True.intro

@[simp] theorem char_lt_char {c d : Char} : char c < char d ↔ c < d := Iff.rfl

instance : DecidableLT Symbol
  | a, epsilon => .isFalse (not_lt_epsilon a)
  | epsilon, char c => .isTrue (epsilon_lt_char c)
  | char c, char d => inferInstanceAs (Decidable (c < d))

instance : Std.IsLinearOrder Symbol where
  le_refl
    | epsilon => epsilon_le epsilon
    | char c => Std.le_refl c
  le_trans
    | epsilon, _, c, _, _ => epsilon_le c
    | char _, char _, char _, hab, hbc => Std.le_trans (α := Char) hab hbc
  le_antisymm
    | epsilon, epsilon, _, _ => rfl
    | char _, char _, hab, hba => congrArg char (Std.le_antisymm (α := Char) hab hba)
  le_total
    | epsilon, b => .inl (epsilon_le b)
    | char c, epsilon => .inr (epsilon_le (char c))
    | char c, char d => Std.le_total (a := c) (b := d)

instance : Std.LawfulOrderLT Symbol where
  lt_iff
    | a, epsilon => ⟨fun h => absurd h (not_lt_epsilon a), fun h => absurd (epsilon_le a) h.2⟩
    | epsilon, char c =>
      ⟨fun _ => ⟨epsilon_le _, not_char_le_epsilon c⟩, fun _ => epsilon_lt_char c⟩
    | char c, char d => Std.lt_iff_le_and_not_ge (a := c) (b := d)

end Symbol

end FiniteAutomata
