import FiniteAutomata.Transition.Move

/-!
# Determinism of one state

A state is deterministic when no edge that leaves it carries the empty symbol and no character is
on its edges to two different targets. `Determinism.check` decides this for the state that an edit
would leave behind, and names the first fault in the order of the edges.
-/

namespace FiniteAutomata

structure Exit where
  symbol : Symbol
  target : StateId
  deriving DecidableEq, Repr

namespace Exit

def ofLabel (label : Label) (target : StateId) : List Exit := label.toList.map fun a => ⟨a, target⟩

theorem mem_ofLabel {label : Label} {target : StateId} {x : Exit} :
    x ∈ ofLabel label target ↔ x.symbol ∈ label ∧ x.target = target := by
  simp only [ofLabel, List.mem_map, OrderedSet.mem_toList]
  constructor
  · rintro ⟨a, ha, rfl⟩
    exact ⟨ha, rfl⟩
  · rintro ⟨ha, rfl⟩
    exact ⟨x.symbol, ha, rfl⟩

end Exit

namespace Determinism

structure HoldsAt (edges : List Edge) (q : StateId) : Prop where
  epsilon_not_mem : ∀ e ∈ edges, e.source = q → Symbol.epsilon ∉ e.label
  target_eq : ∀ e ∈ edges, ∀ f ∈ edges, e.source = q → f.source = q →
    ∀ a, a ∈ e.label → a ∈ f.label → e.target = f.target

instance (edges : List Edge) (q : StateId) : Decidable (HoldsAt edges q) :=
  decidable_of_iff ((∀ e ∈ edges, e.source = q → Symbol.epsilon ∉ e.label) ∧
      ∀ e ∈ edges, ∀ f ∈ edges, e.source = q → f.source = q →
        e.label.intersects f.label → e.target = f.target)
    ⟨fun h => ⟨h.1, fun e he f hf hq hq' a ha ha' =>
        h.2 e he f hf hq hq' (OrderedSet.intersects_iff.2 ⟨a, ha, ha'⟩)⟩,
      fun h => ⟨h.epsilon_not_mem, fun e he f hf hq hq' hlabels =>
        have ⟨a, ha, ha'⟩ := OrderedSet.intersects_iff.1 hlabels
        h.target_eq e he f hf hq hq' a ha ha'⟩⟩

/-- Only the edges that leave a state count. -/
theorem HoldsAt.of_forall_mem {edges edges' : List Edge} {q : StateId} (h : HoldsAt edges q)
    (hsub : ∀ e ∈ edges', e.source = q → e ∈ edges) : HoldsAt edges' q where
  epsilon_not_mem e he hq := h.epsilon_not_mem e (hsub e he hq) hq
  target_eq e he f hf hq hq' := h.target_eq e (hsub e he hq) f (hsub f hf hq') hq hq'

def Holds (exits : List Exit) : Prop :=
  (∀ x ∈ exits, x.symbol ≠ .epsilon) ∧
    ∀ x ∈ exits, ∀ y ∈ exits, x.symbol = y.symbol → x.target = y.target

theorem holds_nil : Holds [] := ⟨nofun, nofun⟩

theorem holds_cons_iff {x : Exit} {exits : List Exit} :
    Holds (x :: exits) ↔ x.symbol ≠ .epsilon ∧
      (∀ y ∈ exits, x.symbol = y.symbol → x.target = y.target) ∧ Holds exits := by
  simp only [Holds, List.forall_mem_cons]
  constructor
  · rintro ⟨⟨hx, hexits⟩, ⟨-, hxy⟩, hpairs⟩
    exact ⟨hx, hxy, hexits, fun y hy => (hpairs y hy).2⟩
  · rintro ⟨hx, hxy, hexits, hpairs⟩
    refine ⟨⟨hx, hexits⟩, ⟨fun _ => trivial, hxy⟩, fun y hy => ⟨?_, hpairs y hy⟩⟩
    intro hsymbol
    exact (hxy y hy hsymbol.symm).symm

/-- The exits of `source` once its edge to `target` carries `proposed`: those of its other edges,
then those proposed. The label that the edge carries now does not count. -/
def exitsAfter (edges : List Edge) (source target : StateId) (proposed : Label) : List Exit :=
  (edges.filter fun e => e.source = source ∧ e.target ≠ target).flatMap
    (fun e => Exit.ofLabel e.label e.target) ++ Exit.ofLabel proposed target

theorem mem_exitsAfter {edges : List Edge} {source target : StateId} {proposed : Label} {x : Exit} :
    x ∈ exitsAfter edges source target proposed ↔
      (∃ e ∈ edges, e.source = source ∧ e.target ≠ target ∧ x.symbol ∈ e.label ∧
        x.target = e.target) ∨ x.symbol ∈ proposed ∧ x.target = target := by
  simp [exitsAfter, Exit.mem_ofLabel, and_assoc]

/-- Goes through the exits of `q` in order, `seen` being those it has passed. -/
def scan (q : StateId) (seen : List Exit) : List Exit → Except EditError Unit
  | [] => .ok ()
  | x :: rest =>
    if x.symbol.isEpsilon then .error .epsilonNotAllowed
    else if seen.any fun y => y.symbol = x.symbol ∧ y.target ≠ x.target then
      .error (.determinismConflict q x.symbol)
    else scan q (x :: seen) rest

/-- The exits that are passed need not hold among themselves. -/
theorem scan_eq_ok_iff {q : StateId} {seen exits : List Exit} : scan q seen exits = .ok () ↔
    (∀ y ∈ seen, ∀ x ∈ exits, y.symbol = x.symbol → y.target = x.target) ∧ Holds exits := by
  induction exits generalizing seen with
  | nil => simp [scan, holds_nil]
  | cons x rest ih =>
      rw [holds_cons_iff, scan]
      by_cases hx : x.symbol = .epsilon
      · simp [hx]
      · by_cases hclash : ∃ y ∈ seen, y.symbol = x.symbol ∧ y.target ≠ x.target
        · obtain ⟨y, hy, hsymbol, htarget⟩ := hclash
          have hany : seen.any fun y => y.symbol = x.symbol ∧ y.target ≠ x.target :=
            List.any_eq_true.2 ⟨y, hy, by simp [hsymbol, htarget]⟩
          simp only [Symbol.isEpsilon_iff, hx, if_false, hany, if_true, reduceCtorEq, false_iff]
          rintro ⟨hseen, -⟩
          exact htarget (hseen y hy x List.mem_cons_self hsymbol)
        · have hagree : ∀ y ∈ seen, y.symbol = x.symbol → y.target = x.target := by
            simpa using hclash
          have hany : (seen.any fun y => y.symbol = x.symbol ∧ y.target ≠ x.target) = false := by
            simpa using hagree
          simp only [Symbol.isEpsilon_iff, hx, if_false, hany, Bool.false_eq_true, ih,
            List.forall_mem_cons]
          constructor
          · rintro ⟨⟨hx', hseen⟩, hrest⟩
            exact ⟨fun y hy => ⟨hagree y hy, hseen y hy⟩, hx, hx', hrest⟩
          · rintro ⟨hseen, -, hx', hrest⟩
            exact ⟨⟨hx', fun y hy => (hseen y hy).2⟩, hrest⟩

/-- Whether `source` stays deterministic when its edge to `target` gets the label `proposed`. An
empty symbol proposed is the fault named first. -/
def check (edges : List Edge) (source target : StateId) (proposed : Label) :
    Except EditError Unit :=
  if Symbol.epsilon ∈ proposed then .error .epsilonNotAllowed
  else scan source [] (exitsAfter edges source target proposed)

/-- The check decides determinism of the exits that the edit would leave. -/
theorem check_eq_ok_iff {edges : List Edge} {source target : StateId} {proposed : Label} :
    check edges source target proposed = .ok () ↔
      Holds (exitsAfter edges source target proposed) := by
  unfold check
  by_cases h : Symbol.epsilon ∈ proposed
  · have hx : ⟨.epsilon, target⟩ ∈ exitsAfter edges source target proposed :=
      mem_exitsAfter.2 (.inr ⟨h, rfl⟩)
    simp only [h, if_true, reduceCtorEq, false_iff]
    intro hholds
    exact hholds.1 _ hx rfl
  · simp [h, scan_eq_ok_iff]

end Determinism

end FiniteAutomata
