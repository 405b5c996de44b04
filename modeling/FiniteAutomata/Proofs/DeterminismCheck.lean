import FiniteAutomata.Diagram.Basic
import Mathlib.Data.List.Basic

/-!
# What the check of an edit decides

An edit would leave a state with the exits of its edges to other targets and with those of the label
proposed. The check passes exactly if the state is deterministic with these exits, and a fault that
it names is one of them. The label that the edge carries before plays no part, nor does the order of
the edges.
-/

namespace FiniteAutomata.Determinism

inductive ExitAfter (edges : List Edge) (source target : StateId) (proposed : Label) : Exit → Prop
  | other {e : Edge} {a : Symbol} : e ∈ edges → e.source = source → e.target ≠ target →
      a ∈ e.label → ExitAfter edges source target proposed ⟨a, e.target⟩
  | proposed {a : Symbol} : a ∈ proposed → ExitAfter edges source target proposed ⟨a, target⟩

/-- What an error says of the state `q` is true of its exits. -/
inductive Names (q : StateId) (exits : Exit → Prop) : EditError → Prop
  | epsilon {x : Exit} : exits x → x.symbol = .epsilon → Names q exits .epsilonNotAllowed
  | conflict {x y : Exit} {c : Char} : exits x → exits y → x.symbol = .char c →
      y.symbol = .char c → x.target ≠ y.target → Names q exits (.determinismConflict q (.char c))

theorem Names.mono {q : StateId} {exits exits' : Exit → Prop} {f : EditError}
    (h : Names q exits f) (hsub : ∀ x, exits x → exits' x) : Names q exits' f := by
  cases h with
  | epsilon hx hsymbol => exact .epsilon (hsub _ hx) hsymbol
  | conflict hx hy hsymbol hsymbol' htarget =>
      exact .conflict (hsub _ hx) (hsub _ hy) hsymbol hsymbol' htarget

variable {edges : List Edge} {source target : StateId} {proposed : Label} {f : EditError}

theorem exitAfter_iff {x : Exit} : ExitAfter edges source target proposed x ↔
    x ∈ exitsAfter edges source target proposed := by
  rw [mem_exitsAfter]
  constructor
  · intro h
    cases h with
    | other he hs ht ha => exact .inl ⟨_, he, hs, ht, ha, rfl⟩
    | proposed ha => exact .inr ⟨ha, rfl⟩
  · intro h
    obtain ⟨a, q⟩ := x
    rcases h with ⟨e, he, hs, ht, ha, rfl⟩ | ⟨ha, rfl⟩
    · exact .other he hs ht ha
    · exact .proposed ha

/-- The exits passed are named as well as those to come. -/
theorem names_of_scan {q : StateId} {seen exits : List Exit} (h : scan q seen exits = .error f) :
    Names q (· ∈ seen ++ exits) f := by
  induction exits generalizing seen with
  | nil => cases h
  | cons x rest ih =>
      have hx : x ∈ seen ++ x :: rest := List.mem_append_right _ List.mem_cons_self
      rw [scan] at h
      split_ifs at h with hepsilon hclash
      · cases h
        exact .epsilon hx (Symbol.isEpsilon_iff.1 hepsilon)
      · obtain ⟨y, hy, hxy⟩ := List.any_eq_true.1 hclash
        obtain ⟨hsymbol, htarget⟩ := of_decide_eq_true hxy
        cases hc : x.symbol with
        | epsilon => exact absurd (Symbol.isEpsilon_iff.2 hc) hepsilon
        | char c =>
            rw [hc] at h hsymbol
            cases h
            exact .conflict (List.mem_append_left _ hy) hx hsymbol hc htarget
      · exact (ih h).mono fun y hy => List.perm_middle.mem_iff.2 hy

theorem check_of_epsilon_mem (h : .epsilon ∈ proposed) :
    check edges source target proposed = .error .epsilonNotAllowed := if_pos h

theorem names_of_check (h : check edges source target proposed = .error f) :
    Names source (ExitAfter edges source target proposed) f := by
  by_cases hepsilon : Symbol.epsilon ∈ proposed
  · rw [check_of_epsilon_mem hepsilon] at h
    cases h
    exact .epsilon (.proposed hepsilon) rfl
  · rw [check, if_neg hepsilon] at h
    exact (names_of_scan h).mono fun x hx => exitAfter_iff.2 hx

theorem check_eq_ok_iff_exitAfter : check edges source target proposed = .ok () ↔
    (∀ x, ExitAfter edges source target proposed x → x.symbol ≠ .epsilon) ∧
      ∀ x, ExitAfter edges source target proposed x →
        ∀ y, ExitAfter edges source target proposed y → x.symbol = y.symbol →
          x.target = y.target := by
  simp only [check_eq_ok_iff, Holds, exitAfter_iff]

/-- The edges are looked at in their order, but whether the check passes depends on their set. -/
theorem check_eq_ok_congr {edges' : List Edge} (h : ∀ e, e ∈ edges' ↔ e ∈ edges) :
    check edges' source target proposed = .ok () ↔
      check edges source target proposed = .ok () := by
  have hexits : ∀ x, ExitAfter edges' source target proposed x ↔
      ExitAfter edges source target proposed x := by
    intro x
    simp only [exitAfter_iff, mem_exitsAfter, h]
  simp only [check_eq_ok_iff_exitAfter, hexits]

/-- The edge edited is passed over, as often as it is there. -/
theorem check_filter_not_joins (edges : List Edge) (source target : StateId) (proposed : Label) :
    check (edges.filter (! ·.joins source target)) source target proposed =
      check edges source target proposed := by
  have hothers : (edges.filter (! ·.joins source target)).filter
      (fun e => e.source = source ∧ e.target ≠ target) =
        edges.filter fun e => e.source = source ∧ e.target ≠ target := by
    rw [List.filter_filter]
    refine List.filter_congr fun e _ => ?_
    by_cases hs : e.source = source <;> simp [Edge.joins, hs]
  simp only [check, exitsAfter, hothers]

theorem exitAfter_iff_of_edges {x : Exit} : ExitAfter edges source target proposed x ↔
    ∃ e ∈ edges.filter (! ·.joins source target) ++ [⟨source, target, proposed⟩],
      e.source = source ∧ x.symbol ∈ e.label ∧ x.target = e.target := by
  rw [exitAfter_iff, mem_exitsAfter]
  constructor
  · intro h
    rcases h with ⟨e, he, hs, ht, ha, hx⟩ | ⟨ha, hx⟩
    · have hkept : e ∈ edges.filter (! ·.joins source target) := by
        simp [he, Edge.joins, ht]
      exact ⟨e, List.mem_append_left _ hkept, hs, ha, hx⟩
    · exact ⟨_, List.mem_append_right _ List.mem_cons_self, rfl, ha, hx⟩
  · intro h
    obtain ⟨e, he, hs, ha, hx⟩ := h
    rcases List.mem_append.1 he with he | he
    · obtain ⟨he, hjoins⟩ := List.mem_filter.1 he
      have ht : e.target ≠ target := by simpa [Edge.joins, hs] using hjoins
      exact .inl ⟨e, he, hs, ht, ha, hx⟩
    · rw [List.mem_singleton] at he
      subst he
      exact .inr ⟨ha, hx⟩

/-- The check decides determinism of the source among the edges that the edit would leave. -/
theorem check_eq_ok_iff_holdsAt : check edges source target proposed = .ok () ↔
    HoldsAt (edges.filter (! ·.joins source target) ++ [⟨source, target, proposed⟩]) source := by
  rw [check_eq_ok_iff_exitAfter]
  simp only [exitAfter_iff_of_edges]
  constructor
  · intro h
    obtain ⟨hepsilon, htarget⟩ := h
    exact {
      epsilon_not_mem := fun e he hs ha => hepsilon ⟨.epsilon, e.target⟩ ⟨e, he, hs, ha, rfl⟩ rfl
      target_eq := fun e he e' he' hs hs' a ha ha' =>
        htarget ⟨a, e.target⟩ ⟨e, he, hs, ha, rfl⟩ ⟨a, e'.target⟩ ⟨e', he', hs', ha', rfl⟩ rfl }
  · intro h
    refine ⟨fun x hx hsymbol => ?_, fun x hx y hy hsymbol => ?_⟩
    · obtain ⟨e, he, hs, ha, -⟩ := hx
      exact h.epsilon_not_mem e he hs (hsymbol ▸ ha)
    · obtain ⟨e, he, hs, ha, htarget⟩ := hx
      obtain ⟨e', he', hs', ha', htarget'⟩ := hy
      rw [htarget, htarget']
      exact h.target_eq e he e' he' hs hs' _ ha (hsymbol ▸ ha')

/-- Whatever edges there are, the check passes exactly if the source is deterministic with the exits
that the edit would leave, those on the edge edited being the ones proposed. Otherwise it names a
fault that these exits have; the empty symbol proposed is always named. -/
theorem check_decides_determinism (edges : List Edge) (source target : StateId)
    (proposed : Label) :
    (check edges source target proposed = .ok () ↔
      (∀ x, ExitAfter edges source target proposed x → x.symbol ≠ .epsilon) ∧
        ∀ x, ExitAfter edges source target proposed x →
          ∀ y, ExitAfter edges source target proposed y → x.symbol = y.symbol →
            x.target = y.target) ∧
      (check edges source target proposed = .ok () ↔
        HoldsAt (edges.filter (! ·.joins source target) ++ [⟨source, target, proposed⟩]) source) ∧
      (∀ f, check edges source target proposed = .error f →
        Names source (ExitAfter edges source target proposed) f) ∧
      (.epsilon ∈ proposed → check edges source target proposed = .error .epsilonNotAllowed) ∧
      (∀ edges', edges'.Perm edges → (check edges' source target proposed = .ok () ↔
        check edges source target proposed = .ok ())) ∧
      check (edges.filter (! ·.joins source target)) source target proposed =
        check edges source target proposed :=
  ⟨check_eq_ok_iff_exitAfter, check_eq_ok_iff_holdsAt, fun _ h => names_of_check h,
    check_of_epsilon_mem, fun _ hperm => check_eq_ok_congr fun _ => hperm.mem_iff,
    check_filter_not_joins edges source target proposed⟩

/-- Two edges lead from `q0` to `q1`, and one of them is in conflict with the edge to `q2`. A label
for this edge that leaves `a` out passes, in another order of the edges too; a label for an edge to
`q3` meets the conflict, and with the empty symbol it is refused for this. -/
theorem conflict_ended_or_met :
    let edges : List Edge := [⟨.ofNat 0, .ofNat 1, .ofList [.char 'a']⟩,
      ⟨.ofNat 0, .ofNat 2, .ofList [.char 'a', .char 'b']⟩,
      ⟨.ofNat 0, .ofNat 1, .ofList [.char 'c']⟩]
    let f := EditError.determinismConflict (.ofNat 0) (.char 'a')
    check edges (.ofNat 0) (.ofNat 2) (.ofList [.char 'b']) = .ok () ∧
      check edges.reverse (.ofNat 0) (.ofNat 2) (.ofList [.char 'b']) = .ok () ∧
      check edges (.ofNat 0) (.ofNat 3) (.ofList [.char 'd']) = .error f ∧
      Names (.ofNat 0) (ExitAfter edges (.ofNat 0) (.ofNat 3) (.ofList [.char 'd'])) f ∧
      check edges (.ofNat 0) (.ofNat 3) (.ofList [.char 'a', .epsilon]) =
        .error .epsilonNotAllowed := by
  intro edges f
  have hok : check edges (.ofNat 0) (.ofNat 2) (.ofList [.char 'b']) = .ok () := by decide
  have hconflict : check edges (.ofNat 0) (.ofNat 3) (.ofList [.char 'd']) = .error f := by decide
  obtain ⟨-, -, -, -, horder, -⟩ :=
    check_decides_determinism edges (.ofNat 0) (.ofNat 2) (.ofList [.char 'b'])
  obtain ⟨-, -, hnames, -⟩ :=
    check_decides_determinism edges (.ofNat 0) (.ofNat 3) (.ofList [.char 'd'])
  obtain ⟨-, -, -, hepsilon, -⟩ :=
    check_decides_determinism edges (.ofNat 0) (.ofNat 3) (.ofList [.char 'a', .epsilon])
  exact ⟨hok, (horder _ edges.reverse_perm).2 hok, hconflict, hnames f hconflict,
    hepsilon (by decide)⟩

end FiniteAutomata.Determinism
