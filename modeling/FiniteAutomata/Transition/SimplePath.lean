import FiniteAutomata.Transition.Path
import Mathlib.Data.List.Nodup
import Mathlib.Data.List.Perm.Subperm

/-!
# Paths without repetitions

Whatever a path leads to, a path that comes to no state twice leads there as well: what lies between
two visits of a state can be left out. Such a path has fewer moves than there are states.
-/

namespace FiniteAutomata.TransitionTable

variable {t : TransitionTable} {p q r : StateId} {ms : List Move} {x : StateSet}

/-- From each of its states a path goes on as a path to the same end. -/
theorem IsPath.exists_suffix (h : t.IsPath p ms q) (hr : r ∈ statesAlong p ms) :
    ∃ ns, t.IsPath r ns q ∧ statesAlong r ns <:+ statesAlong p ms := by
  induction ms generalizing p with
  | nil =>
      rw [List.mem_singleton.1 hr]
      exact ⟨[], h, List.suffix_refl _⟩
  | cons m ms ih =>
      rw [statesAlong_cons] at hr ⊢
      cases hr with
      | head => exact ⟨m :: ms, h, List.suffix_refl _⟩
      | tail _ hr =>
          obtain ⟨ns, hns, hsuffix⟩ := ih (isPath_cons.1 h).2.2 hr
          exact ⟨ns, hns, hsuffix.trans (List.suffix_cons p _)⟩

theorem IsPath.exists_nodup (h : t.IsPath p ms q) :
    ∃ ns, t.IsPath p ns q ∧ (statesAlong p ns).Nodup := by
  induction ms generalizing p with
  | nil => exact ⟨[], h, List.nodup_singleton p⟩
  | cons m ms ih =>
      obtain ⟨hm, hsource, hrest⟩ := isPath_cons.1 h
      obtain ⟨ns, hns, hnodup⟩ := ih hrest
      -- If the rest comes back to `p`, what it does until then is left out with the first move.
      by_cases hp : p ∈ statesAlong m.target ns
      · obtain ⟨ks, hks, hsuffix⟩ := hns.exists_suffix hp
        exact ⟨ks, hks, hnodup.sublist hsuffix.sublist⟩
      · exact ⟨m :: ns, isPath_cons.2 ⟨hm, hsource, hns⟩, List.nodup_cons.2 ⟨hp, hnodup⟩⟩

theorem IsPath.mem_of_mem_statesAlong (h : t.IsPath p ms q) (hp : p ∈ x)
    (hx : ∀ m ∈ t, m.target ∈ x) : ∀ r ∈ statesAlong p ms, r ∈ x := by
  induction ms generalizing p with
  | nil => exact List.forall_mem_singleton.2 hp
  | cons m ms ih =>
      obtain ⟨hm, -, hrest⟩ := isPath_cons.1 h
      exact List.forall_mem_cons.2 ⟨hp, ih hrest (hx m hm)⟩

/-- Among the states of `x` a path need not have as many moves as there are states. -/
theorem IsPath.exists_length_lt (h : t.IsPath p ms q) (hp : p ∈ x)
    (hx : ∀ m ∈ t, m.target ∈ x) : ∃ ns, t.IsPath p ns q ∧ ns.length < x.size := by
  obtain ⟨ns, hns, hnodup⟩ := h.exists_nodup
  have hsub : statesAlong p ns ⊆ x.toList := hns.mem_of_mem_statesAlong hp hx
  have hlength : (statesAlong p ns).length ≤ x.size := (hnodup.subperm hsub).length_le
  rw [statesAlong, List.length_cons, List.length_map] at hlength
  exact ⟨ns, hns, hlength⟩

end FiniteAutomata.TransitionTable
