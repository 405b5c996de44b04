import FiniteAutomata.Proofs.DeterminismCheck
import FiniteAutomata.Proofs.EditOrder
import FiniteAutomata.Proofs.LabelEdits
import FiniteAutomata.Proofs.LabelNotation

/-!
# Labels connected in pieces

What is written in one text, between commas, can as well be connected in two. The check of an edit
passes over the label that the edge carries, so the first piece does not stand in the way of the
second; and a part of a label that passes the check passes it too, so the first piece is not refused
where the whole is not.
-/

namespace FiniteAutomata

/-! ### Texts joined by a comma -/

namespace Label

variable {text more : String} {S T : Label}

theorem entries_append_comma (text more : String) :
    entries (text ++ "," ++ more) = entries text ++ entries more := by
  have hsplit : (text ++ "," ++ more).toList.splitOn ',' =
      text.toList.splitOn ',' ++ more.toList.splitOn ',' := by
    rw [String.toList_append, String.toList_append, List.append_assoc]
    exact List.splitOn_append_cons_self _ _
  rw [entries, hsplit, List.map_append, List.filter_append]
  rfl

theorem parse_append_comma (hS : parse text = .ok S) (hT : parse more = .ok T) :
    parse (text ++ "," ++ more) = .ok (S ∪ T) := by
  obtain ⟨cs, hne, hcs, rfl⟩ := parse_eq_ok_iff_entries.1 hS
  obtain ⟨ds, -, hds, rfl⟩ := parse_eq_ok_iff_entries.1 hT
  refine parse_eq_ok_iff_entries.2
    ⟨cs ++ ds, List.append_ne_nil_of_left_ne_nil hne ds, ?_, OrderedSet.ext_mem fun a => ?_⟩
  · rw [entries_append_comma, hcs, hds, List.map_append]
  · simp

end Label

/-! ### A part of a label, and a label set anew -/

theorem Determinism.check_of_subset {edges : List Edge} {source target : StateId}
    {label part : Label} (h : check edges source target label = .ok ())
    (hsub : ∀ a ∈ part, a ∈ label) : check edges source target part = .ok () := by
  have hexits : ∀ x, ExitAfter edges source target part x →
      ExitAfter edges source target label x := by
    intro x hx
    cases hx with
    | other he hs ht ha => exact .other he hs ht ha
    | proposed ha => exact .proposed (hsub _ ha)
  obtain ⟨hepsilon, htarget⟩ := check_eq_ok_iff_exitAfter.1 h
  exact check_eq_ok_iff_exitAfter.2 ⟨fun x hx => hepsilon x (hexits x hx),
    fun x hx y hy => htarget x (hexits x hx) y (hexits y hy)⟩

section

variable {D : Drawing} {source target : StateId} {first label : Label}

/-- Of two labels set on an edge the later stays. -/
theorem Edge.relabelled_relabelled (e : Edge) :
    (e.relabelled source target first).relabelled source target label =
      e.relabelled source target label := by
  by_cases h : e.joins source target
  · have hjoins : { e with label := first }.joins source target := h
    simp only [relabelled, if_pos h, if_pos hjoins]
  · simp only [relabelled, if_neg h]

theorem Drawing.edgesWith_of_edges_eq {D' : Drawing}
    (h : D'.edges = D.edgesWith source target first) :
    D'.edgesWith source target label = D.edgesWith source target label := by
  have hany : D'.edges.any (·.joins source target) := by
    rw [h]
    exact List.any_eq_true.2 ⟨_, mem_edgesWith.2 (.inl rfl), by simp [Edge.joins]⟩
  have hnew : (D.newEdges source target first).map (Edge.relabelled source target label) =
      D.newEdges source target label := by
    unfold newEdges
    split
    · rfl
    · simp [Edge.relabelled, Edge.joins]
  have hold : Edge.relabelled source target label ∘ Edge.relabelled source target first =
      Edge.relabelled source target label := funext Edge.relabelled_relabelled
  rw [edgesWith_eq, newEdges, if_pos hany, List.append_nil, h, edgesWith_eq, edgesWith_eq,
    List.map_append, List.map_map, hold, hnew]

theorem Drawing.label?_of_edges_eq {D' : Drawing}
    (h : D'.edges = D.edgesWith source target first) : D'.label? source target = some first := by
  have hedge : D'.edges.find? (·.joins source target) = some ⟨source, target, first⟩ := by
    cases hfind : D'.edges.find? (·.joins source target) with
    | none =>
        rw [List.find?_eq_none, h] at hfind
        exact absurd (by simp [Edge.joins]) (hfind _ (mem_edgesWith.2 (.inl rfl)))
    | some e =>
        have hmem : e ∈ D.edgesWith source target first := h ▸ List.mem_of_find?_eq_some hfind
        have hjoins : e.joins source target := by simpa using List.find?_some hfind
        rcases mem_edgesWith.1 hmem with rfl | ⟨-, hother⟩
        · rfl
        · exact absurd hjoins hother
  rw [label?, hedge]
  rfl

end

namespace Diagram

variable {d : Diagram} {source target : StateId} {first label part S T : Label}

theorem permits_of_subset (h : d.permits source target label = .ok ()) (hne : part ≠ ∅)
    (hsub : ∀ a ∈ part, a ∈ label) : d.permits source target part = .ok () := by
  obtain ⟨hs, ht, -, hcheck⟩ := permits_eq_ok_iff.1 h
  exact permits_eq_ok_iff.2
    ⟨hs, ht, hne, fun hmode => Determinism.check_of_subset (hcheck hmode) hsub⟩

/-- Whether an edge may get a label does not depend on the one that it has. -/
theorem permits_withEdges_edgesWith :
    (d.withEdges (d.edgesWith source target first)).permits source target label =
      d.permits source target label := by
  have hcheck : Determinism.check (d.edgesWith source target first) source target label =
      Determinism.check d.edges source target label := by
    have hothers : (d.edgesWith source target first).filter (! ·.joins source target) =
        d.edges.filter (! ·.joins source target) :=
      d.filter_ends_edgesWith (fun ends => ! (ends.1 = source ∧ ends.2 = target : Bool)) (by simp)
    rw [← Determinism.check_filter_not_joins, hothers, Determinism.check_filter_not_joins]
  simp only [permits, withEdges, hcheck]

theorem relabel_withEdges_edgesWith :
    (d.withEdges (d.edgesWith source target first)).relabel source target label =
      d.relabel source target label := by
  have hedges : (d.withEdges (d.edgesWith source target first)).edgesWith source target label =
      d.edgesWith source target label := Drawing.edgesWith_of_edges_eq rfl
  rw [relabel, permits_withEdges_edgesWith, hedges]
  rfl

/-- A label that has symbols is merged as a whole exactly if it is merged in two parts, and with
the same outcome. Where the parts are refused the faults may differ. -/
theorem toOption_merge_union (hS : S ≠ ∅) :
    (d.merge source target (S ∪ T)).toOption = (d.merge source target S).toOption.bind
      fun x => (x.diagram.merge source target T).toOption := by
  have hassoc : (d.label? source target).getD ∅ ∪ (S ∪ T) =
      (d.label? source target).getD ∅ ∪ S ∪ T := OrderedSet.ext_mem (by simp [or_assoc])
  have hne : (d.label? source target).getD ∅ ∪ S ≠ ∅ := by
    obtain ⟨a, ha⟩ := OrderedSet.exists_mem_of_ne_empty hS
    intro hempty
    exact OrderedSet.not_mem_empty a (hempty ▸ OrderedSet.mem_union.2 (.inr ha))
  rw [merge, merge, hassoc]
  cases hfirst : d.permits source target ((d.label? source target).getD ∅ ∪ S) with
  | ok =>
      have hlabel : (d.withEdges (d.edgesWith source target
          ((d.label? source target).getD ∅ ∪ S))).label? source target =
            some ((d.label? source target).getD ∅ ∪ S) := Drawing.label?_of_edges_eq rfl
      rw [relabel_of_permits hfirst]
      simp only [Except.toOption, Option.bind_some, merge, hlabel, Option.getD_some,
        relabel_withEdges_edgesWith]
  | error f =>
      rw [relabel_of_refused hfirst]
      cases hwhole : d.permits source target ((d.label? source target).getD ∅ ∪ S ∪ T) with
      | ok =>
          have hpart := permits_of_subset hwhole hne fun a ha => OrderedSet.mem_union.2 (.inl ha)
          rw [hfirst] at hpart
          cases hpart
      | error g =>
          rw [relabel_of_refused hwhole]
          rfl

end Diagram

namespace Editor

variable {e : Editor} {source target : StateId} {text more : String} {S T : Label}

def performAll? (e : Editor) : List Action → Option Editor
  | [] => some e
  | a :: as =>
    match (e.perform a).reply with
    | .ok _ => (e.perform a).editor.performAll? as
    | .error _ => none

theorem performAll?_connect_cons (h : Label.parse text = .ok S) (as : List Action) :
    e.performAll? (.connect source target text :: as) =
      (e.diagram.merge source target S).toOption.bind fun x =>
        { e with diagram := x.diagram }.performAll? as := by
  have hperform : e.perform (.connect source target text) =
      e.commit .done (e.diagram.merge source target S) := by
    simp only [perform, Diagram.connect, h]
    rfl
  rw [performAll?, hperform]
  cases e.diagram.merge source target S <;> rfl

theorem performAll?_connect_append_comma (hS : Label.parse text = .ok S)
    (hT : Label.parse more = .ok T) :
    e.performAll? [.connect source target (text ++ "," ++ more)] =
      e.performAll? [.connect source target text, .connect source target more] := by
  simp only [performAll?_connect_cons (Label.parse_append_comma hS hT),
    performAll?_connect_cons hS, performAll?_connect_cons hT,
    Diagram.toOption_merge_union (Label.readable_of_parse hS).ne_empty, Option.bind_assoc]

/-- Whatever the editor, two labels in writing can be connected one after the other exactly if they
can be connected in one text, with a comma between them, and both ways lead to the same editor. It
does not matter which of the two comes first, in one text or in two. -/
theorem labels_connected_in_pieces (e : Editor) (source target : StateId) (text more : String)
    (S T : Label) (hS : Label.parse text = .ok S) (hT : Label.parse more = .ok T) :
    let whole := e.performAll? [.connect source target (text ++ "," ++ more)]
    e.performAll? [.connect source target text, .connect source target more] = whole ∧
      e.performAll? [.connect source target more, .connect source target text] = whole ∧
      e.performAll? [.connect source target (more ++ "," ++ text)] = whole := by
  intro whole
  have hcomm : T ∪ S = S ∪ T := OrderedSet.ext_mem (by simp [or_comm])
  have hmirror : e.performAll? [.connect source target (more ++ "," ++ text)] = whole := by
    simp only [whole, performAll?_connect_cons (Label.parse_append_comma hS hT),
      performAll?_connect_cons (Label.parse_append_comma hT hS), hcomm]
  exact ⟨(performAll?_connect_append_comma hS hT).symm,
    (performAll?_connect_append_comma hT hS).symm.trans hmirror, hmirror⟩

/-- The mode was set after `q0` had got two moves on `a`, which is of no account at `q1`. From there
to `q2`, `c` and `a` are added to `b` in one text or in two. From there to `q0`, one can connect `d`
but not `b` after it, so the two cannot be connected in one text either. -/
theorem pieces_beside_older_conflicts :
    let e := (new ⟨.nfa⟩).performAll [.edit .addState, .edit .addState, .edit .addState,
      .connect (.ofNat 0) (.ofNat 1) "a", .connect (.ofNat 0) (.ofNat 2) "a",
      .connect (.ofNat 1) (.ofNat 2) "b", .edit (.setMode .dfa)]
    let merged := (e.performAll? [.connect (.ofNat 1) (.ofNat 2) "c",
      .connect (.ofNat 1) (.ofNat 2) " a"]).map (·.diagram.edges)
    merged = some [⟨.ofNat 0, .ofNat 1, .ofList [.char 'a']⟩,
        ⟨.ofNat 0, .ofNat 2, .ofList [.char 'a']⟩,
        ⟨.ofNat 1, .ofNat 2, .ofList [.char 'a', .char 'b', .char 'c']⟩] ∧
      (e.performAll? [.connect (.ofNat 1) (.ofNat 2) "c, a"]).map (·.diagram.edges) = merged ∧
      (e.performAll? [.connect (.ofNat 1) (.ofNat 0) "d"]).isSome ∧
      e.performAll? [.connect (.ofNat 1) (.ofNat 0) "d", .connect (.ofNat 1) (.ofNat 0) "b"] =
        none ∧
      e.performAll? [.connect (.ofNat 1) (.ofNat 0) "d,b"] = none := by
  intro e merged
  have hc : Label.parse "c" = .ok (.ofList [.char 'c']) := by rfl
  have ha : Label.parse " a" = .ok (.ofList [.char 'a']) := by rfl
  have hd : Label.parse "d" = .ok (.ofList [.char 'd']) := by rfl
  have hb : Label.parse "b" = .ok (.ofList [.char 'b']) := by rfl
  obtain ⟨hmerged, -⟩ := labels_connected_in_pieces e (.ofNat 1) (.ofNat 2) _ _ _ _ hc ha
  obtain ⟨hrefused, -⟩ := labels_connected_in_pieces e (.ofNat 1) (.ofNat 0) _ _ _ _ hd hb
  have hsecond : e.performAll?
      [.connect (.ofNat 1) (.ofNat 0) "d", .connect (.ofNat 1) (.ofNat 0) "b"] = none := by decide
  exact ⟨by decide, congrArg (Option.map (·.diagram.edges)) hmerged.symm, by decide, hsecond,
    hrefused.symm.trans hsecond⟩

end Editor

end FiniteAutomata
