import FiniteAutomata.Proofs.DiagramLabels

/-!
# The order of label edits

An edit of a label reads the states, the mode and the edges of its own source, and writes to the
edges of its own source. Two such edits at different sources therefore do not see each other: each
of them succeeds or fails as it would without the other, and it does not matter which comes first,
except for the order in which new edges are listed.
-/

namespace FiniteAutomata

/-! ### The edges of one source -/

def Drawing.edgesFrom (D : Drawing) (q : StateId) : List Edge := D.edges.filter (·.source = q)

variable {p q source target : StateId} {label : Label}

/-- The exits that a check looks at are those of the edges of the source, in their order. -/
theorem Determinism.check_congr {edges edges' : List Edge}
    (h : edges'.filter (·.source = source) = edges.filter (·.source = source)) :
    check edges' source target label = check edges source target label := by
  have hothers (es : List Edge) : es.filter (fun e => e.source = source ∧ e.target ≠ target) =
      (es.filter (·.source = source)).filter (·.target ≠ target) := by
    rw [List.filter_filter]
    refine List.filter_congr fun e _ => ?_
    by_cases hs : e.source = source <;> simp [hs]
  simp only [check, exitsAfter, hothers, h]

theorem Drawing.label?_eq_of_edgesFrom_eq {D D' : Drawing}
    (h : D'.edgesFrom source = D.edgesFrom source) :
    D'.label? source target = D.label? source target := by
  have hfind (E : Drawing) : E.edges.find? (·.joins source target) =
      (E.edgesFrom source).find? (·.target = target) := by
    rw [edgesFrom, List.find?_filter]
    congr 1
    funext e
    simp [Edge.joins]
  rw [label?, label?, hfind, hfind, h]

/-! ### Where a label is put -/

def Edge.relabelled (source target : StateId) (label : Label) (e : Edge) : Edge :=
  if e.joins source target then { e with label } else e

/-- The edges that have to be created for a label from `source` to `target`: one or none. -/
def Drawing.newEdges (D : Drawing) (source target : StateId) (label : Label) : List Edge :=
  if D.edges.any (·.joins source target) then [] else [⟨source, target, label⟩]

@[simp] theorem Edge.ends_relabelled (e : Edge) :
    (e.relabelled source target label).ends = e.ends := by
  unfold relabelled
  split <;> rfl

@[simp] theorem Edge.source_relabelled (e : Edge) :
    (e.relabelled source target label).source = e.source :=
  congrArg Prod.fst (ends_relabelled e)

theorem Edge.relabelled_of_ends_ne {e : Edge} (h : e.ends ≠ (source, target)) :
    e.relabelled source target label = e := if_neg (mt joins_iff.1 h)

theorem Edge.relabelled_of_source_ne {e : Edge} (h : e.source ≠ source) :
    e.relabelled source target label = e :=
  relabelled_of_ends_ne fun hends => h (congrArg Prod.fst hends)

theorem Edge.relabelled_comm (hpq : p ≠ q) {r s : StateId} {more : Label} (e : Edge) :
    (e.relabelled p r label).relabelled q s more =
      (e.relabelled q s more).relabelled p r label := by
  by_cases hp : e.source = p
  · have hq : e.source ≠ q := hp ▸ hpq
    have hq' : (e.relabelled p r label).source ≠ q := by simpa using hq
    rw [relabelled_of_source_ne hq, relabelled_of_source_ne hq']
  · have hp' : (e.relabelled q s more).source ≠ p := by simpa using hp
    rw [relabelled_of_source_ne hp, relabelled_of_source_ne hp']

theorem Drawing.edgesWith_eq (D : Drawing) (source target : StateId) (label : Label) :
    D.edgesWith source target label =
      D.edges.map (Edge.relabelled source target label) ++ D.newEdges source target label := by
  unfold edgesWith newEdges
  by_cases hany : D.edges.any (·.joins source target)
  · rw [if_pos hany, if_pos hany, List.append_nil]
    rfl
  · have hnone : ∀ e ∈ D.edges, e.ends ≠ (source, target) := by
      intro e he hends
      exact hany (List.any_eq_true.2 ⟨e, he, Edge.joins_iff.2 hends⟩)
    have hsame : D.edges.map (Edge.relabelled source target label) = D.edges :=
      Edge.map_relabelled_eq_self hnone
    rw [if_neg hany, if_neg hany, hsame]

theorem Drawing.source_of_mem_newEdges {D : Drawing} {e : Edge}
    (he : e ∈ D.newEdges source target label) : e.source = source := by
  unfold newEdges at he
  split at he
  · cases he
  · rw [List.mem_singleton.1 he]

theorem Drawing.ends_not_mem_of_mem_newEdges {D : Drawing} {e : Edge}
    (he : e ∈ D.newEdges source target label) : e.ends ∉ D.edges.map Edge.ends := by
  unfold newEdges at he
  split at he
  · cases he
  · next hany =>
      rw [List.mem_singleton.1 he]
      exact mt any_joins_iff.2 hany

theorem Drawing.filter_ends_newEdges (D : Drawing) (keep : StateId × StateId → Bool)
    (h : ¬ keep (source, target)) :
    (D.newEdges source target label).filter (fun e => keep e.ends) = [] := by
  unfold newEdges
  split
  · rfl
  · exact List.filter_cons_of_neg h

theorem Drawing.filter_source_newEdges (D : Drawing) (hq : q ≠ source) :
    (D.newEdges source target label).filter (·.source = q) = [] :=
  D.filter_ends_newEdges (fun ends => ends.1 = q) (by simpa using hq.symm)

theorem Drawing.newEdges_eq_of_edgesFrom_eq {D D' : Drawing}
    (h : D'.edgesFrom source = D.edgesFrom source) :
    D'.newEdges source target label = D.newEdges source target label := by
  have hany (E : Drawing) :
      E.edges.any (·.joins source target) = (E.label? source target).isSome := by
    rw [label?, Option.isSome_map, List.isSome_find?]
  rw [newEdges, newEdges, hany, hany, label?_eq_of_edgesFrom_eq h]

/-- Of edges between other states a label that is set changes none. -/
theorem Drawing.filter_ends_edgesWith (D : Drawing) (keep : StateId × StateId → Bool)
    (h : ¬ keep (source, target)) :
    (D.edgesWith source target label).filter (fun e => keep e.ends) =
      D.edges.filter fun e => keep e.ends := by
  have hold : D.edges.filter ((fun e => keep e.ends) ∘ Edge.relabelled source target label) =
      D.edges.filter fun e => keep e.ends := List.filter_congr fun e _ => by simp
  have hsame : ∀ e ∈ D.edges.filter (fun e => keep e.ends),
      e.relabelled source target label = e := by
    intro e he
    exact Edge.relabelled_of_ends_ne fun hends => h (hends ▸ (List.mem_filter.1 he).2)
  rw [edgesWith_eq, List.filter_append, D.filter_ends_newEdges keep h, List.append_nil,
    List.filter_map, hold, List.map_congr_left hsame, List.map_id']

theorem Drawing.filter_source_edgesWith (D : Drawing) (hq : q ≠ source) :
    (D.edgesWith source target label).filter (·.source = q) = D.edgesFrom q :=
  D.filter_ends_edgesWith (fun ends => ends.1 = q) (by simpa using hq.symm)

/-! ### What an edit sees -/

def Edit.source? : Edit → Option StateId
  | merge source _ _ | relabel source _ _ => some source
  | _ => none

namespace Diagram

variable {d d' : Diagram} {e f : Edit}

/-- All that an edit of a label at the source `p` looks at is in `d'` as in `d`. -/
structure AgreesAt (d' : Diagram) (p : StateId) (d : Diagram) : Prop where
  states_eq : d'.states = d.states
  mode_eq : d'.mode = d.mode
  edgesFrom_eq : d'.edgesFrom p = d.edgesFrom p

theorem AgreesAt.refl (d : Diagram) (p : StateId) : d.AgreesAt p d := ⟨rfl, rfl, rfl⟩

theorem agreesAt_withEdges (hpq : p ≠ q) (target : StateId) (label : Label) :
    (d.withEdges (d.edgesWith q target label)).AgreesAt p d :=
  ⟨rfl, rfl, d.filter_source_edgesWith hpq⟩

theorem AgreesAt.permits_eq (h : d'.AgreesAt p d) (target : StateId) (label : Label) :
    d'.permits p target label = d.permits p target label := by
  have hcheck : Determinism.check d'.edges p target label =
      Determinism.check d.edges p target label := Determinism.check_congr h.edgesFrom_eq
  simp only [permits, h.states_eq, h.mode_eq, hcheck]

/-- An edit of a label sets one that depends on what the edge carries. -/
theorem exists_edit_eq_relabel (he : e.source? = some p) :
    ∃ target, ∃ propose : Option Label → Label,
      ∀ d : Diagram, d.edit e = d.relabel p target (propose (d.label? p target)) := by
  cases e with
  | merge source target more =>
      cases he
      exact ⟨target, fun old => old.getD ∅ ∪ more, fun _ => rfl⟩
  | relabel source target label =>
      cases he
      exact ⟨target, fun _ => label, fun _ => rfl⟩
  | _ => cases he

theorem AgreesAt.exists_relabel (h : d'.AgreesAt p d) (he : e.source? = some p) :
    ∃ target label,
      d.edit e = d.relabel p target label ∧ d'.edit e = d'.relabel p target label := by
  obtain ⟨target, propose, hedit⟩ := exists_edit_eq_relabel he
  refine ⟨target, propose (d.label? p target), hedit d, ?_⟩
  rw [hedit d', Drawing.label?_eq_of_edgesFrom_eq h.edgesFrom_eq]

theorem map_changes_relabel (d : Diagram) (source target : StateId) (label : Label) :
    (d.relabel source target label).map Edited.changes =
      (d.permits source target label).map fun _ => [.edgeChanged source target label] := by
  rw [relabel]
  cases d.permits source target label <;> rfl

/-- What an edit of a label answers depends only on what it looks at. -/
theorem AgreesAt.map_changes_edit (h : d'.AgreesAt p d) (he : e.source? = some p) :
    (d'.edit e).map Edited.changes = (d.edit e).map Edited.changes := by
  obtain ⟨target, label, hedit, hedit'⟩ := h.exists_relabel he
  rw [hedit, hedit', map_changes_relabel, map_changes_relabel, h.permits_eq]

theorem diagram_apply_of_permits (hedit : d.edit e = d.relabel p target label)
    (hpermits : d.permits p target label = .ok ()) :
    (d.apply e).diagram = d.withEdges (d.edgesWith p target label) := by
  rw [apply, hedit, relabel_of_permits hpermits]

theorem diagram_apply_of_refused {g : EditError} (hedit : d.edit e = d.relabel p target label)
    (hpermits : d.permits p target label = .error g) : (d.apply e).diagram = d := by
  rw [apply, hedit, relabel_of_refused hpermits]

theorem agreesAt_apply (hf : f.source? = some q) (hpq : p ≠ q) :
    (d.apply f).diagram.AgreesAt p d := by
  obtain ⟨target, label, hedit, -⟩ := (AgreesAt.refl d q).exists_relabel hf
  cases hpermits : d.permits q target label with
  | error g =>
      rw [diagram_apply_of_refused hedit hpermits]
      exact .refl d p
  | ok =>
      rw [diagram_apply_of_permits hedit hpermits]
      exact agreesAt_withEdges hpq target label

/-! ### Both orders -/

/-- The diagrams `a` and `b`, which edits of labels made of `d`, differ in nothing but the order in
which they list the edges that `d` does not have. -/
structure AlikeOver (d a b : Diagram) : Prop where
  mode_eq : a.mode = b.mode
  states_eq : a.states = b.states
  initial_eq : a.initial = b.initial
  finals_eq : a.finals = b.finals
  nextId_eq : a.nextId = b.nextId
  label?_eq : ∀ p q, a.label? p q = b.label? p q
  table_eq : a.table = b.table
  edges : ∃ old new new', old.map Edge.ends = d.edges.map Edge.ends ∧
    (∀ e ∈ new, e.ends ∉ d.edges.map Edge.ends) ∧ new.Perm new' ∧
    a.edges = old ++ new ∧ b.edges = old ++ new'

/-- After a label at another source, a label is put as it would be without it. -/
theorem edgesWith_withEdges (hpq : p ≠ q) {r s : StateId} {more : Label} :
    (d.withEdges (d.edgesWith p r label)).edgesWith q s more =
      (d.edges.map (Edge.relabelled p r label)).map (Edge.relabelled q s more) ++
        (d.newEdges p r label ++ d.newEdges q s more) := by
  have hagrees : (d.withEdges (d.edgesWith p r label)).AgreesAt q d :=
    agreesAt_withEdges hpq.symm r label
  have hkeep : ∀ e ∈ d.newEdges p r label, e.relabelled q s more = e := by
    intro e he
    exact Edge.relabelled_of_source_ne (Drawing.source_of_mem_newEdges he ▸ hpq)
  rw [Drawing.edgesWith_eq, Drawing.newEdges_eq_of_edgesFrom_eq hagrees.edgesFrom_eq, withEdges,
    d.edgesWith_eq, List.map_append, List.map_congr_left hkeep, List.map_id', List.append_assoc]

theorem alikeOver_withEdges (hpq : p ≠ q) {r s : StateId} {more : Label} :
    d.AlikeOver
      ((d.withEdges (d.edgesWith p r label)).withEdges
        ((d.withEdges (d.edgesWith p r label)).edgesWith q s more))
      ((d.withEdges (d.edgesWith q s more)).withEdges
        ((d.withEdges (d.edgesWith q s more)).edgesWith p r label)) := by
  have hold : (d.edges.map (Edge.relabelled q s more)).map (Edge.relabelled p r label) =
      (d.edges.map (Edge.relabelled p r label)).map (Edge.relabelled q s more) := by
    simp only [List.map_map]
    exact List.map_congr_left fun e _ => (e.relabelled_comm hpq).symm
  have hends : ((d.edges.map (Edge.relabelled p r label)).map (Edge.relabelled q s more)).map
      Edge.ends = d.edges.map Edge.ends := by
    simp only [List.map_map]
    exact List.map_congr_left fun e _ => by simp
  have hnew : (d.newEdges p r label ++ d.newEdges q s more).Perm
      (d.newEdges q s more ++ d.newEdges p r label) := List.perm_append_comm
  rw [edgesWith_withEdges hpq, edgesWith_withEdges hpq.symm, hold]
  exact {
    mode_eq := rfl
    states_eq := rfl
    initial_eq := rfl
    finals_eq := rfl
    nextId_eq := rfl
    label?_eq := by
      intro x y
      apply Drawing.label?_eq_of_edgesFrom_eq
      simp only [Drawing.edgesFrom, withEdges, List.filter_append]
      -- At no source are there new edges of both edits.
      by_cases hx : x = p
      · have hxq : x ≠ q := by rwa [hx]
        rw [d.filter_source_newEdges hxq, List.append_nil, List.nil_append]
      · rw [d.filter_source_newEdges hx, List.nil_append, List.append_nil]
    table_eq := by
      refine TransitionTable.ext_mem fun m => ?_
      simp only [withEdges, TransitionTable.mem_ofEdges, (hnew.append_left _).mem_iff]
    edges := by
      refine ⟨_, _, _, hends, ?_, hnew, rfl, rfl⟩
      intro e he
      exact (List.mem_append.1 he).elim Drawing.ends_not_mem_of_mem_newEdges
        Drawing.ends_not_mem_of_mem_newEdges }

/-- Where one of two edits is refused, only the other is left to be made. -/
theorem alikeOver_apply (he : e.source? = some p) :
    d.AlikeOver (d.apply e).diagram (d.apply e).diagram := by
  obtain ⟨target, label, hedit, -⟩ := (AgreesAt.refl d p).exists_relabel he
  refine ⟨rfl, rfl, rfl, rfl, rfl, fun _ _ => rfl, rfl, ?_⟩
  cases hpermits : d.permits p target label with
  | error g =>
      rw [diagram_apply_of_refused hedit hpermits]
      exact ⟨d.edges, [], [], rfl, nofun, .nil, (List.append_nil _).symm, (List.append_nil _).symm⟩
  | ok =>
      rw [diagram_apply_of_permits hedit hpermits, withEdges, d.edgesWith_eq]
      refine ⟨_, _, _, ?_, fun _ he => Drawing.ends_not_mem_of_mem_newEdges he, .refl _, rfl, rfl⟩
      rw [List.map_map]
      exact List.map_congr_left fun e _ => e.ends_relabelled

/-- Whatever the diagram, each of two edits of labels at different sources answers and announces the
same before the other and after it, be it done or refused, and if it is refused then for the same
fault. Both orders lead to diagrams that are alike, but for the order of edges that are new. -/
theorem edits_at_different_sources_commute (d : Diagram) (e f : Edit) (p q : StateId)
    (he : e.source? = some p) (hf : f.source? = some q) (hpq : p ≠ q) :
    ((d.apply f).diagram.edit e).map Edited.changes = (d.edit e).map Edited.changes ∧
      ((d.apply e).diagram.edit f).map Edited.changes = (d.edit f).map Edited.changes ∧
      d.AlikeOver (d.applyAll [e, f]).diagram (d.applyAll [f, e]).diagram := by
  have hagrees : (d.apply f).diagram.AgreesAt p d := agreesAt_apply hf hpq
  have hagrees' : (d.apply e).diagram.AgreesAt q d := agreesAt_apply he hpq.symm
  refine ⟨hagrees.map_changes_edit he, hagrees'.map_changes_edit hf, ?_⟩
  change d.AlikeOver ((d.apply e).diagram.apply f).diagram ((d.apply f).diagram.apply e).diagram
  obtain ⟨r, label, hedit, hafter⟩ := hagrees.exists_relabel he
  obtain ⟨s, more, hedit', hafter'⟩ := hagrees'.exists_relabel hf
  have hpermits := hagrees.permits_eq r label
  have hpermits' := hagrees'.permits_eq s more
  cases hfirst : d.permits p r label with
  | error g =>
      rw [diagram_apply_of_refused hafter (hpermits.trans hfirst),
        diagram_apply_of_refused hedit hfirst]
      exact alikeOver_apply hf
  | ok =>
      cases hsecond : d.permits q s more with
      | error g =>
          rw [diagram_apply_of_refused hafter' (hpermits'.trans hsecond),
            diagram_apply_of_refused hedit' hsecond]
          exact alikeOver_apply he
      | ok =>
          rw [diagram_apply_of_permits hafter (hpermits.trans hfirst),
            diagram_apply_of_permits hafter' (hpermits'.trans hsecond),
            diagram_apply_of_permits hedit hfirst, diagram_apply_of_permits hedit' hsecond]
          exact alikeOver_withEdges hpq

/-- The mode was set after `q0` had got two moves on `a`. New edges from `q1` and from `q2` are
listed in the order in which they come. A label at `q0` meets the conflict there and is refused for
it, before the edge from `q1` is there and after. -/
theorem new_edges_in_either_order :
    let d := ((new .nfa).applyAll [.addState, .addState, .addState,
      .merge (.ofNat 0) (.ofNat 1) (.ofList [.char 'a']),
      .merge (.ofNat 0) (.ofNat 0) (.ofList [.char 'a']), .setMode .dfa]).diagram
    let e := Edit.merge (.ofNat 1) (.ofNat 2) (.ofList [.char 'a'])
    let f := Edit.relabel (.ofNat 2) (.ofNat 2) (.ofList [.char 'b'])
    let g := Edit.merge (.ofNat 0) (.ofNat 2) (.ofList [.char 'c'])
    e.source? = some (.ofNat 1) ∧ f.source? = some (.ofNat 2) ∧ g.source? = some (.ofNat 0) ∧
      d.AlikeOver (d.applyAll [e, f]).diagram (d.applyAll [f, e]).diagram ∧
      (d.applyAll [e, f]).diagram.edges = d.edges ++
        [⟨.ofNat 1, .ofNat 2, .ofList [.char 'a']⟩, ⟨.ofNat 2, .ofNat 2, .ofList [.char 'b']⟩] ∧
      (d.applyAll [f, e]).diagram.edges = d.edges ++
        [⟨.ofNat 2, .ofNat 2, .ofList [.char 'b']⟩, ⟨.ofNat 1, .ofNat 2, .ofList [.char 'a']⟩] ∧
      (d.edit g).map Edited.changes = .error (.determinismConflict (.ofNat 0) (.char 'a')) ∧
      ((d.apply e).diagram.edit g).map Edited.changes =
        .error (.determinismConflict (.ofNat 0) (.char 'a')) := by
  intro d e f g
  have hef : StateId.ofNat 1 ≠ .ofNat 2 := by decide
  have hge : StateId.ofNat 0 ≠ .ofNat 1 := by decide
  have hrefused : (d.edit g).map Edited.changes =
      .error (.determinismConflict (.ofNat 0) (.char 'a')) := by rfl
  obtain ⟨-, -, halike⟩ := edits_at_different_sources_commute d e f _ _ rfl rfl hef
  obtain ⟨hsame, -⟩ := edits_at_different_sources_commute d g e _ _ rfl rfl hge
  exact ⟨rfl, rfl, rfl, halike, by decide, by decide, hrefused, hsame.trans hrefused⟩

end Diagram

end FiniteAutomata
