import FiniteAutomata.Diagram.History
import FiniteAutomata.Editor
import FiniteAutomata.InOrder
import FiniteAutomata.Text.Trim
import Mathlib.Data.Set.List

/-!
# Labels in writing

A text is read as a label piece by piece, and a label is written one symbol after another. What is
written is read as the label it was written from exactly if the label can be had in writing at all:
the sign `ε` means the empty symbol, and neither a comma nor a blank character can be an entry.
-/

namespace FiniteAutomata

namespace Label

variable {text : String} {S : Label} {f : EditError} {p : List Char} {a : Symbol}

def pieces (text : String) : List (List Char) := (text.toList.splitOn ',').map Text.trim

/-- The text writes the symbols of the label and no others. Blank pieces write nothing. -/
structure Spells (text : String) (S : Label) : Prop where
  each_single : ∀ p ∈ pieces text, p ≠ [] → ∃ c, p = [c]
  some_piece : ∃ p ∈ pieces text, p ≠ []
  mem_iff : ∀ a, a ∈ S ↔ ∃ c, [c] ∈ pieces text ∧ .ofChar c = a

/-- The fault of a text is its first piece of several characters, or that all are blank. -/
inductive FirstFault (text : String) : EditError → Prop
  | piece {before after : List (List Char)} {p : List Char} :
      pieces text = before ++ p :: after → (∀ q ∈ before, q.length ≤ 1) → 1 < p.length →
      FirstFault text (.invalidSymbol (.ofList p))
  | blank : (∀ p ∈ pieces text, p = []) → FirstFault text .emptyLabel

/-- The characters that mean themselves in writing. -/
def Plain (c : Char) : Prop := c ≠ ',' ∧ c ≠ 'ε' ∧ ¬ Text.isBlank c

/-- The label can be had in writing. -/
structure Readable (S : Label) : Prop where
  ne_empty : S ≠ ∅
  plain : ∀ c, .char c ∈ S → Plain c

/-! ### Reading -/

theorem readEntry_eq_ok_iff : readEntry p = .ok a ↔ ∃ c, p = [c] ∧ .ofChar c = a := by
  match p with
  | [] => simp [readEntry]
  | [c] => simp [readEntry]
  | c :: d :: p => simp [readEntry]

theorem readEntry_eq_error_iff (h : p ≠ []) :
    readEntry p = .error f ↔ 1 < p.length ∧ .invalidSymbol (.ofList p) = f := by
  match p with
  | [] => exact absurd rfl h
  | [c] => simp [readEntry]
  | c :: d :: p => simp [readEntry]

theorem exists_readEntry_eq_ok_iff (h : p ≠ []) :
    (∃ a, readEntry p = .ok a) ↔ p.length ≤ 1 := by
  match p with
  | [] => exact absurd rfl h
  | [c] => simp [readEntry]
  | c :: d :: p => simp [readEntry]

theorem mapM_readEntry_eq_ok_iff {es : List (List Char)} {symbols : List Symbol} :
    es.mapM readEntry = .ok symbols ↔
      ∃ cs : List Char, es = cs.map ([·]) ∧ symbols = cs.map .ofChar := by
  induction es generalizing symbols with
  | nil => simp [pure, Except.pure]
  | cons p es ih =>
      simp only [mapM_cons_eq_ok_iff, readEntry_eq_ok_iff, ih]
      constructor
      · intro h
        obtain ⟨a, rest, ⟨c, rfl, rfl⟩, ⟨cs, rfl, rfl⟩, rfl⟩ := h
        exact ⟨c :: cs, rfl, rfl⟩
      · intro h
        obtain ⟨cs, hes, rfl⟩ := h
        obtain ⟨c, cs, rfl, rfl, rfl⟩ := List.map_eq_cons_iff.1 hes.symm
        exact ⟨_, _, ⟨c, rfl, rfl⟩, ⟨cs, rfl, rfl⟩, rfl⟩

/-- Among the pieces that are not blank, the first fault is that of the first long piece. -/
theorem mapM_filter_eq_error_iff {ps : List (List Char)} :
    (ps.filter (! ·.isEmpty)).mapM readEntry = .error f ↔ ∃ before p after,
      ps = before ++ p :: after ∧ (∀ q ∈ before, q.length ≤ 1) ∧ 1 < p.length ∧
        .invalidSymbol (.ofList p) = f := by
  induction ps with
  | nil => simp [pure, Except.pure]
  | cons p ps ih =>
      rw [first_cons_iff (Q := fun _ p => 1 < p.length ∧ .invalidSymbol (.ofList p) = f), ← ih]
      by_cases hp : p = []
      · simp [hp]
      · rw [List.filter_cons_of_pos (by simp [hp]), mapM_cons_eq_error_iff,
          readEntry_eq_error_iff hp, exists_readEntry_eq_ok_iff hp]

/-- The entries of a text that is read are single characters. -/
theorem parse_eq_ok_iff_entries : parse text = .ok S ↔
    ∃ cs : List Char, cs ≠ [] ∧ entries text = cs.map ([·]) ∧ S = .ofList (cs.map .ofChar) := by
  rw [parse, bind_eq_ok_iff]
  simp only [mapM_readEntry_eq_ok_iff]
  constructor
  · intro h
    obtain ⟨symbols, ⟨cs, hentries, rfl⟩, hS⟩ := h
    cases cs with
    | nil => cases hS
    | cons c cs => exact ⟨c :: cs, List.cons_ne_nil c cs, hentries, (Except.ok.inj hS).symm⟩
  · intro h
    obtain ⟨cs, hne, hentries, rfl⟩ := h
    refine ⟨_, ⟨cs, hentries, rfl⟩, ?_⟩
    cases cs with
    | nil => exact absurd rfl hne
    | cons c cs => rfl

theorem mem_entries : p ∈ entries text ↔ p ∈ pieces text ∧ p ≠ [] := by
  simp [entries, pieces]

theorem singleton_mem_pieces_iff {cs : List Char} (h : entries text = cs.map ([·])) {c : Char} :
    [c] ∈ pieces text ↔ c ∈ cs := by
  have hmem : [c] ∈ entries text ↔ [c] ∈ pieces text ∧ [c] ≠ [] := mem_entries
  simpa [h, eq_comm] using hmem.symm

theorem parse_eq_ok_iff : parse text = .ok S ↔ Spells text S := by
  rw [parse_eq_ok_iff_entries]
  constructor
  · intro h
    obtain ⟨cs, hne, hentries, rfl⟩ := h
    refine ⟨fun p hp hblank => ?_, ?_, fun a => ?_⟩
    · have hmem : p ∈ entries text := mem_entries.2 ⟨hp, hblank⟩
      rw [hentries, List.mem_map] at hmem
      obtain ⟨c, -, hc⟩ := hmem
      exact ⟨c, hc.symm⟩
    · obtain ⟨c, hc⟩ := List.exists_mem_of_ne_nil cs hne
      exact ⟨[c], (singleton_mem_pieces_iff hentries).2 hc, List.cons_ne_nil c []⟩
    · simp [singleton_mem_pieces_iff hentries]
  · intro h
    have hsingles : entries text ∈ Set.range (List.map fun c : Char => [c]) := by
      rw [Set.range_list_map]
      intro p hp
      obtain ⟨c, hc⟩ := h.each_single p (mem_entries.1 hp).1 (mem_entries.1 hp).2
      exact ⟨c, hc.symm⟩
    obtain ⟨cs, hcs⟩ := hsingles
    refine ⟨cs, ?_, hcs.symm, OrderedSet.ext_mem fun a => ?_⟩
    · rintro rfl
      obtain ⟨p, hp⟩ := h.some_piece
      simpa [← hcs] using mem_entries.2 hp
    · simp [h.mem_iff, singleton_mem_pieces_iff hcs.symm]

theorem parse_eq_error_iff : parse text = .error f ↔ FirstFault text f := by
  have hblank : (entries text).mapM readEntry = .ok [] ↔ ∀ p ∈ pieces text, p = [] := by
    simp [mapM_readEntry_eq_ok_iff, entries, pieces, List.filter_eq_nil_iff]
  rw [parse, bind_eq_error_iff]
  constructor
  · intro h
    cases h with
    | inl h =>
        obtain ⟨before, p, after, hpieces, hbefore, hp, rfl⟩ := mapM_filter_eq_error_iff.1 h
        exact .piece hpieces hbefore hp
    | inr h =>
        obtain ⟨symbols, hsymbols, hf⟩ := h
        cases symbols with
        | nil =>
            cases hf
            exact .blank (hblank.1 hsymbols)
        | cons a symbols => cases hf
  · intro h
    cases h with
    | piece hpieces hbefore hp =>
        exact .inl (mapM_filter_eq_error_iff.2 ⟨_, _, _, hpieces, hbefore, hp, rfl⟩)
    | blank hall => exact .inr ⟨[], hblank.2 hall, rfl⟩

/-! ### Reading what is written -/

theorem plain_of_mem_pieces {c : Char} (h : [c] ∈ pieces text) (hc : c ≠ 'ε') : Plain c := by
  obtain ⟨hcomma, htrim⟩ := Text.forall_mem_map_trim_splitOn ',' text.toList [c] h
  refine ⟨fun h => hcomma (h ▸ List.mem_singleton_self c), hc, fun hblank => ?_⟩
  have hnil : Text.trim [c] = [] := Text.trim_eq_nil_iff.2 (by simpa using hblank)
  rw [hnil] at htrim
  cases htrim

theorem readable_of_parse (h : parse text = .ok S) : S.Readable := by
  have hspells := parse_eq_ok_iff.1 h
  refine ⟨?_, fun c hc => ?_⟩
  · rintro rfl
    obtain ⟨p, hp, hne⟩ := hspells.some_piece
    obtain ⟨c, rfl⟩ := hspells.each_single p hp hne
    exact OrderedSet.not_mem_empty _ ((hspells.mem_iff _).2 ⟨c, hp, rfl⟩)
  · obtain ⟨d, hd, heq⟩ := (hspells.mem_iff _).1 hc
    obtain ⟨rfl, hne⟩ := Symbol.ofChar_eq_char_iff.1 heq
    exact plain_of_mem_pieces hd hne

theorem readable_of_toOption_parse (h : (parse text).toOption = some S) : S.Readable := by
  cases hparse : parse text with
  | error f => simp [hparse, Except.toOption] at h
  | ok T =>
      rw [hparse] at h
      exact Option.some.inj h ▸ readable_of_parse hparse

/-- No sign that is written is a comma or blank. -/
theorem Readable.glyph (h : S.Readable) (ha : a ∈ S) : a.glyph ≠ ',' ∧ ¬ Text.isBlank a.glyph := by
  cases a with
  | epsilon => decide
  | char c => exact ⟨(h.plain c ha).1, (h.plain c ha).2.2⟩

theorem Readable.pieces_format (h : S.Readable) :
    pieces (format S) = S.toList.map fun a => [a.glyph] := by
  have hcomma : ¬ Text.isBlank ',' := by decide
  have hne : S.toList.map (fun a => [a.glyph]) ≠ [] := by
    obtain ⟨a, ha⟩ := OrderedSet.exists_mem_of_ne_empty h.ne_empty
    exact List.ne_nil_of_mem (List.mem_map_of_mem ha)
  rw [pieces, format, write, String.toList_ofList]
  refine Text.map_trim_splitOn_intercalate (u := []) (v := []) hcomma (by simp) (by simp) hne ?_
  rw [List.forall_mem_map]
  intro a ha
  obtain ⟨hmark, hblank⟩ := h.glyph ha
  refine ⟨by simpa using Ne.symm hmark, Text.trim_eq_self ?_ ?_⟩ <;> simpa using hblank

theorem Readable.parse_format (h : S.Readable) : parse (format S) = .ok S := by
  have hsymbol : ∀ a ∈ S, .ofChar a.glyph = a := by
    intro a ha
    refine Symbol.ofChar_glyph ?_
    rintro rfl
    exact (h.plain 'ε' ha).2.1 rfl
  rw [parse_eq_ok_iff]
  refine ⟨fun p hp _ => ?_, ?_, fun a => ?_⟩
  · rw [h.pieces_format, List.mem_map] at hp
    obtain ⟨a, -, rfl⟩ := hp
    exact ⟨a.glyph, rfl⟩
  · obtain ⟨a, ha⟩ := OrderedSet.exists_mem_of_ne_empty h.ne_empty
    rw [h.pieces_format]
    exact ⟨[a.glyph], List.mem_map_of_mem ha, List.cons_ne_nil _ _⟩
  · rw [h.pieces_format]
    simp only [List.mem_map, List.cons.injEq, and_true, OrderedSet.mem_toList]
    constructor
    · intro ha
      exact ⟨a.glyph, ⟨a, ha, rfl⟩, hsymbol a ha⟩
    · intro hc
      obtain ⟨c, ⟨b, hb, rfl⟩, rfl⟩ := hc
      rwa [hsymbol b hb]

theorem parse_format_eq_ok_iff : parse (format S) = .ok S ↔ S.Readable :=
  ⟨readable_of_parse, Readable.parse_format⟩

theorem Readable.union {T : Label} (hS : ∀ c, .char c ∈ S → Plain c) (hT : T.Readable) :
    (S ∪ T).Readable := by
  refine ⟨fun hempty => ?_, fun c hc => ?_⟩
  · obtain ⟨a, ha⟩ := OrderedSet.exists_mem_of_ne_empty hT.ne_empty
    exact OrderedSet.not_mem_empty a (hempty ▸ OrderedSet.mem_union.2 (.inr ha))
  · exact (OrderedSet.mem_union.1 hc).elim (hS c) (hT.plain c)

end Label

/-! ### Labels that edits bring in -/

def Edit.Readable : Edit → Prop
  | .merge _ _ label | .relabel _ _ label => label.Readable
  | _ => True

def Drawing.Readable (D : Drawing) : Prop := ∀ e ∈ D.edges, e.label.Readable

namespace Diagram

variable {d : Diagram} {source target : StateId} {more : Label} {e : Edit}

theorem readable_merged (h : d.Readable) (hmore : more.Readable) :
    ((d.label? source target).getD ∅ ∪ more).Readable := by
  refine Label.Readable.union (fun c hc => ?_) hmore
  cases hlabel : d.label? source target with
  | none =>
      rw [hlabel] at hc
      exact absurd hc (OrderedSet.not_mem_empty _)
  | some label =>
      rw [hlabel] at hc
      obtain ⟨f, hf, rfl⟩ := Option.map_eq_some_iff.1 hlabel
      exact (h f (List.mem_of_find?_eq_some hf)).plain c hc

theorem readable_apply (h : d.Readable) (he : e.Readable) : (d.apply e).diagram.Readable := by
  have heffect := d.effect_apply e
  generalize d.apply e = edited at heffect ⊢
  cases heffect with
  | removeState _ => exact fun f hf => h f (List.mem_filter.1 hf).1
  | disconnect _ => exact fun f hf => h f (List.mem_filter.1 hf).1
  | merge hlabel _ =>
      subst hlabel
      exact Drawing.forall_mem_edgesWith (readable_merged h he) h
  | relabel _ => exact Drawing.forall_mem_edgesWith he h
  | _ => exact h

end Diagram

/-- If a label comes as a set, it could have been given in writing. -/
def Action.Readable (a : Action) : Prop := ∀ x, a = edit x → x.Readable

theorem Action.Readable.edit? {a : Action} {x : Edit} (h : a.Readable) (hx : a.edit? = some x) :
    x.Readable := by
  cases a with
  | edit y => exact h x (congrArg edit (Option.some.inj hx))
  | connect source target text =>
      obtain ⟨label, hlabel, rfl⟩ := Option.map_eq_some_iff.1 hx
      exact Label.readable_of_toOption_parse hlabel
  | editLabel source target text =>
      obtain ⟨label, hlabel, rfl⟩ := Option.map_eq_some_iff.1 hx
      exact Label.readable_of_toOption_parse hlabel
  | _ => cases hx

namespace Editor

variable {e : Editor} {a : Action}

theorem readable_perform (h : e.diagram.Readable) (ha : a.Readable) :
    (e.perform a).editor.diagram.Readable := by
  rw [diagram_perform]
  cases hx : a.edit? with
  | none => exact h
  | some x => exact Diagram.readable_apply h (ha.edit? hx)

theorem readable_performAll {as : List Action} (h : e.diagram.Readable)
    (has : ∀ a ∈ as, a.Readable) : (e.performAll as).diagram.Readable := by
  induction as generalizing e with
  | nil => exact h
  | cons a as ih =>
      obtain ⟨ha, has⟩ := List.forall_mem_cons.1 has
      exact ih (readable_perform h ha) has

end Editor

namespace Label

/-- A text is read as the label that it spells, and if there is none the fault is the first that it
has. A label is read from what it is written as exactly if it has a symbol and each of its
characters means itself. Labels that were read are such; so are all labels of a diagram that is
edited with labels in writing, or with sets that could be had in writing. -/
theorem written_labels_read_back :
    (∀ text S, parse text = .ok S ↔ Spells text S) ∧
    (∀ text f, parse text = .error f ↔ FirstFault text f) ∧
    (∀ S, parse (format S) = .ok S ↔
      S ≠ ∅ ∧ ∀ c, .char c ∈ S → c ≠ ',' ∧ c ≠ 'ε' ∧ ¬ Text.isBlank c) ∧
    (∀ text S, parse text = .ok S → parse (format S) = .ok S) ∧
    ∀ settings as, (∀ a ∈ as, a.Readable) →
      ∀ e ∈ ((Editor.new settings).performAll as).diagram.edges,
        parse (format e.label) = .ok e.label := by
  refine ⟨fun text S => parse_eq_ok_iff, fun text f => parse_eq_error_iff, fun S => ?_,
    fun text S h => (readable_of_parse h).parse_format, fun settings as has e he => ?_⟩
  · rw [parse_format_eq_ok_iff]
    exact ⟨fun h => ⟨h.ne_empty, h.plain⟩, fun h => ⟨h.1, h.2⟩⟩
  · have hnew : (Editor.new settings).diagram.Readable := nofun
    exact (Editor.readable_performAll hnew has e he).parse_format

/-- An edge gets `b` and `a` in writing and the empty symbol as a set, and its label is written in
order. Untidy writing is read, a word is not. A set with a comma in it is not read back. -/
theorem label_written_in_order :
    let as : List Action := [.edit .addState, .connect (.ofNat 0) (.ofNat 0) "b, a,, b",
      .edit (.merge (.ofNat 0) (.ofNat 0) (.ofList [.epsilon]))]
    let S : Label := .ofList [.epsilon, .char 'a', .char 'b']
    let T : Label := .ofList [.epsilon, .char 'c']
    let U : Label := .ofList [.char 'a', .char ',']
    (∀ a ∈ as, a.Readable) ∧
      ⟨.ofNat 0, .ofNat 0, S⟩ ∈ ((Editor.new ⟨.nfa⟩).performAll as).diagram.edges ∧
      format S = "ε,a,b" ∧ parse (format S) = .ok S ∧ parse " c, ε ,,c" = .ok T ∧
      Spells " c, ε ,,c" T ∧ parse (format T) = .ok T ∧
      FirstFault "a, bc ,def" (.invalidSymbol "bc") ∧ parse (format U) ≠ .ok U := by
  intro as S T U
  obtain ⟨hok, herror, hback, hread, hedges⟩ := written_labels_read_back
  have hmerge : Action.Readable (.edit (.merge (.ofNat 0) (.ofNat 0) (.ofList [.epsilon]))) := by
    intro x hx
    obtain rfl := Action.edit.inj hx
    exact ⟨by decide, fun c hc => by simp at hc⟩
  have hconnect : Action.Readable (.connect (.ofNat 0) (.ofNat 0) "b, a,, b") := by
    intro x hx
    cases hx
  have has : ∀ a ∈ as, a.Readable := by
    simp only [as, List.forall_mem_cons]
    exact ⟨fun x hx => Action.edit.inj hx ▸ trivial, hconnect, hmerge,
      fun _ h => absurd h List.not_mem_nil⟩
  have hedge : ⟨.ofNat 0, .ofNat 0, S⟩ ∈ ((Editor.new ⟨.nfa⟩).performAll as).diagram.edges := by
    decide
  have hT : parse " c, ε ,,c" = .ok T := by rfl
  have hU : ¬ parse (format U) = .ok U := by
    intro h
    exact (((hback U).1 h).2 ',' (by decide)).1 rfl
  have hword : parse "a, bc ,def" = .error (.invalidSymbol "bc") := by rfl
  have hwritten : format S = "ε,a,b" := by rfl
  have hSback : parse (format S) = .ok S := hedges _ as has ⟨.ofNat 0, .ofNat 0, S⟩ hedge
  exact ⟨has, hedge, hwritten, hSback, hT, (hok _ T).1 hT, hread _ T hT, (herror _ _).1 hword, hU⟩

end Label

end FiniteAutomata
