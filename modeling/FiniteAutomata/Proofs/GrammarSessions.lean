import FiniteAutomata.Grammar.Session
import FiniteAutomata.Proofs.GrammarLanguage
import FiniteAutomata.Proofs.GrammarReading

/-!
# The last good grammar

A session answers for the grammar of the last text that could be read. A text that is refused is
as if it had not been given, and it is never refused for want of productions: a text without any is
blank, and blank text stands for the default grammar.
-/

namespace FiniteAutomata.GrammarSession

open Notation Text

def defaultGrammar : Grammar :=
  .single ⟨⟨'S', rfl⟩, [.step ⟨'a', rfl⟩ ⟨'S', rfl⟩, .terminal ⟨'b', rfl⟩, .epsilon], nofun⟩

/-- The grammar that a text stands for: the one that its lines write, or the default one if all its
characters are blank. -/
inductive StandsFor (text : String) : Grammar → Prop
  | blank : (∀ c ∈ text.toList, isBlank c) → StandsFor text defaultGrammar
  | written {rs : List Rule} {g : Grammar} : List.Forall₂ Writes (contents text) rs →
      Gathers rs g → StandsFor text g

variable {s : GrammarSession} {text : String} {g : Grammar} {f : GrammarError} {cs : List Call}

/-! ### One update -/

theorem parse_defaultText : Grammar.parse defaultText = .ok defaultGrammar := by rfl

theorem sourceText_of_blank (h : ∀ c ∈ text.toList, isBlank c) : sourceText text = defaultText := by
  simp [sourceText, trim_eq_nil_iff.2 h]

theorem sourceText_of_not_blank (h : ¬ ∀ c ∈ text.toList, isBlank c) : sourceText text = text := by
  simp [sourceText, mt trim_eq_nil_iff.1 h]

theorem update_of_parse_eq_ok (h : Grammar.parse (sourceText text) = .ok g) :
    s.update text = (⟨some g⟩, .ok g) := by
  simp only [update, h]

theorem update_of_parse_eq_error (h : Grammar.parse (sourceText text) = .error f) :
    s.update text = (s, .error f) := by
  simp only [update, h]

theorem parse_sourceText_eq_ok_iff :
    Grammar.parse (sourceText text) = .ok g ↔ StandsFor text g := by
  by_cases hblank : ∀ c ∈ text.toList, isBlank c
  · rw [sourceText_of_blank hblank, parse_defaultText]
    constructor
    · intro h
      cases h
      exact .blank hblank
    · intro h
      cases h with
      | blank _ => rfl
      | written hrs hg =>
          rw [Grammar.contents_eq_nil_iff.2 hblank, List.forall₂_nil_left_iff] at hrs
          simpa [hrs] using hg.start_eq
  · rw [sourceText_of_not_blank hblank, Grammar.parse_eq_ok_iff]
    constructor
    · intro h
      obtain ⟨rs, hrs, hg⟩ := h
      exact .written hrs hg
    · intro h
      cases h with
      | blank h => exact absurd h hblank
      | written hrs hg => exact ⟨_, hrs, hg⟩

/-- Blank text is always read, so a fault is one of the text itself, and not that it lacks
productions. -/
theorem parse_of_parse_sourceText_eq_error (h : Grammar.parse (sourceText text) = .error f) :
    Grammar.parse text = .error f ∧ f ≠ .noProductions := by
  by_cases hblank : ∀ c ∈ text.toList, isBlank c
  · rw [sourceText_of_blank hblank, parse_defaultText] at h
    cases h
  · rw [sourceText_of_not_blank hblank] at h
    refine ⟨h, ?_⟩
    rintro rfl
    cases Grammar.parse_eq_error_iff.1 h with
    | noProductions hnil => exact hblank (Grammar.contents_eq_nil_iff.1 hnil)
    | line _ _ _ hfault => cases hfault

theorem update_cases (s : GrammarSession) (text : String) :
    (∃ g, StandsFor text g ∧ s.update text = (⟨some g⟩, .ok g)) ∨
      ∃ f, Grammar.parse text = .error f ∧ f ≠ .noProductions ∧ s.update text = (s, .error f) := by
  cases h : Grammar.parse (sourceText text) with
  | ok g => exact .inl ⟨g, parse_sourceText_eq_ok_iff.1 h, update_of_parse_eq_ok h⟩
  | error f =>
      obtain ⟨hparse, hne⟩ := parse_of_parse_sourceText_eq_error h
      exact .inr ⟨f, hparse, hne, update_of_parse_eq_error h⟩

theorem snd_update_eq_ok_iff : (s.update text).2 = .ok g ↔ StandsFor text g := by
  rw [← parse_sourceText_eq_ok_iff]
  cases h : Grammar.parse (sourceText text) with
  | ok g' => rw [update_of_parse_eq_ok h]
  | error f => rw [update_of_parse_eq_error h]

theorem update_of_snd_eq_ok (h : (s.update text).2 = .ok g) :
    s.update text = (⟨some g⟩, .ok g) :=
  update_of_parse_eq_ok (parse_sourceText_eq_ok_iff.2 (snd_update_eq_ok_iff.1 h))

/-! ### Many calls -/

/-- While no text is read the session stays as it is. -/
theorem after_of_forall_not_read (h : ∀ g, .read (.ok g) ∉ s.answers cs) : s.after cs = s := by
  induction cs generalizing s with
  | nil => rfl
  | cons c cs ih =>
      simp only [answers, List.mem_cons, not_or] at h
      have hsame : (s.respond c).1 = s := by
        cases c with
        | update text =>
            rcases s.update_cases text with ⟨g, -, hupdate⟩ | ⟨f, -, -, hupdate⟩
            · exact absurd (by rw [respond, hupdate]) (h g).1
            · rw [respond, hupdate]
        | test w => rfl
      rw [after_cons, hsame]
      exact ih fun g hg => (h g).2 (by rwa [hsame])

/-- Either no text is read, or one of them is the last that is. -/
theorem exists_last_read (s : GrammarSession) (cs : List Call) :
    (∀ g, .read (.ok g) ∉ s.answers cs) ∨ ∃ before text rest g,
      cs = before ++ .update text :: rest ∧ (s.after before).update text = (⟨some g⟩, .ok g) ∧
        ∀ h, .read (.ok h) ∉ (⟨some g⟩ : GrammarSession).answers rest := by
  induction cs generalizing s with
  | nil => exact .inl fun g => List.not_mem_nil
  | cons c cs ih =>
      rcases ih (s.respond c).1 with hnone | ⟨before, text, rest, g, rfl, hupdate, hrest⟩
      · cases c with
        | update text =>
            rcases s.update_cases text with ⟨g, -, hupdate⟩ | ⟨f, -, -, hupdate⟩
            · simp only [respond, hupdate] at hnone
              exact .inr ⟨[], text, cs, g, rfl, hupdate, hnone⟩
            · simp only [respond, hupdate] at hnone
              exact .inl fun g => by simpa [answers, respond, hupdate] using hnone g
        | test w => exact .inl fun g => by simpa [answers, respond] using hnone g
      · exact .inr ⟨c :: before, text, rest, g, rfl, hupdate, hrest⟩

theorem after_of_last_read {before rest : List Call}
    (hupdate : (s.after before).update text = (⟨some g⟩, .ok g))
    (hrest : ∀ h, .read (.ok h) ∉ (⟨some g⟩ : GrammarSession).answers rest) :
    s.after (before ++ .update text :: rest) = ⟨some g⟩ := by
  rw [after_append, after_cons, respond, hupdate]
  exact after_of_forall_not_read hrest

/-- Whatever calls are made of a new session, there is no answer to a test before a text was read,
and then the answer is for the grammar that the last text read stands for. A text that is refused
has the fault that a reader finds in it, which is never the lack of productions, and changes no
later answer. -/
theorem answers_for_last_good_grammar (cs : List Call) :
    (∀ w, (new.after cs).test w = none ↔ ∀ g, .read (.ok g) ∉ new.answers cs) ∧
      (∀ before text rest g, cs = before ++ .update text :: rest →
        ((new.after before).update text).2 = .ok g →
        (∀ h, .read (.ok h) ∉ ((new.after before).update text).1.answers rest) →
          StandsFor text g ∧
            ∀ w, ∃ b, (new.after cs).test w = some b ∧ (b ↔ g.Derives g.start w)) ∧
      ∀ text, (∀ g, ((new.after cs).update text).2 = .ok g ↔ StandsFor text g) ∧
        ∀ f, ((new.after cs).update text).2 = .error f →
          Grammar.parse text = .error f ∧ f ≠ .noProductions ∧
            ∀ later, ((new.after cs).update text).1.answers later =
              (new.after cs).answers later := by
  refine ⟨fun w => ?_, ?_, fun text => ⟨fun g => snd_update_eq_ok_iff, fun f hf => ?_⟩⟩
  · constructor
    · intro hnone
      rcases new.exists_last_read cs with hread | ⟨before, text, rest, g, rfl, hupdate, hrest⟩
      · exact hread
      · rw [after_of_last_read hupdate hrest] at hnone
        cases hnone
    · intro hread
      rw [after_of_forall_not_read hread]
      rfl
  · rintro before text rest g rfl hg hrest
    have hupdate := update_of_snd_eq_ok hg
    rw [hupdate] at hrest
    refine ⟨snd_update_eq_ok_iff.1 hg, fun w => ⟨g.automaton.accepts w, ?_, ?_⟩⟩
    · rw [after_of_last_read hupdate hrest]
      rfl
    · exact Grammar.accepts_automaton_iff
  · rcases (new.after cs).update_cases text with ⟨g, -, hupdate⟩ | ⟨f', hparse, hne, hupdate⟩
    · rw [hupdate] at hf
      cases hf
    · rw [hupdate] at hf ⊢
      cases hf
      exact ⟨hparse, hne, fun _ => rfl⟩

/-- The second text is the last that is read, and all its characters are blank; those after it have
a fault each. -/
theorem blank_text_read_last :
    let before : List Call := [.test ['b'], .update "S -> aS | b", .update "S -> Sa"]
    let text := " \n\t"
    let rest : List Call := [.update "S -> Sa", .update "-> x"]
    let cs := before ++ .update text :: rest
    ((new.after before).update text).2 = .ok defaultGrammar ∧
      new.answers rest =
        [.read (.error (.notRightLinear 1 "Sa")), .read (.error (.invalidLine 1 "-> x"))] ∧
      StandsFor text defaultGrammar ∧ (new.after cs).test [] = some true ∧
      ((new.after cs).update "S").2 = .error (.invalidLine 1 "S") ∧
      ∀ later, ((new.after cs).update "S").1.answers later = (new.after cs).answers later := by
  intro before text rest cs
  have hread : ((new.after before).update text).2 = .ok defaultGrammar :=
    snd_update_eq_ok_iff.2 (.blank (by simp [text, isBlank, blankRanges]))
  have hanswers (s : GrammarSession) : s.answers rest =
      [.read (.error (.notRightLinear 1 "Sa")), .read (.error (.invalidLine 1 "-> x"))] := by rfl
  have hrefused : ((new.after cs).update "S").2 = .error (.invalidLine 1 "S") := by rfl
  obtain ⟨-, hlast, hupdate⟩ := answers_for_last_good_grammar cs
  obtain ⟨hstands, htests⟩ := hlast before text rest _ rfl hread (by simp [hanswers])
  obtain ⟨b, hb, hderives⟩ := htests []
  have hempty : defaultGrammar.Derives defaultGrammar.start [] := .epsilon (by decide)
  obtain rfl : b = true := hderives.2 hempty
  exact ⟨hread, hanswers new, hstands, hb, hrefused, ((hupdate "S").2 _ hrefused).2.2⟩

end FiniteAutomata.GrammarSession
