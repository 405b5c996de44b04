/-!
# Right-linear grammars

Variables are the letters `A` to `Z`, terminals the letters `a` to `z` and the digits. A rule gives
a variable its alternatives, at least one; a grammar has at least one rule and no two for the same
variable. The variable of the first rule is the start.
-/

namespace FiniteAutomata

structure Variable where
  letter : Char
  isUpper : letter.isUpper
  deriving DecidableEq, Repr

structure Terminal where
  letter : Char
  isLowerOrDigit : letter.isLower || letter.isDigit
  deriving DecidableEq, Repr

def Variable.ofChar? (c : Char) : Option Variable := if h : c.isUpper then some ⟨c, h⟩ else none

def Terminal.ofChar? (c : Char) : Option Terminal :=
  if h : c.isLower || c.isDigit then some ⟨c, h⟩ else none

inductive Alternative
  | epsilon
  | terminal (a : Terminal)
  | step (a : Terminal) (B : Variable)
  deriving DecidableEq, Repr

def Alternative.next? : Alternative → Option Variable
  | epsilon => none
  | terminal _ => none
  | step _ B => some B

structure Rule where
  left : Variable
  right : List Alternative
  right_ne_nil : right ≠ []
  deriving DecidableEq

def Rule.extend (r : Rule) (more : List Alternative) : Rule :=
  ⟨r.left, r.right ++ more, List.append_ne_nil_of_left_ne_nil r.right_ne_nil more⟩

structure Grammar where
  rules : List Rule
  rules_ne_nil : rules ≠ []
  nodup_left : (rules.map Rule.left).Nodup
  deriving DecidableEq

namespace Grammar

def start (g : Grammar) : Variable := (g.rules.head g.rules_ne_nil).left

def alternatives (g : Grammar) (V : Variable) : List Alternative :=
  ((g.rules.find? (·.left = V)).map Rule.right).getD []

/-- Whether two grammars have the same start and the same rules, in whatever order. -/
def agrees (g h : Grammar) : Bool :=
  g.start = h.start ∧ g.rules.length = h.rules.length ∧
    g.rules.all fun r => h.alternatives r.left = r.right

/-- Adds a rule at the end, or its alternatives to the rule that its variable has. -/
def addRule (r : Rule) : List Rule → List Rule
  | [] => [r]
  | s :: rest => if s.left = r.left then s.extend r.right :: rest else s :: addRule r rest

theorem addRule_ne_nil (r : Rule) (rules : List Rule) : addRule r rules ≠ [] := by
  cases rules with
  | nil => simp [addRule]
  | cons s rest => by_cases h : s.left = r.left <;> simp [addRule, h]

theorem map_left_addRule (r : Rule) (rules : List Rule) : (addRule r rules).map Rule.left =
    if r.left ∈ rules.map Rule.left then rules.map Rule.left
    else rules.map Rule.left ++ [r.left] := by
  induction rules with
  | nil => simp [addRule]
  | cons s rest ih =>
    by_cases h : s.left = r.left
    · simp [addRule, h, Rule.extend]
    · have h' : r.left ≠ s.left := Ne.symm h
      by_cases hm : r.left ∈ rest.map Rule.left
      · simp only [addRule, h, if_false, List.map_cons, ih, hm, if_true, List.mem_cons, or_true]
      · simp only [addRule, h, if_false, List.map_cons, ih, hm, List.mem_cons, h', or_false,
          List.cons_append]

theorem nodup_addRule (r : Rule) {rules : List Rule} (h : (rules.map Rule.left).Nodup) :
    ((addRule r rules).map Rule.left).Nodup := by
  rw [map_left_addRule]
  split
  · exact h
  · next hr =>
    refine List.nodup_append.2 ⟨h, by simp, ?_⟩
    intro a ha b hb hab
    rw [List.mem_singleton] at hb
    exact hr (hb ▸ hab ▸ ha)

def add (g : Grammar) (r : Rule) : Grammar :=
  ⟨addRule r g.rules, addRule_ne_nil r g.rules, nodup_addRule r g.nodup_left⟩

def single (r : Rule) : Grammar := ⟨[r], by simp, by simp⟩

/-- The grammar that a list of rules writes down, a variable's alternatives being gathered in the
order of the list. -/
def ofRules? : List Rule → Option Grammar
  | [] => none
  | r :: rest => some (rest.foldl add (single r))

end Grammar

end FiniteAutomata
