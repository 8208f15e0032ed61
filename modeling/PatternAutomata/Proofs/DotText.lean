/-
  DOT text is unambiguous. No line holds a line end, so the text splits into its lines again
  (`split_dot`), and a line says which statement it is of (`plain_eq_of_line_eq`). The one thing that
  cannot be read off is whether a label that shows the sign of epsilon is epsilon or that symbol
  (`Label.plain`).
-/
import Mathlib.Data.List.Forall2
import PatternAutomata.Graph.Dot
import PatternAutomata.Proofs.Codes

namespace PatternAutomata

/-! ## Labels -/

/-- The label, with epsilon in place of the symbol that looks like it. -/
def Label.plain : Label → Label
  | epsilon => epsilon
  | symbol c => if c = '\u03f5' then epsilon else symbol c

namespace Label

theorem char_plain (l : Label) : l.plain.char = l.char := by
  cases l with
  | epsilon => rfl
  | symbol c =>
    by_cases hc : c = '\u03f5'
    · simp [plain, hc, char]
    · simp [plain, hc]

theorem plain_eq (l : Label) : l.plain = if l.char = '\u03f5' then epsilon else symbol l.char := by
  cases l with
  | epsilon => rfl
  | symbol c => rfl

/-- Labels are shown by one character exactly if they are the same but for epsilon. -/
theorem char_eq_iff {l k : Label} : l.char = k.char ↔ l.plain = k.plain := by
  constructor
  · intro h
    rw [plain_eq, plain_eq, h]
  · intro h
    rw [← char_plain l, ← char_plain k, h]

end Label

/-- The character that stands inside a quoted label as the given ones. -/
def unescapeLabel : List Char → Char
  | [c] => c
  | [_, 'n'] => '\n'
  | [_, c] => c
  | _ => ' '

theorem unescapeLabel_escapeLabel : Function.LeftInverse unescapeLabel escapeLabel := by
  intro c
  unfold escapeLabel
  split
  · rfl
  · rfl
  · rfl
  · rfl

theorem newline_notMem_escapeLabel (c : Char) : '\n' ∉ escapeLabel c := by
  unfold escapeLabel
  split
  · decide
  · decide
  · decide
  · rename_i hne
    exact fun h => hne (List.mem_singleton.mp h).symm

/-! ## Lines -/

namespace Statement

/-- The statement, with epsilon in place of the symbol that looks like it. -/
def plain : Statement → Statement
  | edge source target label? => edge source target (label?.map Label.plain)
  | s => s

theorem line_plain (s : Statement) : s.plain.line = s.line := by
  cases s with
  | entry => rfl
  | node id accepting => rfl
  | edge source target label? =>
    cases label? with
    | none => rfl
    | some l =>
      unfold plain line
      dsimp only [Option.map_some]
      rw [Label.char_plain]

/-- The number that a line begins with. -/
def first : Statement → Nat
  | entry => entryNode
  | node id _ => id
  | edge source _ _ => source

/-- What a line says of the label of an edge. -/
def labelText : Option Label → String
  | none => ""
  | some label => " [label=\"" ++ String.ofList (escapeLabel label.char) ++ "\"]"

/-- A line behind its first number. -/
def rest : Statement → String
  | entry => " [label=\"\" peripheries=0]"
  | node _ accepting => " [peripheries=" ++ ((if accepting then "2" else "1") ++ "]")
  | edge _ target label? => " -> " ++ toString target ++ labelText label?

theorem toList_line (s : Statement) :
    s.line.toList = '\t' :: ((toString s.first).toList ++ s.rest.toList) := by
  cases s with
  | entry => simp [line, first, rest]
  | node id accepting => simp [line, first, rest]
  | edge source target label? => cases label? <;> simp [line, first, rest, labelText]

theorem isDigit_head?_labelText (label? : Option Label) :
    ∀ c ∈ (labelText label?).toList.head?, c.isDigit = false := by
  cases label? with
  | none => simp [labelText]
  | some l => simp [labelText]

theorem isDigit_head?_rest (s : Statement) : ∀ c ∈ s.rest.toList.head?, c.isDigit = false := by
  cases s <;> simp [rest]

theorem plain_eq_of_labelText_eq {l? k? : Option Label}
    (h : (labelText l?).toList = (labelText k?).toList) :
    l?.map Label.plain = k?.map Label.plain := by
  cases l? with
  | none =>
    cases k? with
    | none => rfl
    | some k => simp [labelText] at h
  | some l =>
    cases k? with
    | none => simp [labelText] at h
    | some k =>
      have hescape : escapeLabel l.char = escapeLabel k.char := by simpa [labelText] using h
      exact congrArg some (Label.char_eq_iff.mp (unescapeLabel_escapeLabel.injective hescape))

/-- A line says which statement it is of, but for epsilon. -/
theorem plain_eq_of_line_eq {s t : Statement} (h : s.line = t.line) : s.plain = t.plain := by
  have hline := congrArg String.toList h
  rw [toList_line, toList_line, List.cons_inj_right] at hline
  obtain ⟨hfirst, hrest⟩ := numeral_append_inj s.isDigit_head?_rest t.isDigit_head?_rest hline
  -- Behind the number, two characters tell the three kinds of statements apart.
  cases s with
  | entry =>
    cases t with
    | entry => rfl
    | _ => simp [rest] at hrest
  | node id accepting =>
    cases t with
    | node id' accepting' =>
      obtain rfl : id = id' := hfirst
      have hborder : accepting = accepting' := by
        cases accepting <;> cases accepting' <;> simp [rest] at hrest ⊢
      rw [hborder]
    | _ => simp [rest] at hrest
  | edge source target label? =>
    cases t with
    | edge source' target' label?' =>
      obtain rfl : source = source' := hfirst
      have htarget : (toString target).toList ++ (labelText label?).toList =
          (toString target').toList ++ (labelText label?').toList := by simpa [rest] using hrest
      obtain ⟨rfl, hlabel⟩ := numeral_append_inj (isDigit_head?_labelText label?)
        (isDigit_head?_labelText label?') htarget
      exact congrArg (edge source target) (plain_eq_of_labelText_eq hlabel)
    | _ => simp [rest] at hrest

/-- Lines are equal exactly if statements are, but for epsilon. -/
theorem line_eq_iff {s t : Statement} : s.line = t.line ↔ s.plain = t.plain := by
  constructor
  · exact plain_eq_of_line_eq
  · intro h
    rw [← line_plain s, ← line_plain t, h]

theorem newline_notMem_numeral (n : Nat) : '\n' ∉ (toString n).toList := by
  intro h
  have hdigit := isDigit_of_mem_numeral h
  revert hdigit
  decide

theorem newline_notMem_rest (s : Statement) : '\n' ∉ s.rest.toList := by
  have hnumeral := newline_notMem_numeral
  cases s with
  | entry => simp [rest]
  | node id accepting => cases accepting <;> simp [rest]
  | edge source target label? =>
    cases label? with
    | none => simpa [rest, labelText] using hnumeral target
    | some l => simpa [rest, labelText, newline_notMem_escapeLabel] using hnumeral target

theorem newline_notMem_line (s : Statement) : '\n' ∉ s.line.toList := by
  rw [toList_line, List.mem_cons, List.mem_append]
  simp only [newline_notMem_numeral, newline_notMem_rest, or_false]
  decide

end Statement

/-! ## The text -/

namespace Graph

theorem length_lines (g : Graph) : g.lines.length = g.statements.length + 4 := by
  unfold lines
  simp

/-- At line ends, the text splits into its lines. -/
theorem split_dot (g : Graph) : (g.dot.split '\n').toList.map (·.copy) = g.lines := by
  have hlines : ∀ l ∈ g.lines, '\n' ∉ l.toList := by
    intro l hl
    unfold lines at hl
    rw [List.mem_append, List.mem_append, List.mem_map] at hl
    rcases hl with (hl | ⟨s, -, rfl⟩) | hl
    · revert l
      decide
    · exact s.newline_notMem_line
    · revert l
      decide
  have hsplit := String.toList_split_intercalate hlines
  rwa [if_neg (by simp [lines])] at hsplit

theorem dot_eq_iff_lines {g h : Graph} : g.dot = h.dot ↔ g.lines = h.lines := by
  constructor
  · intro heq
    rw [← split_dot g, ← split_dot h, heq]
  · intro heq
    unfold dot
    rw [heq]

theorem lines_eq_iff {g h : Graph} :
    g.lines = h.lines ↔ g.statements.map Statement.plain = h.statements.map Statement.plain := by
  unfold lines
  rw [List.append_cancel_right_eq, List.append_cancel_left_eq, ← List.forall₂_eq_eq_eq,
    ← List.forall₂_eq_eq_eq]
  simp only [List.forall₂_map_left_iff, List.forall₂_map_right_iff, Statement.line_eq_iff]

end Graph

/-- Texts are equal exactly if the statements are, but for labels that are epsilon and labels that
are the symbol it is shown as; and a text has one line for each statement, and four more. -/
theorem dot_unambiguous (g h : Graph) :
    (g.dot = h.dot ↔
      g.statements.map Statement.plain = h.statements.map Statement.plain) ∧
      (g.dot.split '\n').toList.length = g.statements.length + 4 := by
  refine ⟨Graph.dot_eq_iff_lines.trans Graph.lines_eq_iff, ?_⟩
  rw [← Graph.length_lines, ← Graph.split_dot, List.length_map]

end PatternAutomata
