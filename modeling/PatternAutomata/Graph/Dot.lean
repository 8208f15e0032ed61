/-
  Descriptions as DOT text: a header, one line per statement, a closing brace.
  Inside a label the double quote, the backslash and the line end are escaped,
  so a statement is always one line.
-/
import PatternAutomata.Graph

namespace PatternAutomata

/-- A character as it stands inside a quoted label. -/
def escapeLabel : Char → List Char
  | '"' => ['\\', '"']
  | '\\' => ['\\', '\\']
  | '\n' => ['\\', 'n']
  | c => [c]

/-- A statement without its line end. -/
def Statement.line : Statement → String
  | entry => "\t" ++ toString entryNode ++ " [label=\"\" peripheries=0]"
  | node id accepting =>
    "\t" ++ toString id ++ " [peripheries=" ++ (if accepting then "2" else "1") ++ "]"
  | edge source target none => "\t" ++ toString source ++ " -> " ++ toString target
  | edge source target (some label) =>
    "\t" ++ toString source ++ " -> " ++ toString target ++
      " [label=\"" ++ String.ofList (escapeLabel label.char) ++ "\"]"

namespace Graph

/-- The lines of the text. -/
def lines (g : Graph) : List String :=
  ["// Generated by re2dot", "digraph \x7b", "\trankdir=LR"] ++
    g.statements.map Statement.line ++ ["\x7d"]

/-- The DOT text. The last line has no line end. -/
def dot (g : Graph) : String := "\n".intercalate g.lines

end Graph

end PatternAutomata
