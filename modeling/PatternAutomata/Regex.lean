/-
  Compiled patterns: from a pattern to its fragment, and from there to matching,
  determinizing and drawing.
-/
import PatternAutomata.Postfix.Yard
import PatternAutomata.Automaton.Simulation
import PatternAutomata.Dfa
import PatternAutomata.Graph.Dot
import PatternAutomata.Output

namespace PatternAutomata

/-- A compiled pattern: its fragment. -/
structure Regex where
  nfa : Nfa
deriving DecidableEq

namespace Regex

/-- Compile a pattern. -/
def ofPattern (pattern : String) : Except Error Regex := do
  let postorder ← Postfix.ofPattern pattern
  let nfa ← Nfa.ofPostfix postorder
  return { nfa }

/-- The deterministic automaton. -/
def dfa (r : Regex) : Dfa := Dfa.ofNfa r.nfa

/-- Whether the pattern matches all of a text. -/
def isMatch (r : Regex) (text : String) : Bool := r.nfa.automaton.accepts text.toList

/-- The description of the automaton asked for. -/
def graph (r : Regex) : Output → Except Error Graph
  | .nfa => .ok r.nfa.automaton.graph
  | .dfa => .ok r.dfa.graph
  | .minDfa => .error .noMinimization

/-- The DOT text of the automaton asked for. -/
def dot (r : Regex) (output : Output) : Except Error String := do
  let graph ← r.graph output
  return graph.dot

end Regex

end PatternAutomata
