/-
  Renaming symbols, in all that carries symbols. Handles, marks and epsilon
  moves stay as they are.
-/
import PatternAutomata.Dfa

namespace PatternAutomata

/-- Rename the symbol of a label. -/
def Label.rename (f : Char → Char) : Label → Label
  | epsilon => epsilon
  | symbol c => symbol (f c)

/-- Rename the operands in a token. -/
def Token.rename (f : Char → Char) : Token → Token
  | operand c => operand (f c)
  | t => t

/-- Rename the symbols of an expression. -/
def Expr.rename (f : Char → Char) : Expr → Expr
  | symbol c => symbol (f c)
  | alternate a b => alternate (a.rename f) (b.rename f)
  | concat a b => concat (a.rename f) (b.rename f)
  | closure a => closure (a.rename f)

/-- Rename the symbols on the moves and in the alphabet. -/
def Diagram.rename (f : Char → Char) (d : Diagram) : Diagram :=
  { d with
    moves := d.moves.map fun m => { m with label := m.label.rename f }
    alphabet := d.alphabet.map f }

/-- Rename the symbols of a fragment. -/
def Nfa.rename (f : Char → Char) (n : Nfa) : Nfa := { n with toDiagram := n.toDiagram.rename f }

/-- Rename the symbols of a deterministic automaton. -/
def Dfa.rename (f : Char → Char) (d : Dfa) : Dfa := { d with toDiagram := d.toDiagram.rename f }

end PatternAutomata
