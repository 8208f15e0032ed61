/-
  Fragments: automata with one start and one accepting state, built from
  symbols by alternation, concatenation and closure. Each combinator puts its
  right operand behind its left one and joins the two by epsilon moves; the
  marks move from the operands' bounds to the result's.
-/
import PatternAutomata.Expr
import PatternAutomata.Automaton

namespace PatternAutomata

/-- A diagram with a start and one accepting state. -/
structure Nfa extends Diagram where
  start : Nat
  accept : Nat
deriving DecidableEq

namespace Nfa

/-- The fragment as an automaton. -/
def automaton (n : Nfa) : Automaton :=
  { n.toDiagram with start := n.start, accepting := [n.accept] }

/-- The two-state fragment that reads one symbol. -/
def symbol (c : Char) : Nfa where
  toDiagram := (({} : Diagram).addState { isStart := true }).addState { isAccept := true }
    |>.addMove 0 1 (.symbol c)
  start := 0
  accept := 1

/-- Read what either fragment reads: a new start leads to both, and both to a new accepting state. -/
def alternate (a b : Nfa) : Nfa :=
  let offset := a.states.size
  let start := offset + b.states.size
  let accept := start + 1
  { toDiagram := a.toDiagram.absorb b.toDiagram
      |>.unmarkStart a.start |>.unmarkAccept a.accept
      |>.unmarkStart (b.start + offset) |>.unmarkAccept (b.accept + offset)
      |>.addState { isStart := true } |>.addState { isAccept := true }
      |>.addMove start a.start .epsilon
      |>.addMove start (b.start + offset) .epsilon
      |>.addMove a.accept accept .epsilon
      |>.addMove (b.accept + offset) accept .epsilon
    start, accept }

/-- Read what the left fragment reads, then what the right one reads. -/
def concat (a b : Nfa) : Nfa :=
  let offset := a.states.size
  { toDiagram := a.toDiagram.absorb b.toDiagram
      |>.unmarkAccept a.accept |>.unmarkStart (b.start + offset)
      |>.addMove a.accept (b.start + offset) .epsilon
    start := a.start
    accept := b.accept + offset }

/-- Read what the fragment reads any number of times: moves lead around it and from its end back. -/
def closure (a : Nfa) : Nfa :=
  let start := a.states.size
  let accept := start + 1
  { toDiagram := a.toDiagram
      |>.unmarkStart a.start |>.unmarkAccept a.accept
      |>.addState { isStart := true } |>.addState { isAccept := true }
      |>.addMove start accept .epsilon
      |>.addMove start a.start .epsilon
      |>.addMove a.accept accept .epsilon
      |>.addMove a.accept a.start .epsilon
    start, accept }

/-- Fragments as values of expressions. -/
def fragments : Interpretation Nfa := { symbol, alternate, concat, closure }

/-- The fragment of an expression. -/
def ofExpr (e : Expr) : Nfa := e.interpret fragments

/-- The fragment of a postfix sequence. -/
def ofPostfix (p : Postfix) : Except Error Nfa := p.evaluate fragments

/-- The fragments that can be built. -/
inductive Built : Nfa → Prop where
  | symbol (c : Char) : Built (symbol c)
  | alternate {a b : Nfa} : Built a → Built b → Built (alternate a b)
  | concat {a b : Nfa} : Built a → Built b → Built (concat a b)
  | closure {a : Nfa} : Built a → Built (closure a)
  | ofPostfix {p : Postfix} {n : Nfa} : ofPostfix p = .ok n → Built n

end Nfa

end PatternAutomata
