/-
  Compiling patterns to fragments with handles of 32 bits. A handle that does not
  fit ends the compilation at once, whatever becomes of the fragment that it is for.
-/
import PatternAutomata.Compact
import PatternAutomata.Nfa
import PatternAutomata.Postfix.Yard

namespace PatternAutomata

namespace Compact

namespace Diagram

/-- Add a start and an accepting state, and give their handles. -/
def addBounds (d : Diagram) : Except Fault (UInt32 × UInt32 × Diagram) := do
  let (start, d) ← d.addState { isStart := true }
  let (accept, d) ← d.addState { isAccept := true }
  return (start, accept, d)

end Diagram

/-- A diagram with a start and one accepting state. -/
structure Nfa extends Diagram where
  start : UInt32
  accept : UInt32

namespace Nfa

/-- The fragment with handles as numbers. -/
def value (n : Nfa) : PatternAutomata.Nfa where
  toDiagram := n.toDiagram.value
  start := n.start.toNat
  accept := n.accept.toNat

/-- Put the fragment behind a diagram, and give its bounds as they are there. -/
def behind (n : Nfa) (d : Diagram) : Except Fault (UInt32 × UInt32 × Diagram) := do
  let (offset, d) ← d.absorb n.toDiagram
  let start ← add n.start offset
  let accept ← add n.accept offset
  return (start, accept, d)

/-- The two-state fragment that reads one symbol. -/
def symbol (c : Char) : Except Fault Nfa := do
  let (start, accept, d) ← ({} : Diagram).addBounds
  let d ← d.addMove start accept (.symbol c)
  return { toDiagram := d, start, accept }

/-- Read what either fragment reads. -/
def alternate (a b : Nfa) : Except Fault Nfa := do
  let (bStart, bAccept, d) ← b.behind a.toDiagram
  let d := d.unmarkStart a.start |>.unmarkAccept a.accept
    |>.unmarkStart bStart |>.unmarkAccept bAccept
  let (start, accept, d) ← d.addBounds
  let d ← d.addMove start a.start .epsilon
  let d ← d.addMove start bStart .epsilon
  let d ← d.addMove a.accept accept .epsilon
  let d ← d.addMove bAccept accept .epsilon
  return { toDiagram := d, start, accept }

/-- Read what the left fragment reads, then what the right one reads. -/
def concat (a b : Nfa) : Except Fault Nfa := do
  let (bStart, bAccept, d) ← b.behind a.toDiagram
  let d := d.unmarkAccept a.accept |>.unmarkStart bStart
  let d ← d.addMove a.accept bStart .epsilon
  return { toDiagram := d, start := a.start, accept := bAccept }

/-- Read what the fragment reads any number of times. -/
def closure (a : Nfa) : Except Fault Nfa := do
  let d := a.toDiagram.unmarkStart a.start |>.unmarkAccept a.accept
  let (start, accept, d) ← d.addBounds
  let d ← d.addMove start accept .epsilon
  let d ← d.addMove start a.start .epsilon
  let d ← d.addMove a.accept accept .epsilon
  let d ← d.addMove a.accept a.start .epsilon
  return { toDiagram := d, start, accept }

/-- The effect of one token on the stack. Of two operands the one above is the right one. -/
def step : List Nfa → Token → Except Fault (List Nfa)
  | stack, .operand c => (· :: stack) <$> symbol c
  | b :: a :: stack, .operator .alternation => (· :: stack) <$> alternate a b
  | b :: a :: stack, .operator .concatenation => (· :: stack) <$> concat a b
  | a :: stack, .operator .closure => (· :: stack) <$> closure a
  | stack, .operator op => .error (.refused (.missingOperand op stack.length))
  | _, .leftGroup => .error (.refused .leftInPostfix)
  | _, .rightGroup => .error (.refused .rightInPostfix)

/-- The fragment of a postfix sequence. -/
def ofPostfix (p : Postfix) : Except Fault Nfa := do
  let stack ← p.tokens.foldlM step []
  (onlyValue stack).mapError .refused

/-- The fragment of a pattern. -/
def ofPattern (pattern : String) : Except Fault Nfa := do
  let postorder ← (Postfix.ofPattern pattern).mapError .refused
  ofPostfix postorder

/-- The fragments that can be built. -/
inductive Built : Nfa → Prop where
  | symbol {c : Char} {n : Nfa} : symbol c = .ok n → Built n
  | alternate {a b n : Nfa} : Built a → Built b → alternate a b = .ok n → Built n
  | concat {a b n : Nfa} : Built a → Built b → concat a b = .ok n → Built n
  | closure {a n : Nfa} : Built a → closure a = .ok n → Built n
  | ofPostfix {p : Postfix} {n : Nfa} : ofPostfix p = .ok n → Built n

/-- Number the states that can be reached from the start. -/
def numbering (n : Nfa) : Except Fault Numbering := do
  let num ← (Numbering.blank n.states.size).enter n.start
  num.explore n.successors 0

end Nfa

end Compact

end PatternAutomata
