/-
  The conversion to postfix order on one stack. Operators wait on it, and so do
  the marks of open groups. What an operator releases ends at the first one that
  binds less tightly, or at a mark, which has no binding strength; the end of a
  group releases all down to its mark. The marks left in the end are the groups
  left open. `Postfix.Yard` keeps each open group's operators apart instead; the
  outcome is the same.
-/
import PatternAutomata.Postfix.Yard

namespace PatternAutomata

/-- The state of the conversion with one stack. -/
structure OperatorStack where
  /-- What is in postfix order already. -/
  output : Array Token := #[]
  /-- Operators and marks of open groups, last one first. -/
  waiting : List Token := []

namespace OperatorStack

/-- Pop to the output what binds at least as tightly. -/
def release (strength : Nat) (output : Array Token) : List Token → OperatorStack
  | [] => { output }
  | top :: below =>
    match top.precedence? with
    | some topStrength =>
      if strength ≤ topStrength then release strength (output.push top) below
      else { output, waiting := top :: below }
    | none => { output, waiting := top :: below }

/-- Pop to the output down to the mark of the innermost open group, and drop the mark. -/
def close (output : Array Token) : List Token → Except Error OperatorStack
  | [] => .error (.unmatchedRight output.size)
  | .leftGroup :: below => .ok { output, waiting := below }
  | top :: below => close (output.push top) below

/-- Push a token. -/
def push (s : OperatorStack) (t : Token) : OperatorStack := { s with waiting := t :: s.waiting }

/-- Take in the next token. -/
def step (s : OperatorStack) : Token → Except Error OperatorStack
  | .operand c => .ok { s with output := s.output.push (.operand c) }
  | .leftGroup => .ok (s.push .leftGroup)
  | .rightGroup => close s.output s.waiting
  | .operator op => .ok ((release op.precedence s.output s.waiting).push (.operator op))

/-- Pop all that waits, if no mark is among it. -/
def finish (s : OperatorStack) : Except Error Postfix :=
  let opened := s.waiting.count .leftGroup
  if 0 < opened then .error (.unmatchedLeft opened) else .ok ⟨s.output.toList ++ s.waiting⟩

/-- Bring tokens from written order into postfix order. -/
def convert (ts : List Token) : Except Error Postfix := do
  let s ← ts.foldlM step {}
  s.finish

end OperatorStack

end PatternAutomata
