/-
  From written order to postfix order. Operators wait in a yard until an
  operator that binds less tightly, the end of their group or the end of the
  input releases them; operators of equal strength associate to the left. Each
  open group keeps the operators waiting outside it in a scope of their own, so
  nothing inside a group can release them.
-/
import PatternAutomata.Error
import PatternAutomata.Token.Lexer
import PatternAutomata.Postfix

namespace PatternAutomata

/-- The state of the conversion after some of the tokens. -/
structure Yard where
  /-- What is in postfix order already. -/
  output : Array Token := #[]
  /-- The operators waiting in the innermost open group, last one first. -/
  pending : List Operator := []
  /-- The operators waiting outside each open group, innermost group first. -/
  outer : List (List Operator) := []

namespace Yard

/-- Put released operators into the output. -/
def emit (output : Array Token) (ops : List Operator) : Array Token :=
  output ++ ops.map Token.operator

/-- An operator releases those waiting that bind at least as tightly, then waits itself. -/
def await (y : Yard) (op : Operator) : Yard :=
  { y with
    output := emit y.output (y.pending.takeWhile (op.precedence ≤ ·.precedence))
    pending := op :: y.pending.dropWhile (op.precedence ≤ ·.precedence) }

/-- Take in the next token. -/
def step (y : Yard) : Token → Except Error Yard
  | .operand c => .ok { y with output := y.output.push (.operand c) }
  | .operator op => .ok (y.await op)
  | .leftGroup => .ok { y with pending := [], outer := y.pending :: y.outer }
  | .rightGroup =>
    let output := emit y.output y.pending
    match y.outer with
    | [] => .error (.unmatchedRight output.size)
    | scope :: outer => .ok { output, pending := scope, outer }

/-- Release all that waits, if every group is closed. -/
def finish (y : Yard) : Except Error Postfix :=
  match y.outer with
  | [] => .ok ⟨(emit y.output y.pending).toList⟩
  | _ :: _ => .error (.unmatchedLeft y.outer.length)

end Yard

/-- Bring tokens from written order into postfix order. -/
def Postfix.ofTokens (ts : List Token) : Except Error Postfix := do
  let yard ← ts.foldlM Yard.step {}
  yard.finish

/-- The postfix order of a pattern. -/
def Postfix.ofPattern (pattern : String) : Except Error Postfix :=
  Postfix.ofTokens (tokenize pattern)

end PatternAutomata
