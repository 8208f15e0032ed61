/-
  Evaluating postfix order. An `Interpretation` says what symbols and operators
  mean in some type of values; evaluation keeps a stack of values, last one
  first, and must end with one value. The failures do not depend on the
  interpretation.
-/
import PatternAutomata.Error
import PatternAutomata.Postfix

namespace PatternAutomata

/-- The meaning of symbols and operators in a type of values. -/
structure Interpretation (α : Type) where
  symbol : Char → α
  alternate : α → α → α
  concat : α → α → α
  closure : α → α

/-- The effect of one token on the stack. Of two operands the one above is the right one. -/
def Interpretation.step {α : Type} (I : Interpretation α) :
    List α → Token → Except Error (List α)
  | stack, .operand c => .ok (I.symbol c :: stack)
  | b :: a :: stack, .operator .alternation => .ok (I.alternate a b :: stack)
  | b :: a :: stack, .operator .concatenation => .ok (I.concat a b :: stack)
  | a :: stack, .operator .closure => .ok (I.closure a :: stack)
  | stack, .operator op => .error (.missingOperand op stack.length)
  | _, .leftGroup => .error .leftInPostfix
  | _, .rightGroup => .error .rightInPostfix

/-- The one value that must be left on the stack in the end. -/
def onlyValue {α : Type} : List α → Except Error α
  | [] => .error .nothingToBuild
  | [a] => .ok a
  | stack => .error (.leftover stack.length)

/-- The value of a postfix sequence. -/
def Postfix.evaluate {α : Type} (I : Interpretation α) (p : Postfix) : Except Error α := do
  let stack ← p.tokens.foldlM I.step []
  onlyValue stack

end PatternAutomata
