/-
  A workbench for fragments: a stack, last one first, and commands that build on
  it. A command that finds too few fragments, or a sequence that cannot be
  evaluated, leaves the stack as it was.
-/
import PatternAutomata.Nfa

namespace PatternAutomata

namespace Nfa

/-- What can be done at the workbench. -/
inductive Command where
  | symbol (c : Char)
  | build (p : Postfix)
  | alternate
  | concat
  | closure
  | duplicate
  | swap
  | drop

/-- Why a command is refused. -/
inductive Refusal where
  /-- There are fewer fragments than the command needs. -/
  | tooFew (depth : Nat)
  /-- The sequence cannot be evaluated. -/
  | invalid (e : Error)

/-- The stack after a command. Of two operands the one above is the right one. -/
def Command.run : Command → List Nfa → Except Refusal (List Nfa)
  | .symbol c, stack => .ok (Nfa.symbol c :: stack)
  | .build p, stack =>
    match Nfa.ofPostfix p with
    | .ok n => .ok (n :: stack)
    | .error e => .error (.invalid e)
  | .alternate, b :: a :: stack => .ok (a.alternate b :: stack)
  | .concat, b :: a :: stack => .ok (a.concat b :: stack)
  | .closure, a :: stack => .ok (a.closure :: stack)
  | .duplicate, a :: stack => .ok (a :: a :: stack)
  | .swap, b :: a :: stack => .ok (a :: b :: stack)
  | .drop, _ :: stack => .ok stack
  | _, stack => .error (.tooFew stack.length)

end Nfa

end PatternAutomata
