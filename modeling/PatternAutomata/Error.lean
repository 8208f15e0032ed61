/-
  Why a pattern or a request is refused. An `Error` is a cause with what is
  known about it; its kind and its wording are functions of the cause.
-/
import PatternAutomata.Token

namespace PatternAutomata

/-- The five families of causes. -/
inductive ErrorKind where
  | unmatchedRightGroup
  | unmatchedLeftGroup
  | missingOperand
  | unbalancedExpression
  | unsupported
deriving DecidableEq

/-- The name under which a family is reported. -/
def ErrorKind.name : ErrorKind → String
  | unmatchedRightGroup => "UnmatchedRightGroup"
  | unmatchedLeftGroup => "UnmatchedLeftGroup"
  | missingOperand => "MissingOperand"
  | unbalancedExpression => "UnbalancedExpression"
  | unsupported => "Unsupported"

/-- A cause of refusal. -/
inductive Error where
  /-- A group is closed that was never opened, when so many tokens were in postfix order. -/
  | unmatchedRight (emitted : Nat)
  /-- So many groups are never closed. -/
  | unmatchedLeft (opened : Nat)
  /-- A group is opened inside a postfix sequence. -/
  | leftInPostfix
  /-- A group is closed inside a postfix sequence. -/
  | rightInPostfix
  /-- An operator finds only `depth` operands before it. -/
  | missingOperand (op : Operator) (depth : Nat)
  /-- So many operands, two or more, are never joined. -/
  | leftover (count : Nat)
  /-- There is no operand at all. -/
  | nothingToBuild
  /-- No output has this name. -/
  | unknownOutput (name : String)
  /-- Minimized automata can be asked for, but there are none. -/
  | noMinimization
deriving DecidableEq

namespace Error

/-- The family of a cause. -/
def kind : Error → ErrorKind
  | unmatchedRight _ | rightInPostfix => .unmatchedRightGroup
  | unmatchedLeft _ | leftInPostfix => .unmatchedLeftGroup
  | missingOperand _ _ => .missingOperand
  | leftover _ | nothingToBuild => .unbalancedExpression
  | unknownOutput _ | noMinimization => .unsupported

/-- The wording of a cause. -/
def message : Error → String
  | unmatchedRight emitted => "Unmatched ')' after " ++ toString emitted ++ " tokens"
  | unmatchedLeft opened => "Unmatched '(': " ++ toString opened ++ " group(s) left open"
  | leftInPostfix => "Unexpected '(' in postfix sequence"
  | rightInPostfix => "Unexpected ')' in postfix sequence"
  | missingOperand op depth =>
    "Missing operand for " ++ op.describe ++ ": needs " ++ toString op.arity ++
      ", stack depth " ++ toString depth
  | leftover count =>
    "Unbalanced expression: " ++ toString count ++ " automata left without an operator"
  | nothingToBuild => "Unbalanced expression: nothing to build"
  | unknownOutput name => "Unknown output '" ++ name ++ "', expected nfa, dfa or minidfa"
  | noMinimization => "Minimized DFA output is not implemented"

theorem message_unmatchedLeft (opened : Nat) : (unmatchedLeft opened).message =
    "Unmatched '(': " ++ toString opened ++ " group(s) left open" := rfl

theorem message_nothingToBuild :
    nothingToBuild.message = "Unbalanced expression: nothing to build" := rfl

end Error

end PatternAutomata
