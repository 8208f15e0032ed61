/-
  One stack does what scopes do. The stack that a yard stands for (`Yard.stack`) holds the operators of
  the innermost open group, then its mark, then those outside it, and so on. Releasing operators and closing a
  group never reach beyond the first mark, so each step on the stack is the step of the yard (`step_stack`),
  and the marks left in the end are the yard's open groups. The conversions are equal, refusals
  included (`convert_eq_ofTokens`).
-/
import PatternAutomata.Postfix.OperatorStack
import PatternAutomata.Proofs.Conversion

namespace PatternAutomata

namespace Yard

/-- What waits outside the innermost open group, each group's mark before what waits outside it. -/
def outside (scopes : List (List Operator)) : List Token :=
  scopes.flatMap fun scope => .leftGroup :: scope.map .operator

/-- The stack that a yard stands for. -/
def stack (y : Yard) : OperatorStack where
  output := y.output
  waiting := y.pending.map .operator ++ outside y.outer

end Yard

namespace OperatorStack

open Yard (outside)

theorem emit_cons (output : Array Token) (op : Operator) (ops : List Operator) :
    Yard.emit output (op :: ops) = Yard.emit (output.push (.operator op)) ops := by
  apply Array.ext'
  simp [Yard.toList_emit]

/-! ## Loops -/

/-- What waits outside a group is not released from inside it. -/
theorem release_outside (strength : Nat) (output : Array Token) (scopes : List (List Operator)) :
    release strength output (outside scopes) = { output, waiting := outside scopes } := by
  cases scopes with
  | nil => rfl
  | cons scope scopes => rfl

theorem release_append (strength : Nat) (output : Array Token) (ops : List Operator)
    (scopes : List (List Operator)) :
    release strength output (ops.map .operator ++ outside scopes) =
      { output := Yard.emit output (ops.takeWhile (strength ≤ ·.precedence))
        waiting := (ops.dropWhile (strength ≤ ·.precedence)).map .operator ++ outside scopes } := by
  induction ops generalizing output with
  | nil =>
    rw [List.map_nil, List.nil_append, release_outside]
    simp [Yard.emit]
  | cons op ops ih =>
    rw [List.map_cons, List.cons_append]
    by_cases hle : strength ≤ op.precedence
    · rw [release, Token.precedence?]
      simp only [hle, if_true, ih, emit_cons, List.takeWhile_cons, List.dropWhile_cons, decide_true]
    · rw [release, Token.precedence?]
      simp [hle, Yard.emit]

theorem close_append (output : Array Token) (ops : List Operator) (below : List Token) :
    close output (ops.map .operator ++ below) = close (Yard.emit output ops) below := by
  induction ops generalizing output with
  | nil => simp [Yard.emit]
  | cons op ops ih => rw [List.map_cons, List.cons_append, close, ih, emit_cons]; simp

/-! ## Marks -/

theorem count_leftGroup_map (ops : List Operator) : (ops.map Token.operator).count .leftGroup = 0 := by
  rw [List.count_eq_zero]
  simp

theorem count_leftGroup_outside (scopes : List (List Operator)) :
    (outside scopes).count .leftGroup = scopes.length := by
  induction scopes with
  | nil => rfl
  | cons scope scopes ih =>
    have hcons : outside (scope :: scopes) = .leftGroup :: (scope.map .operator ++ outside scopes) := rfl
    rw [hcons, List.count_cons_self, List.count_append, count_leftGroup_map, ih, List.length_cons,
      Nat.zero_add]

theorem count_leftGroup_waiting (y : Yard) :
    y.stack.waiting.count .leftGroup = y.outer.length := by
  have hwaiting : y.stack.waiting = y.pending.map .operator ++ outside y.outer := rfl
  rw [hwaiting, List.count_append, count_leftGroup_map, count_leftGroup_outside, Nat.zero_add]

/-! ## Runs -/

theorem step_stack (y : Yard) (t : Token) : y.stack.step t = (y.step t).map Yard.stack := by
  cases t with
  | operand c => rfl
  | operator op =>
    simp only [step, Yard.stack, release_append, push]
    rfl
  | leftGroup => rfl
  | rightGroup =>
    simp only [step, Yard.stack, close_append, Yard.step]
    cases y.outer with
    | nil => rfl
    | cons scope scopes => rfl

theorem finish_stack (y : Yard) : y.stack.finish = y.finish := by
  unfold finish
  rw [count_leftGroup_waiting]
  unfold Yard.finish
  cases hout : y.outer with
  | nil =>
    have hwaiting : y.stack.waiting = y.pending.map .operator := by
      simp [Yard.stack, hout, outside]
    rw [if_neg (by simp), hwaiting, Yard.toList_emit]
    rfl
  | cons scope scopes => simp

theorem run_stack (y : Yard) (ts : List Token) :
    ts.foldlM step y.stack = (ts.foldlM Yard.step y).map Yard.stack := by
  have hrun := run_map (k := id) step_stack y ts
  rwa [List.map_id] at hrun

/-- With one stack or with scopes, the conversion has the same outcome. -/
theorem convert_eq_ofTokens (ts : List Token) : convert ts = Postfix.ofTokens ts := by
  have hrun : ts.foldlM step {} = (ts.foldlM Yard.step {}).map Yard.stack := run_stack {} ts
  unfold convert Postfix.ofTokens
  rw [hrun]
  cases ts.foldlM Yard.step {} with
  | error e => rfl
  | ok y => exact finish_stack y

end OperatorStack

end PatternAutomata
