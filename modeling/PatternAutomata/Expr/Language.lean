/-
  The language of an expression, as a relation: which words it matches. This is
  the meaning that automata are measured against.
-/
import PatternAutomata.Expr

namespace PatternAutomata

/-- The expression matches the word. -/
inductive Expr.Matches : Expr → List Char → Prop where
  | symbol (c : Char) : Matches (.symbol c) [c]
  | left {a : Expr} (b : Expr) {w : List Char} : Matches a w → Matches (.alternate a b) w
  | right (a : Expr) {b : Expr} {w : List Char} : Matches b w → Matches (.alternate a b) w
  | concat {a b : Expr} {u v : List Char} :
    Matches a u → Matches b v → Matches (.concat a b) (u ++ v)
  | none (a : Expr) : Matches (.closure a) []
  | more {a : Expr} {u v : List Char} :
    Matches a u → Matches (.closure a) v → Matches (.closure a) (u ++ v)

end PatternAutomata
