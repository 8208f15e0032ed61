/-
  Expression trees: what a pattern says once groups and precedences are
  resolved. `postorder` lists a tree in postfix order, `interpret` gives it its
  value, and the trees themselves are the interpretation that keeps everything.
-/
import PatternAutomata.Postfix.Evaluation

namespace PatternAutomata

/-- An expression over characters. -/
inductive Expr where
  | symbol (c : Char)
  | alternate (a b : Expr)
  | concat (a b : Expr)
  | closure (a : Expr)
deriving DecidableEq

namespace Expr

/-- The tree's tokens, children before their operator and left before right. -/
def postorder : Expr → List Token
  | symbol c => [.operand c]
  | alternate a b => a.postorder ++ b.postorder ++ [.operator .alternation]
  | concat a b => a.postorder ++ b.postorder ++ [.operator .concatenation]
  | closure a => a.postorder ++ [.operator .closure]

/-- The value of a tree. -/
def interpret {α : Type} (I : Interpretation α) : Expr → α
  | symbol c => I.symbol c
  | alternate a b => I.alternate (a.interpret I) (b.interpret I)
  | concat a b => I.concat (a.interpret I) (b.interpret I)
  | closure a => I.closure (a.interpret I)

/-- Trees as values. -/
def trees : Interpretation Expr where
  symbol := symbol
  alternate := alternate
  concat := concat
  closure := closure

theorem interpret_trees (e : Expr) : e.interpret trees = e := by
  induction e with
  | symbol c => rfl
  | alternate a b iha ihb => rw [interpret, iha, ihb]; rfl
  | concat a b iha ihb => rw [interpret, iha, ihb]; rfl
  | closure a ih => rw [interpret, ih]; rfl

end Expr

end PatternAutomata
