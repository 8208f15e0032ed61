/-
  The grammar of patterns. Both binary operators are left recursive, a closure
  follows what it repeats, and a group leaves nothing in the tree:

    expr   ::= expr '|' term | term
    term   ::= term factor | factor
    factor ::= factor '*' | atom
    atom   ::= symbol | '(' expr ')'
-/
import PatternAutomata.Expr

namespace PatternAutomata

namespace Grammar

/-- The four nonterminals, loosest first. -/
inductive Level where
  | expr
  | term
  | factor
  | atom
deriving DecidableEq

/-- The characters derive from the nonterminal, with the tree. -/
inductive Derives : Level → List Char → Expr → Prop where
  | alternate {p q : List Char} {a b : Expr} :
    Derives .expr p a → Derives .term q b → Derives .expr (p ++ '|' :: q) (.alternate a b)
  | ofTerm {p : List Char} {e : Expr} : Derives .term p e → Derives .expr p e
  | concat {p q : List Char} {a b : Expr} :
    Derives .term p a → Derives .factor q b → Derives .term (p ++ q) (.concat a b)
  | ofFactor {p : List Char} {e : Expr} : Derives .factor p e → Derives .term p e
  | closure {p : List Char} {e : Expr} :
    Derives .factor p e → Derives .factor (p ++ ['*']) (.closure e)
  | ofAtom {p : List Char} {e : Expr} : Derives .atom p e → Derives .factor p e
  | symbol {c : Char} : ¬ Reserved c → Derives .atom [c] (.symbol c)
  | group {p : List Char} {e : Expr} : Derives .expr p e → Derives .atom ('(' :: p ++ [')']) e

end Grammar

end PatternAutomata
