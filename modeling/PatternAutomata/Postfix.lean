/-
  Postfix order: every operator after its operands, and no group marks. This
  module holds the sequence and its text; `Postfix.Yard` computes it from the
  order in which a pattern is written.
-/
import PatternAutomata.Token

namespace PatternAutomata

/-- A sequence of tokens meant in postfix order. -/
structure Postfix where
  tokens : List Token
deriving DecidableEq

namespace Postfix

/-- The number of tokens. -/
def size (p : Postfix) : Nat := p.tokens.length

/-- Whether there are no tokens. -/
def isEmpty (p : Postfix) : Bool := p.tokens.isEmpty

/-- The tokens' texts with a blank between each two. -/
def text (p : Postfix) : String := " ".intercalate (p.tokens.map Token.text)

end Postfix

end PatternAutomata
