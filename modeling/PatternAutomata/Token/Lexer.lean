/-
  From patterns to tokens. A character is one token; between a token that ends
  an atom and one that starts the next, the concatenation that the pattern
  leaves unwritten is put in. Reading tokens never fails.
-/
import PatternAutomata.Token

namespace PatternAutomata

/-- Put a concatenation between each two neighbours, the first ending an atom and the second
starting one. -/
def Token.juxtapose : List Token → List Token
  | s :: t :: ts =>
    if s.endsAtom && t.startsAtom then s :: .operator .concatenation :: juxtapose (t :: ts)
    else s :: juxtapose (t :: ts)
  | ts => ts

/-- The tokens of a pattern. -/
def tokenize (pattern : String) : List Token :=
  Token.juxtapose (pattern.toList.map Token.ofChar)

end PatternAutomata
