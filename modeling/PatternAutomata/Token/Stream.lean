/-
  Tokens one at a time. A stream holds what is left of a pattern and the token that
  it gave last. Where an atom ended and another one starts, it gives the
  concatenation between them first; that takes no character, and as the token given
  last it ends no atom.
-/
import PatternAutomata.Token.Lexer

namespace PatternAutomata

/-- What is left of a pattern, and the token given last, if any. -/
structure TokenStream where
  rest : List Char
  last? : Option Token := none

namespace TokenStream

/-- The stream of a whole pattern. -/
def ofPattern (pattern : String) : TokenStream := { rest := pattern.toList }

/-- Whether a concatenation is due before the next atom. -/
def wantsConcatenation (s : TokenStream) : Bool := s.last?.any Token.endsAtom

/-- The next token, and the stream behind it. -/
def next? (s : TokenStream) : Option (Token × TokenStream) :=
  match s.rest with
  | [] => none
  | c :: rest =>
    let t := Token.ofChar c
    if t.startsAtom && s.wantsConcatenation then
      let due := .operator .concatenation
      some (due, { s with last? := some due })
    else some (t, { rest, last? := some t })

/-- The stream gives the tokens, one after the other, and then ends. -/
inductive Gives : TokenStream → List Token → Prop where
  | done {s : TokenStream} : s.next? = none → Gives s []
  | more {s s' : TokenStream} {t : Token} {ts : List Token} :
    s.next? = some (t, s') → Gives s' ts → Gives s (t :: ts)

end TokenStream

end PatternAutomata
