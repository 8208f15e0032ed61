/-
  What the tool answers. The messages of a run are values, in the order in which
  they are written to the error stream; the drawing goes to the output stream.
-/
import PatternAutomata.Regex
import PatternAutomata.Automaton.Dump
import PatternAutomata.Text.Quoted
import PatternAutomata.Tool.Options

namespace PatternAutomata

/-- A token by its name, an operand with its character. -/
def Token.named [Printing] : Token → String
  | operand c => "Operand(" ++ quoteChar c ++ ")"
  | operator .alternation => "Alternation"
  | operator .concatenation => "Concatenation"
  | operator .closure => "Closure"
  | leftGroup => "LeftGroup"
  | rightGroup => "RightGroup"

/-- An error by its kind and wording. -/
def Error.named [Printing] (e : Error) : String :=
  "Error \x7b kind: " ++ e.kind.name ++ ", text: " ++ quoteString e.message ++ " \x7d"

namespace Tool

/-- One message of a run. -/
inductive Message where
  | tokens (ts : List Token)
  | order (p : Postfix)
  | automaton (title : String) (listing : String)
  | verdict (matched : Bool) (input : String)
  | failure (e : Error)
deriving DecidableEq

/-- A message as text, with its line end. -/
def Message.text [Printing] : Message → String
  | tokens ts => "Tokens:\n" ++ " ".intercalate (ts.map Token.named) ++ "\n"
  | order p => "Postfix:\n" ++ p.text ++ "\n"
  | automaton title listing => title ++ ":\n" ++ listing ++ "\n"
  | verdict matched input =>
    (if matched then "Match: " else "No match: ") ++ quoteString input ++ "\n"
  | failure e => "Error: " ++ e.named ++ "\n"

/-- The answer of a run. -/
structure Report where
  status : Nat
  stdout : String
  messages : List Message
deriving DecidableEq

/-- All messages as text. -/
def Report.stderr [Printing] (r : Report) : String := String.join (r.messages.map Message.text)

/-- The automaton that is dumped and matched with, and its title. For the minimized one, which
cannot be had, it is the fragment. -/
def examined (r : Regex) : Output → String × Automaton
  | .dfa => ("DFA", r.dfa.toAutomaton)
  | .nfa | .minDfa => ("NFA", r.nfa.automaton)

/-- The messages on a compiled pattern: the dump, if asked for, and a verdict on each input. -/
def Options.examine (o : Options) (r : Regex) : List Message :=
  let (title, a) := examined r o.output
  (if .dumpAutomaton ∈ o.flags then [.automaton title a.readable] else []) ++
    o.inputs.map fun input => .verdict (a.accepts input.toList) input

/-- The tokens, if asked for. -/
def Options.previewTokens (o : Options) : List Message :=
  if .dumpTokens ∈ o.flags then [.tokens (tokenize o.pattern)] else []

/-- The postfix order, if asked for. A pattern that has none is refused here already. -/
def Options.previewOrder (o : Options) : Except Error (List Message) :=
  if .dumpPostfix ∈ o.flags then do
    let order ← Postfix.ofPattern o.pattern
    return [.order order]
  else return []

/-- The report on a drawing or a failure after some messages. -/
def report (messages : List Message) : Except Error Graph → Report
  | .ok g => { status := 0, stdout := g.dot ++ "\n", messages }
  | .error e => { status := 1, stdout := "", messages := messages ++ [.failure e] }

/-- Compile the pattern and answer all that the options ask for. A run ends with the first error: when
the postfix order is asked for, when compiling, or when drawing. -/
def Options.run (o : Options) : Report :=
  match o.previewOrder with
  | .error e => report o.previewTokens (.error e)
  | .ok order =>
    let preview := o.previewTokens ++ order
    match Regex.ofPattern o.pattern with
    | .error e => report preview (.error e)
    | .ok r => report (preview ++ o.examine r) (r.graph o.output)

end Tool

end PatternAutomata
