/-
  Dumps for readers: a listing with a paragraph per state, and a compact one
  with a line per state. Both name states by identifier and list them in that
  order. In the listing every symbol is quoted or written by its code point, so
  that blanks and control characters can be seen and none looks like epsilon.
-/
import PatternAutomata.Automaton.Numbering
import PatternAutomata.Text.CodePoint

namespace PatternAutomata

/-- A label as it is written for readers. -/
def Label.readable : Label → String
  | epsilon => String.singleton Label.epsilon.char
  | symbol ' ' => "'\\s'"
  | symbol '\t' => "'\\t'"
  | symbol '\n' => "'\\n'"
  | symbol '\r' => "'\\r'"
  | symbol c => if isControl c then codePoint c else "'" ++ String.singleton c ++ "'"

/-- The name of a state: its identifier, or its handle behind a hash sign if it has none. -/
def Numbering.name (n : Numbering) (h : Nat) : String :=
  match n.id? h with
  | some id => toString id
  | none => "#" ++ toString h

/-- The marks of a state in the listing. -/
def State.listedMarks (s : State) : String :=
  match s.isStart, s.isAccept with
  | true, true => " (START, ACCEPT)"
  | true, false => " (START)"
  | false, true => " (ACCEPT)"
  | false, false => ""

/-- The marks of a state in the compact dump. -/
def State.compactMarks (s : State) : String :=
  match s.isStart, s.isAccept with
  | true, true => "SA"
  | true, false => "S"
  | false, true => "A"
  | false, false => " "

namespace Automaton

/-- A state's paragraph in the listing. -/
def listedState (a : Automaton) (numbering : Numbering) (h : Nat) : String :=
  let s := a.state h
  "State " ++ numbering.name h ++ s.listedMarks ++ "\n" ++
    (if s.outgoing.isEmpty then "  (no transitions)\n" else "") ++
    String.join ((a.movesFrom h).map fun m =>
      "    " ++ m.label.readable ++ " ──> " ++ numbering.name m.target ++ "\n") ++
    "\n"

/-- The listing. -/
def readable (a : Automaton) : String :=
  let numbering := a.numbering
  "States:\n=======\n\n" ++ String.join (numbering.order.map (a.listedState numbering)) ++
    "Alphabet: \x7b" ++ String.ofList a.alphabet ++ "\x7d\n"

/-- A state's line in the compact dump, after the line end of the line before. -/
def compactState (a : Automaton) (numbering : Numbering) (h : Nat) : String :=
  "\n[" ++ (a.state h).compactMarks ++ numbering.name h ++ "]" ++
    String.join ((a.movesFrom h).map fun m =>
      " " ++ String.singleton m.label.char ++ "→" ++ numbering.name m.target)

/-- The compact dump. -/
def compact (a : Automaton) : String :=
  let numbering := a.numbering
  "FA(" ++ toString numbering.size ++ " states)" ++
    String.join (numbering.order.map (a.compactState numbering))

end Automaton

end PatternAutomata
