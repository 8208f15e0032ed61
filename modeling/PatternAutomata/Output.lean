/-
  Which automaton is asked for, and the names it can be asked for by.
-/
import PatternAutomata.Error

namespace PatternAutomata

/-- The automaton to describe. -/
inductive Output where
  /-- The fragment as built. -/
  | nfa
  /-- The fragment after subset construction. -/
  | dfa
  /-- The smallest deterministic automaton. It has a name, but there is no minimization. -/
  | minDfa
deriving DecidableEq

namespace Output

/-- The fragment, unless something else is asked for. -/
instance : Inhabited Output := ⟨nfa⟩

/-- The name of an output. -/
def name : Output → String
  | nfa => "nfa"
  | dfa => "dfa"
  | minDfa => "minidfa"

/-- The output with a name: one letter as it stands, or a word in any case (of ASCII letters). -/
def ofName (s : String) : Except Error Output :=
  match s with
  | "N" => .ok nfa
  | "D" => .ok dfa
  | "d" => .ok minDfa
  | _ =>
    match s.map Char.toLower with
    | "nfa" => .ok nfa
    | "dfa" => .ok dfa
    | "minidfa" | "min-dfa" => .ok minDfa
    | _ => .error (.unknownOutput s)

end Output

end PatternAutomata
